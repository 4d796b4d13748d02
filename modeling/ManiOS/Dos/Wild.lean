import ManiOS.Dos.Paths

/-!
# Wildcards

Two matchers for names with `*` and `?`.  `dos_match` of `dosrun` is a loop that
remembers the last star and where the name stood when it came to it.  `match_here`
of ManiDOS tries every rest of the name by calling itself.

Both say whether the name can be had from the pattern (`wildcards_agree`).  For the
loop this needs that an older star is never wanted again: what stands between two
stars has one length, so an earlier start of the later star is as good as a later
one (`Matches.drop_segment`).
-/

namespace ManiOS.Dos.Wild

open ManiOS.Dos.Paths List

def star : UInt8 := 42
def question : UInt8 := 63
/-- The pattern `*.*`. -/
def starDotStar : CStr := [star, 46, star]

/-- The byte `a` of a pattern, other than a star, takes the byte `c` of a name. -/
def takes (a c : UInt8) : Prop := a = question ∨ toUpper a = toUpper c

instance (a c : UInt8) : Decidable (takes a c) := inferInstanceAs (Decidable (_ ∨ _))

/-- The name is the pattern with some string for each star, some byte for each
question mark, and the rest but for its case. -/
inductive Matches : CStr → CStr → Prop
  | nil : Matches [] []
  | many (w : CStr) {p n : CStr} : Matches p n → Matches (star :: p) (w ++ n)
  | one {a c : UInt8} {p n : CStr} : a ≠ star → takes a c → Matches p n →
      Matches (a :: p) (c :: n)

/-! ## The matchers -/

/-- The loop of `dos_match`.  `last` is the pattern after the last star, and the name
from `retry` on.  The end of the pattern takes nothing. -/
def matchLoop (last : Option (CStr × CStr)) (pattern : CStr) : CStr → Bool
  | [] => (pattern.dropWhile (· = star)).isEmpty
  | c :: name =>
    if pattern.head?.any (takes · c) then matchLoop last pattern.tail name
    else if _h : pattern.head? = some star then
      matchLoop (some (pattern.tail, c :: name)) pattern.tail (c :: name)
    else
      match last with
      | some (q, _ :: retry) => matchLoop (some (q, retry)) q retry
      | _ => false
termination_by name => (max pattern.length (last.elim 0 (·.1.length)),
  last.elim 0 (·.2.length), name.length)
decreasing_by
  all_goals simp [Prod.lex_def]
  · omega
  · cases pattern with
    | nil => simp at _h
    | cons a p => simp only [length_cons]; omega
  · omega

def dosMatch (pattern name : CStr) : Bool :=
  matchLoop none (if pattern = starDotStar then [star] else pattern) name

/-- The loop of `match_here` at a star: `f` at the name and at each rest of it. -/
def tryFrom (f : CStr → Bool) : CStr → Bool
  | [] => f []
  | c :: name => f (c :: name) || tryFrom f name

def matchHere : CStr → CStr → Bool
  | [], n => n.isEmpty
  | a :: p, n =>
    if a = star then tryFrom (matchHere p) n
    else
      match n with
      | [] => false
      | c :: n => if takes a c then matchHere p n else false

/-! ## What the patterns mean -/

variable {p q n : CStr} {a c : UInt8}

theorem matches_nil : Matches [] n ↔ n = [] := by
  constructor
  · intro h
    cases h
    rfl
  · rintro rfl
    exact .nil

theorem matches_star : Matches (star :: p) n ↔ ∃ r, r <:+ n ∧ Matches p r := by
  constructor
  · intro h
    cases h with
    | many w h => exact ⟨_, suffix_append w _, h⟩
    | one h => exact absurd rfl h
  · rintro ⟨r, ⟨w, rfl⟩, h⟩
    exact .many w h

theorem matches_one (ha : a ≠ star) :
    Matches (a :: p) n ↔ ∃ c r, n = c :: r ∧ takes a c ∧ Matches p r := by
  constructor
  · intro h
    cases h with
    | many => exact absurd rfl ha
    | one _ ht h => exact ⟨_, _, rfl, ht, h⟩
  · rintro ⟨c, r, rfl, ht, h⟩
    exact .one ha ht h

theorem matches_star_cons :
    Matches (star :: p) (c :: n) ↔ Matches p (c :: n) ∨ Matches (star :: p) n := by
  simp only [matches_star, suffix_cons_iff, or_and_right, exists_or, exists_eq_left]

theorem matches_end : Matches p [] ↔ p.dropWhile (· = star) = [] := by
  induction p with
  | nil => simp [matches_nil]
  | cons a p ih =>
    by_cases ha : a = star
    · subst ha
      simp [matches_star, ih]
    · simp [matches_one ha, ha]

/-- A part without a star takes as many bytes as it has. -/
theorem Matches.drop_segment {u : CStr} (hu : star ∉ u) (h : Matches (u ++ p) n) :
    u.length ≤ n.length ∧ Matches p (n.drop u.length) := by
  induction u generalizing n with
  | nil => simpa using h
  | cons a u ih =>
    rw [mem_cons, not_or] at hu
    obtain ⟨c, r, rfl, -, h⟩ := (matches_one (.symm hu.1)).mp h
    simpa using ih hu.2 h

theorem matchHere_iff : matchHere p n = true ↔ Matches p n := by
  induction p generalizing n with
  | nil => simp [matchHere, matches_nil]
  | cons a p ih =>
    by_cases ha : a = star
    · subst ha
      -- the loop at the star, over the rest of the name
      have loop : ∀ n, tryFrom (matchHere p) n = true ↔ Matches (star :: p) n := by
        intro n
        induction n with
        | nil => simp [tryFrom, ih, matches_star]
        | cons c n ihn => simp [tryFrom, ih, ihn, matches_star_cons]
      cases n <;> simp [matchHere, loop]
    · cases n <;> simp [matchHere, matches_one ha, ha, ih]

/-! ## The loop that remembers one star -/

/-- What stands between the last star and where the loop is: a part of the pattern
without a star, and as many bytes of the name. -/
structure Between (q r p n : CStr) : Prop where
  part : ∃ u v, q = u ++ p ∧ r = v ++ n ∧ star ∉ u ∧ u.length = v.length
  plain : star ∉ r

theorem Between.start (hn : star ∉ n) : Between p n p n :=
  ⟨⟨[], [], rfl, rfl, not_mem_nil, rfl⟩, hn⟩

theorem Between.next {r : CStr} (h : Between q r (a :: p) (c :: n)) (ha : a ≠ star) :
    Between q r p n := by
  obtain ⟨u, v, rfl, rfl, hu, hl⟩ := h.part
  exact ⟨⟨u ++ [a], v ++ [c], by simp, by simp, by simp [hu, Ne.symm ha], by simp [hl]⟩, h.plain⟩

/-- A match from a later start of the last star leaves a shorter rest for `p`. -/
theorem Between.later {r : CStr} (h : Between q (c :: r) p n) (hm : Matches (star :: q) r) :
    ∃ s, s <:+ n ∧ s.length < n.length ∧ Matches p s := by
  obtain ⟨u, v, rfl, hv, hu, hl⟩ := h.part
  obtain ⟨s, hs, hm⟩ := matches_star.mp hm
  obtain ⟨hle, hm⟩ := hm.drop_segment hu
  have hlen : (s.drop u.length).length < n.length := by
    have := congrArg length hv
    have := hs.length_le
    simp only [length_cons, length_append, length_drop] at *
    omega
  have hsuf : s.drop u.length <:+ v ++ n :=
    hv ▸ ((drop_suffix _ _).trans hs).trans (suffix_cons _ _)
  exact ⟨_, suffix_of_suffix_length_le hsuf (suffix_append v n) (Nat.le_of_lt hlen), hlen, hm⟩

/-- The name matches from a later start of the last star. -/
def Again (last : Option (CStr × CStr)) : Prop :=
  ∃ q b r, last = some (q, b :: r) ∧ Matches (star :: q) r

theorem or_again : Matches q n ∨ Again (some (q, n)) ↔ Matches (star :: q) n := by
  cases n with
  | nil => simp [Again, matches_star]
  | cons c n => simp [Again, matches_star_cons]

theorem not_takes_star (hc : c ≠ star) : ¬takes star c := by
  unfold takes toUpper isLower
  simp only [star, question] at *
  grind

/-- Where the pattern neither takes the byte nor has a star there is no match. -/
theorem not_matches (ht : ¬p.head?.any (takes · c) = true) (hp : p.head? ≠ some star) :
    ¬Matches p (c :: n) := by
  cases p with
  | nil => simp [matches_nil]
  | cons a p =>
    have ha : a ≠ star := by simpa using hp
    simp_all [matches_one ha]

theorem matchLoop_iff {last : Option (CStr × CStr)} (hn : star ∉ n)
    (hb : ∀ q r, last = some (q, r) → Between q r p n) :
    matchLoop last p n = true ↔ Matches p n ∨ Again last := by
  fun_induction matchLoop last p n with
  | case1 last p =>
    have : ¬Again last := by
      rintro ⟨q, b, r, rfl, hm⟩
      obtain ⟨s, -, hs, -⟩ := (hb q _ rfl).later hm
      simp at hs
    simp [matches_end, this]
  | case2 last p c n ht ih =>
    rw [mem_cons, not_or] at hn
    cases p with
    | nil => simp at ht
    | cons a p =>
      have ht : takes a c := by simpa using ht
      have ha : a ≠ star := by
        rintro rfl
        exact not_takes_star (.symm hn.1) ht
      rw [ih hn.2 fun q r hl => (hb q r hl).next ha]
      simp [matches_one ha, ht]
  | case3 last p c n ht hp ih =>
    cases p with
    | nil => simp at hp
    | cons a p =>
      obtain rfl : a = star := by simpa using hp
      rw [ih hn (by rintro _ _ ⟨⟩; exact .start hn), or_again]
      -- the older star has no match that the newer one has not
      refine ⟨.inl, fun h => h.elim id ?_⟩
      rintro ⟨q, b, r, rfl, hm⟩
      obtain ⟨s, hs, -, hm⟩ := (hb q _ rfl).later hm
      obtain ⟨s', hs', hm⟩ := matches_star.mp hm
      exact matches_star.mpr ⟨s', hs'.trans hs, hm⟩
  | case4 p c n ht hp q b r ih =>
    have hr : star ∉ r := fun h => (hb q _ rfl).plain (mem_cons_of_mem b h)
    rw [ih hr (by rintro _ _ ⟨⟩; exact .start hr), or_again]
    simp [not_matches ht hp, Again]
  | case5 last p c n ht hp hl =>
    have : ¬Again last := by
      rintro ⟨q, b, r, rfl, -⟩
      exact hl q b r rfl
    simp [not_matches ht hp, this]

/-- The two matchers agree with the meaning of the pattern. -/
theorem wildcards_agree (pattern name : CStr) (hp : pattern ≠ starDotStar) (hn : star ∉ name) :
    (dosMatch pattern name = true ↔ Matches pattern name) ∧
      (matchHere pattern name = true ↔ Matches pattern name) := by
  refine ⟨?_, matchHere_iff⟩
  rw [dosMatch, if_neg hp, matchLoop_iff hn (by simp)]
  simp [Again]

/-- The pattern `A*B?C` and the name `aabxbdc`. -/
theorem wildcards_agree_backtrack :
    dosMatch [65, 42, 66, 63, 67] [97, 97, 98, 120, 98, 100, 99] = true ∧
      matchHere [65, 42, 66, 63, 67] [97, 97, 98, 120, 98, 100, 99] = true := by
  have h := wildcards_agree [65, 42, 66, 63, 67] [97, 97, 98, 120, 98, 100, 99]
    (by decide) (by decide)
  have hm := h.2.mp (by decide)
  exact ⟨h.1.mpr hm, h.2.mpr hm⟩

end ManiOS.Dos.Wild

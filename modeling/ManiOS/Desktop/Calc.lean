import Mathlib.Data.List.DropRight
import Mathlib.Tactic.Linarith
import Mathlib.Tactic.Ring

/-!
# The calculator's percentages

`src/desktop/apps/calc.c` has numbers with six decimals, scaled by a million.  `percent` is a
hundredth of the product of the accumulator and what is typed, and that product is limited as
every number is.  So it refuses percentages that are far within the limit (`percent_right`).
-/

namespace ManiOS.Calc

open List
open Nat (ofDigitChars toDigits)

def scale : Nat := 1000000

def limit : Nat := 100000000000 * scale - 1

def fracDigits : Nat := 6

inductive Op where
  | add
  | sub
  | mul
  | div
deriving DecidableEq

structure State where
  acc : Int
  op : Option Op
  entry : List Char
  typing : Bool
  shown : Int
  error : Option String

/-- The product, in 64 bits. -/
def mul (a b : Int) : Option Int :=
  let negative := decide (a < 0) != decide (b < 0)
  let ai := a.natAbs / scale
  let af := a.natAbs % scale
  let bi := b.natAbs / scale
  let bf := b.natAbs % scale
  if ai ≠ 0 ∧ bi ≠ 0 ∧ ai > limit / scale / bi then none
  else
    let r := (ai * bi * scale + ai * bf + af * bi + (af * bf + scale / 2) / scale) % 2 ^ 64
    if r > limit then none else some (if negative then -r else r)

/-- `format` into `size` bytes. -/
def format (v : Int) (size : Nat) : List Char :=
  let u := v.natAbs
  let text := (if v < 0 then ['-'] else []) ++ toDigits 10 (u / scale)
  let frac := toDigits 10 (u % scale)
  (if u % scale ≠ 0 then
      (text ++ '.' :: (replicate (fracDigits - frac.length) '0' ++ frac)).rdropWhile (· = '0')
    else text).take (size - 1)

/-- The loop of `parse` after the point. -/
def parseFrac : Nat → List Char → Nat
  | 0, _ | _, [] => 0
  | s + 1, c :: l => if c.isDigit then (c.toNat - 48) * (s + 1) + parseFrac ((s + 1) / 10) l else 0

/-- The decimals, if there is a point. -/
def fracPart : List Char → Nat
  | '.' :: s => parseFrac (scale / 10) s
  | _ => 0

def parse (s : List Char) : Int :=
  let negative := s.head? = some '-'
  let s := if negative then s.tail else s
  let whole : Nat :=
    (s.takeWhile Char.isDigit).foldl (fun whole c => whole * 10 + (c.toNat - 48)) 0
  let v := whole * scale + fracPart (s.dropWhile Char.isDigit)
  if negative then -(v : Int) else v

def clear : State := ⟨0, none, [], false, 0, none⟩

def current (c : State) : Int := if c.typing then parse c.entry else c.shown

def fail (why : String) : State := { clear with error := why }

/-- The end of `percent`. -/
def State.display (c : State) (r : Int) : State :=
  { c with shown := r, entry := format r 24, typing := true }

def percent (c : State) : State :=
  let v := current c
  if c.op = some .add ∨ c.op = some .sub then
    match mul c.acc v with
    | none => fail "Overflow"
    | some r => c.display (r.tdiv 100)
  else c.display (v.tdiv 100)

/-- What the key is for: it refuses what is out of the limit, and shows the percentage to
within a millionth, as a text that reads as it. -/
def Right (c : State) : Prop :=
  ((percent c).error = some "Overflow" → 100 * scale * limit < (c.acc * current c).natAbs) ∧
    ((percent c).error ≠ some "Overflow" → (percent c).error = none ∧ (percent c).typing = true ∧
      parse (percent c).entry = (percent c).shown ∧
      (100 * scale * (percent c).shown - c.acc * current c).natAbs ≤ 100 * scale)

/-! ## What a text reads as -/

theorem parseFrac_zeros (s n : Nat) (l : List Char) :
    parseFrac s (l ++ replicate n '0') = parseFrac s l := by
  induction l generalizing s with
  | nil =>
    have hnil : ∀ s, parseFrac s [] = 0 := fun s => by cases s <;> rfl
    rw [nil_append, hnil]
    induction n generalizing s with
    | zero => exact hnil s
    | succ n ih => cases s <;> simp [parseFrac, replicate_succ, ih]
  | cons c l ih => cases s <;> simp [parseFrac, ih]

theorem parseFrac_digits (l : List Char) (hl : ∀ c ∈ l, c.isDigit = true) :
    parseFrac (10 ^ l.length / 10) l = ofDigitChars 10 l 0 := by
  induction l with
  | nil => rfl
  | cons c l ih =>
    obtain ⟨hc, hl⟩ := forall_mem_cons.mp hl
    obtain ⟨s, hs⟩ := Nat.exists_eq_add_one_of_ne_zero (pow_ne_zero l.length (by decide : 10 ≠ 0))
    rw [length_cons, pow_succ, Nat.mul_div_cancel _ (by decide), Nat.ofDigitChars_cons,
      Nat.ofDigitChars_eq_ofDigitChars_zero, ← ih hl, hs, parseFrac, if_pos hc, mul_comm]
    simp

/-- The last zeros of the decimals are left out. -/
theorem rdropWhile_zeros (l d : List Char) : ∃ t n, d = t ++ replicate n '0' ∧
    (l ++ '.' :: d).rdropWhile (· = '0') = l ++ '.' :: t := by
  induction d using reverseRecOn with
  | nil => exact ⟨[], 0, rfl, by simp⟩
  | append_singleton d c ih =>
    rw [← cons_append, ← append_assoc]
    by_cases hc : c = '0'
    · obtain ⟨t, n, rfl, ht⟩ := ih
      refine ⟨t, n + 1, by simp [hc, replicate_succ'], ?_⟩
      rw [← ht, rdropWhile_concat_pos _ _ _ (by simpa using hc)]
    · exact ⟨d ++ [c], 0, by simp, by simp [hc]⟩

/-- A number reads as its whole part and its decimals. -/
theorem parse_digits (negative : Bool) (n : Nat) {rest : List Char}
    (hrest : rest.takeWhile Char.isDigit = []) :
    parse ((if negative then ['-'] else []) ++ toDigits 10 n ++ rest) =
      (if negative then -1 else 1) * ((n * scale + fracPart rest : Nat) : Int) := by
  have hdigit : ∀ c ∈ toDigits 10 n, c.isDigit = true := fun c hc =>
    Nat.isDigit_of_mem_toDigits (by decide) (by decide) hc
  have hfold : (toDigits 10 n).foldl (fun whole c => whole * 10 + (c.toNat - 48)) 0 = n := by
    refine Eq.trans ?_ (Nat.ofDigitChars_ten_toDigits (n := n))
    simp only [Nat.ofDigitChars_eq_foldl, mul_comm]
    rfl
  have hwhole : (toDigits 10 n ++ rest).takeWhile Char.isDigit = toDigits 10 n := by
    rw [takeWhile_append_of_pos hdigit, hrest, append_nil]
  have hfrac : (toDigits 10 n ++ rest).dropWhile Char.isDigit = rest := by
    rw [dropWhile_append_of_pos hdigit]
    simpa [hrest] using takeWhile_append_dropWhile (p := Char.isDigit) (l := rest)
  have hhead : (toDigits 10 n).head? ≠ some '-' := by
    intro hminus
    cases hdigit _ (mem_of_mem_head? hminus)
  rw [append_assoc]
  cases negative <;> simp [parse, hhead, hwhole, hfold, hfrac]

/-- What is written reads as the number. -/
theorem parse_format {r : Int} (hr : r.natAbs ≤ limit) : parse (format r 24) = r := by
  have hlen : (toDigits 10 (r.natAbs / scale)).length ≤ 11 := by
    rw [Nat.length_toDigits_le_iff (by decide) (by decide)]
    simp only [limit, scale] at *
    omega
  have hsix : (toDigits 10 (r.natAbs % scale)).length ≤ 6 := by
    rw [Nat.length_toDigits_le_iff (by decide) (by decide)]
    exact Nat.mod_lt _ (by decide)
  -- the text, with decimals that read as those of the number
  obtain ⟨rest, hrest, hfrac, hlen', htext⟩ : ∃ rest : List Char,
      rest.takeWhile Char.isDigit = [] ∧ fracPart rest = r.natAbs % scale ∧ rest.length ≤ 7 ∧
      format r 24 =
        ((if r < 0 then ['-'] else []) ++ toDigits 10 (r.natAbs / scale) ++ rest).take 23 := by
    unfold format
    dsimp only
    split
    next hne =>
      generalize hd : replicate (fracDigits - (toDigits 10 (r.natAbs % scale)).length) '0' ++
        toDigits 10 (r.natAbs % scale) = d
      have hdlen : d.length = 6 := by
        rw [← hd]
        simp [fracDigits, hsix]
      have hvalue : parseFrac (10 ^ d.length / 10) d = r.natAbs % scale := by
        rw [parseFrac_digits, ← hd, Nat.ofDigitChars_append, Nat.ofDigitChars_replicate_zero, mul_zero,
          Nat.ofDigitChars_ten_toDigits]
        simp only [← hd, mem_append, mem_replicate]
        rintro c (⟨-, rfl⟩ | hc)
        · rfl
        · exact Nat.isDigit_of_mem_toDigits (by decide) (by decide) hc
      obtain ⟨t, k, hdt, ht⟩ := rdropWhile_zeros
        ((if r < 0 then ['-'] else []) ++ toDigits 10 (r.natAbs / scale)) d
      rw [hdlen, hdt, parseFrac_zeros] at hvalue
      refine ⟨'.' :: t, rfl, hvalue, ?_, by rw [ht]⟩
      rw [hdt, length_append] at hdlen
      simp only [length_cons]
      omega
    next heq => exact ⟨[], rfl, (not_not.mp heq).symm, Nat.zero_le _, by rw [append_nil]⟩
  have hread := parse_digits (decide (r < 0)) (r.natAbs / scale) hrest
  rw [hfrac, Nat.div_add_mod'] at hread
  rw [htext, take_of_length_le]
  · simp only [decide_eq_true_eq] at hread
    rw [hread]
    split <;> omega
  · simp only [length_append]
    split <;> simp <;> omega

/-! ## The percentage -/

/-- The parts of the product are the product, rounded. -/
theorem parts_eq (x y : Nat) :
    x / scale * (y / scale) * scale + x / scale * (y % scale) + x % scale * (y / scale)
      + (x % scale * (y % scale) + scale / 2) / scale = (x * y + scale / 2) / scale := by
  have hxy : x * y + scale / 2 = x % scale * (y % scale) + scale / 2 + scale *
      (x / scale * (y / scale) * scale + x / scale * (y % scale) + x % scale * (y / scale)) := by
    conv_lhs => rw [← Nat.div_add_mod x scale, ← Nat.div_add_mod y scale]
    ring
  rw [hxy, Nat.add_mul_div_left _ _ (by decide), add_comm]

/-- Once the whole parts' product is in the limit, 64 bits are enough. -/
theorem parts_lt {x y : Nat} (hx : x ≤ limit) (hy : y ≤ limit)
    (hxy : x / scale * (y / scale) ≤ limit / scale) : (x * y + scale / 2) / scale < 2 ^ 64 := by
  have hdiv : ∀ {n}, n ≤ limit → n / scale ≤ limit / scale := Nat.div_le_div_right
  have hmod : ∀ n, n % scale ≤ scale := fun n => (Nat.mod_lt n (by decide)).le
  have h1 := Nat.mul_le_mul (hdiv hx) (hmod y)
  have h2 := Nat.mul_le_mul (hmod x) (hdiv hy)
  have h3 := Nat.mul_le_mul (hmod x) (hmod y)
  rw [← parts_eq]
  simp only [limit, scale] at *
  omega

theorem mul_eq {a b : Int} (ha : a.natAbs ≤ limit) (hb : b.natAbs ≤ limit) {r : Nat}
    (hr : r = ((a * b).natAbs + scale / 2) / scale) :
    mul a b = if r ≤ limit then some (if decide (a < 0) != decide (b < 0) then -(r : Int) else r)
      else none := by
  rw [Int.natAbs_mul] at hr
  have hp := parts_eq a.natAbs b.natAbs
  rw [← hr] at hp
  simp only [mul, hp]
  by_cases hbig : a.natAbs / scale * (b.natAbs / scale) ≤ limit / scale
  · have hsmall : ¬ (a.natAbs / scale ≠ 0 ∧ b.natAbs / scale ≠ 0 ∧
        a.natAbs / scale > limit / scale / (b.natAbs / scale)) := by
      rintro ⟨-, hb0, hlt⟩
      have := (Nat.div_lt_iff_lt_mul (Nat.pos_of_ne_zero hb0)).mp hlt
      omega
    rw [if_neg hsmall, Nat.mod_eq_of_lt (hr ▸ parts_lt ha hb hbig)]
    simp only [gt_iff_lt, ← not_le, ite_not]
  · have h0 : a.natAbs / scale ≠ 0 ∧ b.natAbs / scale ≠ 0 := by
      constructor <;> intro h <;> simp [h] at hbig
    have hover : ¬ r ≤ limit := by
      simp only [limit, scale] at *
      omega
    have hlt := (Nat.div_lt_iff_lt_mul (Nat.pos_of_ne_zero h0.2)).mpr (not_le.mp hbig)
    rw [if_pos ⟨h0.1, h0.2, hlt⟩, if_neg hover]

theorem sign_mul (a b : Int) : a * b =
    if decide (a < 0) != decide (b < 0) then -((a * b).natAbs : Int) else (a * b).natAbs := by
  rcases lt_or_ge a 0 with ha | ha <;> rcases lt_or_ge b 0 with hb | hb
  · simp [ha, hb, abs_of_pos (mul_pos_of_neg_of_neg ha hb)]
  · simp [ha, hb, abs_of_nonpos (mul_nonpos_of_nonpos_of_nonneg ha.le hb)]
  · simp [ha, hb, abs_of_nonpos (mul_nonpos_of_nonneg_of_nonpos ha hb.le)]
  · simp [not_lt.mpr ha, not_lt.mpr hb, abs_of_nonneg (mul_nonneg ha hb)]

/-- The percentage is right if the product, rounded, is within the limit, or if the percentage
itself is not. -/
theorem percent_right {c : State} (hop : c.op = some .add ∨ c.op = some .sub)
    (herr : c.error = none) (ha : c.acc.natAbs ≤ limit) (hp : (current c).natAbs ≤ limit) :
    Right c ↔ ((c.acc * current c).natAbs + scale / 2) / scale ≤ limit ∨
      100 * scale * limit < (c.acc * current c).natAbs := by
  have hmul := mul_eq ha hp rfl
  by_cases hfit : ((c.acc * current c).natAbs + scale / 2) / scale ≤ limit
  · rw [if_pos hfit] at hmul
    obtain ⟨q, hq⟩ : ∃ q, mul c.acc (current c) = some q := ⟨_, hmul⟩
    have hvalue := Option.some.inj (hq.symm.trans hmul)
    have hshow : percent c = c.display (q.tdiv 100) := by simp only [percent, if_pos hop, hq]
    rw [Right, hshow]
    refine iff_of_true ⟨?_, fun _ => ⟨herr, rfl, parse_format ?_, ?_⟩⟩ (.inl hfit)
    · simp [State.display, herr]
    · have hle : q.natAbs ≤ limit := by
        rwa [hvalue, apply_ite Int.natAbs, Int.natAbs_neg, ite_self, Int.natAbs_natCast]
      rw [Int.natAbs_tdiv]
      exact (Nat.div_le_self _ _).trans hle
    · have hsign := sign_mul c.acc (current c)
      rw [State.display, hvalue]
      generalize c.acc * current c = x at hsign ⊢
      generalize (decide (c.acc < 0) != decide (current c < 0)) = negative at hsign ⊢
      have htdiv (n : Nat) : (n : Int).tdiv 100 = (n / 100 : Nat) := by simp
      cases negative <;> simp only [Bool.false_eq_true, if_true, if_false, Int.neg_tdiv, htdiv,
        scale] at hsign ⊢ <;> omega
  · rw [if_neg hfit] at hmul
    have hfail : percent c = fail "Overflow" := by simp only [percent, if_pos hop, hmul]
    simp [Right, hfail, fail, hfit]

theorem percent_refused :
    let c : State := ⟨90000000000000000, some .add, ['5', '0'], true, 0, none⟩
    (percent c).error = some "Overflow" ∧ current c = 50000000 ∧ ¬ Right c := by
  refine ⟨by decide, by decide, ?_⟩
  intro h
  exact absurd (h.1 (by decide)) (by decide)

theorem percent_right_tenth :
    let c : State := ⟨200000000, some .add, ['1', '0'], true, 0, none⟩
    Right c ∧ (percent c).entry = ['2', '0'] :=
  ⟨(percent_right (.inl rfl) rfl (by decide) (by decide)).mpr (by decide), by decide⟩

end ManiOS.Calc

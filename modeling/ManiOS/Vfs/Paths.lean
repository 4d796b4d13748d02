import Mathlib.Data.List.Basic
import Mathlib.Data.List.TakeWhile
import ManiOS.Base

/-!
# Paths

A path is a string of bytes, here without its NUL.  `vfs_clean_path` copies the
names of an absolute path into a buffer, leaves out the empty ones and `"."`,
and takes the last name back for `".."`.

What it computes is simpler to say of the list of names: a stack that each
name is pushed on, and `".."` pops (`Names.clean`).  `cleanPath_eq` says that
the buffer always holds the names of the stack, each with a slash before it.
-/

namespace ManiOS.Vfs

open List

abbrev CStr := List UInt8

def nameMax : Nat := 63

def pathMax : Nat := 255

/-! ## The code -/

/-- A buffer without the name at its end, and the slash before that.  The first
byte stays. -/
def popName (out : CStr) : CStr :=
  let out := out.take 1 ++ ((out.drop 1).reverse.dropWhile (· ≠ 47)).reverse
  if out.length > 1 then out.dropLast else out

/-- One name of `vfs_clean_path`, put into the buffer. -/
def pushName (out name : CStr) : Except Errno CStr :=
  if name.length = 0 ∨ (name.length = 1 ∧ name = [46]) then .ok out
  else if name.length = 2 ∧ name = [46, 46] then .ok (popName out)
  else if name.length > nameMax ∨ out.length + 1 + name.length > pathMax then
    .error .enametoolong
  else .ok ((if out.length > 1 then out ++ [47] else out) ++ name)

/-- The loop of `vfs_clean_path`, with `p` of the path left.  Each turn takes at
least one byte of it. -/
def cleanFrom : Nat → CStr → CStr → Except Errno CStr
  | 0, _, out => .ok out
  | left + 1, p, out =>
    if p = [] then .ok out
    else
      let p := p.dropWhile (· = 47)
      match pushName out (p.takeWhile (· ≠ 47)) with
      | .error e => .error e
      | .ok out => cleanFrom left (p.dropWhile (· ≠ 47)) out

def cleanPath (path : CStr) : Except Errno CStr :=
  if path.head? ≠ some 47 then .error .einval else cleanFrom path.length path [47]

/-! ## Lists of names -/

def namesOf (p : CStr) : List CStr := (p.splitOnP (· == 47)).filter (· ≠ [])

def render (st : List CStr) : CStr := if st = [] then [47] else st.flatMap (47 :: ·)

/-- A name that can be on the stack. -/
def IsName (name : CStr) : Prop := name ≠ [] ∧ 47 ∉ name

/-- One name, put on the stack. -/
def pushStack (st : List CStr) (name : CStr) : Except Errno (List CStr) :=
  if name = [46] then .ok st
  else if name = [46, 46] then .ok st.dropLast
  else if name.length > nameMax ∨ (render st).length + 1 + name.length > pathMax then
    .error .enametoolong
  else .ok (st ++ [name])

/-- The names a path comes to. -/
def cleanNames (path : CStr) : Except Errno (List CStr) :=
  if path.head? ≠ some 47 then .error .einval else (namesOf path).foldlM pushStack []

section Names

variable {name : CStr}

theorem IsName.not_slash (hn : IsName name) {x : UInt8} (hx : x ∈ name) : (x == 47) = false := by
  rw [beq_eq_false_iff_ne]
  rintro rfl
  exact hn.2 hx

theorem namesOf_slash (p : CStr) : namesOf (47 :: p) = namesOf p := by
  unfold namesOf
  rw [splitOnP_cons_eq_if_modifyHead]
  simp

theorem namesOf_name (hn : IsName name) : namesOf name = [name] := by
  unfold namesOf
  rw [splitOnP_eq_singleton fun x hx => hn.not_slash hx]
  simp [hn.1]

theorem namesOf_append (hn : IsName name) (p : CStr) :
    namesOf (name ++ 47 :: p) = name :: namesOf p := by
  unfold namesOf
  rw [splitOnP_append_cons_of_forall_mem (fun x hx => hn.not_slash hx) 47 rfl,
    filter_cons_of_pos (by simpa using hn.1)]

theorem namesOf_dropSlashes (p : CStr) : namesOf (p.dropWhile (· = 47)) = namesOf p := by
  induction p with
  | nil => rfl
  | cons c p ih =>
    by_cases hc : c = 47
    · subst hc
      exact ih
    · rw [dropWhile_cons_of_neg (by simpa using hc)]

/-- A path that has a name to take is that name, and nothing or a slash and more
after it. -/
theorem takeName (p : CStr) (hp : p.takeWhile (· ≠ 47) ≠ []) : IsName (p.takeWhile (· ≠ 47)) ∧
      (p.dropWhile (· ≠ 47) = [] ∨ ∃ rest, p.dropWhile (· ≠ 47) = 47 :: rest) := by
  refine ⟨⟨hp, fun hmem => ?_⟩, ?_⟩
  · simpa using mem_takeWhile_imp hmem
  · cases hrest : p.dropWhile (· ≠ 47) with
    | nil => exact .inl rfl
    | cons c rest =>
      have hc := head_dropWhile_not (· ≠ 47) (l := p) (by rw [hrest]; simp)
      simp only [hrest, head_cons, decide_eq_false_iff_not, Decidable.not_not] at hc
      exact .inr ⟨rest, by rw [hc]⟩

theorem namesOf_split (p : CStr) (hp : p.takeWhile (· ≠ 47) ≠ []) :
    namesOf p = p.takeWhile (· ≠ 47) :: namesOf (p.dropWhile (· ≠ 47)) := by
  obtain ⟨hname, hrest⟩ := takeName p hp
  have hp' := takeWhile_append_dropWhile (p := fun x : UInt8 => decide (x ≠ 47)) (l := p)
  rcases hrest with hrest | ⟨rest, hrest⟩
  · rw [hrest, append_nil] at hp'
    rw [hrest, hp']
    exact namesOf_name (hp' ▸ hname)
  · rw [hrest] at hp'
    rw [hrest, namesOf_slash, ← namesOf_append hname, hp']

end Names

section Render

variable {st : List CStr} {name : CStr}

theorem render_nil : render [] = [47] := rfl

theorem render_of_ne_nil (h : st ≠ []) : render st = st.flatMap (47 :: ·) := if_neg h

theorem render_length (hst : ∀ a ∈ st, IsName a) : (render st).length > 1 ↔ st ≠ [] := by
  cases st with
  | nil => simp [render]
  | cons a st =>
    have ha := (hst a mem_cons_self).1
    rw [render_of_ne_nil (by simp)]
    simp only [flatMap_cons, length_append, length_cons]
    have := length_pos_iff.mpr ha
    simp only [ne_eq, reduceCtorEq, not_false_eq_true, iff_true]
    omega

theorem render_snoc (hst : ∀ a ∈ st, IsName a) (name : CStr) : render (st ++ [name]) =
      (if (render st).length > 1 then render st ++ [47] else render st) ++ name := by
  rw [render_of_ne_nil (append_ne_nil_of_right_ne_nil st (cons_ne_nil name []))]
  by_cases h : st = []
  · subst h
    simp [render]
  · rw [if_pos ((render_length hst).mpr h), render_of_ne_nil h]
    simp

theorem IsName.dropWhile_reverse (hn : IsName name) (p : CStr) :
    (p ++ name).reverse.dropWhile (· ≠ 47) = p.reverse.dropWhile (· ≠ 47) := by
  rw [reverse_append]
  refine dropWhile_append_of_pos fun x hx => ?_
  rw [decide_eq_true_eq]
  rintro rfl
  exact hn.2 (mem_reverse.mp hx)

theorem popName_first (hn : IsName name) : popName (47 :: name) = [47] := by
  have hcut : name.reverse.dropWhile (· ≠ 47) = [] := hn.dropWhile_reverse []
  unfold popName
  rw [drop_one, tail_cons, hcut]
  rfl

theorem popName_later (hn : IsName name) (c : UInt8) (rest : CStr) :
    popName (c :: rest ++ [47] ++ name) = c :: rest := by
  have hcut := hn.dropWhile_reverse (rest ++ [47])
  have hdrop : (c :: rest ++ [47] ++ name).drop 1 = rest ++ [47] ++ name := rfl
  have htake : (c :: rest ++ [47] ++ name).take 1 = [c] := rfl
  have hlast : (rest ++ [47]).reverse.dropWhile (· ≠ 47) = (rest ++ [47]).reverse := by simp
  simp only [popName, hdrop, htake, hcut, hlast, reverse_reverse]
  rw [if_pos (by simp), ← append_assoc, dropLast_concat]
  rfl

variable (hst : ∀ a ∈ st, IsName a)
include hst

theorem popName_render : popName (render st) = render st.dropLast := by
  rcases eq_nil_or_concat st with rfl | ⟨l, n, rfl⟩
  · rfl
  · rw [concat_eq_append] at hst ⊢
    have hl : ∀ a ∈ l, IsName a := fun a ha => hst a (mem_append_left _ ha)
    have hn : IsName n := hst n (by simp)
    rw [dropLast_concat, render_snoc hl]
    by_cases h : l = []
    · subst h
      exact popName_first hn
    · have hr := (render_length hl).mpr h
      rw [if_pos hr]
      cases hc : render l with
      | nil =>
        rw [hc] at hr
        exact absurd hr (by simp)
      | cons c rest => exact popName_later hn c rest

theorem pushName_render (hn : IsName name) :
    pushName (render st) name = (pushStack st name).map render := by
  have hlen : name.length ≠ 0 := by simpa using hn.1
  unfold pushName pushStack
  by_cases hdot : name = [46]
  · subst hdot
    simp [Except.map]
  by_cases hdots : name = [46, 46]
  · subst hdots
    simp [Except.map, popName_render hst]
  rw [if_neg (by simp [hlen, hdot]), if_neg (by simp [hdots])]
  split
  · rfl
  · rw [Except.map, render_snoc hst]

theorem pushStack_names {st' : List CStr} (hn : IsName name)
    (h : pushStack st name = .ok st') : ∀ a ∈ st', IsName a := by
  unfold pushStack at h
  split at h
  · cases h
    exact hst
  split at h
  · cases h
    exact fun a ha => hst a ((dropLast_sublist st).subset ha)
  split at h
  · cases h
  · cases h
    exact forall_mem_append.mpr ⟨hst, forall_mem_singleton.mpr hn⟩

omit hst

theorem cleanFrom_nil (left : Nat) (out : CStr) : cleanFrom left [] out = .ok out := by
  cases left with
  | zero => rfl
  | succ left => rfl

/-- A turn takes at least one byte: a slash, or the first of a name. -/
theorem turn_length {left : Nat} {p : CStr} (hp : p.length ≤ left + 1) (hnil : p ≠ []) :
    ((p.dropWhile (· = 47)).dropWhile (· ≠ 47)).length ≤ left := by
  cases p with
  | nil => exact absurd rfl hnil
  | cons c p =>
    have hp' : p.length ≤ left := Nat.le_of_succ_le_succ hp
    by_cases hc : c = 47
    · rw [dropWhile_cons_of_pos (by simpa using hc)]
      exact le_trans (dropWhile_sublist _).length_le
        (le_trans (dropWhile_sublist _).length_le hp')
    · rw [dropWhile_cons_of_neg (by simpa using hc), dropWhile_cons_of_pos (by simpa using hc)]
      exact le_trans (dropWhile_sublist _).length_le hp'

theorem dropSlashes_cases (p : CStr) :
    p.dropWhile (· = 47) = [] ∨ (p.dropWhile (· = 47)).takeWhile (· ≠ 47) ≠ [] := by
  cases hq : p.dropWhile (· = 47) with
  | nil => exact .inl rfl
  | cons c q =>
    have hc := head_dropWhile_not (· = 47) (l := p) (by rw [hq]; simp)
    simp only [hq, head_cons, decide_eq_false_iff_not] at hc
    exact .inr (by rw [takeWhile_cons_of_pos (by simpa using hc)]; simp)

theorem cleanFrom_eq (left : Nat) :
    ∀ (p : CStr) (st : List CStr), p.length ≤ left → (∀ a ∈ st, IsName a) →
      cleanFrom left p (render st) = ((namesOf p).foldlM pushStack st).map render := by
  induction left with
  | zero =>
    intro p st hp _
    rw [length_eq_zero_iff.mp (Nat.le_zero.mp hp)]
    rfl
  | succ left ih =>
    intro p st hp hst
    rw [cleanFrom]
    by_cases hnil : p = []
    · subst hnil
      rfl
    have hlt := turn_length hp hnil
    rw [if_neg hnil, ← namesOf_dropSlashes]
    simp only
    rcases dropSlashes_cases p with hq | hq
    · rw [hq]
      exact cleanFrom_nil left _
    · generalize p.dropWhile (· = 47) = q at hlt hq
      obtain ⟨hname, -⟩ := takeName q hq
      rw [namesOf_split q hq, foldlM_cons, pushName_render hst hname]
      cases hpush : pushStack st (q.takeWhile (· ≠ 47)) with
      | error e => rfl
      | ok st' => exact ih _ st' hlt (pushStack_names hst hname hpush)

/-- The path that `vfs_clean_path` makes is that of the names on the stack. -/
theorem cleanPath_eq (path : CStr) : cleanPath path = (cleanNames path).map render := by
  unfold cleanPath cleanNames
  split
  · rfl
  · exact cleanFrom_eq _ path [] le_rfl (fun a ha => nomatch ha)

theorem namesOf_isName (left : Nat) : ∀ p : CStr, p.length ≤ left → ∀ a ∈ namesOf p, IsName a := by
  induction left with
  | zero =>
    intro p hp a ha
    rw [length_eq_zero_iff.mp (Nat.le_zero.mp hp)] at ha
    cases ha
  | succ left ih =>
    intro p hp a ha
    by_cases hnil : p = []
    · subst hnil
      cases ha
    have hlt := turn_length hp hnil
    rw [← namesOf_dropSlashes] at ha
    rcases dropSlashes_cases p with hq | hq
    · rw [hq] at ha
      cases ha
    · rw [namesOf_split _ hq] at ha
      exact forall_mem_cons.mpr ⟨(takeName _ hq).1, ih _ hlt⟩ a ha

theorem foldlM_names {st' : List CStr} (l : List CStr) (hl : ∀ a ∈ l, IsName a)
    (hst : ∀ a ∈ st, IsName a) (h : l.foldlM pushStack st = .ok st') : ∀ a ∈ st', IsName a := by
  induction l generalizing st with
  | nil =>
    cases h
    exact hst
  | cons n l ih =>
    rw [foldlM_cons] at h
    cases hp : pushStack st n with
    | error e =>
      rw [hp] at h
      cases h
    | ok st1 =>
      rw [hp] at h
      exact ih (forall_mem_cons.mp hl).2
        (pushStack_names hst (hl n mem_cons_self) hp) h

theorem cleanNames_isName {path : CStr} (h : cleanNames path = .ok st) : ∀ a ∈ st, IsName a := by
  unfold cleanNames at h
  split at h
  · cases h
  · exact foldlM_names _ (namesOf_isName _ path le_rfl) (by simp) h

end Render

end ManiOS.Vfs

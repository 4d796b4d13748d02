import Mathlib.Data.List.Chain
import ManiOS.Vfs.Paths

/-!
# Cleaned paths

What `vfs_clean_path` comes to, said without its buffer: the names of the path are
gone through from left to right with a stack (`stackOf`), and the call fails at
the first name that is too long or makes the path too long (`TooLong`), even if a
later `".."` would have taken it back.

A cleaned path is made of names that fit (`Kept`), so cleaning it again pushes
each of them and changes nothing.
-/

namespace ManiOS.Vfs

open List

/-! ## The stack -/

/-- One name, put on a stack that has no limit. -/
def stackStep (st : List CStr) (name : CStr) : List CStr :=
  if name = [46] then st else if name = [46, 46] then st.dropLast else st ++ [name]

/-- What some names leave on the stack, from left to right. -/
def stackOf (names : List CStr) : List CStr := names.foldl stackStep []

/-- A name that stands for itself. -/
def Ordinary (name : CStr) : Prop := name ≠ [46] ∧ name ≠ [46, 46]

/-- A name that is too long, or makes the path of a stack too long. -/
def Over (st : List CStr) (name : CStr) : Prop :=
  Ordinary name ∧ (name.length > nameMax ∨ (render (stackStep st name)).length > pathMax)

/-- One of the names is over a limit where it comes. -/
def TooLong (st names : List CStr) : Prop :=
  ∃ before name after, names = before ++ name :: after ∧ Over (before.foldl stackStep st) name

/-- Names that fit, one by one and as a path. -/
structure Kept (st : List CStr) : Prop where
  name : ∀ a ∈ st, IsName a ∧ Ordinary a ∧ a.length ≤ nameMax
  path : (render st).length ≤ pathMax

section Stack

variable {st l : List CStr} {name : CStr}

theorem stackStep_ordinary (h : Ordinary name) : stackStep st name = st ++ [name] := by
  rw [stackStep, if_neg h.1, if_neg h.2]

theorem tooLong_cons : TooLong st (name :: l) ↔ Over st name ∨ TooLong (stackStep st name) l := by
  constructor
  · rintro ⟨before, n, after, heq, hover⟩
    cases before with
    | nil =>
      cases heq
      exact .inl hover
    | cons a before =>
      cases heq
      exact .inr ⟨before, n, after, rfl, hover⟩
  · rintro (hover | ⟨before, n, after, rfl, hover⟩)
    · exact ⟨[], name, l, rfl, hover⟩
    · exact ⟨name :: before, n, after, rfl, hover⟩

theorem render_slash (st : List CStr) : ∃ p, render st = 47 :: p := by
  cases st with
  | nil => exact ⟨[], rfl⟩
  | cons a st => exact ⟨a ++ st.flatMap (47 :: ·), rfl⟩

theorem render_pos (st : List CStr) : 0 < (render st).length := by
  obtain ⟨p, hp⟩ := render_slash st
  rw [hp]
  exact Nat.succ_pos _

theorem render_le_append (st l : List CStr) : (render st).length ≤ (render (st ++ l)).length := by
  by_cases h : st = []
  · subst h
    exact render_pos _
  · rw [render_of_ne_nil h, render_of_ne_nil (by simp [h])]
    simp

/-- The check of the code, which counts a slash that a path from the root does
not have, is the limit of the path: a name of the allowed length fits there. -/
theorem pushStack_eq (hst : ∀ a ∈ st, IsName a) (name : CStr) :
    (Over st name → pushStack st name = .error .enametoolong) ∧
      (¬ Over st name → pushStack st name = .ok (stackStep st name)) := by
  unfold Over pushStack
  by_cases hdot : name = [46]
  · simp [Ordinary, stackStep, hdot]
  by_cases hdots : name = [46, 46]
  · simp [Ordinary, stackStep, hdots]
  have hord : Ordinary name := ⟨hdot, hdots⟩
  have hlen : name.length > nameMax ∨ (render st).length + 1 + name.length > pathMax ↔
      name.length > nameMax ∨ (render (st ++ [name])).length > pathMax := by
    rw [render_snoc hst]
    unfold nameMax pathMax
    split
    · simp only [length_append, length_singleton]
    · rw [length_append]
      omega
  rw [stackStep_ordinary hord, if_neg hdot, if_neg hdots]
  exact ⟨fun h => if_pos (hlen.mpr h.2), fun h => if_neg fun hc => h ⟨hord, hlen.mp hc⟩⟩

theorem stackStep_isName (hst : ∀ a ∈ st, IsName a) (hn : IsName name) :
    ∀ a ∈ stackStep st name, IsName a := by
  unfold stackStep
  split
  · exact hst
  split
  · exact fun a ha => hst a ((dropLast_sublist st).subset ha)
  · exact forall_mem_append.mpr ⟨hst, forall_mem_singleton.mpr hn⟩

theorem foldlM_pushStack (hl : ∀ a ∈ l, IsName a) (hst : ∀ a ∈ st, IsName a) :
    (TooLong st l → l.foldlM pushStack st = .error .enametoolong) ∧
      (¬ TooLong st l → l.foldlM pushStack st = .ok (l.foldl stackStep st)) := by
  induction l generalizing st with
  | nil => exact ⟨fun ⟨before, n, after, heq, _⟩ => by simp at heq, fun _ => rfl⟩
  | cons n l ih =>
    have hn := stackStep_isName hst (hl n mem_cons_self)
    obtain ⟨herr, hok⟩ := ih (forall_mem_cons.mp hl).2 hn
    obtain ⟨hover, hstep⟩ := pushStack_eq hst n
    rw [tooLong_cons, foldlM_cons]
    by_cases h : Over st n
    · rw [hover h]
      exact ⟨fun _ => rfl, fun hno => absurd (.inl h) hno⟩
    · rw [hstep h]
      exact ⟨fun hlong => herr (hlong.resolve_left h), fun hno => hok fun hc => hno (.inr hc)⟩

theorem Kept.step (h : Kept st) (hn : IsName name) (hover : ¬ Over st name) :
    Kept (stackStep st name) := by
  by_cases hdot : name = [46]
  · rwa [stackStep, if_pos hdot]
  by_cases hdots : name = [46, 46]
  · rw [stackStep, if_neg hdot, if_pos hdots]
    refine ⟨fun a ha => h.name a ((dropLast_sublist st).subset ha), ?_⟩
    obtain ⟨l, hl⟩ := dropLast_prefix st
    have hle := render_le_append st.dropLast l
    rw [hl] at hle
    exact le_trans hle h.path
  have hord : Ordinary name := ⟨hdot, hdots⟩
  have hfit := not_or.mp fun hc => hover ⟨hord, hc⟩
  rw [stackStep_ordinary hord] at hfit ⊢
  exact ⟨forall_mem_append.mpr ⟨h.name, forall_mem_singleton.mpr ⟨hn, hord, not_lt.mp hfit.1⟩⟩,
    not_lt.mp hfit.2⟩

theorem Kept.foldl (h : Kept st) (hl : ∀ a ∈ l, IsName a) (hfit : ¬ TooLong st l) :
    Kept (l.foldl stackStep st) := by
  induction l generalizing st with
  | nil => exact h
  | cons n l ih =>
    rw [tooLong_cons, not_or] at hfit
    exact ih (h.step (hl n mem_cons_self) hfit.1) (forall_mem_cons.mp hl).2 hfit.2

theorem Kept.pushed (h : Kept (st ++ l)) : ¬ TooLong st l ∧ l.foldl stackStep st = st ++ l := by
  induction l generalizing st with
  | nil => exact ⟨fun ⟨before, n, after, heq, _⟩ => by simp at heq, (append_nil st).symm⟩
  | cons n l ih =>
    obtain ⟨-, hord, hlen⟩ := h.name n (by simp)
    have hpush : stackStep st n = st ++ [n] := stackStep_ordinary hord
    have hassoc : st ++ n :: l = stackStep st n ++ l := by rw [hpush, append_assoc]; rfl
    rw [hassoc] at h ⊢
    obtain ⟨hno, heq⟩ := ih h
    refine ⟨fun hc => (tooLong_cons.mp hc).elim (fun hover => ?_) hno, heq⟩
    have hle := le_trans (render_le_append (stackStep st n) l) h.path
    exact hover.2.elim (fun hc => absurd hlen (not_le_of_gt hc))
      fun hc => absurd hle (not_le_of_gt hc)

end Stack

/-! ## The path of a stack -/

section Path

variable {st : List CStr}

theorem namesOf_render (hst : ∀ a ∈ st, IsName a) : namesOf (render st) = st := by
  have hmap : namesOf (st.flatMap (47 :: ·)) = st := by
    induction st with
    | nil => rfl
    | cons n st ih =>
      have hn := hst n mem_cons_self
      have hih := ih (forall_mem_cons.mp hst).2
      rw [flatMap_cons, cons_append, namesOf_slash]
      cases st with
      | nil => rw [flatMap_nil, append_nil, namesOf_name hn]
      | cons m st =>
        rw [flatMap_cons, cons_append, namesOf_slash] at hih
        rw [flatMap_cons, cons_append, namesOf_append hn, hih]
  by_cases h : st = []
  · subst h
    rfl
  · rw [render_of_ne_nil h, hmap]

/-- Two bytes that are not both slashes. -/
def NotSlashes (a b : UInt8) : Prop := ¬ (a = 47 ∧ b = 47)

theorem isChain_name {name : CStr} (hn : 47 ∉ name) (c : UInt8) :
    (c :: name).IsChain NotSlashes := by
  induction name generalizing c with
  | nil => exact .singleton c
  | cons b name ih =>
    obtain ⟨hb, hrest⟩ := not_or.mp fun hc => hn (mem_cons.mpr hc)
    exact .cons_cons (fun hc => hb hc.2.symm) (ih hrest b)

theorem getLast?_name {name : CStr} (hn : IsName name) (c : UInt8) :
    (c :: name).getLast? ≠ some 47 := by
  intro hlast
  rw [getLast?_cons_of_ne_nil hn.1] at hlast
  exact hn.2 (mem_of_getLast? hlast)

theorem isChain_render (hst : ∀ a ∈ st, IsName a) : (render st).IsChain NotSlashes := by
  have hmap : (st.flatMap (47 :: ·)).IsChain NotSlashes := by
    induction st with
    | nil => exact .nil
    | cons n st ih =>
      have hn := hst n mem_cons_self
      rw [flatMap_cons, isChain_append]
      refine ⟨isChain_name hn.2 47, ih (forall_mem_cons.mp hst).2, ?_⟩
      rintro x hx y - ⟨rfl, -⟩
      exact getLast?_name hn 47 hx
  by_cases h : st = []
  · subst h
    exact .singleton 47
  · rwa [render_of_ne_nil h]

theorem getLast?_render (hst : ∀ a ∈ st, IsName a) (hne : render st ≠ [47]) :
    (render st).getLast? ≠ some 47 := by
  rcases eq_nil_or_concat st with rfl | ⟨l, n, rfl⟩
  · exact absurd rfl hne
  · rw [concat_eq_append] at hst ⊢
    rw [render_of_ne_nil (by simp), flatMap_append, flatMap_singleton,
      getLast?_append_of_ne_nil _ (cons_ne_nil 47 n)]
    exact getLast?_name (hst n (by simp)) 47

theorem cleanPath_ok {p out : CStr} (h : cleanPath p = .ok out) :
    Kept (stackOf (namesOf p)) ∧ out = render (stackOf (namesOf p)) := by
  have hnames := namesOf_isName _ p le_rfl
  obtain ⟨herr, hok⟩ := foldlM_pushStack hnames (forall_mem_nil _)
  rw [cleanPath_eq, cleanNames] at h
  split at h
  · cases h
  by_cases hlong : TooLong [] (namesOf p)
  · rw [herr hlong] at h
    cases h
  · rw [hok hlong] at h
    cases h
    have hempty : Kept [] := ⟨forall_mem_nil _, by decide⟩
    exact ⟨hempty.foldl hnames hlong, rfl⟩

/-- `vfs_clean_path` of an absolute path fails if a name is over a limit where it
comes, and only then.  Otherwise the result is the path of the stack.  It has no
slash at its end or after another, and cleaning it changes nothing. -/
theorem clean_path (rest : CStr) :
    (TooLong [] (namesOf (47 :: rest)) → cleanPath (47 :: rest) = .error .enametoolong) ∧
    (¬ TooLong [] (namesOf (47 :: rest)) →
      cleanPath (47 :: rest) = .ok (render (stackOf (namesOf (47 :: rest))))) ∧
    ∀ out, cleanPath (47 :: rest) = .ok out →
      out.head? = some 47 ∧ (out ≠ [47] → out.getLast? ≠ some 47) ∧ out.IsChain NotSlashes ∧
        cleanPath out = .ok out := by
  have hnames := namesOf_isName _ (47 :: rest) le_rfl
  have hclean : ∀ p : CStr, cleanPath (47 :: p) =
      ((namesOf (47 :: p)).foldlM pushStack []).map render := fun p => cleanPath_eq (47 :: p)
  obtain ⟨herr, hok⟩ := foldlM_pushStack hnames (forall_mem_nil _)
  refine ⟨fun h => by rw [hclean, herr h]; rfl, fun h => by rw [hclean, hok h]; rfl, ?_⟩
  intro out hout
  obtain ⟨hkept, rfl⟩ := cleanPath_ok hout
  generalize stackOf (namesOf (47 :: rest)) = st at hkept ⊢
  have hst := fun a ha => (hkept.name a ha).1
  obtain ⟨p, hp⟩ := render_slash st
  refine ⟨by rw [hp]; rfl, getLast?_render hst, isChain_render hst, ?_⟩
  obtain ⟨hno, heq⟩ := @Kept.pushed [] st hkept
  have hagain := hclean p
  rw [← hp, namesOf_render hst, (foldlM_pushStack hst (forall_mem_nil _)).2 hno, heq] at hagain
  exact hagain

end Path

end ManiOS.Vfs

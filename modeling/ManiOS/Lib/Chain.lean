import Mathlib.Data.List.Nodup

/-!
# Chains of linked cells

A table gives every cell a successor.  Some values are ends: `stop` holds of
them and of no cell.  A list of cells is a *chain* when each is followed by its
successor and the last one's successor is an end.

A chain is determined by its first cell (`Chain.unique`), so it never comes
back to a cell (`Chain.nodup`).  The rest of the file says what a change of the
table does to a chain: nothing outside it (`Chain.congr`), a cell at its end
(`Chain.snoc`), a cut (`Chain.take`).
-/

namespace ManiOS.Lib

open List

variable {α : Type} {next next' : α → α} {valid stop : α → Prop}

/-- Each cell's successor is the one after it in the list, the last one's an
end. -/
def Links (next : α → α) (stop : α → Prop) : List α → Prop
  | [] => True
  | [a] => stop (next a)
  | a :: b :: l => next a = b ∧ Links next stop (b :: l)

/-- A list of cells linked to an end. -/
structure Chain (next : α → α) (valid stop : α → Prop) (l : List α) : Prop where
  links : Links next stop l
  cells : ∀ a ∈ l, valid a

/-- The cells from `c` on, at most `k` of them. -/
def walk (next : α → α) (valid : α → Prop) [DecidablePred valid] : Nat → α → List α
  | 0, _ => []
  | k + 1, c => if valid c then c :: walk next valid k (next c) else []

variable {a c : α} {l s t : List α}

theorem Links.tail (h : Links next stop (a :: l)) : Links next stop l := by
  cases l with
  | nil => trivial
  | cons b l => exact h.2

theorem Links.congr (h : Links next stop l) (he : ∀ a ∈ l, next' a = next a) :
    Links next' stop l := by
  induction l with
  | nil => trivial
  | cons a l ih =>
    have ha := he a mem_cons_self
    have htail := ih h.tail (forall_mem_cons.mp he).2
    cases l with
    | nil =>
      show stop (next' a)
      rw [ha]
      exact h
    | cons b l => exact ⟨ha.trans h.1, htail⟩

theorem Links.drop (h : Links next stop (s ++ t)) : Links next stop t := by
  induction s with
  | nil => exact h
  | cons a s ih => exact ih h.tail

theorem Links.next_eq {b : α} (h : Links next stop (s ++ a :: b :: t)) : next a = b :=
  (Links.drop h).1

theorem Links.stop_last (h : Links next stop (s ++ [a])) : stop (next a) :=
  Links.drop h

/-- The cells of a list keep their successors up to one, and from there it is another list. -/
theorem Links.splice (h : Links next stop (s ++ a :: t)) (he : ∀ b ∈ s, next' b = next b)
    (ha : Links next' stop (a :: l)) : Links next' stop (s ++ a :: l) := by
  induction s with
  | nil => exact ha
  | cons b s ih =>
    have htail := ih h.tail (forall_mem_cons.mp he).2
    have hb := he b mem_cons_self
    cases s with
    | nil => exact ⟨hb.trans h.1, htail⟩
    | cons x s => exact ⟨hb.trans h.1, htail⟩

namespace Chain

theorem nil : Chain next valid stop [] := ⟨trivial, fun _ h => nomatch h⟩

theorem tail (h : Chain next valid stop (a :: l)) : Chain next valid stop l :=
  ⟨h.links.tail, (forall_mem_cons.mp h.cells).2⟩

theorem drop (h : Chain next valid stop (s ++ t)) : Chain next valid stop t :=
  ⟨h.links.drop, fun b hb => h.cells b (mem_append_right s hb)⟩

theorem congr (h : Chain next valid stop l) (he : ∀ a ∈ l, next' a = next a) :
    Chain next' valid stop l :=
  ⟨h.links.congr he, h.cells⟩

theorem take (h : Chain next valid stop (s ++ a :: t))
    (he : ∀ b ∈ s, next' b = next b) (hlast : stop (next' a)) :
    Chain next' valid stop (s ++ [a]) := by
  refine ⟨h.links.splice he hlast, fun b hb => h.cells b ?_⟩
  rw [mem_append, mem_singleton] at hb
  rw [mem_append, mem_cons]
  exact hb.imp_right .inl

theorem snoc (h : Chain next valid stop (s ++ [a]))
    (he : ∀ b ∈ s, next' b = next b) (ha : next' a = c) (hc : stop (next' c)) (hv : valid c) :
    Chain next' valid stop (s ++ [a] ++ [c]) := by
  rw [append_assoc]
  refine ⟨h.links.splice he ⟨ha, hc⟩, fun b hb => ?_⟩
  rw [singleton_append, append_cons, mem_append, mem_singleton] at hb
  rcases hb with hb | rfl
  · exact h.cells b hb
  · exact hv

theorem singleton (hv : valid c) (hc : stop (next c)) : Chain next valid stop [c] :=
  ⟨hc, fun _ hb => mem_singleton.mp hb ▸ hv⟩

/-- A cell of a chain has a successor that is a cell or an end. -/
theorem next_valid_or_stop (h : Chain next valid stop l) (ha : a ∈ l) :
    valid (next a) ∨ stop (next a) := by
  obtain ⟨s, t, rfl⟩ := append_of_mem ha
  cases t with
  | nil => exact .inr h.links.stop_last
  | cons b t =>
    rw [h.links.next_eq]
    exact .inl (h.cells b (by simp))

section Unique

variable (hvs : ∀ a, valid a → ¬ stop a)
include hvs

theorem unique {l' : List α} (h : Chain next valid stop l) (h' : Chain next valid stop l')
    (hhead : l.head? = l'.head?) : l = l' := by
  induction l generalizing l' with
  | nil => exact (head?_eq_none_iff.mp hhead.symm).symm
  | cons a l ih =>
    obtain ⟨l', rfl⟩ : ∃ t, l' = a :: t := by
      cases l' with
      | nil => cases hhead
      | cons b t =>
        cases hhead
        exact ⟨t, rfl⟩
    rw [ih h.tail h'.tail]
    -- both tails start with the successor of `a`, or both end there
    cases l with
    | nil =>
      cases l' with
      | nil => rfl
      | cons b t =>
        have hb : valid (next a) := h'.links.1 ▸ h'.cells b (by simp)
        exact absurd h.links (hvs _ hb)
    | cons b t =>
      cases l' with
      | nil =>
        have hb : valid (next a) := h.links.1 ▸ h.cells b (by simp)
        exact absurd h'.links (hvs _ hb)
      | cons x t' =>
        rw [head?_cons, head?_cons, ← h.links.1, ← h'.links.1]

theorem nodup (h : Chain next valid stop l) : l.Nodup := by
  induction l with
  | nil => exact nodup_nil
  | cons a l ih =>
    refine nodup_cons.mpr ⟨fun ha => ?_, ih h.tail⟩
    -- the chain from the second `a` on would be the whole chain
    obtain ⟨s, t, rfl⟩ := append_of_mem ha
    have heq : a :: (s ++ a :: t) = a :: t := unique hvs h h.tail.drop rfl
    have hlen := congrArg length heq
    simp only [length_cons, length_append] at hlen
    omega

theorem walk_eq [DecidablePred valid] {k : Nat} (h : Chain next valid stop l)
    (hc : l.head? = some c) (hk : l.length ≤ k) : walk next valid k c = l := by
  induction l generalizing c k with
  | nil => cases hc
  | cons a l ih =>
    cases hc
    obtain ⟨k, rfl⟩ : ∃ j, k = j + 1 := Nat.exists_eq_add_one_of_ne_zero (by
      rintro rfl
      exact absurd hk (Nat.not_succ_le_zero _))
    have hlk : l.length ≤ k := Nat.le_of_succ_le_succ hk
    rw [walk, if_pos (h.cells a mem_cons_self)]
    cases l with
    | nil =>
      have hstop : ¬ valid (next a) := fun hv => hvs _ hv h.links
      cases k with
      | zero => rfl
      | succ k => rw [walk, if_neg hstop]
    | cons b l => rw [ih h.tail (by rw [head?_cons, h.links.1]) hlk]

end Unique

end Chain

end ManiOS.Lib

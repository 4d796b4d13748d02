import Mathlib.Data.List.Nodup

/-!
# Intrusive linked lists

A cell carries the link to the next one, and a list is known by the pointer to
its first cell.  `Linked next h l` says that the cells met from `h` on are
those of `l`.  The links determine the list (`Linked.unique`), so it never
meets a cell twice (`Linked.nodup`).

Code that changes such a list walks a cursor along it and then stores into the
link it stopped at: the head pointer, or the link of the cell before.
`cursor` is that walk, with a budget of steps, and `relink`/`rehead` are that
store.  `Linked.splice` says what the store makes of a list.

A `Fifo` also knows its last cell.  `Fifo.push`, `Fifo.pop` and `Fifo.remove`
are its operations.
-/

namespace ManiOS.Lib

open Function (update update_self update_of_ne)
open List

variable {α : Type} {next next' : α → Option α} {h v : Option α} {a c : α} {l s t : List α}

/-! ## Lists -/

/-- The cells met from the pointer `h` on. -/
def Linked (next : α → Option α) : Option α → List α → Prop
  | h, [] => h = none
  | h, a :: l => h = some a ∧ Linked next (next a) l

namespace Linked

theorem head_eq (hl : Linked next h l) : h = l.head? := by
  cases l with
  | nil => exact hl
  | cons a l => exact hl.1

theorem congr (hl : Linked next h l) (he : ∀ a ∈ l, next' a = next a) : Linked next' h l := by
  induction l generalizing h with
  | nil => exact hl
  | cons a l ih =>
    refine ⟨hl.1, ?_⟩
    rw [he a mem_cons_self]
    exact ih hl.2 (forall_mem_cons.mp he).2

theorem unique (hs : Linked next h s) (ht : Linked next h t) : s = t := by
  induction s generalizing h t with
  | nil =>
    cases t with
    | nil => rfl
    | cons b t => exact absurd (hs.symm.trans ht.1) (by simp)
  | cons a s ih =>
    cases t with
    | nil => exact absurd (ht.symm.trans hs.1) (by simp)
    | cons b t =>
      cases Option.some.inj (hs.1.symm.trans ht.1)
      rw [ih hs.2 ht.2]

theorem drop (hl : Linked next h (s ++ t)) : ∃ h', Linked next h' t := by
  induction s generalizing h with
  | nil => exact ⟨h, hl⟩
  | cons a s ih => exact ih hl.2

theorem nodup (hl : Linked next h l) : l.Nodup := by
  induction l generalizing h with
  | nil => exact nodup_nil
  | cons a l ih =>
    refine nodup_cons.mpr ⟨fun ha => ?_, ih hl.2⟩
    -- the list from the second `a` on would be the whole list
    obtain ⟨s, t, rfl⟩ := append_of_mem ha
    obtain ⟨h', ht⟩ := drop hl.2
    have heq : s ++ a :: t = t := unique hl.2 ht.2
    have hlen := congrArg length heq
    simp only [length_append, length_cons] at hlen
    omega

end Linked

/-- The cells met from a pointer on, at most `n` of them. -/
def collect (next : α → Option α) : Nat → Option α → List α
  | 0, _ => []
  | _ + 1, none => []
  | n + 1, some a => a :: collect next n (next a)

theorem Linked.collect_take (hl : Linked next h l) (n : Nat) : collect next n h = l.take n := by
  induction l generalizing h n with
  | nil =>
    cases hl
    cases n <;> rfl
  | cons a l ih =>
    obtain ⟨rfl, htail⟩ := hl
    cases n with
    | zero => rfl
    | succ n => rw [collect, ih htail, take_succ_cons]

theorem Linked.collect_eq {n : Nat} (hl : Linked next h l) (hn : l.length ≤ n) :
    collect next n h = l := by
  rw [hl.collect_take, take_of_length_le hn]

/-! ## The store through a cursor -/

section Store

variable [DecidableEq α]

/-- A store into the link after `prev`, where `none` stands for the head
pointer. -/
def relink (next : α → Option α) (prev v : Option α) : α → Option α :=
  match prev with
  | none => next
  | some p => update next p v

/-- The head pointer after such a store. -/
def rehead (h prev v : Option α) : Option α :=
  match prev with
  | none => v
  | some _ => h

@[simp] theorem relink_none : relink next none v = next := rfl

omit [DecidableEq α] in
@[simp] theorem rehead_none : rehead h none v = v := rfl

theorem relink_of_ne {prev : Option α} (hp : prev ≠ some a) : relink next prev v a = next a := by
  cases prev with
  | none => rfl
  | some p => exact update_of_ne (fun he : a = p => hp (congrArg some he.symm)) _ _

/-- The cells before the cursor stay, those the stored pointer leads to
follow. -/
theorem Linked.splice (hl : Linked next h (s ++ t)) (hv : Linked (relink next s.getLast? v) v l) :
    Linked (relink next s.getLast? v) (rehead h s.getLast? v) (s ++ l) := by
  induction s generalizing h with
  | nil => exact hv
  | cons a s ih =>
    cases s with
    | nil =>
      refine ⟨hl.1, ?_⟩
      simp only [getLast?_singleton, relink, update_self] at hv ⊢
      exact hv
    | cons b s =>
      have hne : (b :: s).getLast? ≠ some a := fun he =>
        (List.nodup_cons.mp hl.nodup).1 (mem_append_left t (mem_of_getLast? he))
      rw [getLast?_cons_cons] at hv ⊢
      have htail := ih hl.2 hv
      cases hlast : (b :: s).getLast? with
      | none => exact absurd (getLast?_eq_none_iff.mp hlast) (cons_ne_nil _ _)
      | some p =>
        rw [hlast] at htail hne
        exact ⟨hl.1, (relink_of_ne hne).symm ▸ htail⟩

theorem Linked.insert (hl : Linked next h (s ++ t)) (hc : c ∉ s ++ t) :
    Linked (relink (update next c t.head?) s.getLast? (some c))
      (rehead h s.getLast? (some c)) (s ++ c :: t) := by
  have hkeep : Linked (update next c t.head?) h (s ++ t) :=
    hl.congr fun b hb => update_of_ne (fun he : b = c => hc (he ▸ hb)) _ _
  obtain ⟨h', ht⟩ := hkeep.drop
  rw [ht.head_eq] at ht
  -- the cell before the new one lies in `s`
  have hlast : ∀ b ∈ c :: t, s.getLast? ≠ some b := by
    intro b hb he
    have hbs := mem_of_getLast? he
    rcases mem_cons.mp hb with rfl | hbt
    · exact hc (mem_append_left t hbs)
    · exact (disjoint_of_nodup_append hl.nodup) hbs hbt
  refine hkeep.splice ⟨rfl, ?_⟩
  rw [relink_of_ne (hlast c mem_cons_self), update_self]
  exact ht.congr fun b hb => relink_of_ne (hlast b (mem_cons_of_mem c hb))

theorem Linked.erase (hl : Linked next h (s ++ c :: t)) :
    Linked (relink next s.getLast? (next c)) (rehead h s.getLast? (next c)) (s ++ t) := by
  obtain ⟨h', ht⟩ := hl.drop
  refine hl.splice (ht.2.congr fun b hb => relink_of_ne fun he => ?_)
  exact (disjoint_of_nodup_append hl.nodup) (mem_of_getLast? he) (mem_cons_of_mem c hb)

/-- A store through a cursor on a list changes only a link of that list. -/
theorem relink_getLast_of_notMem (ha : a ∉ s) : relink next s.getLast? v a = next a :=
  relink_of_ne fun he => ha (mem_of_getLast? he)

end Store

/-! ## The cursor -/

/-- The cursor moves over the cells that `go` lets it pass: the cell before the
link it stops at, and what that link holds.  `none` when the budget of steps
runs out. -/
def cursor (next : α → Option α) (go : α → Bool) :
    Nat → Option α → Option α → Option (Option α × Option α)
  | 0, _, _ => none
  | _ + 1, prev, none => some (prev, none)
  | n + 1, prev, some c => if go c then cursor next go n (some c) (next c) else some (prev, some c)

/-- With a budget above its length a list is passed as far as `go` allows. -/
theorem cursor_eq {go : α → Bool} {n : Nat} {prev : Option α} (hl : Linked next h l)
    (hn : l.length < n) : cursor next go n prev h =
      some ((l.takeWhile go).getLast?.or prev, (l.dropWhile go).head?) := by
  induction l generalizing h n prev with
  | nil =>
    cases hl
    cases n with
    | zero => exact absurd hn (Nat.not_lt_zero _)
    | succ n => rfl
  | cons a l ih =>
    obtain ⟨rfl, htail⟩ := hl
    cases n with
    | zero => exact absurd hn (Nat.not_lt_zero _)
    | succ n =>
      have hlen : l.length < n := Nat.lt_of_succ_lt_succ hn
      rw [cursor]
      cases hgo : go a with
      | false => simp [hgo]
      | true =>
        rw [ih htail hlen, takeWhile_cons_of_pos hgo, dropWhile_cons_of_pos hgo]
        rw [getLast?_cons]
        cases (l.takeWhile go).getLast? <;> rfl

section Search

variable [DecidableEq α] {n : Nat}

theorem passes_of_notMem (hc : c ∉ s) : ∀ b ∈ s, decide (b ≠ c) = true :=
  fun _ hb => decide_eq_true fun he => hc (he ▸ hb)

theorem takeWhile_ne_append (hc : c ∉ s) : (s ++ c :: t).takeWhile (· ≠ c) = s := by
  rw [takeWhile_append_of_pos (passes_of_notMem hc)]
  simp

theorem dropWhile_ne_append (hc : c ∉ s) : (s ++ c :: t).dropWhile (· ≠ c) = c :: t := by
  rw [dropWhile_append_of_pos (passes_of_notMem hc)]
  simp

theorem cursor_mem (hl : Linked next h (s ++ c :: t)) (hn : (s ++ c :: t).length < n) :
    cursor next (· ≠ c) n none h = some (s.getLast?, some c) := by
  have hc : c ∉ s := fun hm =>
    (disjoint_of_nodup_append hl.nodup) hm mem_cons_self
  rw [cursor_eq hl hn, takeWhile_ne_append hc, dropWhile_ne_append hc, Option.or_none]
  rfl

end Search

/-! ## Queues with a last cell -/

/-- The two pointers of a queue. -/
structure Fifo (α : Type) where
  head : Option α
  tail : Option α
deriving DecidableEq, Repr

namespace Fifo

def empty : Fifo α := ⟨none, none⟩

/-- The queue whose cells are those of `l`: both pointers describe one list. -/
structure Holds (next : α → Option α) (q : Fifo α) (l : List α) : Prop where
  linked : Linked next q.head l
  tail_eq : q.tail = l.getLast?

theorem Holds.empty : Holds next empty [] := ⟨rfl, rfl⟩

variable {q : Fifo α}

theorem Holds.congr (hq : Holds next q l) (he : ∀ a ∈ l, next' a = next a) : Holds next' q l :=
  ⟨hq.linked.congr he, hq.tail_eq⟩

theorem Holds.nodup (hq : Holds next q l) : l.Nodup := hq.linked.nodup

def pop (next : α → Option α) (q : Fifo α) : Option (α × Fifo α) :=
  q.head.map fun c => (c, ⟨next c, if (next c).isNone then none else q.tail⟩)

theorem Holds.pop_nil (hq : Holds next q []) : pop next q = none := by
  rw [pop, hq.linked.head_eq]
  rfl

theorem Holds.pop_cons (hq : Holds next q (c :: l)) :
    ∃ q', pop next q = some (c, q') ∧ Holds next q' l := by
  refine ⟨_, by rw [pop, hq.linked.1]; rfl, hq.linked.2, ?_⟩
  rw [hq.linked.2.head_eq, hq.tail_eq]
  cases l with
  | nil => rfl
  | cons b l => exact getLast?_cons_cons

variable [DecidableEq α]

def push (next : α → Option α) (q : Fifo α) (c : α) : (α → Option α) × Fifo α :=
  match q.tail with
  | some b => (update (update next c none) b (some c), ⟨q.head, some c⟩)
  | none => (update next c none, ⟨some c, some c⟩)

def remove (next : α → Option α) (q : Fifo α) (prev : Option α) (c : α) :
    (α → Option α) × Fifo α :=
  (relink next prev (next c), ⟨rehead q.head prev (next c), if q.tail = some c then prev else q.tail⟩)

theorem Holds.push (hq : Holds next q l) (hc : c ∉ l) :
    Holds (push next q c).1 (push next q c).2 (l ++ [c]) := by
  have hl : Linked next q.head (l ++ []) := by
    rw [append_nil]
    exact hq.linked
  have hins := hl.insert (c := c) (by rwa [append_nil])
  rw [head?_nil, ← hq.tail_eq] at hins
  refine ⟨?_, ?_⟩
  · unfold Fifo.push
    cases htail : q.tail with
    | none =>
      rw [htail] at hins
      exact hins
    | some b =>
      rw [htail] at hins
      exact hins
  · rw [getLast?_concat]
    unfold Fifo.push
    cases q.tail <;> rfl

theorem push_next_of_notMem (hq : Holds next q l) (ha : a ∉ l) (hac : a ≠ c) :
    (push next q c).1 a = next a := by
  have hlast : q.tail ≠ some a := fun he =>
    ha (mem_of_getLast? (hq.tail_eq.symm.trans he))
  unfold push
  cases htail : q.tail with
  | none => exact update_of_ne hac _ _
  | some b =>
    have hab : a ≠ b := fun he => hlast (htail.trans (congrArg some he.symm))
    show update (update next c none) b (some c) a = next a
    rw [update_of_ne hab, update_of_ne hac]

theorem Holds.remove (hq : Holds next q (s ++ c :: t)) :
    Holds (remove next q s.getLast? c).1 (remove next q s.getLast? c).2 (s ++ t) := by
  refine ⟨hq.linked.erase, ?_⟩
  show (if q.tail = some c then s.getLast? else q.tail) = (s ++ t).getLast?
  rw [hq.tail_eq]
  cases t with
  | nil => simp
  | cons b t =>
    have hlast : (s ++ c :: b :: t).getLast? = (s ++ b :: t).getLast? := by
      rw [getLast?_append, getLast?_append, getLast?_cons_cons]
    rw [hlast, if_neg]
    intro he
    -- the last cell would be `c`, which is met once
    have hmem := mem_of_getLast? he
    have hnd := hq.nodup
    rw [nodup_middle, nodup_cons] at hnd
    exact hnd.1 hmem

end Fifo

end ManiOS.Lib

import Mathlib.Data.List.Basic
import Mathlib.Data.Nat.ModEq

/-!
# Rings with free-running counters

A ring keeps elements in a buffer of `size` places.  `head` counts the elements
put in and `tail` those taken out, both modulo `2 ^ 32`, and a counter's place in
the buffer is its remainder by `size`.  As `size` divides `2 ^ 32`, the places
follow each other also where a counter wraps.

`contents` is the queue that the ring holds, oldest first.  `offer` adds to its
end unless the ring is full (`contents_offer`) and `pop` takes its first
(`contents_of_pop`).
-/

namespace ManiOS.Lib

open List

variable {α : Type}

structure Ring (α : Type) where
  buf : Nat → α
  size : Nat
  head : Nat
  tail : Nat
  size_pos : 0 < size
  size_dvd : size ∣ 2 ^ 32
  size_lt : size < 2 ^ 32
  head_lt : head < 2 ^ 32
  tail_lt : tail < 2 ^ 32
  held_le : (head + 2 ^ 32 - tail) % 2 ^ 32 ≤ size

namespace Ring

def held (r : Ring α) : Nat := (r.head + 2 ^ 32 - r.tail) % 2 ^ 32

/-- The element that counter `i` points to. -/
def at' (r : Ring α) (i : Nat) : α := r.buf (i % 2 ^ 32 % r.size)

def contents (r : Ring α) : List α := (List.range r.held).map fun k => r.at' (r.tail + k)

variable {r : Ring α}

theorem held_lt_size (h : r.held ≠ r.size) : r.held < r.size := lt_of_le_of_ne r.held_le h

theorem held_succ (r : Ring α) (h : r.held ≠ r.size) :
    ((r.head + 1) % 2 ^ 32 + 2 ^ 32 - r.tail) % 2 ^ 32 = r.held + 1 := by
  have hlt := held_lt_size h
  have hsize := r.size_lt
  have htail := r.tail_lt
  unfold held at *
  omega

theorem held_pred (r : Ring α) (h : r.head ≠ r.tail) :
    (r.head + 2 ^ 32 - (r.tail + 1) % 2 ^ 32) % 2 ^ 32 + 1 = r.held := by
  have hhead := r.head_lt
  have htail := r.tail_lt
  unfold held
  omega

/-- Add `c` at the end, unless the ring is full. -/
def offer (c : α) (r : Ring α) : Ring α :=
  if h : r.held = r.size then r
  else
    { r with
      buf := Function.update r.buf (r.head % r.size) c
      head := (r.head + 1) % 2 ^ 32
      head_lt := Nat.mod_lt _ (by decide)
      held_le := by
        rw [r.held_succ h]
        exact held_lt_size h }

def pop (r : Ring α) : Option (α × Ring α) :=
  if h : r.head = r.tail then none
  else
    some (r.at' r.tail,
      { r with
        tail := (r.tail + 1) % 2 ^ 32
        tail_lt := Nat.mod_lt _ (by decide)
        held_le := by
          have hpred := r.held_pred h
          have hle : r.held ≤ r.size := r.held_le
          omega })

theorem held_eq_zero : r.held = 0 ↔ r.head = r.tail := by
  have hhead := r.head_lt
  have htail := r.tail_lt
  unfold held
  omega

theorem pop_eq_none : r.pop = none ↔ r.contents = [] := by
  unfold pop contents
  rw [map_eq_nil_iff, range_eq_nil, held_eq_zero]
  split_ifs with h
  · simp [h]
  · simp [h]

/-- Two counters in one window of `size` have different places. -/
theorem place_ne {size i j : Nat} (hdvd : size ∣ 2 ^ 32) (hlt : i < j) (hle : j < i + size) :
    i % 2 ^ 32 % size ≠ j % 2 ^ 32 % size := by
  rw [Nat.mod_mod_of_dvd _ hdvd, Nat.mod_mod_of_dvd _ hdvd]
  intro h
  have hsub : size ∣ j - i := (Nat.modEq_iff_dvd' hlt.le).mp h
  have := Nat.le_of_dvd (by omega) hsub
  omega

theorem head_place (r : Ring α) : r.head % r.size = (r.tail + r.held) % 2 ^ 32 % r.size := by
  have hhead := r.head_lt
  have htail := r.tail_lt
  have hsum : (r.tail + r.held) % 2 ^ 32 = r.head := by
    unfold held
    omega
  rw [hsum]

theorem contents_offer (c : α) (h : r.held ≠ r.size) :
    (r.offer c).contents = r.contents ++ [c] := by
  have hheld : (r.offer c).held = r.held + 1 := by
    unfold offer
    rw [dif_neg h]
    exact r.held_succ h
  have htail : (r.offer c).tail = r.tail := by
    unfold offer
    rw [dif_neg h]
  have hat : ∀ i, (r.offer c).at' i =
      Function.update r.buf (r.head % r.size) c (i % 2 ^ 32 % r.size) := by
    intro i
    unfold offer
    rw [dif_neg h]
    rfl
  unfold contents
  rw [hheld, htail, range_succ, map_append, map_singleton]
  congr 1
  · refine map_congr_left fun k hk => ?_
    rw [hat, r.head_place]
    have hk := mem_range.mp hk
    have hlt := held_lt_size h
    exact Function.update_of_ne
      (place_ne r.size_dvd (by omega : r.tail + k < r.tail + r.held) (by omega)) _ _
  · rw [hat, r.head_place, Function.update_self]

theorem offer_of_full (c : α) (h : r.held = r.size) : r.offer c = r := dif_pos h

theorem contents_of_pop {r' : Ring α} {c : α} (h : r.pop = some (c, r')) :
    r.contents = c :: r'.contents := by
  unfold pop at h
  split_ifs at h with hne
  cases h
  have hheld := r.held_pred hne
  unfold contents
  rw [← hheld, range_succ_eq_map, map_cons, map_map]
  refine congrArg₂ cons rfl (map_congr_left fun k _ => ?_)
  show r.buf ((r.tail + (k + 1)) % 2 ^ 32 % r.size)
    = r.buf (((r.tail + 1) % 2 ^ 32 + k) % 2 ^ 32 % r.size)
  rw [Nat.mod_add_mod, add_assoc, add_comm 1 k]

end Ring

end ManiOS.Lib

import Mathlib.Data.List.Basic

/-!
# Lists with a filler between their elements

`Padded z out w` says that `out` is `w` with any number of `z` put in anywhere.
-/

namespace ManiOS.Lib

variable {α : Type} {z : α}

inductive Padded (z : α) : List α → List α → Prop
  | nil : Padded z [] []
  | keep {out w : List α} (a : α) (h : Padded z out w) : Padded z (a :: out) (a :: w)
  | fill {out w : List α} (h : Padded z out w) : Padded z (z :: out) w

variable {out out' w w' : List α}

theorem Padded.refl : ∀ w : List α, Padded z w w
  | [] => .nil
  | a :: w => .keep a (Padded.refl w)

theorem Padded.append (h : Padded z out w) (h' : Padded z out' w') :
    Padded z (out ++ out') (w ++ w') := by
  induction h with
  | nil => exact h'
  | keep a _ ih => exact .keep a ih
  | fill _ ih => exact .fill ih

theorem Padded.replicate (n : Nat) : Padded z (List.replicate n z) [] := by
  induction n with
  | zero => exact .nil
  | succ n ih => exact .fill ih

theorem Padded.append_replicate (h : Padded z out w) (n : Nat) :
    Padded z (out ++ List.replicate n z) w := by
  have := h.append (.replicate n)
  rwa [List.append_nil] at this

/-- What begins such a list is a part of `w` with the filler put in. -/
theorem Padded.split (h : Padded z (out ++ out') w) :
    ∃ w1 w2, w = w1 ++ w2 ∧ Padded z out w1 ∧ Padded z out' w2 := by
  induction out generalizing w with
  | nil => exact ⟨[], w, rfl, .nil, h⟩
  | cons a out ih =>
    cases h with
    | keep _ h =>
      obtain ⟨w1, w2, rfl, h1, h2⟩ := ih h
      exact ⟨a :: w1, w2, rfl, .keep a h1, h2⟩
    | fill h =>
      obtain ⟨w1, w2, rfl, h1, h2⟩ := ih h
      exact ⟨w1, w2, rfl, .fill h1, h2⟩

theorem Padded.count_eq [DecidableEq α] (h : Padded z out w) {a : α} (ha : a ≠ z) :
    out.count a = w.count a := by
  induction h with
  | nil => rfl
  | keep b _ ih => rw [List.count_cons, List.count_cons, ih]
  | fill _ ih =>
    rw [List.count_cons_of_ne (Ne.symm ha)]
    exact ih

end ManiOS.Lib

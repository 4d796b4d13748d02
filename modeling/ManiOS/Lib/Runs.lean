import Mathlib.Data.Nat.Notation

/-!
# Runs of a labelled transition system

`Reached next s0 s` says that some run of steps `next` leads from `s0` to `s`.
What holds at the start and is kept by every step holds in every state a run
reaches (`Reached.invariant`).  `follow` computes the run that a list of labels
leads along.
-/

namespace ManiOS.Lib

variable {σ α : Type} {next next' : α → σ → σ → Prop} {s0 s : σ}

/-- A run of steps from `s0` to `s`. -/
inductive Reached (next : α → σ → σ → Prop) (s0 : σ) : σ → Prop
  | start : Reached next s0 s0
  | step {s s' : σ} (a : α) (h : Reached next s0 s) (hs : next a s s') : Reached next s0 s'

/-- The invariant rule. -/
theorem Reached.invariant {P : σ → Prop} (h0 : P s0)
    (hstep : ∀ a s s', P s → next a s s' → P s') (h : Reached next s0 s) : P s := by
  induction h with
  | start => exact h0
  | step a _ hs ih => exact hstep a _ _ ih hs

theorem Reached.trans {s' : σ} (h : Reached next s0 s) (h' : Reached next s s') :
    Reached next s0 s' := by
  induction h' with
  | start => exact h
  | step a _ hs ih => exact .step a ih hs

/-- The state that a list of labels leads to. -/
def follow (f : α → σ → Option σ) : List α → σ → Option σ
  | [], s => some s
  | a :: as, s => (f a s).bind (follow f as)

theorem Reached.follow {f : α → σ → Option σ} (hf : ∀ a s s', f a s = some s' → next a s s')
    {as : List α} {s' : σ} (h : Reached next s0 s) (hs : follow f as s = some s') :
    Reached next s0 s' := by
  induction as generalizing s with
  | nil =>
    cases hs
    exact h
  | cons a as ih =>
    obtain ⟨s1, hs1, hrest⟩ := Option.bind_eq_some_iff.mp hs
    exact ih (.step a h (hf a s s1 hs1)) hrest

end ManiOS.Lib

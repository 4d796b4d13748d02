import Mathlib.Order.Defs.Unbundled

/-!
# Runs with more fuel

A run that gives a result gives the same one with more fuel.  `Agrees` says so of
two runs from a state, together with a relation between that state and the one
the run ends in; both are proved in one pass over an interpreter, because each of
its functions is made of results, runs and runs after runs.
-/

namespace ManiOS.Lib

variable {σ α β : Type*}

/-- What the first run gives, the second gives too, and it ends in a state that `F`
relates to `s`. -/
def Agrees (F : σ → σ → Prop) (out : α → σ) (s : σ) (x y : Option α) : Prop :=
  ∀ a, x = some a → y = some a ∧ F s (out a)

namespace Agrees

variable {F : σ → σ → Prop} [IsTrans σ F] {out : α → σ} {out' : β → σ} {s : σ} {x y : Option α}

omit [IsTrans σ F] in
theorem none : Agrees F out s Option.none y := fun _ h => nomatch h

omit [IsTrans σ F] in
theorem some {a : α} (h : F s (out a)) : Agrees F out s (Option.some a) (Option.some a) := by
  intro b hb
  cases hb
  exact ⟨rfl, h⟩

theorem before {t : σ} (hst : F s t) (h : Agrees F out t x y) : Agrees F out s x y :=
  fun a ha => ⟨(h a ha).1, IsTrans.trans _ _ _ hst (h a ha).2⟩

theorem map {f : α → β} (hf : ∀ a, F (out a) (out' (f a))) (h : Agrees F out s x y) :
    Agrees F out' s (x.map f) (y.map f) := by
  intro b hb
  obtain ⟨a, ha, rfl⟩ := Option.map_eq_some_iff.mp hb
  obtain ⟨hy, hF⟩ := h a ha
  exact ⟨by rw [hy, Option.map_some], IsTrans.trans _ _ _ hF (hf a)⟩

theorem bind {f g : α → Option β} (h : Agrees F out s x y)
    (hf : ∀ a, Agrees F out' (out a) (f a) (g a)) : Agrees F out' s (x.bind f) (y.bind g) := by
  intro b hb
  obtain ⟨a, ha, hfa⟩ := Option.bind_eq_some_iff.mp hb
  obtain ⟨hy, hF⟩ := h a ha
  obtain ⟨hg, hG⟩ := hf a b hfa
  exact ⟨by rw [hy, Option.bind_some, hg], IsTrans.trans _ _ _ hF hG⟩

end Agrees

end ManiOS.Lib

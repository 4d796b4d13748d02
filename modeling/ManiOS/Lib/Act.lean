import Mathlib.Logic.Basic

/-!
# Programs that may go wrong

`Act σ α` is the type of programs over a state `σ` with results in `α`.  A
program goes wrong when it does something that has no meaning, such as a store
through a pointer to freed memory.  Then it has no result.

`Goes m s post` says that the program `m` does not go wrong from `s`, and ends
with a result and a state that `post` holds of.  The rules follow the
constructors of programs.
-/

namespace ManiOS.Lib

variable {σ α β : Type}

/-- A program over a state: a result and the state after, or nothing. -/
def Act (σ α : Type) : Type := σ → Option (α × σ)

namespace Act

def bind (m : Act σ α) (f : α → Act σ β) : Act σ β := fun s => (m s).bind fun r => f r.1 r.2

instance : Monad (Act σ) where
  pure a := fun s => some (a, s)
  bind := bind

def get : Act σ σ := fun s => some (s, s)

def modify (f : σ → σ) : Act σ Unit := fun s => some ((), f s)

/-- The program that goes wrong. -/
def wrong : Act σ α := fun _ => none

/-- What the state gives, or the program goes wrong. -/
def gets (f : σ → Option α) : Act σ α := fun s => (f s).map fun a => (a, s)

end Act

/-- From `s` the program does not go wrong, and it ends with `post`. -/
def Goes (m : Act σ α) (s : σ) (post : α → σ → Prop) : Prop :=
  ∃ a s', m s = some (a, s') ∧ post a s'

namespace Goes

variable {m : Act σ α} {f : α → Act σ β} {s : σ} {post : α → σ → Prop} {a : α}

theorem mono {post' : α → σ → Prop} (h : Goes m s post) (himp : ∀ a s', post a s' → post' a s') :
    Goes m s post' := by
  obtain ⟨a, s', hm, hp⟩ := h
  exact ⟨a, s', hm, himp a s' hp⟩

theorem pure (h : post a s) : Goes (pure a : Act σ α) s post := ⟨a, s, rfl, h⟩

theorem bind {post : β → σ → Prop} (h : Goes m s fun a s' => Goes (f a) s' post) :
    Goes (m >>= f) s post := by
  obtain ⟨a, s', hm, b, s'', hf, hp⟩ := h
  refine ⟨b, s'', ?_, hp⟩
  show (m s).bind _ = _
  rw [hm]
  exact hf

theorem get_bind {f : σ → Act σ β} {post : β → σ → Prop} (h : Goes (f s) s post) :
    Goes (Act.get >>= f) s post :=
  bind ⟨s, s, rfl, h⟩

theorem modify {g : σ → σ} {post : Unit → σ → Prop} (h : post () (g s)) :
    Goes (Act.modify g) s post :=
  ⟨(), g s, rfl, h⟩

theorem modify_bind {g : σ → σ} {f : Unit → Act σ β} {post : β → σ → Prop}
    (h : Goes (f ()) (g s) post) : Goes (Act.modify g >>= f) s post :=
  bind ⟨(), g s, rfl, h⟩

theorem gets {g : σ → Option α} (hg : g s = some a) (h : post a s) : Goes (Act.gets g) s post :=
  ⟨a, s, by simp [Act.gets, hg], h⟩

theorem gets_bind {g : σ → Option α} {post : β → σ → Prop} (hg : g s = some a)
    (h : Goes (f a) s post) : Goes (Act.gets g >>= f) s post :=
  bind (gets hg h)

theorem outcome (h : Goes m s post) {s' : σ} (hm : m s = some (a, s')) : post a s' := by
  obtain ⟨b, s'', hm', hp⟩ := h
  rw [hm] at hm'
  cases hm'
  exact hp

end Goes

end ManiOS.Lib

import ManiOS.Lib.Prog

/-!
# Pre- and postconditions over an abstraction

A device is seen through an abstraction: which of its states count as good, and
what a good state stands for.  `Ensures M m n d post` says that the procedure
`m`, started with local state `n` in any good state that stands for `d`, ends
in a good state, and that `post` holds of its result, its local state and what
the device stands for then.  Everything a procedure can do is covered, errors
included, so this is total correctness.

The rules follow the constructors of procedures.  `Yields` is the special case
of a procedure that succeeds in one way, and `Ensures.seq` the rule for a step
that cannot fail.
-/

namespace ManiOS.Lib

variable {Q : Type} {A : Q → Type} {ε σ ω τ δ α β : Type}

/-- A handler, its good states, and what they stand for. -/
structure Abstraction (Q : Type) (A : Q → Type) (τ δ : Type) where
  handler : Prog.Handler Q A τ
  ok : τ → Prop
  view : τ → δ

/-- `m` keeps the state good and ends with `post`. -/
def Ensures (M : Abstraction Q A τ δ) (m : Proc ε σ Q A α) (n : σ) (d : δ)
    (post : Except ε α → σ → δ → Prop) : Prop :=
  ∀ v, M.ok v → M.view v = d →
    M.ok (m.exec M.handler n v).2 ∧
      post (m.exec M.handler n v).1.1 (m.exec M.handler n v).1.2 (M.view (m.exec M.handler n v).2)

/-- `m` succeeds with `a`, and leaves `n'` and `d'`. -/
def Yields (M : Abstraction Q A τ δ) (m : Proc ε σ Q A α) (n : σ) (d : δ) (a : α) (n' : σ)
    (d' : δ) : Prop :=
  Ensures M m n d fun r m' e => r = .ok a ∧ m' = n' ∧ e = d'

variable {M : Abstraction Q A τ δ} {m : Proc ε σ Q A α} {f : α → Proc ε σ Q A β} {n n' : σ}
  {d d' : δ} {a : α} {e : ε}

theorem Ensures.mono {post post' : Except ε α → σ → δ → Prop} (h : Ensures M m n d post)
    (himp : ∀ r n' d', post r n' d' → post' r n' d') : Ensures M m n d post' := by
  intro v hv hd
  obtain ⟨hok, hpost⟩ := h v hv hd
  exact ⟨hok, himp _ _ _ hpost⟩

theorem Ensures.pure {post : Except ε α → σ → δ → Prop} (h : post (.ok a) n d) :
    Ensures M (pure a : Proc ε σ Q A α) n d post := by
  intro v hv hd
  rw [Proc.exec_pure]
  exact ⟨hv, hd ▸ h⟩

theorem Ensures.throw {post : Except ε α → σ → δ → Prop} (h : post (.error e) n d) :
    Ensures M (throw e : Proc ε σ Q A α) n d post := by
  intro v hv hd
  rw [Proc.exec_throw]
  exact ⟨hv, hd ▸ h⟩

theorem Ensures.get {post : Except ε σ → σ → δ → Prop} (h : post (.ok n) n d) :
    Ensures M (Proc.get : Proc ε σ Q A σ) n d post := by
  intro v hv hd
  exact ⟨hv, hd ▸ h⟩

theorem Ensures.modify {g : σ → σ} {post : Except ε Unit → σ → δ → Prop}
    (h : post (.ok ()) (g n) d) : Ensures M (Proc.modify g : Proc ε σ Q A Unit) n d post := by
  intro v hv hd
  exact ⟨hv, hd ▸ h⟩

theorem Ensures.bind {post : Except ε β → σ → δ → Prop} (h : Ensures M m n d fun r n' d' =>
      match r with
      | .ok a => Ensures M (f a) n' d' post
      | .error e => post (.error e) n' d') : Ensures M (m >>= f) n d post := by
  intro v hv hd
  obtain ⟨hok, hpost⟩ := h v hv hd
  rw [Proc.exec_bind]
  rcases hm : m.exec M.handler n v with ⟨⟨r, n'⟩, v'⟩
  rw [hm] at hok hpost
  cases r with
  | ok a => exact hpost v' hok rfl
  | error e => exact ⟨hok, hpost⟩

theorem Ensures.tryCatch {c : ε → Proc ε σ Q A α} {post : Except ε α → σ → δ → Prop}
    (h : Ensures M m n d fun r n' d' =>
      match r with
      | .ok a => post (.ok a) n' d'
      | .error e => Ensures M (c e) n' d' post) : Ensures M (tryCatch m c) n d post := by
  intro v hv hd
  obtain ⟨hok, hpost⟩ := h v hv hd
  rw [Proc.exec_tryCatch]
  rcases hm : m.exec M.handler n v with ⟨⟨r, n'⟩, v'⟩
  rw [hm] at hok hpost
  cases r with
  | ok a => exact ⟨hok, hpost⟩
  | error e => exact hpost v' hok rfl

theorem Ensures.map {f : α → β} {post : Except ε β → σ → δ → Prop}
    (h : Ensures M m n d fun r n' d' => post (r.map f) n' d') : Ensures M (f <$> m) n d post := by
  refine .bind (h.mono ?_)
  intro r n' d' hpost
  cases r with
  | ok a => exact .pure hpost
  | error e => exact hpost

theorem Ensures.onLocal {l : ω} {p : Proc ε ω Q A α} {post : Except ε α → σ → δ → Prop}
    (h : Ensures M p l d fun r _ d' => post r n d') :
    Ensures M (Proc.onLocal l p : Proc ε σ Q A α) n d post := by
  intro v hv hd
  rw [Proc.exec_onLocal]
  exact h v hv hd

/-- A step that cannot fail, and what comes after it. -/
theorem Ensures.seq {mid : α → σ → δ → Prop} {post : Except ε β → σ → δ → Prop}
    (h : Ensures M m n d fun r n' d' => ∃ a, r = .ok a ∧ mid a n' d')
    (hf : ∀ a n' d', mid a n' d' → Ensures M (f a) n' d' post) : Ensures M (m >>= f) n d post := by
  refine .bind (h.mono ?_)
  rintro r n' d' ⟨a, rfl, hmid⟩
  exact hf a n' d' hmid

theorem Ensures.get_bind {f : σ → Proc ε σ Q A β} {post : Except ε β → σ → δ → Prop}
    (h : Ensures M (f n) n d post) : Ensures M (Proc.get >>= f) n d post :=
  .bind (.get h)

theorem Ensures.modify_bind {g : σ → σ} {f : Unit → Proc ε σ Q A β}
    {post : Except ε β → σ → δ → Prop} (h : Ensures M (f ()) (g n) d post) :
    Ensures M (Proc.modify g >>= f) n d post :=
  .bind (.modify h)

/-- A check that fails with `e`, and what comes after it. -/
theorem Ensures.guard {c : Prop} [Decidable c] {f : Unit → Proc ε σ Q A β}
    {post : Except ε β → σ → δ → Prop} (hfail : c → post (.error e) n d)
    (hgo : ¬ c → Ensures M (f ()) n d post) :
    Ensures M (if c then (MonadExcept.throw e >>= f) else f ()) n d post := by
  by_cases hc : c
  · rw [if_pos hc]
    exact .bind (.throw (hfail hc))
  · rw [if_neg hc]
    exact hgo hc

theorem Yields.pure : Yields M (pure a : Proc ε σ Q A α) n d a n d := Ensures.pure ⟨rfl, rfl, rfl⟩

theorem Yields.bind {post : Except ε β → σ → δ → Prop} (h : Yields M m n d a n' d')
    (hf : Ensures M (f a) n' d' post) : Ensures M (m >>= f) n d post := by
  refine .bind (h.mono ?_)
  rintro r m' e ⟨rfl, rfl, rfl⟩
  exact hf

theorem Yields.tryCatch {c : ε → Proc ε σ Q A α} (h : Yields M m n d a n' d') :
    Yields M (tryCatch m c) n d a n' d' := by
  refine Ensures.tryCatch (h.mono ?_)
  rintro r m' e ⟨rfl, rfl, rfl⟩
  exact ⟨rfl, rfl, rfl⟩

theorem Yields.onLocal {l l' : ω} {p : Proc ε ω Q A α} (h : Yields M p l d a l' d') :
    Yields M (Proc.onLocal l p : Proc ε σ Q A α) n d a n d' := by
  refine Ensures.onLocal (h.mono ?_)
  rintro r m' e ⟨rfl, -, rfl⟩
  exact ⟨rfl, rfl, rfl⟩

theorem Yields.post {post : Except ε α → σ → δ → Prop} (h : Yields M m n d a n' d')
    (hp : post (.ok a) n' d') : Ensures M m n d post := by
  refine h.mono ?_
  rintro r m' e ⟨rfl, rfl, rfl⟩
  exact hp

end ManiOS.Lib

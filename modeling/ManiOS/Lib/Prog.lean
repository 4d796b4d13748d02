import Mathlib.Logic.Basic

/-!
# Programs over a device

A *program* asks queries and goes on with the answers.  `Prog Q A α` is the
type of programs with queries `Q`, answers `A q` to the query `q`, and results
in `α`.  A *handler* answers queries from a state, and `run` gives a program
its meaning under a handler.

A program does not see which handler runs it.  So two handlers that answer its
queries alike, from states some relation keeps together, give a program the
same result (`Asks.run_sim`).  The relation is proved to be kept once per query
and not once per program.
-/

namespace ManiOS.Lib

variable {Q : Type} {A : Q → Type} {α β γ σ τ : Type}

/-- A program: a result, or a query and what is done with its answer. -/
inductive Prog (Q : Type) (A : Q → Type) (α : Type) : Type where
  | ret (a : α) : Prog Q A α
  | ask (q : Q) (k : A q → Prog Q A α) : Prog Q A α

namespace Prog

def bind : Prog Q A α → (α → Prog Q A β) → Prog Q A β
  | .ret a, f => f a
  | .ask q k, f => .ask q fun x => bind (k x) f

instance : Monad (Prog Q A) where
  pure := .ret
  bind := bind

/-- A handler: the answer to a query and the state after it. -/
abbrev Handler (Q : Type) (A : Q → Type) (σ : Type) := (q : Q) → σ → A q × σ

/-- The result of a program and the state it leaves, under a handler. -/
def run (h : Handler Q A σ) : Prog Q A α → σ → α × σ
  | .ret a, s => (a, s)
  | .ask q k, s => run h (k (h q s).1) (h q s).2

variable (h : Handler Q A σ)

@[simp] theorem run_ask (q : Q) (k : A q → Prog Q A α) (s : σ) :
    run h (.ask q k) s = run h (k (h q s).1) (h q s).2 := rfl

@[simp] theorem run_bind (p : Prog Q A α) (f : α → Prog Q A β) (s : σ) :
    run h (p >>= f) s = run h (f (run h p s).1) (run h p s).2 := by
  induction p generalizing s with
  | ret a => rfl
  | ask q k ih =>
    exact ih _ _

/-- Every query the program may ask satisfies `ok`, and its result `last`. -/
def Asks (ok : Q → Prop) (last : α → Prop) : Prog Q A α → Prop
  | .ret a => last a
  | .ask q k => ok q ∧ ∀ x, Asks ok last (k x)

variable {ok : Q → Prop} {last : α → Prop} {p : Prog Q A α}

theorem Asks.bind {last' : β → Prop} {f : α → Prog Q A β} (hp : p.Asks ok last)
    (hf : ∀ a, last a → (f a).Asks ok last') : (p >>= f).Asks ok last' := by
  induction p with
  | ret a => exact hf a hp
  | ask q k ih => exact ⟨hp.1, fun x => ih x (hp.2 x)⟩

theorem Asks.run_last (hp : p.Asks ok last) (s : σ) : last (run h p s).1 := by
  induction p generalizing s with
  | ret a => exact hp
  | ask q k ih => exact ih _ (hp.2 _) _

/-- Handlers that agree on the queries of a program, up to a relation of their
states, agree on the program. -/
theorem Asks.run_sim {h : Handler Q A σ} {h' : Handler Q A τ} {R : σ → τ → Prop}
    (hp : p.Asks ok last)
    (hR : ∀ q s t, ok q → R s t → (h q s).1 = (h' q t).1 ∧ R (h q s).2 (h' q t).2) {s : σ} {t : τ}
    (hst : R s t) : (run h p s).1 = (run h' p t).1 ∧ R (run h p s).2 (run h' p t).2 := by
  induction p generalizing s t with
  | ret a => exact ⟨rfl, hst⟩
  | ask q k ih =>
    obtain ⟨hans, hst'⟩ := hR q s t hp.1 hst
    rw [run_ask, hans]
    exact ih _ (hp.2 _) hst'

/-- A handler that also keeps the queries it was asked, in order. -/
def logged (h : Handler Q A σ) : Handler Q A (σ × List Q) := fun q s =>
  ((h q s.1).1, ((h q s.1).2, s.2 ++ [q]))

theorem asks_any (p : Prog Q A α) : p.Asks (fun _ => True) fun _ => True := by
  induction p with
  | ret a => trivial
  | ask q k ih => exact ⟨trivial, ih⟩

end Prog

/-! ## Procedures

A procedure is a program that may fail with an error in `ε` and keeps a local
state in `σ`, which an error does not undo. -/

/-- A procedure from a local state to a result or an error. -/
def Proc (ε σ : Type) (Q : Type) (A : Q → Type) (α : Type) : Type :=
  σ → Prog Q A (Except ε α × σ)

namespace Proc

variable {ε ω : Type}

/-- Run a procedure and go on with its result.  An error ends the whole. -/
def bind (m : Proc ε σ Q A α) (f : α → Proc ε σ Q A β) : Proc ε σ Q A β := fun n =>
  m n >>= fun
    | (.ok a, n') => f a n'
    | (.error e, n') => .ret (.error e, n')

instance : Monad (Proc ε σ Q A) where
  pure a := fun n => .ret (.ok a, n)
  bind := bind

instance : MonadExceptOf ε (Proc ε σ Q A) where
  throw e := fun n => .ret (.error e, n)
  tryCatch m f := fun n =>
    m n >>= fun
      | (.ok a, n') => .ret (.ok a, n')
      | (.error e, n') => f e n'

def get : Proc ε σ Q A σ := fun n => .ret (.ok n, n)

def modify (f : σ → σ) : Proc ε σ Q A Unit := fun n => .ret (.ok (), f n)

/-- Ask one query of the device. -/
def query (q : Q) : Proc ε σ Q A (A q) := fun n => .ask q fun a => .ret (.ok a, n)

/-- Run a procedure on a local state of its own, which ends with it. -/
def onLocal (l : ω) (m : Proc ε ω Q A α) : Proc ε σ Q A α := fun n =>
  m l >>= fun r => .ret (r.1, n)

/-- The outcome of a procedure under a handler: its result, its local state and
the state of the device. -/
def exec (h : Prog.Handler Q A τ) (m : Proc ε σ Q A α) (n : σ) (v : τ) :
    (Except ε α × σ) × τ :=
  Prog.run h (m n) v

variable (h : Prog.Handler Q A τ)

@[simp] theorem exec_pure (a : α) (n : σ) (v : τ) :
    exec h (pure a : Proc ε σ Q A α) n v = ((.ok a, n), v) := rfl

@[simp] theorem exec_throw (e : ε) (n : σ) (v : τ) :
    exec h (throw e : Proc ε σ Q A α) n v = ((.error e, n), v) := rfl

@[simp] theorem exec_get (n : σ) (v : τ) :
    exec h (get : Proc ε σ Q A σ) n v = ((.ok n, n), v) := rfl

@[simp] theorem exec_query (q : Q) (n : σ) (v : τ) :
    exec h (query q : Proc ε σ Q A (A q)) n v = ((.ok (h q v).1, n), (h q v).2) := rfl

theorem exec_bind (m : Proc ε σ Q A α) (f : α → Proc ε σ Q A β) (n : σ) (v : τ) :
    exec h (m >>= f) n v = match exec h m n v with
      | ((.ok a, n'), v') => exec h (f a) n' v'
      | ((.error e, n'), v') => ((.error e, n'), v') := by
  show Prog.run h (m n >>= _) v = _
  rw [Prog.run_bind]
  unfold exec
  rcases Prog.run h (m n) v with ⟨⟨r, n'⟩, v'⟩
  cases r with
  | ok a => rfl
  | error e => rfl

theorem exec_bind_ok {m : Proc ε σ Q A α} {n n' : σ} {v v' : τ} {a : α}
    (hm : exec h m n v = ((.ok a, n'), v')) (f : α → Proc ε σ Q A β) :
    exec h (m >>= f) n v = exec h (f a) n' v' := by
  rw [exec_bind, hm]

theorem exec_bind_error {m : Proc ε σ Q A α} {n n' : σ} {v v' : τ} {e : ε}
    (hm : exec h m n v = ((.error e, n'), v')) (f : α → Proc ε σ Q A β) :
    exec h (m >>= f) n v = ((.error e, n'), v') := by
  rw [exec_bind, hm]

theorem exec_tryCatch (m : Proc ε σ Q A α) (f : ε → Proc ε σ Q A α) (n : σ) (v : τ) :
    exec h (tryCatch m f) n v = match exec h m n v with
      | ((.ok a, n'), v') => ((.ok a, n'), v')
      | ((.error e, n'), v') => exec h (f e) n' v' := by
  show Prog.run h (m n >>= _) v = _
  rw [Prog.run_bind]
  unfold exec
  rcases Prog.run h (m n) v with ⟨⟨r, n'⟩, v'⟩
  cases r with
  | ok a => rfl
  | error e => rfl

@[simp] theorem exec_onLocal (l : ω) (m : Proc ε ω Q A α) (n : σ) (v : τ) :
    exec h (onLocal l m : Proc ε σ Q A α) n v =
      (((exec h m l v).1.1, n), (exec h m l v).2) := by
  show Prog.run h (m l >>= _) v = _
  rw [Prog.run_bind]
  rfl

/-- Handlers that agree up to a relation of their states agree on every
procedure. -/
theorem exec_sim {υ : Type} {h : Prog.Handler Q A τ} {h' : Prog.Handler Q A υ} {R : τ → υ → Prop}
    (hR : ∀ q s t, R s t → (h q s).1 = (h' q t).1 ∧ R (h q s).2 (h' q t).2)
    (m : Proc ε σ Q A α) (n : σ) {s : τ} {t : υ} (hst : R s t) :
    (exec h m n s).1 = (exec h' m n t).1 ∧ R (exec h m n s).2 (exec h' m n t).2 :=
  (m n).asks_any.run_sim (fun q s t _ => hR q s t) hst

/-! ### What a procedure asks -/

/-- Every query `m` may ask satisfies `ok`, and it does not change what `f` sees
of the local state. -/
def Asks (ok : Q → Prop) (f : σ → γ) (m : Proc ε σ Q A α) : Prop :=
  ∀ n, (m n).Asks ok fun x => f x.2 = f n

section Asks

variable {ok : Q → Prop} {f : σ → γ} {m : Proc ε σ Q A α}

theorem Asks.pure (a : α) : Asks ok f (pure a : Proc ε σ Q A α) := fun _ => rfl

theorem Asks.throw (e : ε) : Asks ok f (throw e : Proc ε σ Q A α) := fun _ => rfl

theorem Asks.get : Asks ok f (get : Proc ε σ Q A σ) := fun _ => rfl

theorem Asks.modify {k : σ → σ} (hk : ∀ n, f (k n) = f n) :
    Asks ok f (modify k : Proc ε σ Q A Unit) := hk

theorem Asks.query {q : Q} (hq : ok q) : Asks ok f (query q : Proc ε σ Q A (A q)) :=
  fun _ => ⟨hq, fun _ => rfl⟩

theorem Asks.bind {k : α → Proc ε σ Q A β} (hm : Asks ok f m)
    (hk : ∀ a, Asks ok f (k a)) : Asks ok f (m >>= k) := by
  refine fun n => .bind (hm n) ?_
  rintro ⟨r, n'⟩ hn
  cases r with
  | ok a => exact hn ▸ hk a n'
  | error e => exact hn

theorem Asks.tryCatch {k : ε → Proc ε σ Q A α} (hm : Asks ok f m)
    (hk : ∀ e, Asks ok f (k e)) : Asks ok f (tryCatch m k) := by
  refine fun n => Prog.Asks.bind (hm n) ?_
  rintro ⟨r, n'⟩ hn
  cases r with
  | ok a => exact hn
  | error e => exact hn ▸ hk e n'

theorem Asks.ite {c : Prop} [Decidable c] {m' : Proc ε σ Q A α} (hm : Asks ok f m)
    (hm' : Asks ok f m') : Asks ok f (if c then m else m') := by
  split
  · exact hm
  · exact hm'

theorem Asks.onLocal {γ' : Type} {f' : ω → γ'} {l : ω} {m : Proc ε ω Q A α} (hm : Asks ok f' m) :
    Asks ok f (onLocal l m : Proc ε σ Q A α) :=
  fun _ => Prog.Asks.bind (hm l) fun _ _ => rfl

theorem Asks.still {h : Prog.Handler Q A τ} (hm : Asks ok f m) (n : σ) (v : τ) :
    f (exec h m n v).1.2 = f n :=
  (hm n).run_last h v

theorem Asks.kept {h : Prog.Handler Q A τ} (hm : Asks ok f m)
    (hok : ∀ q v, ok q → (h q v).2 = v) (n : σ) (v : τ) : (exec h m n v).2 = v := by
  have hstep : ∀ q s t, ok q → s = v ∧ t = v →
      (h q s).1 = (h q t).1 ∧ (h q s).2 = v ∧ (h q t).2 = v := by
    rintro q s t hq ⟨rfl, rfl⟩
    exact ⟨rfl, hok q _ hq, hok q _ hq⟩
  exact ((hm n).run_sim (R := fun s t => s = v ∧ t = v) hstep ⟨rfl, rfl⟩).2.1

end Asks

end Proc

end ManiOS.Lib

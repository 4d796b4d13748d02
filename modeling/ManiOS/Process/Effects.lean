import ManiOS.Process.Life

/-!
# What a step of a process call frees

A step of a process call frees a structure in four places.  `process_spawn`
gives up a process whose program does not load, or that gets no thread.
`process_wait` and `process_reap` free the child that they have collected.
`process_exit` frees the children that have exited, and the process itself if
it is an orphan.  `Effect` says this of one step, and what else the step does to
the structures and to the actor that makes it.  It needs no invariant.
-/

namespace ManiOS.Process

open Function (update update_self update_of_ne)

/-- A process that an actor is about to list, to start or to give up. -/
def Pc.new : Pc → Option Ptr
  | .spawning p | .listed p | .failed p => some p
  | _ => none

def Event.actor : Event → Actor
  | .spawn a | .load a _ | .create a _ | .wait a _ | .go a => a
  | .reap p | .exit p _ => .user p

namespace State

/-- What `process_exit` of process `n` frees. -/
def Loses (n : Ptr) (s : State) (p : Ptr) : Prop :=
  ∃ q, s.mem p = some q ∧ (q.parent = some n ∧ q.exited = true ∨ p = n ∧ q.orphaned = true)

/-- What a step frees. -/
def Drops (s : State) (p : Ptr) : Event → Prop
  | .load a (some _) => s.pc a = .spawning p
  | .go a => match s.pc a with
      | .failed x | .collected x => p = x
      | .exiting _ => ∃ n, a = .user n ∧ s.Loses n p
      | _ => False
  | _ => False

/-- A step frees a process that its actor is spawning, one that it has collected, or
what `process_exit` frees. -/
theorem Drops.cases {s : State} {p : Ptr} {e : Event} (h : s.Drops p e) :
    (s.pc e.actor).new = some p ∨ (∃ a, e = .go a ∧ s.pc a = .collected p) ∨
      ∃ n status, e = .go (.user n) ∧ s.pc (.user n) = .exiting status ∧ s.Loses n p := by
  cases e with
  | load a err =>
    cases err with
    | none => exact absurd h not_false
    | some e => exact .inl (congrArg Pc.new (show s.pc a = .spawning p from h))
  | go a =>
    rw [Drops] at h
    split at h
    next x hpc =>
      subst h
      exact .inl (congrArg Pc.new hpc)
    next x hpc =>
      subst h
      exact .inr (.inl ⟨a, rfl, hpc⟩)
    next status hpc =>
      obtain ⟨n, rfl, hloses⟩ := h
      exact .inr (.inr ⟨n, status, rfl, hpc, hloses⟩)
    next => exact absurd h not_false
  | _ => exact absurd h not_false

/-- The process that a step marks as exited. -/
def Ends (s : State) (p : Ptr) : Event → Prop
  | .go a => a = .user p ∧ ∃ status, s.pc a = .exiting status
  | _ => False

end State

/-- What a step does to the structures, all but those that it `drops`, and to the
actor that takes it. -/
structure Effect (a : Actor) (drops ends : Ptr → Prop) (s s' : State) : Prop where
  count : s'.count = s.count
  spawner : s'.spawner = s.spawner
  pc : ∀ b, b ≠ a → s'.pc b = s.pc b
  new : ∀ p, (s'.pc a).new = some p → (s.pc a).new = some p ∧ ¬ drops p ∧ ¬ ends p
  collected : ∀ p, s'.pc a = .collected p → ∃ q, s'.mem p = some q ∧ q.exited = true
  kept : ∀ p q, s.mem p = some q → ¬ drops p →
    ∃ q', s'.mem p = some q' ∧ (¬ ends p → q'.exited = q.exited)
  old : ∀ p q', s'.mem p = some q' → ∃ q, s.mem p = some q ∧
    (q.exited = true → q'.exited = true) ∧ (q'.parent = q.parent ∨ q'.parent = none)

attribute [local grind =] Pc.new Function.update_apply

section

variable {a : Actor} {p : Ptr} {q : Proc} {s s' : State} {drops ends : Ptr → Prop} {n : Ptr}
  {pc' : Pc}

theorem Effect.set (hq : s.mem p = some q) (q' : Proc) (hex : q'.exited = q.exited)
    (hparent : q'.parent = q.parent) (hmem : s'.mem = update s.mem p (some q'))
    (hpc : s'.pc = update s.pc a pc') (hcount : s'.count = s.count)
    (hspawner : s'.spawner = s.spawner)
    (hnew : ∀ x, pc'.new = some x → (s.pc a).new = some x ∧ ¬ drops x ∧ ¬ ends x)
    (hcollected : ∀ x, pc' = .collected x → x = p ∧ q.exited = true) :
    Effect a drops ends s s' := by
  constructor <;> simp only [hmem, hpc, hcount, hspawner] <;> grind

theorem Effect.free (hp : drops p) (hmem : s'.mem = update s.mem p none)
    (hpc : s'.pc = update s.pc a pc') (hnew : pc'.new = none) (hcollected : ∀ x, pc' ≠ .collected x)
    (hcount : s'.count = s.count) (hspawner : s'.spawner = s.spawner) :
    Effect a drops ends s s' := by
  constructor <;> simp only [hmem, hpc, hcount, hspawner] <;> grind

theorem Effect.move (hmem : s'.mem = s.mem) (hpc : s'.pc = update s.pc a pc')
    (hcount : s'.count = s.count) (hspawner : s'.spawner = s.spawner)
    (hnew : ∀ x, pc'.new = some x → (s.pc a).new = some x ∧ ¬ drops x ∧ ¬ ends x)
    (hcollected : ∀ x, pc' = .collected x → ∃ q, s.mem x = some q ∧ q.exited = true) :
    Effect a drops ends s s' := by
  constructor <;> simp only [hmem, hpc, hcount, hspawner] <;> grind

/-! ## `process_spawn` -/

open Option (bind_eq_some_iff map_eq_some_iff some)

theorem State.free_spec (h : s.free p = some s') :
    s' = { s with mem := update s.mem p none, freed := p :: s.freed } := by
  obtain ⟨q, -, h⟩ := map_eq_some_iff.mp h
  exact h.symm

theorem State.unlinkProcess_spec (h : s.unlinkProcess p = some s') :
    s' = { s with processes := s.processes.erase p } := by
  rw [State.unlinkProcess] at h
  split at h
  · exact (some.inj h).symm
  · cases h

/-- The program does not load, or there is no thread. -/
theorem Effect.give_up {r : Int} (hp : drops p) (h : (s.free p).map (State.back a r) = some s') :
    Effect a drops ends s s' := by
  obtain ⟨s1, hs1, h⟩ := map_eq_some_iff.mp h
  cases State.free_spec hs1
  cases h
  exact .free hp rfl rfl rfl nofun rfl rfl

theorem Effect.load (hpc : s.pc a = .spawning p) (hp : ¬ drops p) (he : ¬ ends p)
    (h : s.load a p none = some s') : Effect a drops ends s s' := by
  obtain ⟨q, hq, h⟩ := map_eq_some_iff.mp h
  cases h
  refine .set hq { q with pid := s.nextPid } rfl rfl rfl rfl rfl rfl (fun x hx => ?_) nofun
  cases hx
  exact ⟨by rw [hpc]; rfl, hp, he⟩

theorem Effect.create_fails (hpc : s.pc a = .listed p) (hp : ¬ drops p) (he : ¬ ends p)
    (h : s.create a p false = some s') : Effect a drops ends s s' := by
  obtain ⟨s1, hs1, h⟩ := map_eq_some_iff.mp h
  cases State.unlinkProcess_spec hs1
  cases h
  refine .move rfl rfl rfl rfl (fun x hx => ?_) nofun
  cases hx
  exact ⟨by rw [hpc]; rfl, hp, he⟩

/-! ## `process_wait` and `process_reap` -/

theorem Effect.back (r : Int) : Effect a drops ends s (s.back a r) :=
  .move rfl rfl rfl rfl nofun nofun

theorem search_spec {test : Proc → Bool} {l : List Ptr} (h : s.search test l = some (some p)) :
    ∃ q, s.mem p = some q ∧ test q = true := by
  induction l with
  | nil => cases h
  | cons x l ih =>
    obtain ⟨q, hq, h⟩ := bind_eq_some_iff.mp h
    split at h
    next ht =>
      cases h
      exact ⟨q, hq, ht⟩
    next => exact ih h

theorem Effect.collect (hq : s.mem p = some q) (he : q.exited = true)
    (h : (s.unlinkProcess p).map (State.goto a (.collected p)) = some s') :
    Effect a drops ends s s' := by
  obtain ⟨s1, hs1, h⟩ := map_eq_some_iff.mp h
  cases State.unlinkProcess_spec hs1
  cases h
  refine .move rfl rfl rfl rfl nofun fun x hx => ?_
  cases hx
  exact ⟨q, hq, he⟩

theorem Effect.recheck (hq : s.mem p = some q) (q' : Proc) (hex : q'.exited = q.exited)
    (hparent : q'.parent = q.parent) (h : (s.set p q').recheck a p = some s') :
    Effect a drops ends s s' := by
  rw [State.recheck, State.set_mem_self, Option.bind_some] at h
  split at h
  next he =>
    obtain ⟨s1, hs1, h⟩ := map_eq_some_iff.mp h
    cases State.unlinkProcess_spec hs1
    cases h
    refine .set hq q' hex hparent rfl rfl rfl rfl nofun fun x hx => ?_
    cases hx
    exact ⟨rfl, hex ▸ he⟩
  next =>
    cases h
    exact .set hq q' hex hparent rfl rfl rfl rfl nofun nofun

theorem Effect.wait {pid : Int} (h : s.wait a pid = some s') : Effect a drops ends s s' := by
  obtain ⟨found, -, h⟩ := bind_eq_some_iff.mp h
  cases found with
  | none =>
    cases h
    exact .back _
  | some p =>
    obtain ⟨q, hq, h⟩ := bind_eq_some_iff.mp h
    exact .recheck hq { q with waitedOn := true } rfl rfl h

theorem Effect.reap (h : s.reap a = some s') : Effect a drops ends s s' := by
  obtain ⟨found, hf, h⟩ := bind_eq_some_iff.mp h
  cases found with
  | some p =>
    obtain ⟨q, hq, ht⟩ := search_spec hf
    exact .collect hq (Bool.and_eq_true_iff.mp ht).2 h
  | none =>
    obtain ⟨found, -, h⟩ := map_eq_some_iff.mp h
    cases found <;> cases h <;> exact .back _

theorem Effect.deliver (hp : drops p) (h : s.deliver a p = some s') : Effect a drops ends s s' := by
  obtain ⟨q, -, h⟩ := bind_eq_some_iff.mp h
  obtain ⟨s1, hs1, h⟩ := map_eq_some_iff.mp h
  cases State.free_spec hs1
  cases h
  exact .free hp rfl rfl rfl nofun rfl rfl

/-! ## `process_exit` -/

/-- The loop of `process_exit` over the children of process `n`. -/
structure Orphaned (n : Ptr) (s s' : State) : Prop where
  count : s'.count = s.count
  spawner : s'.spawner = s.spawner
  pc : s'.pc = s.pc
  kept : ∀ p q, s.mem p = some q → ¬ (q.parent = some n ∧ q.exited = true) →
    ∃ q', s'.mem p = some q' ∧ q'.exited = q.exited ∧ (q.parent ≠ some n → q' = q)
  old : ∀ p q', s'.mem p = some q' → ∃ q, s.mem p = some q ∧ q'.exited = q.exited ∧
    (q'.parent = q.parent ∨ q'.parent = none)

theorem Orphaned.refl (n : Ptr) (s : State) : Orphaned n s s where
  count := rfl
  spawner := rfl
  pc := rfl
  kept _ q hq _ := ⟨q, hq, rfl, fun _ => rfl⟩
  old _ q hq := ⟨q, hq, rfl, .inl rfl⟩

theorem Orphaned.trans {s1 : State} (h : Orphaned n s s1) (h' : Orphaned n s1 s') :
    Orphaned n s s' where
  count := h'.count.trans h.count
  spawner := h'.spawner.trans h.spawner
  pc := h'.pc.trans h.pc
  kept p q hq hn := by
    obtain ⟨q1, hq1, he1, hsame1⟩ := h.kept p q hq hn
    have hn1 : ¬ (q1.parent = some n ∧ q1.exited = true) := by grind
    obtain ⟨q', hq', he', hsame'⟩ := h'.kept p q1 hq1 hn1
    exact ⟨q', hq', he'.trans he1, fun hne => by grind⟩
  old p q' hq' := by
    obtain ⟨q1, hq1, he', hparent'⟩ := h'.old p q' hq'
    obtain ⟨q, hq, he, hparent⟩ := h.old p q1 hq1
    exact ⟨q, hq, he'.trans he, by grind⟩

theorem Orphaned.child {c : Ptr} {x : Option Proc} (hq : s.mem c = some q)
    (hparent : q.parent = some n) (hmem : s'.mem = update s.mem c x)
    (hx : (x = none ∧ q.exited = true) ∨
      ∃ q', x = some q' ∧ q'.exited = q.exited ∧ q'.parent = none)
    (hcount : s'.count = s.count) (hspawner : s'.spawner = s.spawner) (hpc : s'.pc = s.pc) :
    Orphaned n s s' := by
  constructor <;> simp only [hmem, hpc, hcount, hspawner] <;> grind

theorem orphaned {l : List Ptr} (h : s.orphan n l = some s') : Orphaned n s s' := by
  induction l generalizing s with
  | nil =>
    cases h
    exact .refl n _
  | cons c l ih =>
    obtain ⟨q, hq, h⟩ := bind_eq_some_iff.mp h
    split at h
    next hparent =>
      split at h
      next he =>
        obtain ⟨s1, hs1, h⟩ := bind_eq_some_iff.mp h
        obtain ⟨s2, hs2, hs1⟩ := bind_eq_some_iff.mp hs1
        cases State.unlinkProcess_spec hs2
        cases State.free_spec hs1
        refine .trans ?_ (ih h)
        exact .child hq hparent (Function.update_idem ..) (.inl ⟨rfl, he⟩) rfl rfl rfl
      next =>
        refine .trans ?_ (ih h)
        exact .child hq hparent rfl (.inr ⟨_, rfl, rfl, rfl⟩) rfl rfl rfl
    next => exact ih h

theorem Effect.of_orphaned {s1 : State} {r : Proc} {x : Option Proc}
    (h : Orphaned n s s1) (hr : s.mem n = some r)
    (hdrops : ∀ p, drops p ↔ s.Loses n p) (hends : ∀ p, ends p ↔ p = n)
    (hmem : s'.mem = update s1.mem n x) (hx : (x = none ∧ r.orphaned = true) ∨
      ∃ q', x = some q' ∧ q'.exited = true ∧ q'.parent = r.parent)
    (hpc : s'.pc = update s1.pc (.user n) .gone) (hcount : s'.count = s1.count)
    (hspawner : s'.spawner = s1.spawner) : Effect (.user n) drops ends s s' where
  count := hcount.trans h.count
  spawner := hspawner.trans h.spawner
  pc b hb := by rw [hpc, update_of_ne hb, h.pc]
  new p hp := by
    rw [hpc, update_self] at hp
    cases hp
  collected p hp := by
    rw [hpc, update_self] at hp
    cases hp
  kept p q hq hno := by
    rw [hdrops] at hno
    by_cases hp : p = n
    · subst hp
      rw [hmem, update_self]
      rcases hx with ⟨-, ho⟩ | ⟨q', hx, -⟩
      · exact absurd ⟨r, hr, .inr ⟨rfl, ho⟩⟩ hno
      · exact ⟨q', hx, fun he => absurd ((hends p).mpr rfl) he⟩
    · obtain ⟨q', hq', he, -⟩ := h.kept p q hq fun hc => hno ⟨q, hq, .inl hc⟩
      rw [hmem, update_of_ne hp]
      exact ⟨q', hq', fun _ => he⟩
  old p q' hq' := by
    rw [hmem] at hq'
    by_cases hp : p = n
    · subst hp
      rw [update_self] at hq'
      rcases hx with ⟨hx, -⟩ | ⟨q', hx, he, hparent⟩ <;> rw [hx] at hq' <;> cases hq'
      exact ⟨r, hr, fun _ => he, .inl hparent⟩
    · rw [update_of_ne hp] at hq'
      obtain ⟨q, hq, he, hparent⟩ := h.old p q' hq'
      exact ⟨q, hq, fun hqe => he.trans hqe, hparent⟩

/-- The stretch of `process_exit` with interrupts off.  No process is its own
parent. -/
theorem Effect.exit {status : Int} (hself : ∀ q, s.mem n = some q → q.parent ≠ some n)
    (hdrops : ∀ p, drops p ↔ s.Loses n p) (hends : ∀ p, ends p ↔ p = n)
    (h : s.exit n status = some s') : Effect (.user n) drops ends s s' := by
  obtain ⟨s1, hs1, h⟩ := bind_eq_some_iff.mp h
  have ho := orphaned hs1
  obtain ⟨r, hr, h⟩ := bind_eq_some_iff.mp h
  have hn : s.mem n = some r := by
    obtain ⟨q, hq, -⟩ := ho.old n r hr
    obtain ⟨q', hq', -, hsame⟩ := ho.kept n q hq fun hp => hself q hq hp.1
    rw [hq, ← hsame (hself q hq), ← hq', hr]
  split at h
  next hor =>
    obtain ⟨s2, hs2, h⟩ := bind_eq_some_iff.mp h
    cases State.unlinkProcess_spec hs2
    cases State.free_spec h
    exact .of_orphaned ho hn hdrops hends (Function.update_idem ..) (.inl ⟨rfl, hor⟩) rfl rfl rfl
  next =>
    cases h
    exact .of_orphaned ho hn hdrops hends rfl (.inr ⟨_, rfl, rfl, rfl⟩) rfl rfl rfl

/-! ## A step -/

/-- Every step but a spawn and the start of a thread. -/
theorem Effect.step {e : Event} (hself : ∀ p q, s.mem p = some q → q.parent ≠ some p)
    (hspawn : ∀ a, e ≠ .spawn a) (hstart : ∀ a, e ≠ .create a true) (h : s.perform e = some s') :
    Effect e.actor (fun p => s.Drops p e) (fun p => s.Ends p e) s s' := by
  cases e with
  | spawn a => exact absurd rfl (hspawn a)
  | load a err =>
    rw [State.perform] at h
    split at h
    next p hpc =>
      cases err with
      | some e => exact .give_up (p := p) hpc h
      | none => exact .load hpc not_false not_false h
    next => cases h
  | create a ok =>
    cases ok with
    | true => exact absurd rfl (hstart a)
    | false =>
      rw [State.perform] at h
      split at h
      next p hpc => exact .create_fails hpc not_false not_false h
      next => cases h
  | wait a pid => exact .wait h
  | reap p => exact .reap h
  | exit p status =>
    cases h
    exact .move rfl rfl rfl rfl nofun nofun
  | go a =>
    have hgo : s.go a = some s' := h
    rw [State.go] at hgo
    split at hgo
    next p hpc =>
      obtain ⟨q, -, hgo⟩ := map_eq_some_iff.mp hgo
      cases hgo
      exact .back _
    next p hpc => exact .give_up (p := p) (by simp [State.Drops, hpc]) hgo
    next p hpc =>
      obtain ⟨q, hq, -⟩ := bind_eq_some_iff.mp hgo
      refine .recheck hq q rfl rfl ?_
      rw [State.set_same hq]
      exact hgo
    next p hpc => exact .deliver (p := p) (by simp [State.Drops, hpc]) hgo
    next status hpc =>
      obtain ⟨n, hn, hgo⟩ := bind_eq_some_iff.mp hgo
      cases Actor.ptr_eq_some.mp hn
      refine .exit (hself n) (fun p => ?_) (fun p => ?_) hgo
      · simp [State.Drops, hpc]
      · simp [State.Ends, hpc, eq_comm]
    next => cases hgo

end

end ManiOS.Process

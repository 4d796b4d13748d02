import ManiOS.Process.Calls

/-!
# The life of a process

Seen from outside, a process goes through a few stages, and nothing else is to
be known about its structure: whether it is allocated, on the list, in the hands
of the actor that spawned it, or freed.  `Rep` says how a state of the code
shows a stage for every process.  `Kin` says how parents and children are
linked.  Each step moves a process from one stage to another and keeps both.

A step changes one process and one actor.  A field of `Rep` or `Kin` that is about others
holds as before, and for these two it follows from the stages before and after; what a
proof states first is why no other actor is at the process.
-/

namespace ManiOS.Process

open Function (update)

/-! ## Stages -/

/-- The stage of a process.  A process that is being spawned, that failed to get a
thread or that was collected is in the hands of its spawner. -/
inductive Stage where
  | unborn | spawning | listed | failed | alive | zombie | collected | freed
deriving DecidableEq, Repr

def Stage.allocated : Stage → Bool
  | .unborn | .freed => false
  | _ => true

def Stage.onList : Stage → Bool
  | .listed | .alive | .zombie => true
  | _ => false

def Stage.over : Stage → Bool
  | .zombie | .collected => true
  | _ => false

/-- The process has no thread yet. -/
def Stage.early : Stage → Bool
  | .spawning | .listed | .failed => true
  | _ => false

/-- The thread is there and may make calls. -/
def Pc.alive : Pc → Bool
  | .out | .gone => false
  | _ => true

theorem Actor.ptr_eq_some {a : Actor} {p : Ptr} : a.ptr = some p ↔ a = .user p := by
  cases a <;> simp [Actor.ptr]

/-- A state shows the stages. -/
structure Rep (s : State) (σ : Ptr → Stage) : Prop where
  nodup : s.processes.Nodup
  unborn : ∀ p, σ p = .unborn ↔ s.count ≤ p
  mem : ∀ p, s.mem p = none ↔ (σ p).allocated = false
  listed : ∀ p, p ∈ s.processes ↔ (σ p).onList = true
  exited : ∀ p q, s.mem p = some q → q.exited = (σ p).over
  freed : ∀ p, p ∈ s.freed ↔ σ p = .freed
  freedOnce : s.freed.Nodup
  spawning : ∀ a p, s.pc a = .spawning p ↔ s.spawner p = a ∧ σ p = .spawning
  new : ∀ a p, s.pc a = .listed p ↔ s.spawner p = a ∧ σ p = .listed
  failed : ∀ a p, s.pc a = .failed p ↔ s.spawner p = a ∧ σ p = .failed
  collected : ∀ a p, s.pc a = .collected p ↔ s.spawner p = a ∧ σ p = .collected
  alive : ∀ p, (s.pc (.user p)).alive = true ↔ σ p = .alive
  kernel : ∀ k, (s.pc (.kernel k)).alive = true

/-- How processes are linked to their parents, and what was handed over. -/
structure Kin (s : State) (σ : Ptr → Stage) : Prop where
  parent : ∀ p q n, s.mem p = some q → q.parent = some n →
    σ n = .alive ∧ s.spawner p = .user n ∧ q.orphaned = false
  noParent : ∀ p q, s.mem p = some q → q.parent = none → q.orphaned = false →
    (s.spawner p).ptr = none
  early : ∀ p q, s.mem p = some q → (σ p).early = true → q.orphaned = false ∧ q.waitedOn = false
  zombie : ∀ p q, s.mem p = some q → σ p = .zombie → q.orphaned = false
  created : ∀ a p, s.pc a = .created p → s.spawner p = a ∧ (σ p).onList = true
  waiting : ∀ a p, s.pc a = .waiting p → s.spawner p = a ∧ (σ p).onList = true
  attended : ∀ a p q, s.mem p = some q → s.pc a = .created p ∨ s.pc a = .waiting p →
    q.orphaned = false
  waitedOn : ∀ p q, s.mem p = some q → (σ p).onList = true →
    (q.waitedOn = true ↔ s.pc (s.spawner p) = .waiting p)
  exits : ∀ p q, s.mem p = some q → q.exited = true → s.exits p = some q.status
  delivered : ∀ d ∈ s.delivered,
    σ d.child = .freed ∧ s.exits d.child = some d.status ∧ s.spawner d.child = d.parent
  deliveredOnce : (s.delivered.map (·.child)).Nodup

/-- The stages, and how the processes are linked. -/
structure Life (s : State) (σ : Ptr → Stage) : Prop where
  rep : Rep s σ
  kin : Kin s σ

attribute [local grind =] Stage.allocated Stage.onList Stage.over Stage.early Pc.alive
  Actor.ptr_eq_some Function.update_apply

/-! ## `process_spawn` -/

section

variable {a : Actor} {p : Ptr} {s s' : State} {σ : Ptr → Stage} {q : Proc} {status : Int} {pc : Pc}
  {r : Int} {c : Ptr}

theorem Life.spawn (h : Life s σ) (hpc : s.pc a = .ready) :
    Life (s.spawn a) (update σ s.count .spawning) := by
  obtain ⟨h, k⟩ := h
  -- nothing speaks of the new address yet: its stage was `unborn`
  cases h
  cases k
  constructor <;> constructor <;> simp only [State.spawn, State.goto, State.set] <;> grind

theorem State.free_eq (h : s.mem p = some q) :
    s.free p = some { s with mem := update s.mem p none, freed := p :: s.freed } := by
  rw [State.free, h]
  rfl

theorem State.unlinkProcess_eq (h : p ∈ s.processes) :
    s.unlinkProcess p = some { s with processes := s.processes.erase p } :=
  if_pos h

/-- A structure in the hands of an actor. -/
def Pc.holds : Pc → Option Ptr
  | .spawning p | .failed p | .collected p => some p
  | _ => none

/-- What an actor holds is a process it has spawned, off the list. -/
theorem Rep.held (h : Rep s σ) (hp : (s.pc a).holds = some p) :
    s.spawner p = a ∧ (σ p = .spawning ∨ σ p = .failed ∨ σ p = .collected) := by
  cases hpc : s.pc a <;> rw [hpc] at hp <;> cases hp
  · exact ⟨((h.spawning a p).mp hpc).1, .inl ((h.spawning a p).mp hpc).2⟩
  · exact ⟨((h.failed a p).mp hpc).1, .inr (.inl ((h.failed a p).mp hpc).2)⟩
  · exact ⟨((h.collected a p).mp hpc).1, .inr (.inr ((h.collected a p).mp hpc).2)⟩

theorem Rep.allocated (h : Rep s σ) (hp : (σ p).allocated = true) : ∃ q, s.mem p = some q := by
  cases hq : s.mem p with
  | some q => exact ⟨q, rfl⟩
  | none =>
    rw [(h.mem p).mp hq] at hp
    cases hp

/-- The holder of a structure frees it and returns. -/
def State.release (a : Actor) (p : Ptr) (r : Int) (s : State) : State :=
  State.back a r { s with mem := update s.mem p none, freed := p :: s.freed }

theorem Pc.holds_ne (h : pc.holds = some p) (x : Ptr) :
    pc ≠ .waiting x ∧ pc ≠ .created x ∧ pc ≠ .listed x := by
  cases pc <;> cases h <;> exact ⟨nofun, nofun, nofun⟩

section

variable (h : Life s σ)
include h

theorem Life.release (hp : (s.pc a).holds = some p) :
    Life (s.release a p r) (update σ p .freed) := by
  obtain ⟨h, k⟩ := h
  have hheld := h.held hp
  refine ⟨?_, ?_⟩
  · -- whoever holds a process has spawned it, so that only `a` holds this one
    have hpc : ∀ b x, s.pc b = .spawning x ∨ s.pc b = .failed x ∨ s.pc b = .collected x →
        (s.pc b).holds = some x := by
      rintro b x (hb | hb | hb) <;> rw [hb] <;> rfl
    cases h
    constructor <;> simp only [State.release, State.back] <;> grind
  · -- the holder neither waits for it nor has it on the list
    have hne := Pc.holds_ne hp
    cases h
    cases k
    constructor <;> simp only [State.release, State.back] <;> grind

theorem Life.load {n : Nat} (hpc : s.pc a = .spawning p) (hq : s.mem p = some q) :
    Life (State.goto a (.listed p) { s.set p { q with pid := s.nextPid } with
      nextPid := n, processes := p :: s.processes }) (update σ p .listed) := by
  obtain ⟨h, k⟩ := h
  -- a process that is being spawned is not on the list, and no actor but `a` is at it
  cases h
  cases k
  constructor <;> constructor <;> simp only [State.goto, State.set] <;> grind

theorem Life.create (hpc : s.pc a = .listed p) :
    Life (State.goto a (.created p) (s.goto (.user p) .ready)) (update σ p .alive) := by
  obtain ⟨h, k⟩ := h
  have hp := (h.new a p).mp hpc
  have hself : a ≠ .user p := by
    rintro rfl
    have := (h.alive p).mp (by rw [hpc]; rfl)
    rw [hp.2] at this
    cases this
  have hout : (s.pc (.user p)).alive = false := Bool.eq_false_iff.mpr fun hal => by
    have := (h.alive p).mp hal
    rw [hp.2] at this
    cases this
  cases h
  cases k
  constructor <;> constructor <;> simp only [State.goto] <;> grind

theorem Life.create_fails (hpc : s.pc a = .listed p) :
    Life (State.goto a (.failed p) { s with processes := s.processes.erase p })
      (update σ p .failed) := by
  obtain ⟨h, k⟩ := h
  -- without a thread it has no children, and nobody waits for it
  cases h
  cases k
  constructor <;> constructor <;> simp only [State.goto] <;> grind

end

/-! ## `process_wait` and `process_reap` -/

def Pc.plain : Pc → Bool
  | .ready | .created _ | .waiting _ | .exiting _ => true
  | _ => false

theorem Pc.plain_ne (h : pc.plain = true) (x : Ptr) :
    pc ≠ .spawning x ∧ pc ≠ .listed x ∧ pc ≠ .failed x ∧ pc ≠ .collected x := by
  cases pc <;> cases h <;> exact ⟨nofun, nofun, nofun, nofun⟩

theorem Pc.plain_alive (h : pc.plain = true) : pc.alive = true := by
  cases pc <;> cases h <;> rfl

theorem State.goto_pc_of {b : Actor} {x : Pc} (hnew : pc ≠ x) (h : (s.goto a pc).pc b = x) :
    s.pc b = x := by
  by_cases hb : b = a
  · rw [hb, goto_pc_self] at h
    exact absurd h hnew
  · rwa [goto_pc_of_ne hb] at h

/-- An actor that is somewhere else before and after. -/
theorem State.goto_pc_iff {b : Actor} {x : Pc} (hold : s.pc a ≠ x) (hnew : pc ≠ x) :
    (s.goto a pc).pc b = x ↔ s.pc b = x := by
  refine ⟨goto_pc_of hnew, fun h => ?_⟩
  rwa [goto_pc_of_ne]
  rintro rfl
  exact hold h

theorem Rep.plain (h : Rep s σ) (hold : (s.pc a).plain = true)
    (hnew : pc.plain = true) : Rep (s.goto a pc) σ := by
  have hne := Pc.plain_ne hold
  have hne' := Pc.plain_ne hnew
  have hal (b : Actor) : ((s.goto a pc).pc b).alive = (s.pc b).alive := by
    by_cases hb : b = a
    · rw [hb, State.goto_pc_self, Pc.plain_alive hold, Pc.plain_alive hnew]
    · rw [State.goto_pc_of_ne hb]
  exact { h with
    spawning b x := (State.goto_pc_iff (hne x).1 (hne' x).1).trans (h.spawning b x)
    new b x := (State.goto_pc_iff (hne x).2.1 (hne' x).2.1).trans (h.new b x)
    failed b x := (State.goto_pc_iff (hne x).2.2.1 (hne' x).2.2.1).trans (h.failed b x)
    collected b x := (State.goto_pc_iff (hne x).2.2.2 (hne' x).2.2.2).trans (h.collected b x)
    alive x := by rw [hal, h.alive]
    kernel k := by rw [hal, h.kernel] }

theorem Rep.set (h : Rep s σ) (hq : s.mem p = some q) (q' : Proc)
    (he : q'.exited = q.exited) : Rep (s.set p q') σ := { h with
  mem x := by
    by_cases hx : x = p
    · rw [← h.mem, hx, hq, State.set_mem_self]
      simp
    · rw [State.set_mem_of_ne hx, h.mem]
  exited x r hr := by
    by_cases hx : x = p
    · rw [hx, State.set_mem_self] at hr
      cases hr
      rw [he, hx, h.exited p q hq]
    · exact h.exited x r (State.set_mem_of_ne hx ▸ hr) }

theorem Kin.plain (k : Kin s σ) (hold : ∀ x, s.pc a ≠ .waiting x)
    (hnew : ∀ x, pc ≠ .waiting x ∧ pc ≠ .created x) : Kin (s.goto a pc) σ := { k with
  created b x hb := k.created b x (State.goto_pc_of (hnew x).2 hb)
  waiting b x hb := k.waiting b x (State.goto_pc_of (hnew x).1 hb)
  attended b x q hq hb := k.attended b x q hq
    (hb.imp (State.goto_pc_of (hnew x).2) (State.goto_pc_of (hnew x).1))
  waitedOn x q hq hl := (k.waitedOn x q hq hl).trans
    (State.goto_pc_iff (hold x) (hnew x).1).symm }

theorem Kin.await (k : Kin s σ) (hq : s.mem p = some q)
    (hpc : s.pc a = .ready ∨ s.pc a = .waiting p) (ha : s.spawner p = a)
    (hl : (σ p).onList = true) (he : (σ p).early = false) (ho : q.orphaned = false) :
    Kin (State.goto a (.waiting p) (s.set p { q with waitedOn := true })) σ := by
  -- only the spawner can wait for a process, so that the flag says that `a` does
  cases k
  constructor <;> simp only [State.goto, State.set] <;> grind

theorem Rep.collect (h : Rep s σ) (hpc : (s.pc a).plain = true) (ha : s.spawner p = a)
    (hz : σ p = .zombie) :
    Rep (State.goto a (.collected p) { s with processes := s.processes.erase p })
      (update σ p .collected) := by
  have hne := Pc.plain_ne hpc
  have hal := Pc.plain_alive hpc
  cases h
  constructor <;> simp only [State.goto] <;> grind

theorem Kin.collect {w : Bool} (k : Kin s σ) (hq : s.mem p = some q)
    (hpc : s.pc a = .ready ∨ s.pc a = .waiting p) (ha : s.spawner p = a) (hz : σ p = .zombie) :
    Kin (State.goto a (.collected p)
      { s.set p { q with waitedOn := w } with processes := s.processes.erase p })
      (update σ p .collected) := by
  -- off the list no field looks at the flag, and a zombie is no parent
  cases k
  constructor <;> simp only [State.goto, State.set] <;> grind

theorem Life.deliver (h : Life s σ) (hpc : s.pc a = .collected p) (hq : s.mem p = some q) :
    Life { s.release a p r with delivered := ⟨p, a, q.status⟩ :: s.delivered }
      (update σ p .freed) := by
  have hrel := h.release (r := r) (p := p) (by rw [hpc]; rfl)
  obtain ⟨h, k⟩ := h
  have hp := (h.collected a p).mp hpc
  have hex := h.exited p q hq
  have hnew : p ∉ s.delivered.map (·.child) := by
    intro hm
    obtain ⟨d, hd, rfl⟩ := List.mem_map.mp hm
    have := (k.delivered d hd).1
    rw [hp.2] at this
    cases this
  have hexits : s.exits p = some q.status := k.exits p q hq (by rw [hex, hp.2]; rfl)
  refine ⟨{ hrel.rep with }, { hrel.kin with delivered := ?_, deliveredOnce := ?_ }⟩
  · exact List.forall_mem_cons.mpr ⟨⟨Function.update_self .., hexits, hp.1⟩, hrel.kin.delivered⟩
  · exact List.nodup_cons.mpr ⟨hnew, k.deliveredOnce⟩

/-! ## `process_exit` -/

/-- A child loses its parent, which is exiting. -/
theorem Life.adopt (h : Life s σ) (hpc : s.pc (.user p) = .exiting status)
    (hq : s.mem c = some q) (hparent : q.parent = some p) (hrun : q.exited = false) :
    Life (s.set c { q with parent := none, orphaned := true }) σ := by
  obtain ⟨h, k⟩ := h
  have hnew := h.new (.user p) c
  have hspawning := h.spawning (.user p) c
  have hfailed := h.failed (.user p) c
  have hexited := h.exited c q hq
  refine ⟨h.set hq _ rfl, ?_⟩
  -- its spawner is the parent, which is exiting and so not at it
  cases k
  constructor <;> simp only [State.set] <;> grind

/-- A child that has exited is freed by its parent, which is exiting. -/
theorem Life.drop (h : Life s σ) (hpc : s.pc (.user p) = .exiting status) (hq : s.mem c = some q)
    (hparent : q.parent = some p) (hz : σ c = .zombie) :
    Life { s with mem := update s.mem c none, processes := s.processes.erase c,
                  freed := c :: s.freed } (update σ c .freed) := by
  obtain ⟨h, k⟩ := h
  -- a zombie has no thread and no children, and its parent is not at it
  refine ⟨?_, ?_⟩
  · cases h
    constructor <;> dsimp only <;> grind
  · cases k
    constructor <;> dsimp only <;> grind

section

variable (h : Life s σ) (hpc : s.pc (.user p) = .exiting status) (hq : s.mem p = some q)
  (halone : ∀ c r, s.mem c = some r → r.parent ≠ some p)
include h hpc hq halone

theorem Life.exit (ho : q.orphaned = false) :
    Life (State.goto (.user p) .gone { s.set p { q with status, exited := true } with
      exits := update s.exits p (some status) }) (update σ p .zombie) := by
  obtain ⟨h, k⟩ := h
  -- it has no children left, so that no link leads to it
  have hal := (h.alive p).mp (by rw [hpc]; rfl)
  refine ⟨?_, ?_⟩
  · cases h
    constructor <;> simp only [State.goto, State.set] <;> grind
  · cases k
    constructor <;> simp only [State.goto, State.set] <;> grind

theorem Life.exit_orphan (ho : q.orphaned = true) : Life (State.goto (.user p) .gone { s with
      mem := update s.mem p none, processes := s.processes.erase p, freed := p :: s.freed
      exits := update s.exits p (some status) }) (update σ p .freed) := by
  obtain ⟨h, k⟩ := h
  have hal := (h.alive p).mp (by rw [hpc]; rfl)
  refine ⟨?_, ?_⟩
  · cases h
    constructor <;> simp only [State.goto] <;> grind
  · cases k
    constructor <;> simp only [State.goto] <;> grind

end

end

end ManiOS.Process

import ManiOS.Base
import ManiOS.Lib.Runs
import Mathlib.Data.List.Nodup

/-!
# Processes

A process is a structure on the list of processes, and one thread.  Its parent
is another process, or a kernel thread, which `process.c` writes as a null
pointer.  `process_spawn` makes the structure, lists it and starts its thread.
`process_exit` marks it as exited.  Then its parent takes it off the list and
frees it, with `process_wait` or `process_reap`.  A process whose parent has
exited is an orphan: it frees itself when it exits, and one that has exited
already is freed by its parent.

An actor is a thread that makes these calls.  `Pc` says where in a call it is.
A step is a stretch that the code runs with interrupts off, or accesses it makes
with interrupts on, so a run is any interleaving.  A waiting parent may look
again at any time: a wake too many is harmless.  A step that uses or frees
memory that is not allocated, or looks for a process that is not on the list,
is a fault (`none`).

A structure is named by its number in the order of allocation, so that one that
is freed is never taken for one that is allocated later at the same address.
Who spawned a process, how it exited, what was freed and which statuses were
handed to a parent is history, which is not part of the code.
-/

namespace ManiOS.Process

open Function (update update_self update_of_ne)

/-! ## The list of processes -/

/-- A `struct process`. -/
abbrev Ptr := Nat

/-- A kernel thread, or the thread of a process. -/
inductive Actor where
  | kernel (k : Nat)
  | user (p : Ptr)
deriving DecidableEq, Repr

/-- The `parent` that an actor passes. -/
def Actor.ptr : Actor → Option Ptr
  | .kernel _ => none
  | .user p => some p

/-- `struct process`: what the life cycle depends on. -/
structure Proc where
  pid : Nat
  parent : Option Ptr
  orphaned : Bool
  exited : Bool
  waitedOn : Bool
  status : Int
deriving DecidableEq, Repr

/-- Where in a call an actor is. -/
inductive Pc where
  /-- No such thread yet. -/
  | out
  | ready
  /-- In `process_spawn`, with a structure that is not listed yet. -/
  | spawning (p : Ptr)
  /-- It is listed and has no thread. -/
  | listed (p : Ptr)
  /-- Its thread is started. -/
  | created (p : Ptr)
  /-- There was no thread for it, and it is off the list. -/
  | failed (p : Ptr)
  /-- In `process_wait`, before its test. -/
  | waiting (p : Ptr)
  /-- `process_wait` or `process_reap` has taken it off the list. -/
  | collected (p : Ptr)
  /-- In `process_exit`, before its stretch with interrupts off. -/
  | exiting (status : Int)
  /-- Only `thread_exit` is left. -/
  | gone
deriving DecidableEq, Repr

/-- A status that was handed to a parent. -/
structure Delivery where
  child : Ptr
  parent : Actor
  status : Int
deriving DecidableEq, Repr

/-- The processes, the actors and the history. -/
structure State where
  mem : Ptr → Option Proc
  processes : List Ptr
  nextPid : Nat
  pc : Actor → Pc
  /-- What the last call returned. -/
  ret : Actor → Int
  /-- How many structures were allocated. -/
  count : Nat
  spawner : Ptr → Actor
  exits : Ptr → Option Int
  freed : List Ptr
  delivered : List Delivery

variable (a : Actor)

variable (s : State)

namespace State

def boot : State where
  mem _ := none
  processes := []
  nextPid := 1
  pc
    | .kernel _ => .ready
    | .user _ => .out
  ret _ := 0
  count := 0
  spawner _ := .kernel 0
  exits _ := none
  freed := []
  delivered := []

def goto (pc : Pc) (s : State) : State := { s with pc := update s.pc a pc }

def back (r : Int) (s : State) : State :=
  { s with pc := update s.pc a .ready, ret := update s.ret a r }

variable (p : Ptr)

def set (q : Proc) (s : State) : State := { s with mem := update s.mem p (some q) }

@[simp] theorem set_mem_self (q : Proc) : (s.set p q).mem p = some q :=
  update_self ..

variable {s : State}

theorem set_mem_of_ne {p x : Ptr} {q : Proc} (h : x ≠ p) : (s.set p q).mem x = s.mem x :=
  update_of_ne h ..

theorem set_same {p : Ptr} {q : Proc} (h : s.mem p = some q) : s.set p q = s := by
  rw [set, ← h, Function.update_eq_self]

@[simp] theorem goto_pc_self (a : Actor) (pc : Pc) : (s.goto a pc).pc a = pc :=
  update_self ..

theorem goto_pc_of_ne {a b : Actor} {pc : Pc} (h : b ≠ a) : (s.goto a pc).pc b = s.pc b :=
  update_of_ne h ..

@[simp] theorem back_pc_self (a : Actor) (r : Int) : (s.back a r).pc a = .ready :=
  update_self ..

def free (s : State) : Option State :=
  (s.mem p).map fun _ => { s with mem := update s.mem p none, freed := p :: s.freed }

def unlinkProcess (s : State) : Option State :=
  if p ∈ s.processes then some { s with processes := s.processes.erase p } else none

/-- A walk along the list to the first process that meets a test. -/
def search (test : Proc → Bool) (s : State) : List Ptr → Option (Option Ptr)
  | [] => some none
  | p :: ps => (s.mem p).bind fun q => if test q then some (some p) else s.search test ps

/-! ## `process_spawn` -/

/-- The structure is allocated and filled. -/
def spawn : State :=
  goto a (.spawning s.count)
    { s.set s.count ⟨0, a.ptr, false, false, false, 0⟩ with
      count := s.count + 1
      spawner := update s.spawner s.count a }

/-- The program is loaded and the process listed, or given up. -/
def load (err : Option Errno) (s : State) : Option State :=
  match err with
  | some e => (s.free p).map (back a e.negated)
  | none => (s.mem p).map fun q =>
    goto a (.listed p)
      { s.set p { q with pid := s.nextPid } with
        nextPid := u32 (s.nextPid + 1)
        processes := p :: s.processes }

/-- The thread is made and started, or there is none. -/
def create (ok : Bool) (s : State) : Option State :=
  if ok then some (goto a (.created p) (s.goto (.user p) .ready))
  else (s.unlinkProcess p).map (goto a (.failed p))

/-! ## `process_wait` and `process_reap` -/

/-- A turn of the loop of `process_wait`. -/
def recheck (s : State) : Option State :=
  (s.mem p).bind fun q =>
    if q.exited then (s.unlinkProcess p).map (goto a (.collected p))
    else some (s.goto a (.waiting p))

/-- A process that `process_wait` looks for. -/
def awaited (parent : Option Ptr) (pid : Int) (q : Proc) : Bool :=
  decide (toLong q.pid = pid ∧ q.parent = parent) && !q.orphaned && !q.waitedOn

/-- `process_wait` up to its first sleep. -/
def wait (pid : Int) (s : State) : Option State :=
  (s.search (awaited a.ptr pid) s.processes).bind fun
    | none => some (s.back a Errno.echild.negated)
    | some p => (s.mem p).bind fun q => recheck a p (s.set p { q with waitedOn := true })

/-- A child that `process_reap` may collect. -/
def child (parent : Option Ptr) (q : Proc) : Bool :=
  decide (q.parent = parent) && !q.orphaned && !q.waitedOn

/-- `process_reap`: its stretch with interrupts off. -/
def reap : Option State :=
  (s.search (fun q => child a.ptr q && q.exited) s.processes).bind fun
    | some p => (s.unlinkProcess p).map (goto a (.collected p))
    | none => (s.search (child a.ptr) s.processes).map fun
        | some _ => s.back a 0
        | none => s.back a Errno.echild.negated

/-- The end of both: the status is read and the structure freed. -/
def deliver (s : State) : Option State :=
  (s.mem p).bind fun q =>
    (s.free p).map fun s =>
      back a (toLong q.pid) { s with delivered := ⟨p, a, q.status⟩ :: s.delivered }

/-! ## `process_exit` -/

/-- The children of a process lose it, and those that have exited are freed. -/
def orphan (p : Ptr) : List Ptr → State → Option State
  | [], s => some s
  | c :: cs, s =>
    (s.mem c).bind fun q =>
      if q.parent = some p then
        let s := s.set c { q with parent := none, orphaned := true }
        if q.exited then ((s.unlinkProcess c).bind (free c)).bind (orphan p cs)
        else orphan p cs s
      else orphan p cs s

/-- The stretch of `process_exit` with interrupts off. -/
def exit (status : Int) (s : State) : Option State :=
  (s.orphan p s.processes).bind fun s =>
    (s.mem p).bind fun q =>
      let s := goto (.user p) .gone
        { s.set p { q with status, exited := true } with
          exits := update s.exits p (some status) }
      if q.orphaned then (s.unlinkProcess p).bind (free p) else some s

end State

/-! ## Steps -/

/-- What happens. -/
inductive Event where
  /-- `process_spawn` gets memory for a process. -/
  | spawn (a : Actor)
  /-- The program is loaded, or fails to. -/
  | load (a : Actor) (err : Option Errno)
  /-- `thread_create_in` succeeds, or fails. -/
  | create (a : Actor) (ok : Bool)
  | wait (a : Actor) (pid : Int)
  | reap (p : Ptr)
  | exit (p : Ptr) (status : Int)
  | go (a : Actor)
deriving DecidableEq

namespace State

/-- An actor has spawned a process that `process_wait` looks for under this number. -/
def OwnChild (pid : Int) (s : State) : Prop :=
  ∃ p ∈ s.processes, ∃ q ∈ s.mem p, s.spawner p = a ∧ awaited a.ptr pid q = true

/-- What the callers grant.  A kernel thread waits for processes that it has
spawned, once for each, and does not reap. -/
def Enabled : Event → Prop
  | .spawn a => s.pc a = .ready
  | .load a _ => ∃ p, s.pc a = .spawning p
  | .create a _ => ∃ p, s.pc a = .listed p
  | .wait a pid => s.pc a = .ready ∧ (a.ptr = none → s.OwnChild a pid)
  | .reap p => s.pc (.user p) = .ready
  | .exit p _ => s.pc (.user p) = .ready
  | .go a => match s.pc a with
      | .created _ | .failed _ | .waiting _ | .collected _ => True
      | .exiting _ => a.ptr.isSome
      | _ => False

def go : Option State :=
  match s.pc a with
  | .created p => (s.mem p).map fun q => s.back a (toLong q.pid)
  | .failed p => (s.free p).map (back a Errno.enomem.negated)
  | .waiting p => s.recheck a p
  | .collected p => s.deliver a p
  | .exiting status => a.ptr.bind fun p => s.exit p status
  | _ => none

def perform : Event → Option State
  | .spawn a => some (s.spawn a)
  | .load a err => match s.pc a with
      | .spawning p => s.load a p err
      | _ => none
  | .create a ok => match s.pc a with
      | .listed p => s.create a p ok
      | _ => none
  | .wait a pid => s.wait a pid
  | .reap p => s.reap (.user p)
  | .exit p status => some (s.goto (.user p) (.exiting status))
  | .go a => s.go a

def Step (e : Event) (s s' : State) : Prop := s.Enabled e ∧ s.perform e = some s'

end State

end ManiOS.Process

import ManiOS.Base
import ManiOS.Lib.Linked

/-!
# The thread scheduler

`sched.c` keeps its threads on intrusive lists.  A thread that is ready is on
the run queue and a blocked one on a wait queue, both through its `next` link.
A sleeping one is on the sleep list through `sleep_next`, sorted by wake tick,
and a timed wait puts a thread on a wait queue and the sleep list at once.
`all_next` links every thread that was not reclaimed.

A field of `struct thread` is modelled by a map from threads to its values, so
`t->next` is `s.next t`, and a thread is known by its address.  There is one
CPU and every structure here is changed with interrupts off, so a function
is one step.  The exception is a context switch, which leaves a function on one
stack and goes on in `finish_switch` on another.  `switching` is set between
the two.

A loop of the source walks a list that the model bounds by the number of
threads (`budget`).  `none` is a loop that does not end within it, or a null
link that the source would follow.
-/

namespace ManiOS

open Function (update)
open ManiOS.Lib (Fifo cursor relink rehead collect)

/-! ## The state -/

/-- The address of a `struct thread`. -/
abbrev Tid := Nat

/-- The address of a `struct waitq`. -/
abbrev Wid := Nat

/-- `enum thread_state`. -/
inductive ThreadState where
  | runnable | running | sleeping | blocked | dead
deriving DecidableEq, Repr

/-- `STATE_NAMES`. -/
def ThreadState.name : ThreadState → String
  | .runnable => "ready"
  | .running => "running"
  | .sleeping => "sleeping"
  | .blocked => "blocked"
  | .dead => "dead"

/-- What a `const char *name` points into: the kernel's own texts, or the name
field of the process structure at an address. -/
inductive NamePtr where
  | text (s : String)
  | ofProcess (p : Nat)
deriving DecidableEq, Repr

/-- The queues linked by `next`: the run queue, and each wait queue. -/
inductive QueueId where
  | run
  | waitq (w : Wid)
deriving DecidableEq, Repr

/-- `TIME_SLICE_TICKS`, 20 ms at 100 ticks a second. -/
def timeSliceTicks : Nat := 20 * 100 / 1000

/-- The scheduler's variables and the threads' fields. -/
structure Sched where
  id : Tid → Nat
  name : Tid → NamePtr
  state : Tid → ThreadState
  wakeTick : Tid → Nat
  next : Tid → Option Tid
  sleepNext : Tid → Option Tid
  waitingOn : Tid → Option Wid
  timedOut : Tid → Bool
  allNext : Tid → Option Tid
  /-- The thread structures that are allocated. -/
  allocated : Tid → Bool
  current : Tid
  idle : Tid
  /-- `run_head` and `run_tail`, and the two pointers of every wait queue. -/
  queue : QueueId → Fifo Tid
  sleepers : Option Tid
  switchedFrom : Tid
  allThreads : Option Tid
  preemptive : Bool
  idleTicks : Nat
  sliceLeft : Nat
  nextId : Nat
  threadCount : Nat
  /-- A context switch took place and `finish_switch` did not run yet. -/
  switching : Bool

namespace Sched

variable (s : Sched)

/-- The bound on the length of a walk. -/
def budget : Nat := s.threadCount + 1

def queued (k : QueueId) : List Tid := collect s.next s.threadCount (s.queue k).head

/-- The threads of the sleep list, first one first. -/
def asleep : List Tid := collect s.sleepNext s.threadCount s.sleepers

def threads : List Tid := collect s.allNext s.threadCount s.allThreads

/-! ## Lists -/

/-- A thread put last on a queue. -/
def enqueue (k : QueueId) (t : Tid) (s : Sched) : Sched :=
  let pushed := Fifo.push s.next (s.queue k) t
  { s with next := pushed.1, queue := update s.queue k pushed.2 }

def dequeue (k : QueueId) (s : Sched) : Option (Tid × Sched) :=
  (Fifo.pop s.next (s.queue k)).map fun popped =>
    (popped.1, { s with queue := update s.queue k popped.2 })

def runEnqueue (t : Tid) (s : Sched) : Sched := s.enqueue .run t

def runDequeue : Option (Tid × Sched) := s.dequeue .run

def allThreadsAdd (t : Tid) (s : Sched) : Sched :=
  { s with allNext := update s.allNext t s.allThreads, allThreads := some t }

/-- `all_threads_remove`.  A link that is null is followed. -/
def allThreadsRemove (t : Tid) (s : Sched) : Option Sched := do
  let link ← cursor s.allNext (· ≠ t) s.budget none s.allThreads
  let _ ← link.2
  pure { s with
    allNext := relink s.allNext link.1 (s.allNext t)
    allThreads := rehead s.allThreads link.1 (s.allNext t) }

def sleepInsert (t : Tid) (s : Sched) : Option Sched := do
  let link ← cursor s.sleepNext (fun c => decide (s.wakeTick c ≤ s.wakeTick t)) s.budget none
    s.sleepers
  pure { s with
    sleepNext := relink (update s.sleepNext t link.2) link.1 (some t)
    sleepers := rehead s.sleepers link.1 (some t) }

def sleepRemove (t : Tid) (s : Sched) : Option Sched := do
  let link ← cursor s.sleepNext (· ≠ t) s.budget none s.sleepers
  if link.2.isSome then
    pure { s with
      sleepNext := relink s.sleepNext link.1 (s.sleepNext t)
      sleepers := rehead s.sleepers link.1 (s.sleepNext t) }
  else
    pure s

def waitqRemove (w : Wid) (t : Tid) (s : Sched) : Option Sched := do
  let link ← cursor s.next (· ≠ t) s.budget none (s.queue (.waitq w)).head
  match link.2 with
  | some c =>
    let removed := Fifo.remove s.next (s.queue (.waitq w)) link.1 c
    pure { s with next := removed.1, queue := update s.queue (.waitq w) removed.2 }
  | none => pure s

/-! ## Switching -/

/-- `finish_switch`: a thread that exited is freed by the next one. -/
def finishSwitch : Option Sched :=
  let prev := s.switchedFrom
  if s.state prev = .dead then do
    let s ← s.allThreadsRemove prev
    pure { s with
      allocated := update s.allocated prev false
      threadCount := s.threadCount - 1
      switching := false }
  else
    pure { s with switching := false }

/-- The thread that gives way stays ready, unless it was marked otherwise. -/
def giveWay : Sched :=
  if s.state s.current = .running then
    let s := { s with state := update s.state s.current .runnable }
    if s.current ≠ s.idle then s.runEnqueue s.current else s
  else
    s

/-- `schedule`, up to the context switch. -/
def schedule : Sched :=
  let prev := s.current
  let s := s.giveWay
  let picked := s.runDequeue.getD (s.idle, s)
  let s := { picked.2 with
    state := update picked.2.state picked.1 .running
    sliceLeft := timeSliceTicks }
  if picked.1 = prev then
    s
  else
    { s with current := picked.1, switchedFrom := prev, switching := true }

def reschedIfIdle : Sched :=
  if s.current = s.idle ∧ (s.queue .run).head.isSome then s.schedule else s

/-! ## Threads -/

/-- `thread_alloc`, where `kmalloc` returned `t`. -/
def threadAlloc (t : Tid) (name : NamePtr) (s : Sched) : Sched :=
  allThreadsAdd t { s with
    allocated := update s.allocated t true
    name := update s.name t name
    state := update s.state t .runnable
    next := update s.next t none
    sleepNext := update s.sleepNext t none
    waitingOn := update s.waitingOn t none
    timedOut := update s.timedOut t false
    id := update s.id t s.nextId
    nextId := u32 (s.nextId + 1)
    threadCount := s.threadCount + 1 }

/-- `sched_init`, in memory that `m` gives and where `kmalloc` returned `main`
and `idle`. -/
def schedInit (m : Sched) (main idle : Tid) : Sched :=
  let s := allThreadsAdd main { m with
    queue := fun _ => .empty
    sleepers := none
    allThreads := none
    preemptive := false
    idleTicks := 0
    switching := false
    allocated := fun t => decide (t = main)
    id := update m.id main 0
    nextId := 1
    name := update m.name main (.text "main")
    state := update m.state main .running
    next := update m.next main none
    sleepNext := update m.sleepNext main none
    waitingOn := update m.waitingOn main none
    timedOut := update m.timedOut main false
    threadCount := 1 }
  { s.threadAlloc idle (.text "idle") with
    idle := idle
    sliceLeft := timeSliceTicks
    current := main }

def schedEnablePreemption : Sched := { s with preemptive := true }

def threadYield : Sched := s.schedule

def threadSleepUntil (tick : Nat) (s : Sched) : Option Sched := do
  let s ← sleepInsert s.current { s with
    state := update s.state s.current .sleeping
    wakeTick := update s.wakeTick s.current tick }
  pure s.schedule

/-- The end of `thread_exit`, with interrupts off. -/
def threadExit : Sched :=
  schedule { s with state := update s.state s.current .dead }

/-- An entry of `sched_snapshot`. -/
structure ThreadInfo where
  id : Nat
  name : NamePtr
  state : String
deriving DecidableEq, Repr

def schedSnapshot (max : Nat) (s : Sched) : List ThreadInfo :=
  (collect s.allNext max s.allThreads).map fun t => ⟨s.id t, s.name t, (s.state t).name⟩

/-! ## Wait queues -/

def waitqSleep (w : Wid) (s : Sched) : Sched :=
  schedule (enqueue (.waitq w) s.current { s with state := update s.state s.current .blocked })

/-- `waitq_sleep_until`, up to its return. -/
def waitqSleepUntil (w : Wid) (tick : Nat) (s : Sched) : Option Sched := do
  let s ← sleepInsert s.current { s with
    waitingOn := update s.waitingOn s.current (some w)
    timedOut := update s.timedOut s.current false
    wakeTick := update s.wakeTick s.current tick }
  pure (s.waitqSleep w)

def waitqPop (w : Wid) (s : Sched) : Option (Option Tid × Sched) :=
  match s.dequeue (.waitq w) with
  | none => some (none, s)
  | some (t, s) => do
      -- a timed wait, woken in time
      let s ← if (s.waitingOn t).isSome then do
          let s ← s.sleepRemove t
          pure { s with waitingOn := update s.waitingOn t none }
        else
          pure s
      pure (some t, runEnqueue t { s with state := update s.state t .runnable })

/-- The loop of `waitq_wake_all`. -/
def waitqPopAll (w : Wid) : Nat → Sched → Option Sched
  | 0, _ => none
  | n + 1, s => do
      let popped ← s.waitqPop w
      if popped.1.isSome then waitqPopAll w n popped.2 else pure popped.2

def waitqWakeOne (w : Wid) (s : Sched) : Option Sched := do
  let popped ← s.waitqPop w
  pure popped.2.reschedIfIdle

def waitqWakeAll (w : Wid) (s : Sched) : Option Sched := do
  let s ← s.waitqPopAll w s.budget
  pure s.reschedIfIdle

/-! ## The timer -/

/-- The loop of `sched_tick` over the threads whose time has come. -/
def wakeSleepers (now : Nat) : Nat → Sched → Option Sched
  | 0, _ => none
  | n + 1, s =>
    match s.sleepers with
    | none => some s
    | some t =>
      if s.wakeTick t ≤ now then do
        let s := { s with sleepers := s.sleepNext t }
        -- a timed wait ran out
        let s ← match s.waitingOn t with
          | some w => do
              let s ← s.waitqRemove w t
              pure { s with
                waitingOn := update s.waitingOn t none
                timedOut := update s.timedOut t true }
          | none => pure s
        wakeSleepers now n (runEnqueue t { s with state := update s.state t .runnable })
      else
        some s

/-- The end of `sched_tick`: the idle thread gives way to anything runnable,
another one at the end of its time slice. -/
def endTick : Sched :=
  if s.current = s.idle then
    if (s.queue .run).head.isSome then s.schedule else s
  else if s.preemptive then
    let s := { s with sliceLeft := u32 (s.sliceLeft + 4294967295) }
    if s.sliceLeft = 0 then s.schedule else s
  else
    s

def schedTick (now : Nat) (s : Sched) : Option Sched := do
  let s := if s.current = s.idle then { s with idleTicks := s.idleTicks + 1 } else s
  let s ← s.wakeSleepers now s.budget
  pure s.endTick

end Sched

end ManiOS

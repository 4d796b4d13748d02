import ManiOS.Lib.Runs
import Mathlib.Logic.Function.Basic

/-!
# Pipes

A pipe has two ends.  What is sent at one end is received at the other, in both
directions.  A message is one block of memory, and a direction is a queue of
messages.  The pipe is one block that holds both directions, their wait queues
and both ends.

Threads run `pipe_recv`, `pipe_send`, `end_poll` and `end_release`.  `Pc` says
where in such a call a thread is.  A step is a stretch that the code runs with
interrupts off, or an access that it makes with interrupts on, so a run is any
interleaving.  A thread that sleeps on a wait queue is at the test it will make
when it is woken, and it may make it at any time: a wake too many is harmless.

A step that uses memory that is not allocated, or frees it, is a fault
(`none`).  A call at an end is made by a holder of that end, and the end is
released when it has no holder left.

The log is not part of the pipe.  It holds what was sent and received in each
direction, and which calls ended because the other end was closed.
-/

namespace ManiOS.Pipe

open Function (update)

/-! ## The pipe -/

/-- An end of the pipe.  `!e` is the other one. -/
abbrev Side := Bool

/-- The address of a `struct message`. -/
abbrev Addr := Nat

abbrev Tid := Nat

def pipeCapacity : Nat := 64 * 1024

def messageMax : Nat := 256 * 1024

/-- `struct message`, whose `len` is the length of `data`. -/
structure Message where
  data : List UInt8
  pos : Nat
deriving DecidableEq, Repr

/-- How many bytes of a message a receive of `len` bytes returns. -/
def Message.part (m : Message) (len : Nat) : Nat :=
  if m.data.length - m.pos < len then m.data.length - m.pos else len

/-- `struct direction`, without its wait queues. -/
structure Direction where
  queue : List Addr
  bytes : Nat

/-- Where in a call a thread is. -/
inductive Pc where
  | out
  /-- In the loop of `pipe_recv`, before its test.  It may have slept. -/
  | recv (e : Side) (len deadline : Nat) (slept : Bool)
  /-- `pipe_recv` has read `m` to its end and unlinked it. -/
  | recvFree (e : Side) (m : Addr)
  | recvWake (e : Side)
  /-- In the loop of `pipe_send` with its message filled, before its test. -/
  | send (e : Side) (m : Addr)
  /-- `pipe_send` found the other end closed. -/
  | sendFree (e : Side) (m : Addr)
  | sendWake (e : Side)
  /-- In `end_poll`. -/
  | poll (e : Side)
  /-- `end_release`, after its stretch with interrupts off. -/
  | wakeReaders (e : Side) (last : Bool)
  | wakeWriters (e : Side) (last : Bool)
  | free (e : Side)
deriving DecidableEq, Repr

/-- What happened in each direction, named by the end that reads it.  A receive
is logged with the number of messages that were read to their end before. -/
structure Log where
  sent : Side → List (List UInt8)
  received : Side → List (Nat × List UInt8)
  taken : Side → Nat
  /-- A receive at this end ended because the other end was closed. -/
  eof : Side → Bool
  /-- A send at this end failed with `EPIPE`. -/
  epipe : Side → Bool

/-- The pipe, the messages and the threads. -/
structure State where
  /-- The block of the pipe is allocated. -/
  live : Bool
  /-- `p->dir[e]`: messages for end `e` to read. -/
  dir : Side → Direction
  /-- `p->open[e]`. -/
  isOpen : Side → Bool
  /-- The blocks of messages that are allocated. -/
  msg : Addr → Option Message
  pc : Tid → Pc
  log : Log

namespace State

def create : State where
  live := true
  dir _ := ⟨[], 0⟩
  isOpen _ := true
  msg _ := none
  pc _ := .out
  log := ⟨fun _ => [], fun _ => [], fun _ => 0, fun _ => false, fun _ => false⟩

def goto (t : Tid) (pc : Pc) (s : State) : State := { s with pc := update s.pc t pc }

theorem goto_pc_of_ne {s : State} {t t' : Tid} {pc : Pc} (h : t' ≠ t) :
    (s.goto t pc).pc t' = s.pc t' :=
  Function.update_of_ne h ..

/-! ## Receiving -/

/-- The first message of the queue is read. -/
def take (t : Tid) (e : Side) (len : Nat) (a : Addr) (rest : List Addr) (m : Message) (s : State) :
    State :=
  let n := m.part len
  let chunk := (m.data.drop m.pos).take n
  let s := { s with
    msg := update s.msg a (some { m with pos := m.pos + n })
    log := { s.log with
      received := update s.log.received e (s.log.received e ++ [(s.log.taken e, chunk)]) } }
  if m.pos + n = m.data.length then
    goto t (.recvFree e a) { s with
      dir := update s.dir e ⟨rest, (s.dir e).bytes - m.data.length⟩
      log := { s.log with taken := update s.log.taken e (s.log.taken e + 1) } }
  else
    goto t .out s

/-- `pipe_recv` with interrupts off: its test and what follows. -/
def recv (t : Tid) (e : Side) (len deadline : Nat) (s : State) : Option State :=
  match (s.dir e).queue with
  | [] =>
    if s.isOpen (!e) then
      some (s.goto t (.recv e len deadline true))
    else
      some (goto t .out { s with log := { s.log with eof := update s.log.eof e true } })
  | a :: rest => (s.msg a).map fun m => s.take t e len a rest m

/-! ## Sending -/

/-- `pipe_send` with interrupts off: its test and what follows. -/
def send (t : Tid) (e : Side) (a : Addr) (s : State) : Option State := do
  let m ← s.msg a
  let d := s.dir (!e)
  if s.isOpen (!e) ∧ d.bytes ≠ 0 ∧ d.bytes + m.data.length > pipeCapacity then
    pure s
  else if s.isOpen (!e) then
    pure (goto t (.sendWake e) { s with
      dir := update s.dir (!e) ⟨d.queue ++ [a], d.bytes + m.data.length⟩
      log := { s.log with sent := update s.log.sent (!e) (s.log.sent (!e) ++ [m.data]) } })
  else
    pure (goto t (.sendFree e a) { s with
      log := { s.log with epipe := update s.log.epipe e true } })

/-! ## Releasing -/

/-- `kfree` of a message. -/
def freeMessage (a : Addr) (s : State) : Option State :=
  (s.msg a).map fun _ => { s with msg := update s.msg a none }

/-- The loop of `free_messages`. -/
def freeMessages : List Addr → State → Option State
  | [], s => some s
  | a :: rest, s => (s.freeMessage a).bind (freeMessages rest)

/-- The end of the last `end_release`. -/
def freePipe (t : Tid) (s : State) : Option State := do
  let s ← s.freeMessages (s.dir false).queue
  let s ← s.freeMessages (s.dir true).queue
  pure (goto t .out { s with live := false, dir := fun _ => ⟨[], 0⟩ })

/-! ## Steps -/

def go (t : Tid) (s : State) : Option State :=
  match s.pc t with
  | .out => none
  | .recv e len deadline _ => if s.live then s.recv t e len deadline else none
  | .recvFree e a => (s.freeMessage a).map (goto t (.recvWake e))
  | .recvWake _ => if s.live then some (s.goto t .out) else none
  | .send e a => if s.live then s.send t e a else none
  | .sendFree _ a => (s.freeMessage a).map (goto t .out)
  | .sendWake _ => if s.live then some (s.goto t .out) else none
  | .poll _ => if s.live then some (s.goto t .out) else none
  | .wakeReaders e last => if s.live then some (s.goto t (.wakeWriters e last)) else none
  | .wakeWriters e last =>
    if s.live then some (s.goto t (if last then .free e else .out)) else none
  | .free _ => if s.live then s.freePipe t else none

end State

/-- The end that a thread in a call holds. -/
def Pc.uses : Pc → Option Side
  | .recv e _ _ _ | .recvFree e _ | .recvWake e | .send e _ | .sendFree e _ | .sendWake e
  | .poll e => some e
  | _ => none

/-- What threads do. -/
inductive Event where
  | recv (t : Tid) (e : Side) (len deadline : Nat)
  /-- `pipe_send`, where `kmalloc` returned `a`. -/
  | send (t : Tid) (e : Side) (data : List UInt8) (a : Option Addr)
  | poll (t : Tid) (e : Side)
  | release (t : Tid) (e : Side)
  | go (t : Tid)
  /-- The deadline of a receive passes while it sleeps. -/
  | timeout (t : Tid)

namespace State

/-- A call at `e` is made by a holder of `e`, so the end was not released.  It
is released when no holder is left, and memory from `kmalloc` is not in use. -/
def Enabled (s : State) : Event → Prop
  | .recv t e _ _ | .poll t e => s.pc t = .out ∧ s.isOpen e = true
  | .send t e _ a => s.pc t = .out ∧ s.isOpen e = true ∧ ∀ a' ∈ a, s.msg a' = none
  | .release t e => s.pc t = .out ∧ s.isOpen e = true ∧ ∀ t', (s.pc t').uses ≠ some e
  | .go t => s.pc t ≠ .out
  | .timeout t => ∃ e len deadline, s.pc t = .recv e len deadline true ∧ deadline ≠ 0

/-- What a step does.  `none` is an access to memory that is not allocated. -/
def perform (s : State) : Event → Option State
  | .recv t e len deadline => if s.live then some (s.goto t (.recv e len deadline false)) else none
  | .send t e data a =>
    if s.live then
      match a with
      | some a =>
        if data.length > messageMax then
          some s
        else
          some (goto t (.send e a) { s with msg := update s.msg a (some ⟨data, 0⟩) })
      | none => some s
    else
      none
  | .poll t e => if s.live then some (s.goto t (.poll e)) else none
  | .release t e =>
    if s.live then
      some (goto t (.wakeReaders e !s.isOpen (!e)) { s with isOpen := update s.isOpen e false })
    else
      none
  | .go t => s.go t
  | .timeout t => if s.live then some (s.goto t .out) else none

def Step (e : Event) (s s' : State) : Prop := s.Enabled e ∧ s.perform e = some s'

end State

end ManiOS.Pipe

import ManiOS.Lib.Runs
import ManiOS.Zrp.Message
import Mathlib.Data.List.Nodup

/-!
# Requests in flight

The client sends any number of requests over one session.  Each is a
`struct call` in the list of the session until its thread is done with it.
Whichever thread waits while nobody receives becomes the receiver: it reads the
next reply for everyone and copies it into the buffer of the call with its tag.

A request goes through `begin`, `send` with `rpc`, and `end`.  `Pc` says how far
its thread is.  A step is a stretch that the code runs with interrupts off, or
an access that it makes with interrupts on, so a run is any interleaving.  The
copy of a reply is made byte by byte.  The network, the server and the clock do
what they like: a send returns any number, a receive ends at any time with any
bytes from anywhere.

A step that writes into a request that is over, whose buffer is freed, is a
fault (`none`).  How often a request was sent (`sends`) is not part of the code.
-/

namespace ManiOS.Zrp.Client

open Lib
open Function (update)

/-! ## The session -/

/-- `TRIES`. -/
def triesMax : Nat := 6

def firstTimeoutMs : Nat := 150

def pendingPollMs : Nat := 1000

def timerHz : Nat := 100

def ticksFor (ms : Nat) : Nat := (ms * timerHz + 999) / 1000

/-- `enum transport`. -/
inductive Transport where
  | udp | channel
deriving DecidableEq, Repr

/-- A request, by the address of its `struct request`. -/
abbrev Req := Nat

/-- `struct call`, without the link and the buffer. -/
structure Call where
  tag : Nat
  cap : Nat
  len : Int
  done : Bool
  pending : Bool
deriving DecidableEq, Repr

/-- The local variables of `rpc`. -/
structure Locals where
  expect : MsgType
  timeout : Nat
  tries : Nat
  polling : Bool
  deadline : Nat
deriving DecidableEq, Repr

/-- How far the thread of a request is. -/
inductive Pc where
  | fresh
  /-- `begin` is done: the call is listed. -/
  | begun
  /-- `rpc` found the session alive and sends. -/
  | sending
  /-- The send has returned. -/
  | sent (r : Int)
  /-- The first deadline is set. -/
  | stamped (r : Int)
  /-- On the wait queue of the session. -/
  | asleep
  | woken
  /-- About to send again. -/
  | resending
  | resent
  /-- In `udp_recv` or `pipe_recv`, for everyone. -/
  | receiving
  | received (n : Int) (ok : Bool) (tag : Nat)
  /-- Copying `k` bytes to the call `o`, of which `i` are copied. -/
  | copying (o : Req) (k i : Nat)
  /-- Out of the loop. -/
  | left
  /-- `rpc`, or `send` before it, has returned. -/
  | returned (r : Int)
  /-- `end` has taken the call out of the list. -/
  | unlinked (r : Int)
  | ended (r : Int)
deriving DecidableEq, Repr

/-- What `waitq_wake_all` does to a thread. -/
def Pc.awake : Pc → Pc
  | .asleep => .woken
  | pc => pc

/-- `struct session` and the requests on it. -/
structure State where
  transport : Transport
  msize : Nat
  tag : Nat
  calls : List Req
  receiving : Bool
  dead : Bool
  inbox : Buf
  /-- `timer_ticks()`. -/
  now : Nat
  call : Req → Call
  /-- The buffers for replies that are allocated. -/
  rx : Req → Option Buf
  locals : Req → Locals
  pc : Req → Pc
  sends : Req → Nat

/-- `reply_tag`: the tag of a well-formed reply. -/
def replyTag (msg : Buf) (n : Int) : Option Nat :=
  if n < header then none
  else if (le32 msg : Int) = n then some (le16 (shift msg 5)) else none

def checkReply (msg : Buf) (n : Int) (expect : MsgType) : Int :=
  if n < 0 then n
  else if msg 4 = MsgType.rerror.code then
    let (err, m) := Zmsg.get16 ⟨msg, n.toNat, header, false⟩
    if !m.bad ∧ err ≠ 0 ∧ err ≤ errnoMax then -(err : Int) else Errno.eproto.negated
  else if msg 4 = expect.code then n
  else Errno.eproto.negated

namespace State

/-- A session of `new_session`. -/
def opened (transport : Transport) (msize : Nat) : State where
  transport
  msize
  tag := 0
  calls := []
  receiving := false
  dead := false
  inbox _ := 0
  now := 0
  call _ := ⟨0, 0, 0, false, false⟩
  rx _ := none
  locals _ := ⟨.rversion, 0, 0, false, 0⟩
  pc _ := .fresh
  sends _ := 0

variable (c : Req)

def goto (pc : Pc) (s : State) : State := { s with pc := update s.pc c pc }

def setCall (call : Call) (s : State) : State := { s with call := update s.call c call }

def setLocals (l : Locals) (s : State) : State := { s with locals := update s.locals c l }

/-! ## The start of a request -/

def stepTag (tag : Nat) : Nat := if tag = notag - 1 then 0 else tag + 1

/-- The loop of `next_tag`, for a number of turns. -/
def findTag (used : List Nat) : Nat → Nat → Option Nat
  | 0, _ => none
  | fuel + 1, tag =>
    if stepTag tag ∈ used then findTag used fuel (stepTag tag) else some (stepTag tag)

/-- `next_tag`.  With every tag in flight its loop does not end. -/
def nextTag (s : State) : Option Nat := findTag (s.calls.map fun c => (s.call c).tag) notag s.tag

/-- The tag a request of some type takes, with the tag that the session is at
then. -/
def takeTag (type : MsgType) (s : State) : Option (Nat × Nat) :=
  if type = .tversion then some (notag, s.tag) else s.nextTag.map fun t => (t, t)

/-- `begin`, when there is memory. -/
def begin (type : MsgType) (s : State) : Option State :=
  (s.takeTag type).map fun (tag, used) =>
    goto c .begun
      { setCall c ⟨tag, s.msize, 0, false, false⟩ s with
        tag := used
        calls := c :: s.calls
        rx := update s.rx c (some fun _ => 0) }

/-- `send` and the first test of `rpc`, for a message of `len` bytes. -/
def send (len : Nat) (expect : MsgType) (s : State) : State :=
  if len = 0 then s.goto c (.returned Errno.einval.negated)
  else if s.dead then s.goto c (.returned Errno.eio.negated)
  else goto c .sending (s.setLocals c ⟨expect, firstTimeoutMs, 1, false, 0⟩)

def transmit (r : Int) (s : State) : Option State :=
  let s' := { s with sends := update s.sends c (s.sends c + 1) }
  match s.pc c with
  | .sending => some (s'.goto c (.sent r))
  | .resending => some (s'.goto c .resent)
  | _ => none

/-! ## The loop of `rpc` -/

/-- `waitq_wake_all(&s->changed)`. -/
def wakeAll (s : State) : State := { s with pc := fun c => (s.pc c).awake }

/-- The deadline of a request over UDP has passed. -/
def late (s : State) : Prop := s.transport = .udp ∧ (s.locals c).deadline ≤ s.now

instance (c : Req) (s : State) : Decidable (s.late c) :=
  inferInstanceAs (Decidable (_ ∧ _))

/-- The last deadline passed with no word from the server. -/
def expired (s : State) : Prop :=
  s.late c ∧ (s.call c).pending = false ∧ (s.locals c).tries = triesMax

instance (c : Req) (s : State) : Decidable (s.expired c) :=
  inferInstanceAs (Decidable (_ ∧ _ ∧ _))

/-- The server is gone, and everyone is told. -/
def timeOut (s : State) : State :=
  goto c .left (wakeAll
    { setCall c { s.call c with len := Errno.etimedout.negated } s with dead := true })

/-- Another deadline, after which the request is sent again. -/
def again (s : State) : State :=
  let l := s.locals c
  let polling := (s.call c).pending || l.polling
  let tries := if (s.call c).pending then 0 else l.tries
  let timeout := if polling then pendingPollMs else l.timeout * 2
  goto c .resending (setCall c { s.call c with pending := false }
    (s.setLocals c { l with timeout, tries := tries + 1, polling }))

/-- A turn of the loop of `rpc`, from its test to where interrupts go on or the
thread sleeps. -/
def loop (s : State) : State :=
  if (s.call c).done then s.goto c .left
  else if s.dead then goto c .left (s.setCall c { s.call c with len := Errno.eio.negated })
  else if s.late c then (if s.expired c then s.timeOut c else s.again c)
  else if s.receiving then s.goto c .asleep
  else goto c .receiving { s with receiving := true }

/-- The loop is entered after the first send, which returned `r`. -/
def enter (r : Int) (s : State) : State :=
  if r < 0 then
    setCall c { s.call c with
      len := if s.transport = .udp then r else Errno.eio.negated, done := true } s
  else s

/-- A later send is done. -/
def restamp (s : State) : State :=
  let l := s.locals c
  s.setLocals c { l with deadline := s.now + ticksFor l.timeout }

/-- Nobody receives any more. -/
def giveUpTurn (s : State) : State := wakeAll { s with receiving := false }

/-- A receive ends with `n` and leaves `msg` in the inbox. -/
def arrive (n : Int) (msg : Buf) (fromServer : Bool) (s : State) : State :=
  let tag := if n > 0 ∧ (s.transport = .udp → fromServer) then replyTag msg n else none
  goto c (.received n tag.isSome (tag.getD 0)) { s with inbox := msg }

/-- The call that a reply is for. -/
def owner (tag : Nat) (s : State) : Option Req := s.calls.find? fun o => (s.call o).tag = tag

/-- What the receiver does with what it received. -/
def pick (n : Int) (ok : Bool) (tag : Nat) (s : State) : State :=
  if !ok then
    loop c (giveUpTurn { s with dead := decide (s.transport ≠ .udp ∧ n ≤ 0) })
  else
    match s.owner tag with
    | none => loop c s.giveUpTurn
    | some o =>
      if s.inbox 4 = MsgType.rpending.code then
        loop c (giveUpTurn (s.setCall o { s.call o with pending := true }))
      else if (s.call o).done then loop c s.giveUpTurn
      else s.goto c (.copying o (min n.toNat (s.call o).cap) 0)

/-- The reply is copied: its call is done. -/
def handOver (c o : Req) (k : Nat) (s : State) : Option State :=
  (s.rx o).map fun _ => loop c (giveUpTurn (s.setCall o { s.call o with len := k, done := true }))

/-! ## Steps -/

def go (s : State) : Option State :=
  match s.pc c with
  | .sent r =>
    let l := s.locals c
    some (goto c (.stamped r) (s.setLocals c { l with deadline := s.now + ticksFor l.timeout }))
  | .stamped r => some (loop c (s.enter c r))
  | .woken => some (s.loop c)
  | .resent => some (loop c (s.restamp c))
  | .received n ok tag => some (s.pick c n ok tag)
  | .copying o k i =>
    if i < k then
      (s.rx o).map fun b =>
        goto c (.copying o k (i + 1)) { s with rx := update s.rx o (some (setByte b i (s.inbox i))) }
    else s.handOver c o k
  | .left =>
    (s.rx c).map fun b =>
      let len := (s.call c).len
      s.goto c (.returned (if len < 0 then len else checkReply b len (s.locals c).expect))
  | .returned r => some (goto c (.unlinked r) { s with calls := s.calls.erase c })
  | .unlinked r => some (goto c (.ended r) { s with rx := update s.rx c none })
  | _ => none

end State

/-- What happens. -/
inductive Event where
  /-- The clock ticks. -/
  | pass (ticks : Nat)
  | begin (c : Req) (type : MsgType)
  | send (c : Req) (len : Nat) (expect : MsgType)
  | transmit (c : Req) (r : Int)
  | arrive (c : Req) (n : Int) (msg : Buf) (fromServer : Bool)
  /-- The timer wakes a thread at its deadline. -/
  | alarm (c : Req)
  | go (c : Req)

namespace State

def perform (s : State) : Event → Option State
  | .pass ticks => some { s with now := s.now + ticks }
  | .begin c type => if s.pc c = .fresh then s.begin c type else none
  | .send c len expect => if s.pc c = .begun then some (s.send c len expect) else none
  | .transmit c r => s.transmit c r
  | .arrive c n msg fromServer =>
    if s.pc c = .receiving then some (s.arrive c n msg fromServer) else none
  | .alarm c => if s.pc c = .asleep ∧ s.late c then some (s.goto c .woken) else none
  | .go c => s.go c

end State

def Step (e : Event) (s s' : State) : Prop := s.perform e = some s'

def State.after (s : State) (es : List Event) : Option State :=
  follow (fun e s => State.perform s e) es s

theorem reached_after {s0 s s' : State} {es : List Event} (h : Reached Step s0 s)
    (hs : s.after es = some s') : Reached Step s0 s' :=
  h.follow (fun _ _ _ => id) hs

end ManiOS.Zrp.Client

import ManiOS.Zrp.Rpc

/-!
# Handing over a reply

The receiver copies a reply into the buffer of the call it belongs to with
interrupts on, "the owner waits until done, so its buffer stays put".  The owner
does wait until it is done, or until it gives up: its last deadline passes, it
finds the session dead, or its own send fails.  Then it returns from `rpc`, and
`end` frees the buffer, whatever the receiver is doing.

In a run where nobody gives up while a reply to them is being copied, a receiver
copies only into the buffer of a listed call whose thread is still waiting
(`handed_to_waiting`).  `copies_into_freed` is a run where the last deadline of
a request passes during the copy.
-/

namespace ManiOS.Zrp.Client

open Lib
open Function (update update_self update_of_ne)

/-! ## Where a thread is -/

def Pc.listed : Pc → Bool
  | .fresh | .unlinked _ | .ended _ => false
  | _ => true

def Pc.live : Pc → Bool
  | .fresh | .ended _ => false
  | _ => true

def Pc.receives : Pc → Bool
  | .receiving | .received .. | .copying .. => true
  | _ => false

/-- Begun and not out of the loop of `rpc`. -/
def Pc.waits : Pc → Bool
  | .fresh | .left | .returned _ | .unlinked _ | .ended _ => false
  | _ => true

/-- The call that a reply is being copied to. -/
def Pc.target : Pc → Option Req
  | .copying o _ _ => some o
  | _ => none

namespace Pc

@[simp] theorem awake_listed (p : Pc) : p.awake.listed = p.listed := by cases p <;> rfl

@[simp] theorem awake_live (p : Pc) : p.awake.live = p.live := by cases p <;> rfl

@[simp] theorem awake_receives (p : Pc) : p.awake.receives = p.receives := by cases p <;> rfl

@[simp] theorem awake_waits (p : Pc) : p.awake.waits = p.waits := by cases p <;> rfl

@[simp] theorem awake_target (p : Pc) : p.awake.target = p.target := by cases p <;> rfl

@[simp] theorem awake_awake (p : Pc) : p.awake.awake = p.awake := by cases p <;> rfl

variable {p : Pc}

theorem waits_listed (h : p.waits = true) : p.listed = true := by
  cases p <;> first | rfl | cases h

theorem listed_live (h : p.listed = true) : p.live = true := by
  cases p <;> first | rfl | cases h

theorem receives_waits (h : p.receives = true) : p.waits = true := by
  cases p <;> first | rfl | cases h

theorem target_receives {o : Req} (h : p.target = some o) : p.receives = true := by
  cases p <;> first | rfl | cases h

end Pc

namespace State

@[simp] theorem goto_pc_self (s : State) (c : Req) (p : Pc) : (s.goto c p).pc c = p :=
  update_self ..

variable {s : State}

theorem goto_pc_of_ne {c d : Req} {p : Pc} (h : d ≠ c) : (s.goto c p).pc d = s.pc d :=
  update_of_ne h ..

@[simp] theorem setCall_call_self (s : State) (c : Req) (k : Call) : (s.setCall c k).call c = k :=
  update_self ..

theorem setCall_done {c : Req} {k : Call} (h : k.done = (s.call c).done) :
    ((s.setCall c k).call c).done = (s.call c).done := by
  rw [setCall_call_self]
  exact h

theorem setCall_call_of_ne {c d : Req} {k : Call} (h : d ≠ c) : (s.setCall c k).call d = s.call d :=
  update_of_ne h ..

end State

/-! ## What a turn of the loop does -/

/-- The other threads stay where they are, or are woken. -/
def Undriven (c : Req) (s s' : State) : Prop :=
  ∀ d, d ≠ c → s'.pc d = s.pc d ∨ s'.pc d = (s.pc d).awake

variable {s s' : State} {c : Req} {p : Pc} {e : Event}

theorem Undriven.goto (h : Undriven c s s') : Undriven c s (s'.goto c p) := by
  intro d hd
  rw [State.goto_pc_of_ne hd]
  exact h d hd

variable {s1 s : State} {c o : Req}

theorem Undriven.trans (h : Undriven c s s1) (h' : Undriven c s1 s') :
    Undriven c s s' := by
  intro d hd
  rcases h d hd with h1 | h1 <;> rcases h' d hd with h2 | h2 <;> rw [h2, h1]
  · exact .inl rfl
  · exact .inr rfl
  · exact .inr rfl
  · exact .inr (Pc.awake_awake _)

/-- What a turn of the loop does. -/
structure Looped (c : Req) (s s' : State) : Prop where
  calls : s'.calls = s.calls
  rx : s'.rx = s.rx
  sends : s'.sends = s.sends
  transport : s'.transport = s.transport
  others : Undriven c s s'
  call : ∀ d, d ≠ c → s'.call d = s.call d
  done : (s'.call c).done = (s.call c).done
  turn : (s'.pc c = .receiving ∧ s.receiving = false ∧ s'.receiving = true) ∨
    ((s'.pc c = .left ∨ s'.pc c = .asleep ∨ s'.pc c = .resending) ∧ s'.receiving = s.receiving)
  left : s'.pc c = .left → (s.call c).done = true ∨ s.dead = true ∨ s.expired c

theorem State.loop_looped (c : Req) (s : State) : Looped c s (s.loop c) := by
  unfold State.loop
  split
  next hd =>
    exact ⟨rfl, rfl, rfl, rfl, .goto fun _ _ => .inl rfl, fun _ _ => rfl, rfl,
      .inr ⟨.inl (State.goto_pc_self ..), rfl⟩, fun _ => .inl hd⟩
  next hd =>
    split
    next hdead =>
      exact ⟨rfl, rfl, rfl, rfl, .goto fun _ _ => .inl rfl,
        fun d hne => State.setCall_call_of_ne hne, State.setCall_done rfl,
        .inr ⟨.inl (State.goto_pc_self ..), rfl⟩, fun _ => .inr (.inl hdead)⟩
    next hdead =>
      split
      next hlate =>
        split
        next hexp =>
          exact ⟨rfl, rfl, rfl, rfl, .goto fun _ _ => .inr rfl,
            fun d hne => State.setCall_call_of_ne hne,
            State.setCall_done rfl,
            .inr ⟨.inl (State.goto_pc_self ..), rfl⟩, fun _ => .inr (.inr hexp)⟩
        next hexp =>
          refine ⟨rfl, rfl, rfl, rfl, .goto fun _ _ => .inl rfl,
            fun d hne => State.setCall_call_of_ne hne,
            State.setCall_done rfl,
            .inr ⟨.inr (.inr (State.goto_pc_self ..)), rfl⟩, fun h => ?_⟩
          rw [State.again, State.goto_pc_self] at h
          cases h
      next hlate =>
        split
        next hr =>
          refine ⟨rfl, rfl, rfl, rfl, .goto fun _ _ => .inl rfl, fun _ _ => rfl, rfl,
            .inr ⟨.inr (.inl (State.goto_pc_self ..)), rfl⟩, fun h => ?_⟩
          rw [State.goto_pc_self] at h
          cases h
        next hr =>
          refine ⟨rfl, rfl, rfl, rfl, .goto fun _ _ => .inl rfl, fun _ _ => rfl, rfl,
            .inl ⟨State.goto_pc_self .., Bool.eq_false_iff.mpr hr, rfl⟩, fun h => ?_⟩
          rw [State.goto_pc_self] at h
          cases h

/-! ## Giving up -/

namespace State

/-- A thread in its loop has no reply and will not wait for it. -/
def hopeless (c : Req) (s : State) : Prop :=
  (s.call c).done = false ∧ (s.dead = true ∨ s.expired c)

instance (c : Req) (s : State) : Decidable (s.hopeless c) :=
  inferInstanceAs (Decidable (_ ∧ _))

/-- The request that gives up with an event: its message is too long or its send
fails, it finds the session dead, or its last deadline has passed. -/
def givesUp (s : State) : Event → Option Req
  | .send c len _ => if len = 0 ∨ s.dead = true then some c else none
  | .go c =>
    match s.pc c with
    | .stamped r => if r < 0 ∨ s.hopeless c then some c else none
    | .woken => if s.hopeless c then some c else none
    | .resent => if (s.restamp c).hopeless c then some c else none
    | _ => none
  | _ => none

/-- The call to which a reply is taken in with an event. -/
def takesIn (s : State) : Event → Option Req
  | .go c =>
    match s.pc c with
    | .received _ ok tag =>
      if ok = true ∧ s.inbox 4 ≠ MsgType.rpending.code then
        (s.owner tag).filter fun o => !(s.call o).done
      else none
    | _ => none
  | _ => none

/-- Nobody gives up while a reply to it is being copied, and no reply is taken
in to a call whose thread has given up and is about to leave the list. -/
def Orderly (s : State) (e : Event) : Prop :=
  (∀ c ∈ s.givesUp e, ∀ d ∈ s.calls, (s.pc d).target ≠ some c) ∧
  (∀ o ∈ s.takesIn e, (s.pc o).waits = true)

instance (s : State) (e : Event) : Decidable (s.Orderly e) :=
  inferInstanceAs (Decidable (_ ∧ _))

end State

/-- The request whose thread an event belongs to. -/
def Event.request : Event → Option Req
  | .pass _ => none
  | .begin c _ | .send c _ _ | .transmit c _ | .arrive c _ _ _ | .alarm c | .go c => some c

/-! ## What a step does -/

/-- What a thread leaves alone on its way. -/
structure Kept (s s1 : State) : Prop where
  calls : s1.calls = s.calls
  rx : s1.rx = s.rx
  pc : s1.pc = s.pc
  receiving : s1.receiving = s.receiving

theorem State.enter_kept (c : Req) (r : Int) (s : State) : Kept s (s.enter c r) := by
  unfold enter
  split <;> exact ⟨rfl, rfl, rfl, rfl⟩

theorem State.enter_dead (c : Req) (r : Int) (s : State) : (s.enter c r).dead = s.dead := by
  unfold enter
  split <;> rfl

theorem State.enter_call {d : Req} (r : Int) (s : State) (h : d ≠ c) :
    (s.enter c r).call d = s.call d := by
  unfold enter
  split
  · exact setCall_call_of_ne h
  · rfl

/-- Places of the same kind. -/
def Pc.Alike (p q : Pc) : Prop :=
  p.listed = q.listed ∧ p.live = q.live ∧ p.receives = q.receives

/-- What the thread of `c` does at an event. -/
inductive Move (c : Req) (e : Event) (s : State) : State → Prop
  /-- It goes on, and still waits if it did, or gives up. -/
  | goto {s1 : State} {p q : Pc} (hq : s.pc c = q) (hk : Kept s s1) (hcall : s1.call = s.call)
      (hdead : s1.dead = s.dead) (hp : p.Alike q) (hto : p.target = none)
      (hup : s.givesUp e = some c ∨ (q.waits = true → p.waits = true)) : Move c e s (s1.goto c p)
  | loop {s1 : State} {q : Pc} (hq : s.pc c = q) (hk : Kept s s1)
      (hcall : ∀ d, d ≠ c → s1.call d = s.call d) (hdead : s1.dead = s.dead)
      (hw : q.waits = true) (hr : q.receives = false)
      (hup : s.givesUp e = some c ∨ s1.call = s.call ∧ ¬ s1.hopeless c) : Move c e s (s1.loop c)
  /-- It gives up its turn as the receiver. -/
  | turn {s1 : State} (hr : (s.pc c).receives = true) (hk : Kept s s1) :
      Move c e s (s1.giveUpTurn.loop c)
  | take {n : Int} {ok : Bool} {tag : Nat} {o : Req} (hpc : s.pc c = .received n ok tag)
      (htakes : s.takesIn e = some o) (hdone : (s.call o).done = false) (k : Nat) :
      Move c e s (s.goto c (.copying o k 0))
  | copy {o : Req} {k i : Nat} {b : Buf} (hpc : s.pc c = .copying o k i) (hb : s.rx o = some b)
      (b' : Buf) : Move c e s
        (State.goto c (.copying o k (i + 1)) { s with rx := update s.rx o (some b') })
  | begin {type : MsgType} {s' : State} (hpc : s.pc c = .fresh) (hs : s.begin c type = some s') :
      Move c e s s'
  | unlink {r : Int} (hpc : s.pc c = .returned r) :
      Move c e s (State.goto c (.unlinked r) { s with calls := s.calls.erase c })
  | free {r : Int} (hpc : s.pc c = .unlinked r) :
      Move c e s (State.goto c (.ended r) { s with rx := update s.rx c none })

theorem State.pick_move {n : Int} {ok : Bool} {tag : Nat} (hpc : s.pc c = .received n ok tag) :
    Move c (.go c) s (s.pick c n ok tag) := by
  have hr : (s.pc c).receives = true := by rw [hpc]; rfl
  unfold pick
  split
  · exact .turn hr ⟨rfl, rfl, rfl, rfl⟩
  next hok =>
    split
    · exact .turn hr ⟨rfl, rfl, rfl, rfl⟩
    next o ho =>
      split
      · exact .turn hr ⟨rfl, rfl, rfl, rfl⟩
      next hpending =>
        split
        · exact .turn hr ⟨rfl, rfl, rfl, rfl⟩
        next hdone =>
          refine .take hpc ?_ (Bool.eq_false_iff.mpr hdone) _
          unfold takesIn
          dsimp only
          rw [hpc]
          dsimp only
          rw [if_pos ⟨by simpa using hok, hpending⟩, ho, Option.filter_some,
            if_pos (by simpa using hdone)]

open Option (map_eq_some_iff ite_none_right_eq_some isSome any_eq_true)

theorem State.go_move (hs : s.go c = some s') : Move c (.go c) s s' := by
  have hup := State.givesUp.eq_def s (.go c)
  dsimp only at hup
  unfold go at hs
  split at hs
  next r hpc =>
    cases hs
    exact .goto hpc ⟨rfl, rfl, rfl, rfl⟩ rfl rfl ⟨rfl, rfl, rfl⟩ rfl (.inr fun _ => rfl)
  next r hpc =>
    cases hs
    rw [hpc] at hup
    refine .loop hpc (enter_kept ..) (fun d => enter_call r s) (enter_dead ..) rfl rfl ?_
    by_cases h : r < 0 ∨ s.hopeless c
    · exact .inl (hup.trans (if_pos h))
    · rw [not_or] at h
      rw [show s.enter c r = s from if_neg h.1]
      exact .inr ⟨rfl, h.2⟩
  next hpc =>
    cases hs
    rw [hpc] at hup
    refine .loop hpc ⟨rfl, rfl, rfl, rfl⟩ (fun _ _ => rfl) rfl rfl rfl ?_
    by_cases h : s.hopeless c
    · exact .inl (hup.trans (if_pos h))
    · exact .inr ⟨rfl, h⟩
  next hpc =>
    cases hs
    rw [hpc] at hup
    refine .loop hpc ⟨rfl, rfl, rfl, rfl⟩ (fun _ _ => rfl) rfl rfl rfl ?_
    by_cases h : (s.restamp c).hopeless c
    · exact .inl (hup.trans (if_pos h))
    · exact .inr ⟨rfl, h⟩
  next n ok tag hpc =>
    cases hs
    exact pick_move hpc
  next o k i hpc =>
    split at hs
    · obtain ⟨b, hb, rfl⟩ := map_eq_some_iff.mp hs
      exact .copy hpc hb _
    · obtain ⟨b, -, rfl⟩ := map_eq_some_iff.mp hs
      exact .turn (by rw [hpc]; rfl) ⟨rfl, rfl, rfl, rfl⟩
  next hpc =>
    obtain ⟨b, -, rfl⟩ := map_eq_some_iff.mp hs
    exact .goto hpc ⟨rfl, rfl, rfl, rfl⟩ rfl rfl ⟨rfl, rfl, rfl⟩ rfl (.inr fun h => nomatch h)
  next r hpc =>
    cases hs
    exact .unlink hpc
  next r hpc =>
    cases hs
    exact .free hpc
  next => cases hs

theorem Step.move (hs : Step e s s') :
    (∃ ticks, s' = { s with now := s.now + ticks }) ∨ ∃ c, e.request = some c ∧ Move c e s s' := by
  cases e with
  | pass ticks =>
    cases hs
    exact .inl ⟨ticks, rfl⟩
  | begin c type =>
    obtain ⟨hpc, hs⟩ := ite_none_right_eq_some.mp hs
    exact .inr ⟨c, rfl, .begin hpc hs⟩
  | send c len expect =>
    obtain ⟨hpc, hs⟩ := ite_none_right_eq_some.mp hs
    cases hs
    refine .inr ⟨c, rfl, ?_⟩
    unfold State.send
    split
    next hlen =>
      exact .goto hpc ⟨rfl, rfl, rfl, rfl⟩ rfl rfl ⟨rfl, rfl, rfl⟩ rfl (.inl (if_pos (.inl hlen)))
    next =>
      split
      next hdead =>
        exact .goto hpc ⟨rfl, rfl, rfl, rfl⟩ rfl rfl ⟨rfl, rfl, rfl⟩ rfl
          (.inl (if_pos (.inr hdead)))
      next => exact .goto hpc ⟨rfl, rfl, rfl, rfl⟩ rfl rfl ⟨rfl, rfl, rfl⟩ rfl (.inr fun _ => rfl)
  | transmit c r =>
    unfold Step State.perform State.transmit at hs
    dsimp only at hs
    split at hs
    next hpc =>
      cases hs
      exact .inr ⟨c, rfl, .goto hpc ⟨rfl, rfl, rfl, rfl⟩ rfl rfl ⟨rfl, rfl, rfl⟩ rfl
        (.inr fun _ => rfl)⟩
    next hpc =>
      cases hs
      exact .inr ⟨c, rfl, .goto hpc ⟨rfl, rfl, rfl, rfl⟩ rfl rfl ⟨rfl, rfl, rfl⟩ rfl
        (.inr fun _ => rfl)⟩
    next => cases hs
  | arrive c n msg fromServer =>
    obtain ⟨hpc, hs⟩ := ite_none_right_eq_some.mp hs
    cases hs
    exact .inr ⟨c, rfl, .goto hpc ⟨rfl, rfl, rfl, rfl⟩ rfl rfl ⟨rfl, rfl, rfl⟩ rfl
      (.inr fun _ => rfl)⟩
  | alarm c =>
    obtain ⟨⟨hpc, -⟩, hs⟩ := ite_none_right_eq_some.mp hs
    cases hs
    exact .inr ⟨c, rfl, .goto hpc ⟨rfl, rfl, rfl, rfl⟩ rfl rfl ⟨rfl, rfl, rfl⟩ rfl
      (.inr fun _ => rfl)⟩
  | go c => exact .inr ⟨c, rfl, State.go_move hs⟩

/-! ## The list, the buffers and the receiver -/

/-- The calls of the threads that are in a request are listed, with a buffer.
One thread at most receives, and the flag says whether one does. -/
structure Inv (s : State) : Prop where
  nodup : s.calls.Nodup
  listed : ∀ c, c ∈ s.calls ↔ (s.pc c).listed = true
  live : ∀ c, (s.rx c).isSome = (s.pc c).live
  one : ∀ c d, (s.pc c).receives = true → (s.pc d).receives = true → c = d
  flag : s.receiving = true ↔ ∃ c, (s.pc c).receives = true

theorem inv_opened (transport : Transport) (msize : Nat) : Inv (.opened transport msize) where
  nodup := .nil
  listed _ := ⟨fun h => (nomatch h), fun h => (nomatch h)⟩
  live _ := rfl
  one _ _ h := (nomatch h)
  flag := ⟨fun h => (nomatch h), fun ⟨_, h⟩ => (nomatch h)⟩

/-- A thread goes on receiving or not as before, starts when nobody does, or
stops. -/
def Turn (c : Req) (s s' : State) : Prop :=
  (s'.receiving = s.receiving ∧ (s'.pc c).receives = (s.pc c).receives) ∨
  (s.receiving = false ∧ s'.receiving = true ∧ (s'.pc c).receives = true) ∨
  ((s.pc c).receives = true ∧ s'.receiving = false ∧ (s'.pc c).receives = false)

/-- A thread moves within its request. -/
structure Moved (c : Req) (s s' : State) : Prop where
  calls : s'.calls = s.calls
  rx : ∀ d, (s'.rx d).isSome = (s.rx d).isSome
  others : Undriven c s s'
  listed : (s'.pc c).listed = (s.pc c).listed
  live : (s'.pc c).live = (s.pc c).live
  turn : Turn c s s'

theorem Undriven.same {α : Type} {d : Req} {f : Pc → α} (hf : ∀ p : Pc, f p.awake = f p)
    (h : Undriven c s s') (hd : d ≠ c) : f (s'.pc d) = f (s.pc d) := by
  rcases h d hd with h | h <;> rw [h]
  exact hf _

theorem Moved.same {α : Type} {f : Pc → α} (h : Moved c s s') (hf : ∀ p : Pc, f p.awake = f p)
    (hc : f (s'.pc c) = f (s.pc c)) (d : Req) : f (s'.pc d) = f (s.pc d) := by
  by_cases hd : d = c
  · rw [hd, hc]
  · exact h.others.same hf hd

theorem Inv.moved (h : Inv s) (hm : Moved c s s') : Inv s' where
  nodup := hm.calls ▸ h.nodup
  listed d := by
    rw [hm.calls, hm.same Pc.awake_listed hm.listed]
    exact h.listed d
  live d := by
    rw [hm.rx, hm.same Pc.awake_live hm.live]
    exact h.live d
  one d d' hd hd' := by
    rcases hm.turn with ⟨-, hc⟩ | ⟨hfree, -, -⟩ | ⟨hc, -, hc'⟩
    · rw [hm.same Pc.awake_receives hc] at hd hd'
      exact h.one d d' hd hd'
    · have only : ∀ a, (s'.pc a).receives = true → a = c := by
        intro a ha
        by_contra hne
        rw [hm.others.same Pc.awake_receives hne] at ha
        have := h.flag.mpr ⟨a, ha⟩
        rw [hfree] at this
        cases this
      rw [only d hd, only d' hd']
    · have none : (s'.pc d).receives = false := by
        by_cases hne : d = c
        · rw [hne, hc']
        · rw [hm.others.same Pc.awake_receives hne]
          exact Bool.eq_false_iff.mpr fun ha => hne (h.one d c ha hc)
      rw [none] at hd
      cases hd
  flag := by
    rcases hm.turn with ⟨hr, hc⟩ | ⟨-, hr, hc⟩ | ⟨hc, hr, hc'⟩
    · rw [hr, h.flag]
      exact exists_congr fun d => by rw [hm.same Pc.awake_receives hc]
    · exact ⟨fun _ => ⟨c, hc⟩, fun _ => hr⟩
    · refine ⟨fun hr' => (nomatch hr.symm.trans hr'), fun ⟨d, hd⟩ => ?_⟩
      by_cases hne : d = c
      · rw [hne, hc'] at hd
        cases hd
      · rw [hm.others.same Pc.awake_receives hne] at hd
        exact absurd (h.one d c hd hc) hne

/-- A turn of the loop, by a thread that did not receive, or that received and
has just given up its turn. -/
theorem Looped.moved (h : Looped c s1 s') (hcalls : s1.calls = s.calls)
    (hrx : s1.rx = s.rx) (hpc : Undriven c s s1) (hw : (s.pc c).waits = true)
    (hr : (s1.receiving = s.receiving ∧ (s.pc c).receives = false) ∨
      (s1.receiving = false ∧ s.receiving = true ∧ (s.pc c).receives = true)) : Moved c s s' where
  calls := h.calls.trans hcalls
  rx d := by rw [h.rx, hrx]
  others := hpc.trans h.others
  listed := by
    rw [Pc.waits_listed hw]
    rcases h.turn with ⟨hc, -⟩ | ⟨hc | hc | hc, -⟩ <;> rw [hc] <;> rfl
  live := by
    rw [Pc.listed_live (Pc.waits_listed hw)]
    rcases h.turn with ⟨hc, -⟩ | ⟨hc | hc | hc, -⟩ <;> rw [hc] <;> rfl
  turn := by
    rcases hr with ⟨hr, hnot⟩ | ⟨hr, hwas, hrec⟩
    · rcases h.turn with ⟨hc, hfree, hr'⟩ | ⟨hc | hc | hc, hr'⟩
      · exact .inr (.inl ⟨hr ▸ hfree, hr', by rw [hc]; rfl⟩)
      all_goals exact .inl ⟨hr'.trans hr, by rw [hc, hnot]; rfl⟩
    · rcases h.turn with ⟨hc, -, hr'⟩ | ⟨hc | hc | hc, hr'⟩
      · exact .inl ⟨hr'.trans hwas.symm, by rw [hc, hrec]; rfl⟩
      all_goals exact .inr (.inr ⟨hrec, hr'.trans hr, by rw [hc]; rfl⟩)

theorem Moved.goto {q : Pc} (hq : s.pc c = q)
    (hcalls : s1.calls = s.calls) (hrx : ∀ d, (s1.rx d).isSome = (s.rx d).isSome)
    (hpc : s1.pc = s.pc) (hr : s1.receiving = s.receiving) (hl : p.listed = q.listed)
    (hv : p.live = q.live) (hrec : p.receives = q.receives) : Moved c s (s1.goto c p) where
  calls := hcalls
  rx := hrx
  others := .goto fun d _ => .inl (congrFun hpc d)
  listed := by rw [State.goto_pc_self, hq, hl]
  live := by rw [State.goto_pc_self, hq, hv]
  turn := .inl ⟨hr, by rw [State.goto_pc_self, hq, hrec]⟩

namespace State

/-- The receiver gives up its turn, with some change to the calls or the mark,
and goes on with its loop. -/
theorem loop_moved_receiver (h : Inv s)
    (hc : (s.pc c).receives = true) (hk : Kept s s1) : Moved c s (loop c s1.giveUpTurn) :=
  (loop_looped c _).moved hk.calls hk.rx (fun d _ => .inr (congrArg Pc.awake (congrFun hk.pc d)))
    (Pc.receives_waits hc) (.inr ⟨rfl, h.flag.mpr ⟨c, hc⟩, hc⟩)

end State

theorem isSome_written {rx : Req → Option Buf} {b b' : Buf} (hb : rx o = some b)
    (d : Req) : (update rx o (some b') d).isSome = (rx d).isSome := by
  by_cases hd : d = o
  · rw [hd, update_self, hb]
    rfl
  · rw [update_of_ne hd]

theorem Inv.relisted (h : Inv s) (hpc : s'.pc = update s.pc c p) (hr : s'.receiving = s.receiving)
    (hrec : p.receives = (s.pc c).receives) (hnodup : s'.calls.Nodup)
    (hl : c ∈ s'.calls ↔ p.listed = true) (hother : ∀ d, d ≠ c → (d ∈ s'.calls ↔ d ∈ s.calls))
    (hv : (s'.rx c).isSome = p.live) (hrx : ∀ d, d ≠ c → s'.rx d = s.rx d) : Inv s' := by
  have hself : s'.pc c = p := by rw [hpc, update_self]
  have hne : ∀ d, d ≠ c → s'.pc d = s.pc d := fun d hd => by rw [hpc, update_of_ne hd]
  have hsame : ∀ d, (s'.pc d).receives = (s.pc d).receives := by
    intro d
    by_cases hd : d = c
    · rw [hd, hself, hrec]
    · rw [hne d hd]
  refine ⟨hnodup, fun d => ?_, fun d => ?_, fun d d' hd hd' => ?_, ?_⟩
  · by_cases hd : d = c
    · rw [hd, hself, hl]
    · rw [hother d hd, hne d hd, h.listed d]
  · by_cases hd : d = c
    · rw [hd, hself, hv]
    · rw [hrx d hd, hne d hd, h.live d]
  · exact h.one d d' ((hsame d).symm.trans hd) ((hsame d').symm.trans hd')
  · rw [hr, h.flag]
    exact exists_congr fun d => by rw [hsame d]

theorem Inv.begin {type : MsgType} (h : Inv s) (hpc : s.pc c = .fresh)
    (hs : s.begin c type = some s') : Inv s' := by
  obtain ⟨⟨tag, used⟩, -, rfl⟩ := map_eq_some_iff.mp hs
  have hnew : c ∉ s.calls := fun hmem => by
    have hl := (h.listed c).mp hmem
    rw [hpc] at hl
    cases hl
  refine h.relisted rfl rfl (by rw [hpc]; rfl) (List.nodup_cons.mpr ⟨hnew, h.nodup⟩)
    ⟨fun _ => rfl, fun _ => List.mem_cons_self ..⟩ (fun d hd => ?_) ?_ (fun d hd => ?_)
  · exact ⟨fun hm => (List.mem_cons.mp hm).resolve_left hd, List.mem_cons_of_mem _⟩
  · exact congrArg isSome (update_self c (some fun _ => 0) s.rx)
  · exact update_of_ne hd ..

theorem Inv.step (h : Inv s) (hs : Step e s s') : Inv s' := by
  rcases hs.move with ⟨ticks, rfl⟩ | ⟨c, -, hm⟩
  · exact { h with }
  cases hm with
  | goto hq hk hcall hdead hp hto hup =>
    exact h.moved (.goto hq hk.calls (fun d => by rw [hk.rx]) hk.pc hk.receiving hp.1 hp.2.1 hp.2.2)
  | loop hq hk hcall hdead hw hr hup =>
    exact h.moved ((State.loop_looped c _).moved hk.calls hk.rx
      (fun d _ => .inl (congrFun hk.pc d)) (hq ▸ hw) (.inl ⟨hk.receiving, hq ▸ hr⟩))
  | turn hr hk => exact h.moved (State.loop_moved_receiver h hr hk)
  | take hpc _ _ k => exact h.moved (.goto hpc rfl (fun _ => rfl) rfl rfl rfl rfl rfl)
  | copy hpc hb => exact h.moved (.goto hpc rfl (isSome_written hb) rfl rfl rfl rfl rfl)
  | begin hpc hs => exact h.begin hpc hs
  | unlink hpc =>
    refine h.relisted rfl rfl (by rw [hpc]; rfl) (h.nodup.erase c)
      ⟨fun hm => absurd hm (h.nodup.not_mem_erase), fun hl => (nomatch hl)⟩
      (fun d hd => List.mem_erase_of_ne hd) ((h.live c).trans ?_) (fun _ _ => rfl)
    rw [hpc]
    rfl
  | free hpc =>
    refine h.relisted rfl rfl (by rw [hpc]; rfl) h.nodup ((h.listed c).trans ?_)
      (fun _ _ => .rfl) ?_ (fun d hd => update_of_ne hd ..)
    · rw [hpc]
      rfl
    · exact congrArg isSome (update_self c none s.rx)

/-! ## Orderly runs -/

/-- A step in an orderly run. -/
def OrderlyStep (e : Event) (s s' : State) : Prop := s.Orderly e ∧ Step e s s'

/-- A reply is copied only to a call whose thread waits for it. -/
def Targets (s : State) : Prop :=
  ∀ c o, (s.pc c).target = some o → (s.pc o).waits = true ∧ (s.call o).done = false

theorem Targets.bystander {a : Req} (h : Targets s) (hu : Undriven a s s')
    (hcall : ∀ d, d ≠ a → (s'.call d).done = (s.call d).done) (ha : (s'.pc a).target = none)
    (hself : ∀ x, (s.pc x).target = some a → (s'.pc a).waits = true ∧ (s'.call a).done = false) :
    Targets s' := by
  intro c o hco
  have hc : c ≠ a := by
    rintro rfl
    rw [ha] at hco
    cases hco
  rw [hu.same Pc.awake_target hc] at hco
  by_cases ho : o = a
  · exact ho ▸ hself c (ho ▸ hco)
  · rw [hu.same Pc.awake_waits ho, hcall o ho]
    exact h c o hco

theorem Targets.receiver {a : Req} (hi : Inv s) (hu : Undriven a s s')
    (ha : (s.pc a).receives = true)
    (htarget : ∀ o, (s'.pc a).target = some o → (s'.pc o).waits = true ∧ (s'.call o).done = false) :
    Targets s' := by
  intro c o hco
  by_cases hc : c = a
  · exact htarget o (hc ▸ hco)
  · rw [hu.same Pc.awake_target hc] at hco
    exact absurd (hi.one c a (Pc.target_receives hco) ha) hc

/-- After a turn of the loop nothing is being copied by that thread. -/
theorem Looped.target (h : Looped c s s') : (s'.pc c).target = none := by
  rcases h.turn with ⟨hc, -⟩ | ⟨hc | hc | hc, -⟩ <;> rw [hc] <;> rfl

theorem Looped.waits (h : Looped c s s') (hd : (s.call c).done = false)
    (hh : ¬ s.hopeless c) : (s'.pc c).waits = true ∧ (s'.call c).done = false := by
  refine ⟨?_, h.done.trans hd⟩
  rcases h.turn with ⟨hc, -⟩ | ⟨hc | hc | hc, -⟩
  · rw [hc]; rfl
  · rcases h.left hc with hdone | hgone
    · rw [hd] at hdone
      cases hdone
    · exact absurd ⟨hd, hgone⟩ hh
  · rw [hc]; rfl
  · rw [hc]; rfl

theorem Targets.goto (h : Targets s) (hpc : s1.pc = s.pc)
    (hcall : s1.call = s.call) (hp : p.target = none)
    (hw : ∀ x, (s.pc x).target = some c → p.waits = true) : Targets (s1.goto c p) := by
  refine h.bystander (.goto fun d _ => .inl (congrFun hpc d))
    (fun d _ => congrArg Call.done (congrFun hcall d)) (by rw [State.goto_pc_self, hp])
    fun x hx => ⟨by rw [State.goto_pc_self, hw x hx], ?_⟩
  exact (congrArg Call.done (congrFun hcall c)).trans (h x c hx).2

theorem Targets.copying {k k' i i' : Nat} (hi : Inv s) (h : Targets s)
    (hpc : s.pc c = .copying o k i) (hpc1 : s1.pc = s.pc) (hcall : s1.call = s.call) :
    Targets (s1.goto c (.copying o k' i')) := by
  refine .receiver hi (.goto fun d _ => .inl (congrFun hpc1 d)) (by rw [hpc]; rfl) ?_
  intro o' ho'
  rw [State.goto_pc_self] at ho'
  cases ho'
  have ho := h c o (by rw [hpc]; rfl)
  refine ⟨?_, (congrArg Call.done (congrFun hcall o)).trans ho.2⟩
  by_cases hoc : o = c
  · rw [hoc, State.goto_pc_self]
    rfl
  · rw [State.goto_pc_of_ne hoc, hpc1]
    exact ho.1

theorem Targets.step (hi : Inv s) (h : Targets s) (ho : s.Orderly e)
    (hs : Step e s s') : Targets s' := by
  rcases hs.move with ⟨ticks, rfl⟩ | ⟨c, -, hm⟩
  · exact h
  have hgives : s.givesUp e = some c → ∀ x, (s.pc x).target ≠ some c := fun hg x hx =>
    ho.1 c hg x ((hi.listed x).mpr (Pc.waits_listed (Pc.receives_waits (Pc.target_receives hx)))) hx
  cases hm with
  | goto hq hk hcall hdead hp hto hup =>
    refine h.goto hk.pc hcall hto fun x hx => ?_
    rcases hup with hup | hw
    · exact absurd hx (hgives hup x)
    · exact hw (hq ▸ (h x c hx).1)
  | @loop s1 q hq hk hcall hdead hw hr hup =>
    have hl := State.loop_looped c s1
    refine h.bystander (fun d hd => hk.pc ▸ hl.others d hd)
      (fun d hd => by rw [hl.call d hd, hcall d hd]) hl.target fun x hx => ?_
    rcases hup with hup | ⟨hsame, hh⟩
    · exact absurd hx (hgives hup x)
    · exact hl.waits (hsame ▸ (h x c hx).2) hh
  | turn hr hk =>
    refine .receiver hi (State.loop_moved_receiver hi hr hk).others hr fun o hto => ?_
    rw [(State.loop_looped c _).target] at hto
    cases hto
  | @take _ _ _ o hpc htakes hdone k =>
    refine .receiver hi (.goto fun _ _ => .inl rfl) (by rw [hpc]; rfl) fun o' hto => ?_
    rw [State.goto_pc_self] at hto
    cases hto
    refine ⟨?_, hdone⟩
    by_cases hoc : o = c
    · rw [hoc, State.goto_pc_self]
      rfl
    · rw [State.goto_pc_of_ne hoc]
      exact ho.2 o htakes
  | copy hpc => exact h.copying hi hpc rfl rfl
  | begin hpc hs =>
    obtain ⟨⟨tag, used⟩, -, rfl⟩ := map_eq_some_iff.mp hs
    exact h.bystander (.goto fun _ _ => .inl rfl)
      (fun d hd => congrArg Call.done (State.setCall_call_of_ne hd))
      (by rw [State.goto_pc_self]; rfl) fun x hx => absurd (h x c hx).1 (by rw [hpc]; nofun)
  | unlink hpc | free hpc =>
    exact h.goto rfl rfl rfl fun x hx => absurd (h x c hx).1 (by rw [hpc]; nofun)

/-! ## Runs -/

/-- Only a copy writes into the buffer of another request. -/
theorem State.perform_rx (hs : Step e s s') (ho : e.request ≠ some o)
    (hrx : s'.rx o ≠ s.rx o) : ∃ c, (s.pc c).target = some o := by
  rcases hs.move with ⟨ticks, rfl⟩ | ⟨c, he, hm⟩
  · exact absurd rfl hrx
  have hoc : o ≠ c := fun h => ho (he.trans (congrArg some h.symm))
  cases hm with
  | goto hq hk => exact absurd (congrFun hk.rx o) hrx
  | loop hq hk | turn hr hk =>
    rw [(loop_looped c _).rx] at hrx
    exact absurd (congrFun hk.rx o) hrx
  | take => exact absurd rfl hrx
  | @copy o' k i b hpc =>
    by_cases hoo : o = o'
    · exact ⟨c, by rw [hpc, hoo]; rfl⟩
    · exact absurd (update_of_ne hoo ..) hrx
  | begin _ hs =>
    obtain ⟨⟨tag, used⟩, -, rfl⟩ := map_eq_some_iff.mp hs
    exact absurd (update_of_ne hoc ..) hrx
  | unlink => exact absurd rfl hrx
  | free => exact absurd (update_of_ne hoc ..) hrx

theorem targets_opened (transport : Transport) (msize : Nat) : Targets (.opened transport msize) :=
  fun _ _ h => nomatch h

theorem inv_targets_reached {transport : Transport} {msize : Nat}
    (h : Reached OrderlyStep (.opened transport msize) s) : Inv s ∧ Targets s :=
  h.invariant (P := fun s => Inv s ∧ Targets s)
    ⟨inv_opened transport msize, targets_opened transport msize⟩
    fun _ _ _ hi hs => ⟨hi.1.step hs.2, hi.2.step hi.1 hs.1 hs.2⟩

/-- A receiver writes into the buffer of another call only while that call is
listed and its thread has not returned from `rpc`.  So it is all through a copy,
and no write meets a buffer that is freed. -/
theorem handed_to_waiting {transport : Transport} {msize : Nat} {s : State}
    (h : Reached OrderlyStep (.opened transport msize) s) :
    (∀ e s', Step e s s' → ∀ o, e.request ≠ some o → s'.rx o ≠ s.rx o →
      o ∈ s.calls ∧ (s.pc o).waits = true) ∧ ∀ c o k i, s.pc c = .copying o k i →
      o ∈ s.calls ∧ (s.pc o).waits = true ∧ ∃ s', Step (.go c) s s' := by
  obtain ⟨hi, ht⟩ := inv_targets_reached h
  have hlisted : ∀ c o, (s.pc c).target = some o → o ∈ s.calls ∧ (s.pc o).waits = true :=
    fun c o hto => ⟨(hi.listed o).mpr (Pc.waits_listed (ht c o hto).1), (ht c o hto).1⟩
  refine ⟨fun e s' hs o ho hrx => ?_, fun c o k i hpc => ?_⟩
  · obtain ⟨c, hto⟩ := State.perform_rx hs ho hrx
    exact hlisted c o hto
  · have hw := hlisted c o (by rw [hpc]; rfl)
    refine ⟨hw.1, hw.2, ?_⟩
    have hlive : (s.rx o).isSome = true := by
      rw [hi.live o, Pc.listed_live (Pc.waits_listed hw.2)]
    obtain ⟨b, hb⟩ := Option.isSome_iff_exists.mp hlive
    show ∃ s', s.go c = some s'
    unfold State.go State.handOver
    rw [hpc]
    dsimp only
    rw [hb]
    split
    · exact ⟨_, rfl⟩
    · exact ⟨_, rfl⟩

def nothing : Buf := fun _ => 0

/-- The reply to a read of no bytes, with some tag. -/
def emptyRead (tag : UInt8) : Buf := ofBytes [11, 0, 0, 0, 8, tag, 0, 0, 0, 0, 0]

/-- A request begins and sends, and its thread becomes the receiver. -/
def starts (c : Req) : List Event :=
  [.begin c .tread, .send c 19 .rread, .transmit c 19, .go c, .go c]

def State.orderly (e : Event) (s : State) : Option State :=
  if s.Orderly e then s.perform e else none

theorem State.orderly_step (h : s.orderly e = some s') : OrderlyStep e s s' :=
  ite_none_right_eq_some.mp h

/-- The thread of request 1 receives the reply to request 2. -/
theorem handed_to_waiting_channel :
    ∃ s, Reached OrderlyStep (.opened .channel 16384) s ∧ s.pc 1 = .copying 2 11 0 ∧
      (∀ e s', Step e s s' → ∀ o, e.request ≠ some o → s'.rx o ≠ s.rx o →
        o ∈ s.calls ∧ (s.pc o).waits = true) ∧
      ∀ c o k i, s.pc c = .copying o k i →
        o ∈ s.calls ∧ (s.pc o).waits = true ∧ ∃ s', Step (.go c) s s' := by
  have hrun : (follow State.orderly
      (starts 1 ++ starts 2 ++ [.arrive 1 11 (emptyRead 2) true, .go 1])
      (.opened .channel 16384)).any (fun s => decide (s.pc 1 = .copying 2 11 0)) = true := by
    decide +kernel
  obtain ⟨s, hs, hpc⟩ := (any_eq_true _ _).mp hrun
  have hreached : Reached OrderlyStep (.opened .channel 16384) s :=
    .follow (fun _ _ _ => State.orderly_step) .start hs
  exact ⟨s, hreached, of_decide_eq_true hpc, handed_to_waiting hreached⟩

/-! ## A copy into freed memory -/

/-- The receiver waits in vain and sends again, after which `then` happens
before it is back in its loop. -/
def asksAgain (c : Req) (ticks : Nat) (meanwhile : List Event) : List Event :=
  [.pass ticks, .arrive c (-110) nothing false, .go c] ++ meanwhile ++ [.transmit c 19, .go c]

/-- Request 2 has sent for the last time when request 1 begins, which is the
receiver from then on.  At the end both are at their last deadline, request 2 at
tick 945 and request 1 at 1410, and the clock is at 930. -/
def bothWait : List Event :=
  starts 2 ++ asksAgain 2 15 [] ++ asksAgain 2 30 [] ++ asksAgain 2 60 [] ++ asksAgain 2 120 [] ++
  asksAgain 2 240 (starts 1) ++ asksAgain 1 15 [] ++ asksAgain 1 30 [] ++ asksAgain 1 60 [] ++
  asksAgain 1 120 [] ++ asksAgain 1 240 []

/-- The reply to request 2 comes in at tick 944.  While it is copied the last
deadline of request 2 passes. -/
def lateReply : List Event :=
  bothWait ++ [.go 2, .pass 14, .arrive 1 11 (emptyRead 1) true, .go 1, .pass 1, .alarm 2, .go 2,
    .go 2, .go 2, .go 2]

theorem copies_into_freed :
    ∃ s, Reached Step (.opened .udp msizeMax) s ∧ s.pc 1 = .copying 2 11 0 ∧ 2 ∉ s.calls ∧
      s.pc 2 = .ended Errno.etimedout.negated ∧ s.rx 2 = none ∧ s.perform (.go 1) = none := by
  have hrun : ((State.opened .udp msizeMax).after lateReply).any (fun s =>
      decide (s.pc 1 = .copying 2 11 0 ∧ 2 ∉ s.calls ∧ s.pc 2 = .ended Errno.etimedout.negated) &&
        ((s.rx 2).isNone && (s.perform (.go 1)).isNone)) = true := by
    decide +kernel
  obtain ⟨s, hs, htest⟩ := (any_eq_true _ _).mp hrun
  rw [Bool.and_eq_true, Bool.and_eq_true, decide_eq_true_iff] at htest
  obtain ⟨⟨hpc, hlist, hended⟩, hrx, hgo⟩ := htest
  exact ⟨s, reached_after .start hs, hpc, hlist, hended, Option.isNone_iff_eq_none.mp hrx,
    Option.isNone_iff_eq_none.mp hgo⟩

end ManiOS.Zrp.Client

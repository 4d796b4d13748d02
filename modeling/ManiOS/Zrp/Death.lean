import ManiOS.Zrp.Handover

/-!
# A dead session

When the retries of a request run out its thread marks the session dead: "what
else is waiting, and what comes later, fails at once".  On a channel the
receiver does it at end of file.

The mark holds when, at the moment it is set, no other thread is receiving and
none is about to send again.  Then nobody receives from there on, every call
that waits and every call that comes later returns an error, and nothing is
sent again (`dead_for_good`).  A thread that is receiving at that moment takes
the mark back: over UDP it assigns `false` when its receive times out
(`dead_undone`).
-/

namespace ManiOS.Zrp.Client

open Lib Option
open Function (update)
open State (goto_pc_self send go enter transmit enter_dead)

/-! ## Marking the session -/

/-- Not receiving, not about to send again and not asleep. -/
def Pc.settled : Pc → Bool
  | .receiving | .received .. | .copying .. | .resending | .asleep => false
  | _ => true

theorem Pc.settled_awake {p : Pc} (hr : p.receives = false) (hs : p ≠ .resending) :
    p.awake.settled = true := by
  cases p <;> first | rfl | exact absurd rfl hs | cases hr

namespace State

/-- The session is marked dead with this event. -/
def marks (s : State) (e : Event) : Bool := !s.dead && (s.perform e).any (·.dead)

/-- The session is marked dead only while no other thread receives and none is
about to send again. -/
def Alone (s : State) (e : Event) : Prop :=
  s.marks e = true → ∀ d ∈ s.calls, e.request ≠ some d →
    (s.pc d).receives = false ∧ s.pc d ≠ .resending

instance (s : State) (e : Event) : Decidable (s.Alone e) :=
  inferInstanceAs (Decidable (_ → _))

end State

/-- A step in such a run. -/
def AloneStep (e : Event) (s s' : State) : Prop := s.Alone e ∧ Step e s s'

/-- In a dead session nobody receives, sends again or sleeps. -/
def Quiet (s : State) : Prop := s.dead = true → ∀ c, (s.pc c).settled = true

namespace State

variable {c : Req} {s : State}

theorem loop_dead (h : s.dead = true) : s.loop c = if (s.call c).done then s.goto c .left
      else goto c .left (s.setCall c { s.call c with len := Errno.eio.negated }) := by
  unfold loop
  rw [if_pos h]

/-- A turn of the loop that marks the session wakes everyone. -/
theorem loop_marks (h : s.dead = false) (h' : (s.loop c).dead = true) : s.loop c = s.timeOut c := by
  unfold loop at h' ⊢
  split
  next hd =>
    rw [if_pos hd] at h'
    exact nomatch h.symm.trans h'
  next hd =>
    rw [if_neg hd, if_neg (by rw [h]; nofun)] at h'
    rw [if_neg (by rw [h]; nofun)]
    split
    next hl =>
      rw [if_pos hl] at h'
      split
      next => rfl
      next he =>
        rw [if_neg he] at h'
        exact nomatch h.symm.trans h'
    next hl =>
      rw [if_neg hl] at h'
      split at h'
      · exact nomatch h.symm.trans h'
      · exact nomatch h.symm.trans h'

/-- The thread leaves its loop and everyone else is woken. -/
def Marked (c : Req) (s s' : State) : Prop :=
  s'.pc c = .left ∧ ∀ d, d ≠ c → s'.pc d = (s.pc d).awake

theorem loop_marked {s1 : State} (hpc : s1.pc = s.pc) (h : s1.dead = false)
    (h' : (s1.loop c).dead = true) : Marked c s (s1.loop c) := by
  rw [loop_marks h h']
  refine ⟨goto_pc_self .., fun d hd => (goto_pc_of_ne hd).trans ?_⟩
  exact congrArg Pc.awake (congrFun hpc d)

/-- The same for a thread that gives up its turn, which may have found the end of
file. -/
theorem loop_giveUpTurn_marked {s1 : State} (hpc : s1.pc = s.pc)
    (h' : (loop c s1.giveUpTurn).dead = true) : Marked c s (loop c s1.giveUpTurn) := by
  cases hd : s1.dead with
  | true =>
    rw [loop_dead (show s1.giveUpTurn.dead = true from hd)]
    split
    all_goals exact ⟨goto_pc_self .., fun d hne => (goto_pc_of_ne hne).trans
      (congrArg Pc.awake (congrFun hpc d))⟩
  | false =>
    obtain ⟨hc, hothers⟩ := loop_marked (s := s1.giveUpTurn) rfl hd h'
    refine ⟨hc, fun d hne => (hothers d hne).trans ?_⟩
    show (s1.pc d).awake.awake = _
    rw [Pc.awake_awake, hpc]

theorem perform_marked {e : Event} {s' : State} (hs : Step e s s') (h : s.dead = false)
    (h' : s'.dead = true) : ∃ c, e.request = some c ∧ Marked c s s' := by
  have hsame : s'.dead ≠ s.dead := by rw [h, h']; decide
  rcases hs.move with ⟨ticks, rfl⟩ | ⟨c, he, hm⟩
  · exact absurd rfl hsame
  refine ⟨c, he, ?_⟩
  cases hm with
  | goto _ _ _ hdead => exact absurd hdead hsame
  | loop hq hk _ hdead => exact loop_marked hk.pc (hdead.trans h) h'
  | turn _ hk => exact loop_giveUpTurn_marked hk.pc h'
  | begin _ hs =>
    obtain ⟨⟨tag, used⟩, -, rfl⟩ := Option.map_eq_some_iff.mp hs
    exact absurd rfl hsame
  | take | copy | unlink | free => exact absurd rfl hsame

end State

/-! ## After the mark -/

/-- What a thread comes to in a dead session: it has no reply, or it leaves with
an error. -/
def Pc.doomed (call : Call) : Pc → Prop
  | .sending | .sent _ | .stamped _ | .woken | .resent => call.done = false
  | .left => call.len < 0
  | .returned r | .unlinked r | .ended r => r < 0
  | _ => True

/-- A send of `c` that was under way went out, and no other. -/
def LastSend (c : Req) (s s' : State) : Prop :=
  s'.sends c = s.sends c ∧ (s'.pc c = .sending → s.pc c = .sending) ∨
    s.pc c = .sending ∧ s'.sends c = s.sends c + 1 ∧ s'.pc c ≠ .sending

/-- A step in a dead session, by the thread of `c`. -/
structure DeadStep (c : Req) (s s' : State) : Prop where
  dead : s'.dead = true
  others : ∀ d, d ≠ c → s'.pc d = s.pc d ∧ s'.call d = s.call d ∧ s'.sends d = s.sends d
  settled : (s'.pc c).settled = true
  doomed : (s.pc c).doomed (s.call c) → (s'.pc c).doomed (s'.call c)
  sends : LastSend c s s'

variable {c : Req} {s s' : State} {e : Event} {s s1 : State}

theorem DeadStep.goto {p q : Pc} (hq : s.pc c = q)
    (hdead : s1.dead = true) (hpc : s1.pc = s.pc) (hcall : ∀ d, d ≠ c → s1.call d = s.call d)
    (hsends : s1.sends = s.sends) (hp : p.settled = true) (hne : p ≠ .sending)
    (hdoom : q.doomed (s.call c) → p.doomed (s1.call c)) : DeadStep c s (s1.goto c p) where
  dead := hdead
  others d hd := ⟨(State.goto_pc_of_ne hd).trans (congrFun hpc d), hcall d hd, congrFun hsends d⟩
  settled := by rw [goto_pc_self, hp]
  doomed h := by
    rw [goto_pc_self]
    exact hdoom (hq ▸ h)
  sends := .inl ⟨congrFun hsends c, fun h => absurd ((goto_pc_self ..).symm.trans h) hne⟩

theorem State.loop_deadStep {q : Pc} (hq : s.pc c = q) (hdead : s1.dead = true)
    (hpc : s1.pc = s.pc) (hcall : ∀ d, d ≠ c → s1.call d = s.call d) (hsends : s1.sends = s.sends)
    (hdoom : q.doomed (s.call c) → (s1.call c).done = true → (s1.call c).len < 0) :
    DeadStep c s (s1.loop c) := by
  rw [State.loop_dead hdead]
  split
  next hd => exact .goto hq hdead hpc hcall hsends rfl nofun fun h => hdoom h hd
  next hd =>
    refine .goto hq hdead hpc (fun d hne => (State.setCall_call_of_ne hne).trans (hcall d hne))
      hsends rfl nofun fun _ => ?_
    rw [State.setCall_call_self]
    exact Errno.negated_neg .eio

/-- The first send failed: the thread leaves with an error. -/
theorem State.enter_doomed {r : Int} (hd : (s.call c).done = false)
    (h : ((s.enter c r).call c).done = true) : ((s.enter c r).call c).len < 0 := by
  unfold enter at h ⊢
  split
  next hr =>
    rw [State.setCall_call_self]
    split
    · exact hr
    · exact Errno.negated_neg .eio
  next hr =>
    rw [if_neg hr] at h
    exact nomatch hd.symm.trans h

theorem State.go_deadStep (hs : s.go c = some s') (hdead : s.dead = true)
    (hc : (s.pc c).settled = true) : DeadStep c s s' := by
  unfold go at hs
  split at hs
  next r hpc =>
    cases hs
    exact .goto hpc hdead rfl (fun _ _ => rfl) rfl rfl nofun id
  next r hpc =>
    cases hs
    refine State.loop_deadStep hpc ((enter_dead ..).trans hdead) (State.enter_kept ..).pc
      (fun d hd => State.enter_call r s hd) ?_ State.enter_doomed
    unfold enter
    split <;> rfl
  next hpc =>
    cases hs
    exact State.loop_deadStep hpc hdead rfl (fun _ _ => rfl) rfl fun h hd => nomatch h.symm.trans hd
  next hpc =>
    cases hs
    exact State.loop_deadStep hpc hdead rfl (fun _ _ => rfl) rfl fun h hd => nomatch h.symm.trans hd
  next hpc =>
    rw [hpc] at hc
    cases hc
  next hpc =>
    rw [hpc] at hc
    cases hc
  next hpc =>
    obtain ⟨b, -, rfl⟩ := Option.map_eq_some_iff.mp hs
    refine .goto hpc hdead rfl (fun _ _ => rfl) rfl rfl nofun fun h => ?_
    have hlen : (s.call c).len < 0 := h
    rw [if_pos hlen]
    exact hlen
  next r hpc =>
    cases hs
    exact .goto hpc hdead rfl (fun _ _ => rfl) rfl rfl nofun id
  next r hpc =>
    cases hs
    exact .goto hpc hdead rfl (fun _ _ => rfl) rfl rfl nofun id
  next => cases hs

theorem State.perform_deadStep (hs : Step e s s') (hdead : s.dead = true)
    (hquiet : ∀ c, (s.pc c).settled = true) :
    (s'.dead = true ∧ s'.pc = s.pc ∧ s'.call = s.call ∧ s'.sends = s.sends) ∨
      ∃ c, DeadStep c s s' := by
  have hset : ∀ {c p}, s.pc c = p → p.settled = true := fun h => h ▸ hquiet _
  cases e with
  | pass ticks =>
    cases hs
    exact .inl ⟨hdead, rfl, rfl, rfl⟩
  | begin c type =>
    obtain ⟨hpc, hs⟩ := Option.ite_none_right_eq_some.mp hs
    obtain ⟨⟨tag, used⟩, -, rfl⟩ := Option.map_eq_some_iff.mp hs
    exact .inr ⟨c, .goto hpc hdead rfl (fun d hd => State.setCall_call_of_ne hd) rfl rfl nofun
      fun _ => trivial⟩
  | send c len expect =>
    obtain ⟨hpc, hs⟩ := Option.ite_none_right_eq_some.mp hs
    cases hs
    refine .inr ⟨c, ?_⟩
    by_cases hlen : len = 0
    · rw [send, if_pos hlen]
      exact .goto hpc hdead rfl (fun _ _ => rfl) rfl rfl nofun fun _ => Errno.negated_neg .einval
    · rw [send, if_neg hlen, if_pos hdead]
      exact .goto hpc hdead rfl (fun _ _ => rfl) rfl rfl nofun fun _ => Errno.negated_neg .eio
  | transmit c r =>
    unfold Step State.perform transmit at hs
    dsimp only at hs
    split at hs
    next hpc =>
      cases hs
      refine .inr ⟨c, hdead, fun d hd => ⟨State.goto_pc_of_ne hd, rfl,
        Function.update_of_ne hd ..⟩, ?_, fun h => ?_, .inr ⟨hpc, Function.update_self .., ?_⟩⟩
      · rw [goto_pc_self]
        rfl
      · rw [hpc] at h
        rw [goto_pc_self]
        exact h
      · rw [goto_pc_self]
        nofun
    next hpc => cases hset hpc
    next => cases hs
  | arrive c n msg fromServer =>
    obtain ⟨hpc, -⟩ := Option.ite_none_right_eq_some.mp hs
    cases hset hpc
  | alarm c =>
    obtain ⟨⟨hpc, -⟩, -⟩ := Option.ite_none_right_eq_some.mp hs
    cases hset hpc
  | go c => exact .inr ⟨c, State.go_deadStep hs hdead (hquiet c)⟩

/-- The session is dead, and nobody receives, sends again or sleeps. -/
def Over (s : State) : Prop := s.dead = true ∧ ∀ c, (s.pc c).settled = true

theorem Over.step (h : Over s) (hs : Step e s s') : Over s' := by
  rcases State.perform_deadStep hs h.1 h.2 with ⟨hd, hpc, -⟩ | ⟨a, ha⟩
  · exact ⟨hd, hpc ▸ h.2⟩
  · refine ⟨ha.dead, fun c => ?_⟩
    by_cases hc : c = a
    · exact hc ▸ ha.settled
    · rw [(ha.others c hc).1]
      exact h.2 c

theorem Quiet.step (hi : Inv s) (h : Quiet s) (hs : AloneStep e s s') : Quiet s' := by
  intro hdead' c
  cases hdead : s.dead with
  | true => exact (Over.step ⟨hdead, h hdead⟩ hs.2).2 c
  | false =>
    obtain ⟨a, hreq, hleft, hothers⟩ := State.perform_marked hs.2 hdead hdead'
    by_cases hc : c = a
    · rw [hc, hleft]
      rfl
    · have hmarks : s.marks e = true := by
        rw [State.marks, hdead, hs.2, any_some, hdead']
        rfl
      rw [hothers c hc]
      by_cases hl : c ∈ s.calls
      · obtain ⟨hr, hre⟩ := hs.1 hmarks c hl fun he => hc (Option.some.inj (he.symm.trans hreq))
        exact Pc.settled_awake hr hre
      · have hnot : (s.pc c).listed = false :=
          Bool.eq_false_iff.mpr fun hl' => hl ((hi.listed c).mpr hl')
        cases hp : s.pc c <;> rw [hp] at hnot <;> first | rfl | cases hnot

theorem inv_quiet_reached {transport : Transport} {msize : Nat}
    (h : Reached AloneStep (.opened transport msize) s) : Inv s ∧ Quiet s :=
  h.invariant (P := fun s => Inv s ∧ Quiet s)
    ⟨inv_opened transport msize, fun hd => nomatch hd⟩
    fun _ _ _ hi hs => ⟨hi.1.step hs.2, hi.2.step hi.1 hs⟩

/-! ## Runs -/

/-- What `rpc`, or `send` before it, returned. -/
def Pc.result : Pc → Option Int
  | .returned r | .unlinked r | .ended r => some r
  | _ => none

/-- A call that has not entered `rpc` yet, or waits there with no reply. -/
def State.Unanswered (s : State) (c : Req) : Prop :=
  s.pc c = .fresh ∨ s.pc c = .begun ∨ ((s.pc c).waits = true ∧ (s.call c).done = false)

/-- What becomes of a call from `s`, where the session is dead, to `s'`. -/
structure Fate (c : Req) (s s' : State) : Prop where
  dead : Over s'
  doomed : (s'.pc c).doomed (s'.call c)
  sends : LastSend c s s'

theorem Fate.start (h : Over s) (hu : s.Unanswered c) : Fate c s s := by
  refine ⟨h, ?_, .inl ⟨rfl, id⟩⟩
  rcases hu with hp | hp | ⟨hw, hdone⟩
  · rw [hp]
    trivial
  · rw [hp]
    trivial
  · cases hp : s.pc c <;> rw [hp] at hw <;> first | exact hdone | trivial

theorem Fate.step (h : Fate c s s1) (hs : Step e s1 s') : Fate c s s' := by
  have hover := h.dead.step hs
  rcases State.perform_deadStep hs h.dead.1 h.dead.2 with ⟨-, hpc, hcall, hsends⟩ | ⟨a, ha⟩
  · exact ⟨hover, by rw [hpc, hcall]; exact h.doomed, by rw [LastSend, hpc, hsends]; exact h.sends⟩
  · by_cases hc : c = a
    · subst hc
      refine ⟨hover, ha.doomed h.doomed, ?_⟩
      rcases h.sends with ⟨hn, hp⟩ | ⟨hp, hn, hne⟩
      · rcases ha.sends with ⟨hn', hp'⟩ | ⟨hp', hn', hne'⟩
        · exact .inl ⟨hn'.trans hn, fun h' => hp (hp' h')⟩
        · exact .inr ⟨hp hp', by rw [hn', hn], hne'⟩
      · rcases ha.sends with ⟨hn', hp'⟩ | ⟨hp', -, -⟩
        · exact .inr ⟨hp, hn'.trans hn, fun h' => hne (hp' h')⟩
        · exact absurd hp' hne
    · obtain ⟨hpc, hcall, hsends⟩ := ha.others c hc
      exact ⟨hover, by rw [hpc, hcall]; exact h.doomed,
        by rw [LastSend, hpc, hsends]; exact h.sends⟩

/-- How many steps are left until `rpc` returns, in a dead session. -/
def Pc.toGo : Pc → Nat
  | .begun | .left => 1
  | .stamped _ | .woken | .resent => 2
  | .sent _ => 3
  | .sending => 4
  | _ => 0

theorem Pc.toGo_le (p : Pc) : p.toGo ≤ 4 := by
  unfold Pc.toGo
  split <;> decide

/-- In a dead session every thread in a request can go on by itself. -/
theorem State.progress (hi : Inv s) (hdead : s.dead = true)
    (hset : (s.pc c).settled = true) (hl : (s.pc c).listed = true) (hr : (s.pc c).result = none) :
    ∃ e s', e.request = some c ∧ Step e s s' ∧ (s'.pc c).listed = true ∧
      (s'.pc c).toGo < (s.pc c).toGo := by
  have hloop : ∀ s1 : State, s1.dead = true → (s1.loop c).pc c = .left := by
    intro s1 h1
    rw [State.loop_dead h1]
    split <;> exact goto_pc_self ..
  have hgo := go.eq_def c s
  have htransmit := transmit.eq_def c 0 s
  generalize hp : s.pc c = p at *
  cases p with
  | begun =>
    refine ⟨.send c 1 .rread, _, rfl, if_pos hp, ?_⟩
    rw [send, if_neg Nat.one_ne_zero, if_pos hdead, goto_pc_self]
    exact ⟨rfl, Nat.one_pos⟩
  | sending =>
    refine ⟨.transmit c 0, _, rfl, htransmit, ?_⟩
    rw [goto_pc_self]
    exact ⟨rfl, (by decide : 3 < 4)⟩
  | sent r =>
    refine ⟨.go c, _, rfl, hgo, ?_⟩
    rw [goto_pc_self]
    exact ⟨rfl, (by decide : 2 < 3)⟩
  | stamped r =>
    refine ⟨.go c, _, rfl, hgo, ?_⟩
    rw [hloop _ ((enter_dead ..).trans hdead)]
    exact ⟨rfl, (by decide : 1 < 2)⟩
  | woken =>
    refine ⟨.go c, _, rfl, hgo, ?_⟩
    rw [hloop _ hdead]
    exact ⟨rfl, by decide⟩
  | resent =>
    refine ⟨.go c, _, rfl, hgo, ?_⟩
    rw [hloop (s.restamp c) hdead]
    exact ⟨rfl, by decide⟩
  | left =>
    have hlive : (s.rx c).isSome = true := by rw [hi.live c, hp]; rfl
    obtain ⟨b, hb⟩ := Option.isSome_iff_exists.mp hlive
    rw [hb] at hgo
    refine ⟨.go c, _, rfl, hgo, ?_⟩
    rw [goto_pc_self]
    exact ⟨rfl, Nat.one_pos⟩
  | fresh | unlinked _ | ended _ => cases hl
  | returned _ => cases hr
  | asleep | resending | receiving | received _ _ _ | copying _ _ _ => cases hset

/-- A doomed call returns an error after a few steps of its own thread. -/
theorem Fate.returns (hi : Inv s') (h : Fate c s s') (hl : (s'.pc c).listed = true) :
    ∃ es s'' r, (∀ e ∈ es, Event.request e = some c) ∧ es.length ≤ (s'.pc c).toGo ∧
      s'.after es = some s'' ∧ s''.pc c = .returned r ∧ r < 0 := by
  induction hn : (s'.pc c).toGo using Nat.strong_induction_on generalizing s' with
  | _ n ih =>
    cases hr : (s'.pc c).result with
    | some r =>
      have hd := h.doomed
      cases hp : s'.pc c <;> rw [hp] at hr hl hd <;> cases hr <;> cases hl
      exact ⟨[], s', r, fun _ h => (nomatch h), Nat.zero_le _, rfl, hp, hd⟩
    | none =>
      obtain ⟨e, s1, hreq, hs, hl1, hlt⟩ := State.progress hi h.dead.1 (h.dead.2 c) hl hr
      obtain ⟨es, s'', r, hes, hlen, hafter, hres⟩ :=
        ih _ (hn ▸ hlt) (hi.step hs) (h.step hs) hl1 rfl
      refine ⟨e :: es, s'', r, List.forall_mem_cons.mpr ⟨hreq, hes⟩, ?_, ?_, hres⟩
      · exact Nat.succ_le_of_lt (lt_of_le_of_lt hlen (hn ▸ hlt))
      · have hperf : s'.perform e = some s1 := hs
        show (s'.perform e).bind _ = some s''
        rw [hperf]
        exact hafter

/-- Once the session is dead it stays dead.  A call that has no reply then, or
that comes later, returns nothing but an error, is not sent again (a first send
that is under way goes out), and returns by itself. -/
theorem dead_for_good {transport : Transport} {msize : Nat} {s s' : State}
    (h : Reached AloneStep (.opened transport msize) s) (hdead : s.dead = true)
    (h' : Reached AloneStep s s') : s'.dead = true ∧ ∀ c, s.Unanswered c →
      (∀ r, (s'.pc c).result = some r → r < 0) ∧
      s'.sends c ≤ s.sends c + (if s.pc c = .sending then 1 else 0) ∧
      ((s'.pc c).listed = true →
        ∃ es s'' r, (∀ e ∈ es, Event.request e = some c) ∧ es.length ≤ 4 ∧
          s'.after es = some s'' ∧ s''.pc c = .returned r ∧ r < 0) := by
  obtain ⟨hi, hq⟩ := inv_quiet_reached h
  have hi' : Inv s' := h'.invariant hi fun _ _ _ hi hs => hi.step hs.2
  have hover : Over s := ⟨hdead, hq hdead⟩
  have hfate : ∀ c, s.Unanswered c → Fate c s s' := fun c hu =>
    h'.invariant (P := Fate c s) (.start hover hu) fun _ _ _ hf hs => hf.step hs.2
  refine ⟨?_, fun c hu => ⟨fun r hr => ?_, ?_, fun hl => ?_⟩⟩
  · exact (h'.invariant hover fun _ _ _ ho hs => ho.step hs.2).1
  · have hd := (hfate c hu).doomed
    cases hp : s'.pc c <;> rw [hp] at hr hd <;> cases hr <;> exact hd
  · rcases (hfate c hu).sends with ⟨hn, -⟩ | ⟨hp, hn, -⟩
    · rw [hn]
      exact Nat.le_add_right ..
    · rw [hn, if_pos hp]
  · obtain ⟨es, s'', r, hes, hlen, hrest⟩ := (hfate c hu).returns hi' hl
    exact ⟨es, s'', r, hes, hlen.trans (Pc.toGo_le _), hrest⟩

/-- What an event does in such a run. -/
def State.alone (e : Event) (s : State) : Option State :=
  if s.Alone e then s.perform e else none

theorem State.alone_step (h : s.alone e = some s') : AloneStep e s s' :=
  Option.ite_none_right_eq_some.mp h

/-- The retries of request 1 run out.  Request 3 comes later. -/
theorem dead_for_good_udp :
    ∃ s s', Reached AloneStep (.opened .udp msizeMax) s ∧ s.dead = true ∧ s.Unanswered 3 ∧
      Reached AloneStep s s' ∧ s'.pc 3 = .returned Errno.eio.negated ∧
      s'.dead = true ∧ ∀ c, s.Unanswered c →
        (∀ r, (s'.pc c).result = some r → r < 0) ∧
        s'.sends c ≤ s.sends c + (if s.pc c = .sending then 1 else 0) ∧
        ((s'.pc c).listed = true →
          ∃ es s'' r, (∀ e ∈ es, Event.request e = some c) ∧ es.length ≤ 4 ∧
            s'.after es = some s'' ∧ s''.pc c = .returned r ∧ r < 0) := by
  have hrun : (follow State.alone (starts 1 ++ asksAgain 1 15 [] ++ asksAgain 1 30 [] ++
      asksAgain 1 60 [] ++ asksAgain 1 120 [] ++ asksAgain 1 240 [] ++
      [.pass 480, .arrive 1 (-110) nothing false, .go 1]) (.opened .udp msizeMax)).any (fun s =>
        decide (s.dead = true ∧ s.pc 3 = .fresh) &&
        (follow State.alone [.begin 3 .tclunk, .send 3 11 .rclunk] s).any fun s' =>
          decide (s'.pc 3 = .returned Errno.eio.negated)) = true := by
    decide +kernel
  obtain ⟨s, hs, htest⟩ := (any_eq_true _ _).mp hrun
  rw [Bool.and_eq_true, decide_eq_true_iff] at htest
  obtain ⟨⟨hdead, hpc⟩, hrun'⟩ := htest
  obtain ⟨s', hs', hpc'⟩ := (any_eq_true _ _).mp hrun'
  have h : Reached AloneStep (.opened .udp msizeMax) s :=
    .follow (fun _ _ _ => State.alone_step) .start hs
  have h' : Reached AloneStep s s' := .follow (fun _ _ _ => State.alone_step) .start hs'
  exact ⟨s, s', h, hdead, .inl hpc, h', of_decide_eq_true hpc', dead_for_good h hdead h'⟩

/-- The last deadline of request 2 passes while the thread of request 1 receives.
A stray datagram ends that receive.  Then request 3 is sent. -/
theorem dead_undone :
    ∃ s s', Reached Step (.opened .udp msizeMax) s ∧ s.dead = true ∧ s.pc 3 = .fresh ∧
      Reached Step s s' ∧ s'.dead = false ∧ s'.sends 3 = 1 := by
  have hrun : ((State.opened .udp msizeMax).after
      (bothWait ++ [.go 2, .pass 15, .alarm 2, .go 2])).any (fun s =>
        decide (s.dead = true ∧ s.pc 3 = .fresh) &&
        (s.after ([.arrive 1 5 nothing false, .go 1] ++ starts 3)).any fun s' =>
          decide (s'.dead = false ∧ s'.sends 3 = 1)) = true := by
    decide +kernel
  obtain ⟨s, hs, htest⟩ := (any_eq_true _ _).mp hrun
  rw [Bool.and_eq_true, decide_eq_true_iff] at htest
  obtain ⟨⟨hdead, hpc⟩, hrun'⟩ := htest
  obtain ⟨s', hs', htest'⟩ := (any_eq_true _ _).mp hrun'
  obtain ⟨hdead', hsends⟩ := of_decide_eq_true htest'
  exact ⟨s, s', reached_after .start hs, hdead, hpc, reached_after .start hs', hdead', hsends⟩

end ManiOS.Zrp.Client

import ManiOS.Pipe.Runs

/-!
# The end of a pipe

`end_release` finds out with interrupts off whether it is the last one.  Then it
wakes the threads of the other end, whichever it is, and only after that the
last one frees the pipe.  So the first release may still be on its way to the
wait queues when the last one frees them (`release_faults`).

In a run in which that does not happen no step uses memory that is not
allocated or frees it again, and when both ends are released and no call is
under way, the pipe and all its messages are freed (`pipe_torn_down`).
-/

namespace ManiOS.Pipe

open Function (update)
open ManiOS.Lib
open State (goto_pc_of_ne go recv perform take send goto)

variable {s s' : State} {t : Tid} {e : Side} {a : Addr} {ev : Event}

namespace State

/-- The pipe is freed when no other release is under way. -/
def Orderly (s : State) : Event → Prop
  | .go t => ∀ e, s.pc t = .free e → ∀ t', t' ≠ t → (s.pc t').releases = none
  | _ => True

/-- A step that does not free the pipe under another release. -/
def OrderlyStep (ev : Event) (s s' : State) : Prop := s.Orderly ev ∧ Step ev s s'

end State

/-- Once the pipe is freed no release is under way and nothing is queued. -/
structure Quiet (s : State) : Prop extends Inv s where
  gone : s.live = false → ∀ t, (s.pc t).releases = none
  empty : s.live = false → ∀ d, (s.dir d).queue = []

namespace Quiet

theorem create : Quiet .create := ⟨.create, fun h => (nomatch h), fun h => (nomatch h)⟩

theorem live_of_open (h : Quiet s) (he : s.isOpen e = true) : s.live = true := by
  by_contra hl
  exact nomatch he.symm.trans (h.ends.freed (Bool.eq_false_iff.mpr hl) e)

theorem live_of_uses (h : Quiet s) (hu : (s.pc t).uses = some e) : s.live = true :=
  h.live_of_open (h.ends.uses t e hu)

theorem live_of_releases (h : Quiet s) {r : Side × Bool} (hr : (s.pc t).releases = some r) :
    s.live = true := by
  by_contra hl
  exact nomatch (h.gone (Bool.eq_false_iff.mpr hl) t).symm.trans hr

/-! ## No step faults -/

theorem recv_isSome (h : Quiet s) (len deadline : Nat) : (s.recv t e len deadline).isSome := by
  unfold recv
  cases hq : (s.dir e).queue with
  | nil =>
    dsimp only
    split <;> rfl
  | cons a rest =>
    obtain ⟨m, hm, _⟩ := h.memory.queued e a (hq ▸ List.mem_cons_self)
    dsimp only
    rw [hm]
    rfl

theorem send_isSome (ha : (s.msg a).isSome) : (s.send t e a).isSome := by
  obtain ⟨m, hm⟩ := Option.isSome_iff_exists.mp ha
  unfold send
  rw [hm]
  show (if _ then _ else _ : Option State).isSome
  split
  · rfl
  · split <;> rfl

theorem freeMessage_isSome {f : State → State} (ha : (s.msg a).isSome) :
    ((s.freeMessage a).map f).isSome := by
  obtain ⟨m, hm⟩ := Option.isSome_iff_exists.mp ha
  rw [State.freeMessage, hm]
  rfl

theorem go_isSome (h : Quiet s) (hlive : s.live = true) (hout : s.pc t ≠ .out) :
    (s.go t).isSome := by
  have hif {o : Option State} (ho : o.isSome) : (if s.live = true then o else none).isSome := by
    rwa [if_pos hlive]
  have hheld := fun a hh => (h.memory.held t a hh).1
  unfold go
  generalize s.pc t = pc at hout hheld
  cases pc with
  | out => exact absurd rfl hout
  | recv e len deadline slept => exact hif (h.recv_isSome len deadline)
  | send e a => exact hif (send_isSome (hheld a rfl))
  | recvFree e a | sendFree e a => exact freeMessage_isSome (hheld a rfl)
  | recvWake | sendWake | poll | wakeReaders | wakeWriters => exact hif rfl
  | free e =>
    obtain ⟨s', hs', _⟩ := h.memory.freePipe (t := t)
    exact hif (by rw [hs']; rfl)

theorem live_of_enabled (h : Quiet s) (hen : s.Enabled ev) : s.live = true := by
  cases ev with
  | recv | poll => exact h.live_of_open hen.2
  | send | release => exact h.live_of_open hen.2.1
  | timeout t =>
    obtain ⟨e, len, deadline, ht, _⟩ := hen
    exact h.live_of_uses (t := t) (e := e) (by rw [ht]; rfl)
  | go t =>
    have huses := fun e => h.live_of_uses (t := t) (e := e)
    have hrel := fun r => h.live_of_releases (t := t) (r := r)
    have hout : s.pc t ≠ .out := hen
    generalize s.pc t = pc at huses hrel hout
    cases pc with
    | out => exact absurd rfl hout
    | recv e _ _ _ | recvFree e _ | recvWake e | send e _ | sendFree e _ | sendWake e | poll e =>
      exact huses e rfl
    | wakeReaders e last | wakeWriters e last | free e => exact hrel _ rfl

theorem perform_isSome (h : Quiet s) (hen : s.Enabled ev) : (s.perform ev).isSome := by
  have hlive := h.live_of_enabled hen
  cases ev with
  | go t => exact h.go_isSome hlive hen
  | send t e data a =>
    unfold perform
    dsimp only
    rw [if_pos hlive]
    split
    · split <;> rfl
    · rfl
  | recv | poll | release | timeout =>
    rw [perform, if_pos hlive]
    rfl

/-! ## The freeing step -/

/-- Only the end of a last release frees the pipe. -/
theorem go_live (hs' : s.go t = some s') :
    s'.live = s.live ∨ ∃ e, s.pc t = .free e ∧ s.freePipe t = some s' := by
  unfold go at hs'
  generalize s.pc t = pc at hs'
  cases pc with
  | out => cases hs'
  | recv e len deadline slept =>
    obtain ⟨_, hs'⟩ := Inv.live_of_some hs'
    unfold recv at hs'
    refine .inl ?_
    split at hs'
    · split at hs' <;> cases hs' <;> rfl
    · obtain ⟨m, _, rfl⟩ := Option.map_eq_some_iff.mp hs'
      unfold take
      dsimp only
      split <;> rfl
  | recvFree e a | sendFree e a =>
    obtain ⟨s1, hs1, rfl⟩ := Option.map_eq_some_iff.mp hs'
    obtain ⟨m, _, rfl⟩ := Option.map_eq_some_iff.mp hs1
    exact .inl rfl
  | send e a =>
    obtain ⟨_, hs'⟩ := Inv.live_of_some hs'
    obtain ⟨m, _, hs'⟩ := Option.bind_eq_some_iff.mp hs'
    dsimp only at hs'
    refine .inl ?_
    split at hs'
    · cases hs'
      rfl
    · split at hs' <;> cases hs' <;> rfl
  | recvWake e | sendWake e | poll e | wakeReaders e last | wakeWriters e last =>
    obtain ⟨_, hs'⟩ := Inv.live_of_some hs'
    cases hs'
    exact .inl rfl
  | free e => exact .inr ⟨e, rfl, (Inv.live_of_some hs').2⟩

theorem step (h : Quiet s) (hs : State.OrderlyStep ev s s') : Quiet s' := by
  have hlive := h.live_of_enabled hs.2.1
  suffices hend : s'.live = false →
      (∀ t, (s'.pc t).releases = none) ∧ ∀ d, (s'.dir d).queue = [] from
    ⟨h.toInv.step hs.2, fun hdead => (hend hdead).1, fun hdead => (hend hdead).2⟩
  intro hdead
  obtain ⟨hord, hen, hs'⟩ := hs
  have hchange : s'.live ≠ s.live := by
    rw [hdead, hlive]
    decide
  cases ev with
  | go t =>
    obtain ⟨e, ht, hfree⟩ := (go_live hs').resolve_left hchange
    obtain ⟨s1, hs1, _, hdir, _, hpc, _⟩ := h.memory.freePipe (t := t)
    cases Option.some.inj (hs1.symm.trans hfree)
    refine ⟨fun t' => ?_, fun d => by rw [hdir]⟩
    rw [hpc]
    by_cases htt : t' = t
    · rw [htt, Function.update_self]
      rfl
    · rw [Function.update_of_ne htt]
      exact hord e ht t' htt
  | send t e data a =>
    obtain ⟨_, hs'⟩ := Inv.live_of_some hs'
    split at hs'
    · split at hs' <;> cases hs' <;> exact absurd rfl hchange
    · cases hs'
      exact absurd rfl hchange
  | recv | poll | release | timeout =>
    obtain ⟨_, hs'⟩ := Inv.live_of_some hs'
    cases hs'
    exact absurd rfl hchange

end Quiet

/-- In an orderly run no step touches memory that is not allocated, and once both
ends are released and every call is over, the pipe and its messages are freed. -/
theorem pipe_torn_down (hr : Reached State.OrderlyStep .create s) :
    (∀ ev, s.Enabled ev → ∃ s', s.perform ev = some s') ∧
      ((∀ e, s.isOpen e = false) → (∀ t, s.pc t = .out) →
        s.live = false ∧ ∀ a, s.msg a = none) := by
  have h : Quiet s := hr.invariant .create fun _ _ _ h hs => h.step hs
  refine ⟨fun ev hen => Option.isSome_iff_exists.mp (h.perform_isSome hen), fun hclosed hout => ?_⟩
  have hdead : s.live = false := by
    by_contra hl
    obtain ⟨t, e, ht⟩ := h.ends.unfreed ((Bool.not_eq_false _).mp hl) hclosed
    rw [hout] at ht
    cases ht
  refine ⟨hdead, fun a => ?_⟩
  by_contra ha
  rcases h.memory.owned a (Option.isSome_iff_ne_none.mpr ha) with ⟨d, hd⟩ | ⟨t, ht⟩
  · rw [h.empty hdead] at hd
    cases hd
  · rw [hout] at ht
    cases ht

/-- One end is released, and the other after it. -/
theorem pipe_torn_down_released : ∃ s, Reached State.OrderlyStep .create s ∧ s.live = false ∧
      (∀ ev, s.Enabled ev → ∃ s', s.perform ev = some s') ∧
      ((∀ e, s.isOpen e = false) → (∀ t, s.pc t = .out) →
        s.live = false ∧ ∀ a, s.msg a = none) := by
  have h0 : Reached State.OrderlyStep .create _ :=
    .step (.release 0 false) .start ⟨trivial, ⟨rfl, rfl, fun _ h => nomatch h⟩, rfl⟩
  have h1 : Reached State.OrderlyStep .create _ :=
    .step (.go 0) h0 ⟨fun _ h => (nomatch h), fun h => (nomatch h), rfl⟩
  have h2 : Reached State.OrderlyStep .create _ :=
    .step (.go 0) h1 ⟨fun _ h => (nomatch h), fun h => (nomatch h), rfl⟩
  -- the first release is over
  have hpc : ∀ t, (((State.create.goto 0 (.wakeReaders false false)).goto 0
      (.wakeWriters false false)).goto 0 .out).pc t = .out := by
    intro t
    by_cases ht : t = 0
    · rw [ht]
      rfl
    · rw [goto_pc_of_ne ht, goto_pc_of_ne ht, goto_pc_of_ne ht]
      rfl
  have h3 : Reached State.OrderlyStep .create _ :=
    .step (.release 1 true) h2
      ⟨trivial, ⟨rfl, rfl, fun t h => nomatch (congrArg Pc.uses (hpc t)).symm.trans h⟩, rfl⟩
  have h4 : Reached State.OrderlyStep .create _ :=
    .step (.go 1) h3 ⟨fun _ h => (nomatch h), fun h => (nomatch h), rfl⟩
  have h5 : Reached State.OrderlyStep .create _ :=
    .step (.go 1) h4 ⟨fun _ h => (nomatch h), fun h => (nomatch h), rfl⟩
  have h6 : Reached State.OrderlyStep .create _ :=
    .step (.go 1) h5 ⟨fun _ _ t ht => by
      rw [goto_pc_of_ne ht, goto_pc_of_ne ht, goto_pc_of_ne ht]
      exact congrArg Pc.releases (hpc t), fun h => (nomatch h), rfl⟩
  exact ⟨_, h6, rfl, pipe_torn_down h6⟩

/-- Thread 0 releases an end and loses the CPU before it wakes the other side.
Thread 1 releases the other end and frees the pipe.  Then thread 0 goes on to
the wait queues. -/
theorem release_faults :
    ∃ s, Reached State.Step .create s ∧ s.Enabled (.go 0) ∧ s.perform (.go 0) = none := by
  have h0 : Reached State.Step .create _ :=
    .step (.release 0 false) .start ⟨⟨rfl, rfl, fun _ h => nomatch h⟩, rfl⟩
  have hidle : ∀ t, Pc.uses ((goto 0 (.wakeReaders false false) .create).pc t) = none := by
    intro t
    by_cases ht : t = 0
    · rw [ht]
      rfl
    · rw [goto_pc_of_ne ht]
      rfl
  have h1 : Reached State.Step .create _ :=
    .step (.release 1 true) h0 ⟨⟨rfl, rfl, fun t h => nomatch (hidle t).symm.trans h⟩, rfl⟩
  have h2 : Reached State.Step .create _ := .step (.go 1) h1 ⟨fun h => (nomatch h), rfl⟩
  have h3 : Reached State.Step .create _ := .step (.go 1) h2 ⟨fun h => (nomatch h), rfl⟩
  have h4 : Reached State.Step .create _ := .step (.go 1) h3 ⟨fun h => (nomatch h), rfl⟩
  exact ⟨_, h4, fun h => (nomatch h), rfl⟩

end ManiOS.Pipe

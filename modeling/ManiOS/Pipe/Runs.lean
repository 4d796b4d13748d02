import ManiOS.Pipe.Messages

/-!
# What a pipe delivers

In every run of sends, receives and releases what is received in a direction is
a beginning of what was sent, and one receive returns bytes of one message.
While both ends are open, what was sent is what was received and what is still
queued.

`Inv` is the invariant.  The queue of a direction is the queue of its channel
as long as the pipe is allocated; what was delivered stays true after that.
-/

namespace ManiOS.Pipe

open Function (update update_self update_of_ne)
open ManiOS.Lib

/-- What was received in a direction is a beginning of what was sent, message by
message. -/
structure Delivered (l : Log) (d : Side) : Prop where
  bytes : ((l.received d).map (·.2)).flatten <+: (l.sent d).flatten
  message : ∀ i, (((l.received d).filter (·.1 == i)).map (·.2)).flatten <+: (l.sent d).getD i []
  order : (l.received d).Pairwise fun a b => a.1 ≤ b.1
  bound : ∀ r ∈ l.received d, r.1 < (l.sent d).length

/-- The invariant. -/
structure Inv (s : State) : Prop where
  ends : Ends s
  memory : Memory s
  content : s.live = true → ∀ d, Content s d
  delivered : ∀ d, Delivered s.log d
  eof : ∀ d, s.log.eof d = true → s.isOpen (!d) = false ∧ (s.dir d).queue = []
  epipe : ∀ d, s.log.epipe d = true → s.isOpen (!d) = false

variable {s s' : State} {t : Tid} {e d : Side} {a : Addr} {p : Pc}

theorem Content.delivered (h : Content s d) : Delivered s.log d where
  bytes := h.ok.heard_isPrefix
  message := h.ok.pieces_isPrefix
  order := h.ok.order
  bound r hr := (h.ok.bound r hr).2

theorem uses_self (h : s.isOpen e = true) : ∀ d, some e = some d → s.isOpen d = true := by
  rintro _ ⟨⟩
  exact h

theorem closed_update (h : s.isOpen d = false) : update s.isOpen e false d = false := by
  by_cases hde : d = e
  · rw [hde, update_self]
  · rw [update_of_ne hde, h]

namespace Inv

theorem create : Inv .create where
  ends := .create
  memory := .create
  content _ _ := ⟨.empty, rfl⟩
  delivered _ := Content.delivered (s := .create) ⟨.empty, rfl⟩
  eof _ h := nomatch h
  epipe _ h := nomatch h

/-- A step of thread `t` that moves no message and closes no end. -/
theorem quiet (h : Inv s) (hs' : s' = State.goto t p s) (hholds : p.holds = (s.pc t).holds)
    (hsend : ∀ e a, p = .send e a → s.pc t = .send e a)
    (huses : ∀ e, p.uses = some e → s.isOpen e = true) (hrel : p.releases = (s.pc t).releases ∨
      p.releases = none ∧ ∀ e, (s.pc t).releases ≠ some (e, true)) : Inv s' := by
  subst hs'
  exact { h with
    ends := h.ends.goto rfl rfl rfl huses hrel
    memory := h.memory.quiet rfl rfl rfl hholds hsend
    content := fun hl d => { h.content hl d with }
    epipe := h.epipe }

theorem enter (h : Inv s) (hholds : p.holds = none) (ht : (s.pc t).holds = none)
    (huses : ∀ e, p.uses = some e → s.isOpen e = true) (hprel : p.releases = none)
    (hrel : (s.pc t).releases = none) : Inv (s.goto t p) :=
  h.quiet rfl (hholds.trans ht.symm) (fun e a hp => by subst hp; cases hholds) huses
    (.inl (hprel.trans hrel.symm))

theorem send_call (h : Inv s) (ht : s.pc t = .out) (he : s.isOpen e = true) (ha : s.msg a = none)
    (data : List UInt8) :
    Inv (State.goto t (.send e a) { s with msg := update s.msg a (some ⟨data, 0⟩) }) := { h with
  ends := h.ends.goto (t := t) (p := .send e a) rfl rfl rfl (uses_self he) (.inl (by rw [ht]; rfl))
  memory := h.memory.alloc ha (by rw [ht]; rfl) data
  content hl d := by
    refine (h.content hl d).congr rfl (fun b hb => update_of_ne ?_ ..) rfl rfl rfl
    rintro rfl
    obtain ⟨m, hm, _⟩ := h.memory.queued d b hb
    exact nomatch ha.symm.trans hm }

theorem release (h : Inv s) (hlive : s.live = true) (ht : s.pc t = .out) (he : s.isOpen e = true)
    (hfree : ∀ t', (s.pc t').uses ≠ some e) : Inv (State.goto t (.wakeReaders e !s.isOpen (!e))
      { s with isOpen := update s.isOpen e false }) where
  ends := h.ends.release hlive he hfree
  memory := h.memory.quiet rfl rfl rfl (by rw [ht]; rfl) (fun _ _ hp => nomatch hp)
  content hl d := { h.content hl d with }
  delivered := h.delivered
  eof d hd := (h.eof d hd).imp_left closed_update
  epipe d hd := closed_update (h.epipe d hd)

/-! ## Receiving -/

section Recv

variable {len deadline : Nat} {slept : Bool} {rest : List Addr} {m : Message}

theorem content_take (h : Inv s) (hlive : s.live = true) (hq : (s.dir e).queue = a :: rest)
    (hm : s.msg a = some m) (d : Side) : Content (s.take t e len a rest m) d := by
  by_cases hd : d = e
  · subst hd
    exact (h.content hlive d).take h.memory hq hm len
  · have hne : ∀ b ∈ (s.dir d).queue, b ≠ a := by
      rintro b hb rfl
      exact hd (h.memory.apart hb (hq ▸ List.mem_cons_self))
    by_cases hn : m.pos + m.part len = m.data.length
    · rw [take_all hn]
      exact (h.content hlive d).congr (update_of_ne hd ..)
        (fun b hb => update_of_ne (hne b hb) ..) rfl (update_of_ne hd ..)
        (update_of_ne hd ..)
    · rw [take_part hn]
      exact (h.content hlive d).congr rfl (fun b hb => update_of_ne (hne b hb) ..) rfl
        (update_of_ne hd ..) rfl

theorem take (h : Inv s) (hlive : s.live = true) (ht : s.pc t = .recv e len deadline slept)
    (hq : (s.dir e).queue = a :: rest) (hm : s.msg a = some m) : Inv (s.take t e len a rest m) := by
  have hfirst : a ∈ (s.dir e).queue := hq ▸ List.mem_cons_self
  obtain ⟨m', hm', hpos⟩ := h.memory.queued e a hfirst
  cases Option.some.inj (hm'.symm.trans hm)
  have hopen : s.isOpen e = true := h.ends.uses t e (by rw [ht]; rfl)
  have hholds : (s.pc t).holds = none := by rw [ht]; rfl
  have hrel : (s.pc t).releases = none := by rw [ht]; rfl
  have hle : m.pos + m.part len ≤ m.data.length := m.part_le len hpos
  have htouch : Memory { s with
      msg := update s.msg a (some { m with pos := m.pos + m.part len }) } :=
    h.memory.touch hfirst hle
  have hcontent : ∀ d, Content (s.take t e len a rest m) d := h.content_take hlive hq hm
  -- an end that saw the end of file has an empty queue
  have heof : ∀ d, s.log.eof d = true → d ≠ e := by
    rintro d hd rfl
    exact nomatch (h.eof d hd).2.symm.trans hq
  by_cases hn : m.pos + m.part len = m.data.length
  · have hmem := htouch.unqueue (t := t) (p := .recvFree e a) hq hholds
      ((s.dir e).bytes - m.data.length) rfl (fun _ _ hp => nomatch hp)
    rw [take_all hn] at hcontent ⊢
    exact {
      ends := h.ends.goto (t := t) (p := .recvFree e a) rfl rfl rfl (uses_self hopen)
        (.inl hrel.symm)
      memory := { hmem with }
      content := fun _ => hcontent
      delivered := fun d => (hcontent d).delivered
      eof := fun d hd => by
        obtain ⟨hclosed, hempty⟩ := h.eof d hd
        refine ⟨hclosed, ?_⟩
        exact (congrArg Direction.queue (update_of_ne (heof d hd) ..)).trans hempty
      epipe := h.epipe }
  · have hmem : Memory (.goto t .out { s with
        msg := update s.msg a (some { m with pos := m.pos + m.part len }) }) :=
      htouch.quiet (p := .out) rfl rfl rfl hholds.symm (fun _ _ hp => nomatch hp)
    rw [take_part hn] at hcontent ⊢
    exact { h with
      ends := h.ends.goto (t := t) (p := .out) rfl rfl rfl (fun _ hd => nomatch hd) (.inl hrel.symm)
      memory := { hmem with }
      content := fun _ => hcontent
      delivered := fun d => (hcontent d).delivered
      epipe := h.epipe }

theorem recv (h : Inv s) (hlive : s.live = true) (ht : s.pc t = .recv e len deadline slept)
    (hs' : s.recv t e len deadline = some s') : Inv s' := by
  have hholds : (s.pc t).holds = none := by rw [ht]; rfl
  have hrel : (s.pc t).releases = none := by rw [ht]; rfl
  have hopen : s.isOpen e = true := h.ends.uses t e (by rw [ht]; rfl)
  unfold State.recv at hs'
  cases hq : (s.dir e).queue with
  | nil =>
    rw [hq] at hs'
    by_cases hpeer : s.isOpen (!e) = true
    · simp only [if_pos hpeer] at hs'
      cases hs'
      exact h.enter rfl hholds (uses_self hopen) rfl hrel
    · simp only [if_neg hpeer] at hs'
      cases hs'
      have hout := h.enter (t := t) (p := .out) rfl hholds (fun _ hd => nomatch hd) rfl hrel
      exact {
        ends := { hout.ends with }
        memory := { hout.memory with }
        content := fun hl d => { h.content hl d with }
        delivered := fun d => { h.delivered d with }
        eof := fun d hd => by
          by_cases hde : d = e
          · subst hde
            exact ⟨Bool.eq_false_iff.mpr hpeer, hq⟩
          · exact h.eof d ((update_of_ne hde ..).symm.trans hd)
        epipe := h.epipe }
  | cons a rest =>
    rw [hq] at hs'
    obtain ⟨m, hm, rfl⟩ := Option.map_eq_some_iff.mp hs'
    exact h.take hlive ht hq hm

end Recv

/-! ## Sending -/

theorem send (h : Inv s) (hlive : s.live = true) (ht : s.pc t = .send e a)
    (hs' : s.send t e a = some s') : Inv s' := by
  have hholds : (s.pc t).holds = some a := by rw [ht]; rfl
  have hrel : (s.pc t).releases = none := by rw [ht]; rfl
  have hopen : s.isOpen e = true := h.ends.uses t e (by rw [ht]; rfl)
  obtain ⟨m, hm, hs'⟩ := Option.bind_eq_some_iff.mp hs'
  have hpos := h.memory.unsent t e a m ht hm
  dsimp only at hs'
  split at hs'
  · cases hs'
    exact h
  · split at hs'
    · next hpeer =>
      cases hs'
      have hmem := h.memory.enqueue (d := !e) ht ((s.dir (!e)).bytes + m.data.length)
        (p := .sendWake e) rfl
      have hcontent : ∀ d, Content (.goto t (.sendWake e) { s with
          dir := update s.dir (!e) ⟨(s.dir (!e)).queue ++ [a], (s.dir (!e)).bytes + m.data.length⟩
          log := { s.log with
            sent := update s.log.sent (!e) (s.log.sent (!e) ++ [m.data]) } }) d := by
        intro d
        by_cases hd : d = !e
        · subst hd
          exact (h.content hlive (!e)).push hm hpos (update_self ..) rfl rfl
            (update_self ..) rfl rfl
        · exact (h.content hlive d).congr (update_of_ne hd ..) (fun _ _ => rfl)
            (update_of_ne hd ..) rfl rfl
      exact {
        ends := h.ends.goto (t := t) (p := .sendWake e) rfl rfl rfl (uses_self hopen) (.inl hrel.symm)
        memory := { hmem with }
        content := fun _ => hcontent
        delivered := fun d => (hcontent d).delivered
        eof := fun d hd => by
          -- an end that saw the end of file has a closed peer, so it is not ours
          obtain ⟨hclosed, hq⟩ := h.eof d hd
          have hne : d ≠ !e := by
            rintro rfl
            rw [Bool.not_not] at hclosed
            exact nomatch hopen.symm.trans hclosed
          exact ⟨hclosed, (congrArg Direction.queue (update_of_ne hne ..)).trans hq⟩
        epipe := h.epipe }
    · next hpeer =>
      cases hs'
      have hfree := h.quiet (t := t) (p := .sendFree e a) rfl hholds.symm
        (fun _ _ hp => nomatch hp) (uses_self hopen) (.inl hrel.symm)
      exact { h with
        ends := { hfree.ends with }
        memory := { hfree.memory with }
        content := fun hl d => { h.content hl d with }
        delivered := fun d => { h.delivered d with }
        epipe := fun d hd => by
          by_cases hde : d = e
          · subst hde
            exact Bool.eq_false_iff.mpr hpeer
          · exact h.epipe d ((update_of_ne hde ..).symm.trans hd) }

/-! ## Freeing -/

theorem freeMessage (h : Inv s) (ht : (s.pc t).holds = some a) (hp : p.holds = none)
    (huses : ∀ d, p.uses = some d → s.isOpen d = true) (hprel : p.releases = none)
    (hrel : (s.pc t).releases = none) (hs' : (s.freeMessage a).map (State.goto t p) = some s') :
    Inv s' := by
  obtain ⟨s1, hs1, rfl⟩ := Option.map_eq_some_iff.mp hs'
  obtain ⟨m, _, rfl⟩ := Option.map_eq_some_iff.mp hs1
  have hloose := (h.memory.held t a ht).2
  exact { h with
    ends := h.ends.goto (t := t) (p := p) rfl rfl rfl huses (.inl (hprel.trans hrel.symm))
    memory := h.memory.release ht hp
    content := fun hl d => (h.content hl d).congr rfl
      (fun b hb => update_of_ne (fun he : b = a => hloose d (he ▸ hb)) ..) rfl rfl rfl
    epipe := h.epipe }

theorem freePipe (h : Inv s) (ht : s.pc t = .free e) (hs' : s.freePipe t = some s') : Inv s' := by
  obtain ⟨s1, hs1, hlive, hdir, hopen, hpc, hlog, hmsg⟩ := h.memory.freePipe (t := t)
  cases Option.some.inj (hs1.symm.trans hs')
  exact {
    ends := h.ends.free ht hopen hlive hpc
    memory := h.memory.freed hdir hpc (by rw [ht]; rfl) hmsg
    content := fun hl => nomatch hlive.symm.trans hl
    delivered := by
      rw [hlog]
      exact h.delivered
    eof := fun d hd => by
      rw [hlog] at hd
      rw [hopen, hdir]
      exact ⟨(h.eof d hd).1, rfl⟩
    epipe := fun d hd => by
      rw [hlog] at hd
      rw [hopen]
      exact h.epipe d hd }

/-! ## Every step -/

/-- What a step that uses the pipe did, it did to an allocated pipe. -/
theorem live_of_some {o : Option State} (h : (if s.live = true then o else none) = some s') :
    s.live = true ∧ o = some s' := by
  split at h
  · next hl => exact ⟨hl, h⟩
  · cases h

theorem go (h : Inv s) (hs' : s.go t = some s') : Inv s' := by
  unfold State.go at hs'
  have huses := h.ends.uses t
  generalize ht : s.pc t = pc at hs' huses
  cases pc with
  | out => cases hs'
  | recv e len deadline slept =>
    obtain ⟨hl, hs'⟩ := live_of_some hs'
    exact h.recv hl ht hs'
  | recvFree e a =>
    exact h.freeMessage (p := .recvWake e) (by rw [ht]; rfl) rfl huses rfl (by rw [ht]; rfl) hs'
  | send e a =>
    obtain ⟨hl, hs'⟩ := live_of_some hs'
    exact h.send hl ht hs'
  | sendFree e a =>
    exact h.freeMessage (p := .out) (by rw [ht]; rfl) rfl (fun _ hd => nomatch hd) rfl
      (by rw [ht]; rfl) hs'
  | recvWake e | sendWake e | poll e =>
    obtain ⟨_, hs'⟩ := live_of_some hs'
    cases hs'
    exact h.enter rfl (by rw [ht]; rfl) (fun _ hd => nomatch hd) rfl (by rw [ht]; rfl)
  | wakeReaders e last =>
    obtain ⟨_, hs'⟩ := live_of_some hs'
    cases hs'
    exact h.quiet rfl (by rw [ht]; rfl) (fun _ _ hp => nomatch hp) (fun _ hd => nomatch hd)
      (.inl (by rw [ht]; rfl))
  | wakeWriters e last =>
    obtain ⟨_, hs'⟩ := live_of_some hs'
    cases hs'
    cases last with
    | true =>
      exact h.quiet rfl (by rw [ht]; rfl) (fun _ _ hp => nomatch hp) (fun _ hd => nomatch hd)
        (.inl (by rw [ht]; rfl))
    | false =>
      refine h.quiet rfl (by rw [ht]; rfl) (fun _ _ hp => nomatch hp) (fun _ hd => nomatch hd)
        (.inr ⟨rfl, fun d hd => ?_⟩)
      rw [ht] at hd
      cases hd
  | free e =>
    obtain ⟨_, hs'⟩ := live_of_some hs'
    exact h.freePipe ht hs'

theorem step (h : Inv s) {ev : Event} (hs : State.Step ev s s') : Inv s' := by
  obtain ⟨hen, hs'⟩ := hs
  cases ev with
  | recv | poll =>
    obtain ⟨_, hs'⟩ := live_of_some hs'
    cases hs'
    exact h.enter rfl (by rw [hen.1]; rfl) (uses_self hen.2) rfl (by rw [hen.1]; rfl)
  | send t e data a =>
    obtain ⟨_, hs'⟩ := live_of_some hs'
    cases a with
    | none =>
      cases hs'
      exact h
    | some a =>
      simp only at hs'
      split at hs'
      · cases hs'
        exact h
      · cases hs'
        exact h.send_call hen.1 hen.2.1 (hen.2.2 a rfl) data
  | release t e =>
    obtain ⟨hl, hs'⟩ := live_of_some hs'
    cases hs'
    exact h.release hl hen.1 hen.2.1 hen.2.2
  | go t => exact h.go hs'
  | timeout t =>
    obtain ⟨_, hs'⟩ := live_of_some hs'
    cases hs'
    obtain ⟨e, len, deadline, ht, _⟩ := hen
    exact h.enter rfl (by rw [ht]; rfl) (fun _ hd => nomatch hd) rfl (by rw [ht]; rfl)

theorem reached (hr : Reached State.Step .create s) : Inv s :=
  hr.invariant .create fun _ _ _ h hs => h.step hs

end Inv

/-! ## What a direction delivers -/

/-- What was sent and neither received nor freed. -/
def State.unread (s : State) (d : Side) : List UInt8 :=
  ((s.messages d).map fun m => m.data.drop m.pos).flatten

/-- What a pipe delivers, in every run and in both directions. -/
theorem pipe_delivers (hr : Reached State.Step .create s) (d : Side) : Delivered s.log d ∧
      (s.isOpen true = true → s.isOpen false = true →
        ((s.log.received d).map (·.2)).flatten ++ s.unread d = (s.log.sent d).flatten) ∧
      (s.live = true → (s.dir d).bytes = ((s.messages d).map (·.data.length)).sum) ∧
      (s.log.eof d = true → s.isOpen (!d) = false ∧ (s.dir d).queue = []) ∧
      (s.log.epipe d = true → s.isOpen (!d) = false) := by
  have h := Inv.reached hr
  refine ⟨h.delivered d, fun htrue _ => ?_, fun hl => (h.content hl d).bytes, h.eof d, h.epipe d⟩
  have hlive : s.live = true := by
    by_contra hl
    exact nomatch htrue.symm.trans (h.ends.freed (Bool.eq_false_iff.mpr hl) true)
  have hall := (h.content hlive d).ok.heard_append_unread
  rw [Channel.unread] at hall
  simpa [State.chan, Channel.heard, State.unread, Function.comp_def] using hall

/-- Two of three bytes are received. -/
theorem pipe_delivers_part :
    ∃ s, Reached State.Step .create s ∧ s.log.received false = [(0, [1, 2])] ∧
      Delivered s.log false ∧
      (s.isOpen true = true → s.isOpen false = true →
        ((s.log.received false).map (·.2)).flatten ++ s.unread false = (s.log.sent false).flatten) ∧
      (s.live = true → (s.dir false).bytes = ((s.messages false).map (·.data.length)).sum) ∧
      (s.log.eof false = true → s.isOpen (!false) = false ∧ (s.dir false).queue = []) ∧
      (s.log.epipe false = true → s.isOpen (!false) = false) := by
  have hcall : Reached State.Step .create _ :=
    .step (.send 0 true [1, 2, 3] (some 5)) .start ⟨⟨rfl, rfl, fun _ _ => rfl⟩, rfl⟩
  have hsend : Reached State.Step .create _ := .step (.go 0) hcall ⟨fun h => (nomatch h), rfl⟩
  have hwait : Reached State.Step .create _ := .step (.recv 1 false 2 0) hsend ⟨⟨rfl, rfl⟩, rfl⟩
  have hrecv : Reached State.Step .create _ := .step (.go 1) hwait ⟨fun h => (nomatch h), rfl⟩
  exact ⟨_, hrecv, rfl, pipe_delivers hrecv false⟩

end ManiOS.Pipe

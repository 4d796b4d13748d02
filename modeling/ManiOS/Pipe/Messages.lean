import ManiOS.Lib.Channel
import ManiOS.Pipe.Ends
import Mathlib.Algebra.GroupWithZero.Nat
import Mathlib.Data.List.Nodup

/-!
# The messages of a pipe

`Memory` says that every message that is allocated has one owner: a queue, or a
thread that is about to queue it or to free it.

A direction of the pipe is a `Channel`: its queue holds the messages that the
channel holds, and sending and receiving are the channel's `push` and `read`.
-/

namespace ManiOS.Pipe

open Function (update update_self update_of_ne)
open ManiOS.Lib List

/-! ## Owners -/

/-- Every allocated message is on one queue or belongs to one thread. -/
structure Memory (s : State) : Prop where
  queued : ∀ d, ∀ a ∈ (s.dir d).queue, ∃ m, s.msg a = some m ∧ m.pos ≤ m.data.length
  nodup : ∀ d, (s.dir d).queue.Nodup
  apart : ∀ {d d' a}, a ∈ (s.dir d).queue → a ∈ (s.dir d').queue → d = d'
  held : ∀ t a, (s.pc t).holds = some a → (s.msg a).isSome ∧ ∀ d, a ∉ (s.dir d).queue
  holder : ∀ t t' a, (s.pc t).holds = some a → (s.pc t').holds = some a → t = t'
  unsent : ∀ t e a m, s.pc t = .send e a → s.msg a = some m → m.pos = 0
  owned : ∀ a, (s.msg a).isSome → (∃ d, a ∈ (s.dir d).queue) ∨ ∃ t, (s.pc t).holds = some a

/-- Who has a message. -/
inductive Owner where
  | queue (d : Side)
  | thread (t : Tid)

def State.Has (s : State) : Owner → Addr → Prop
  | .queue d, a => a ∈ (s.dir d).queue
  | .thread t, a => (s.pc t).holds = some a

variable {s s' : State} {t : Tid} {e d : Side} {a : Addr} {rest : List Addr} {m : Message} {p : Pc}

namespace Memory

theorem create : Memory .create where
  queued _ _ h := nomatch h
  nodup _ := .nil
  apart h := nomatch h
  held _ _ h := nomatch h
  holder _ _ _ h := nomatch h
  unsent _ _ _ _ h := nomatch h
  owned _ h := nomatch h

variable (h : Memory s)
include h

theorem unique {o o' : Owner} (ho : s.Has o a) (ho' : s.Has o' a) : o = o' := by
  cases o with
  | queue d =>
    cases o' with
    | queue d' => rw [h.apart ho ho']
    | thread t => exact absurd ho ((h.held t a ho').2 d)
  | thread t =>
    cases o' with
    | queue d => exact absurd ho' ((h.held t a ho).2 d)
    | thread t' => rw [h.holder t t' a ho ho']

theorem alive {o : Owner} (ho : s.Has o a) : (s.msg a).isSome := by
  cases o with
  | queue d =>
    obtain ⟨m, hm, -⟩ := h.queued d a ho
    rw [hm]
    rfl
  | thread t => exact (h.held t a ho).1

theorem quiet (hdir : s'.dir = s.dir) (hmsg : s'.msg = s.msg)
    (hpc : s'.pc = update s.pc t p) (hholds : p.holds = (s.pc t).holds)
    (hsend : ∀ e a, p = .send e a → s.pc t = .send e a) : Memory s' := by
  have hsame : ∀ t', (s'.pc t').holds = (s.pc t').holds := by
    intro t'
    rw [hpc]
    by_cases ht : t' = t
    · rw [ht, update_self, hholds]
    · rw [update_of_ne ht]
  exact {
    queued := by
      rw [hdir, hmsg]
      exact h.queued
    nodup := by
      rw [hdir]
      exact h.nodup
    apart := by
      rw [hdir]
      exact h.apart
    held := fun t' a ht' => by
      rw [hdir, hmsg]
      exact h.held t' a (hsame t' ▸ ht')
    holder := fun t1 t2 a h1 h2 => h.holder t1 t2 a (hsame t1 ▸ h1) (hsame t2 ▸ h2)
    unsent := fun t' e a m ht' hm => by
      rw [hmsg] at hm
      refine h.unsent t' e a m ?_ hm
      rw [hpc] at ht'
      by_cases ht : t' = t
      · subst ht
        rw [update_self] at ht'
        exact hsend e a ht'
      · rwa [update_of_ne ht] at ht'
    owned := fun a ha => by
      rw [hmsg] at ha
      rw [hdir]
      refine (h.owned a ha).imp_right fun ⟨t', ht'⟩ => ⟨t', ?_⟩
      rw [hsame]
      exact ht' }

/-- A step that gives the message at `a` another owner, or none, and touches no other. -/
theorem transfer (new : Option Owner)
    (hhas : ∀ o b, s'.Has o b ↔ s.Has o b ∧ b ≠ a ∨ b = a ∧ new = some o)
    (hmsg : ∀ b ≠ a, s'.msg b = s.msg b) (hsome : (s'.msg a).isSome = new.isSome)
    (hpos : ∀ d, new = some (.queue d) → ∃ m, s'.msg a = some m ∧ m.pos ≤ m.data.length)
    (hnodup : ∀ d, (s'.dir d).queue.Nodup)
    (hsend : ∀ t e b, s'.pc t = .send e b → b ≠ a → s.pc t = .send e b)
    (hunsent : ∀ t e m, s'.pc t = .send e a → s'.msg a = some m → m.pos = 0) : Memory s' := by
  have hone : ∀ o o' {b}, s'.Has o b → s'.Has o' b → o = o' := by
    intro o o' b ho ho'
    rcases (hhas o b).mp ho with ⟨ho, hb⟩ | ⟨rfl, ho⟩
    · rcases (hhas o' b).mp ho' with ⟨ho', -⟩ | ⟨hb', -⟩
      · exact h.unique ho ho'
      · exact absurd hb' hb
    · rcases (hhas o' b).mp ho' with ⟨-, hb⟩ | ⟨-, ho'⟩
      · exact absurd rfl hb
      · exact Option.some.inj (ho.symm.trans ho')
  refine ⟨fun d b hb => ?_, hnodup, fun {d d' b} hb hb' => ?_, fun t b hb => ⟨?_, fun d hd => ?_⟩,
    fun t t' b hb hb' => ?_, fun t e b m ht hm => ?_, fun b hb => ?_⟩
  · rcases (hhas (.queue d) b).mp hb with ⟨hb, hne⟩ | ⟨rfl, hnew⟩
    · rw [hmsg b hne]
      exact h.queued d b hb
    · exact hpos d hnew
  · cases hone (.queue d) (.queue d') hb hb'
    rfl
  · rcases (hhas (.thread t) b).mp hb with ⟨hb, hne⟩ | ⟨rfl, hnew⟩
    · rw [hmsg b hne]
      exact (h.held t b hb).1
    · rw [hsome, hnew]
      rfl
  · cases hone (.queue d) (.thread t) hd hb
  · cases hone (.thread t) (.thread t') hb hb'
    rfl
  · rcases eq_or_ne b a with rfl | hne
    · exact hunsent t e m ht hm
    · exact h.unsent t e b m (hsend t e b ht hne) ((hmsg b hne).symm.trans hm)
  · have hany : ∃ o, s'.Has o b := by
      rcases eq_or_ne b a with rfl | hne
      · rw [hsome] at hb
        obtain ⟨o, ho⟩ := Option.isSome_iff_exists.mp hb
        exact ⟨o, (hhas o b).mpr (.inr ⟨rfl, ho⟩)⟩
      · rw [hmsg b hne] at hb
        rcases h.owned b hb with ⟨d, hd⟩ | ⟨t, ht⟩
        · exact ⟨.queue d, (hhas _ b).mpr (.inl ⟨hd, hne⟩)⟩
        · exact ⟨.thread t, (hhas _ b).mpr (.inl ⟨ht, hne⟩)⟩
    obtain ⟨o, ho⟩ := hany
    cases o with
    | queue d => exact .inl ⟨d, ho⟩
    | thread t => exact .inr ⟨t, ho⟩

/-- A thread that has no message but that at `a` takes it or gives it away. -/
theorem moved {dir : Side → Direction} {msg : Addr → Option Message}
    (hold : ∀ t', (s.pc t').holds = some a → t' = t) (ht : ∀ b ∈ (s.pc t).holds, b = a)
    (hp : ∀ b ∈ p.holds, b = a) (new : Option Owner)
    (hthread : ∀ t', new = some (.thread t') ↔ t' = t ∧ p.holds = some a)
    (hdir : ∀ d b, b ∈ (dir d).queue ↔ b ∈ (s.dir d).queue ∧ b ≠ a ∨ b = a ∧ new = some (.queue d))
    (hmsg : ∀ b ≠ a, msg b = s.msg b) (hsome : (msg a).isSome = new.isSome)
    (hpos : ∀ d, new = some (.queue d) → ∃ m, msg a = some m ∧ m.pos ≤ m.data.length)
    (hnodup : ∀ d, (dir d).queue.Nodup)
    (hunsent : ∀ e m, p = .send e a → msg a = some m → m.pos = 0) :
    Memory (State.goto t p { s with dir, msg }) := by
  have hpc : ∀ t', (State.goto t p { s with dir, msg }).pc t' = if t' = t then p else s.pc t' :=
    fun t' => Function.update_apply ..
  refine h.transfer new (fun o b => ?_) hmsg hsome hpos hnodup (fun t' e b hb hne => ?_)
    fun t' e m hb hm => ?_
  · cases o with
    | queue d => exact hdir d b
    | thread t' =>
      rw [State.Has, hpc, hthread]
      by_cases htt : t' = t
      · subst htt
        rw [if_pos rfl]
        refine ⟨fun hb => .inr ⟨hp b hb, rfl, hp b hb ▸ hb⟩, ?_⟩
        rintro (⟨hb, hne⟩ | ⟨rfl, -, hb⟩)
        · exact absurd (ht b hb) hne
        · exact hb
      · rw [if_neg htt]
        refine ⟨fun hb => .inl ⟨hb, ?_⟩, ?_⟩
        · rintro rfl
          exact htt (hold t' hb)
        · rintro (⟨hb, -⟩ | ⟨-, htt', -⟩)
          · exact hb
          · exact absurd htt' htt
  · rw [hpc] at hb
    split at hb
    next => exact absurd (hp b (by rw [hb]; rfl)) hne
    next => exact hb
  · rw [hpc] at hb
    split at hb
    next => exact hunsent e m hb hm
    next htt => exact absurd (hold t' (by rw [hb]; rfl)) htt

theorem alloc (ha : s.msg a = none) (ht : (s.pc t).holds = none) (data : List UInt8) :
    Memory (State.goto t (.send e a) { s with msg := update s.msg a (some ⟨data, 0⟩) }) := by
  -- an address that nobody owned
  have hfree : ∀ o, ¬ s.Has o a := fun o ho => by
    have := h.alive ho
    rw [ha] at this
    cases this
  refine h.moved (fun t' hb => (hfree (.thread t') hb).elim) (by simp [ht])
    (fun b hb => (Option.some.inj hb).symm) (some (.thread t)) (fun t' => ?_) (fun d b => ?_)
    (fun b hb => update_of_ne hb ..) (by rw [update_self]; rfl) nofun h.nodup fun e' m _ hm => ?_
  · simp [Pc.holds, eq_comm]
  · have := hfree (.queue d)
    simp only [State.Has] at this
    grind
  · rw [update_self] at hm
    cases hm
    rfl

theorem release (ht : (s.pc t).holds = some a) (hp : p.holds = none) :
    Memory (State.goto t p { s with msg := update s.msg a none }) := by
  refine h.moved (fun t' hb => h.holder t' t a hb ht) (by simp [ht]) (by simp [hp]) none
    (by simp [hp]) (fun d b => ?_) (fun b hb => update_of_ne hb ..) (by rw [update_self]; rfl) nofun
    h.nodup fun e m he => ?_
  · have := (h.held t a ht).2 d
    grind
  · rw [he] at hp
    cases hp

theorem touch (ha : a ∈ (s.dir d).queue) (hm : m.pos ≤ m.data.length) :
    Memory { s with msg := update s.msg a (some m) } := by
  have hheld : ∀ {t' b}, (s.pc t').holds = some b → b ≠ a := by
    rintro t' b hb rfl
    exact (h.held t' b hb).2 d ha
  refine h.transfer (some (.queue d)) (fun o b => ?_) (fun b hb => update_of_ne hb ..)
    (by dsimp only; rw [update_self]; rfl) (fun _ _ => ⟨m, update_self .., hm⟩) h.nodup (fun _ _ _ ht _ => ht)
    fun t e m ht _ => absurd rfl (hheld (congrArg Pc.holds ht))
  rcases eq_or_ne b a with rfl | hne
  · simp only [ne_eq, not_true_eq_false, and_false, true_and, false_or, Option.some.injEq]
    exact ⟨fun ho => h.unique (o := .queue d) ha ho, fun ho => ho ▸ ha⟩
  · simp only [hne, ne_eq, not_false_eq_true, and_true, false_and, or_false]
    rfl

/-- The first message of a queue becomes a thread's. -/
theorem unqueue (hq : (s.dir d).queue = a :: rest) (ht : (s.pc t).holds = none)
    (n : Nat) (hp : p.holds = some a) (hsend : ∀ e a, p ≠ .send e a) :
    Memory (State.goto t p { s with dir := update s.dir d ⟨rest, n⟩ }) := by
  have hfirst : a ∈ (s.dir d).queue := hq ▸ mem_cons_self
  have hnd := h.nodup d
  rw [hq] at hnd
  obtain ⟨hnot, hnd⟩ := nodup_cons.mp hnd
  refine h.moved (fun t' hb => absurd hfirst ((h.held t' a hb).2 d)) (by simp [ht]) (by simp [hp])
    (some (.thread t)) (by simp [hp, eq_comm]) (fun d' b => ?_) (fun _ _ => rfl)
    (h.alive (o := .queue d) hfirst) nofun (fun d' => ?_) fun e _ he => absurd he (hsend e a)
  · rcases eq_or_ne d' d with rfl | hne
    · grind
    · have : a ∉ (s.dir d').queue := fun hin => hne (h.apart hin hfirst)
      grind
  · rcases eq_or_ne d' d with rfl | hne
    · rw [update_self]
      exact hnd
    · rw [update_of_ne hne]
      exact h.nodup d'

theorem enqueue (ht : s.pc t = .send e a) (n : Nat) (hp : p.holds = none) :
    Memory (State.goto t p { s with
      dir := update s.dir d ⟨(s.dir d).queue ++ [a], n⟩ }) := by
  have hhold : (s.pc t).holds = some a := by rw [ht]; rfl
  obtain ⟨hsome, hloose⟩ := h.held t a hhold
  obtain ⟨m, hm⟩ := Option.isSome_iff_exists.mp hsome
  have hpos : m.pos ≤ m.data.length := by
    rw [h.unsent t e a m ht hm]
    exact Nat.zero_le _
  refine h.moved (fun t' hb => h.holder t' t a hb hhold) (by simp [hhold]) (by simp [hp])
    (some (.queue d)) (by simp [hp]) (fun d' b => ?_) (fun _ _ => rfl) hsome
    (fun _ _ => ⟨m, hm, hpos⟩) (fun d' => ?_) fun e m he => ?_
  · grind
  · rcases eq_or_ne d' d with rfl | hne
    · rw [update_self]
      exact nodup_append.mpr ⟨h.nodup d', nodup_singleton a, fun b hb c hc hbc =>
        hloose d' (mem_singleton.mp hc ▸ hbc ▸ hb)⟩
    · rw [update_of_ne hne]
      exact h.nodup d'
  · rw [he] at hp
    cases hp

omit h

end Memory

/-! ## Freeing -/

/-- The state with the messages at some addresses freed. -/
def State.without (s : State) (l : List Addr) : State :=
  { s with msg := fun b => if b ∈ l then none else s.msg b }

theorem freeMessages_eq {l : List Addr} (hnd : l.Nodup) (hl : ∀ b ∈ l, (s.msg b).isSome) :
    s.freeMessages l = some (s.without l) := by
  induction l generalizing s with
  | nil => simp [State.freeMessages, State.without]
  | cons b l ih =>
    obtain ⟨hb, hnd⟩ := nodup_cons.mp hnd
    obtain ⟨m, hm⟩ := Option.isSome_iff_exists.mp (hl b mem_cons_self)
    rw [State.freeMessages, State.freeMessage, hm]
    show State.freeMessages l { s with msg := update s.msg b none } = _
    rw [ih hnd]
    · refine congrArg some ?_
      simp only [State.without, State.mk.injEq, true_and, and_true]
      funext c
      by_cases hcb : c = b
      · subst hcb
        simp
      · simp [hcb]
    · intro c hc
      have hcb : c ≠ b := fun he => hb (he ▸ hc)
      show (update s.msg b none c).isSome = true
      rw [update_of_ne hcb]
      exact hl c (mem_cons_of_mem b hc)

/-- The last release frees the messages of both queues and the pipe. -/
theorem Memory.freePipe (h : Memory s) :
    ∃ s', s.freePipe t = some s' ∧ s'.live = false ∧ (∀ d, s'.dir d = ⟨[], 0⟩) ∧
      s'.isOpen = s.isOpen ∧ s'.pc = update s.pc t .out ∧ s'.log = s.log ∧
      ∀ b, s'.msg b = if ∃ d, b ∈ (s.dir d).queue then none else s.msg b := by
  have hsome : ∀ d, ∀ b ∈ (s.dir d).queue, (s.msg b).isSome := fun d b hb => by
    obtain ⟨m, hm, _⟩ := h.queued d b hb
    rw [hm]
    rfl
  have hfirst := freeMessages_eq (h.nodup false) (hsome false)
  have hsecond := freeMessages_eq (s := s.without (s.dir false).queue) (h.nodup true)
    fun b hb => by
      have hnot : b ∉ (s.dir false).queue := fun hb' => nomatch h.apart hb hb'
      show (if b ∈ (s.dir false).queue then none else s.msg b).isSome = true
      rw [if_neg hnot]
      exact hsome true b hb
  refine ⟨.goto t .out { (s.without (s.dir false).queue).without (s.dir true).queue with
      live := false
      dir := fun _ => ⟨[], 0⟩ }, ?_, rfl, fun _ => rfl, rfl, rfl, rfl, fun b => ?_⟩
  · rw [State.freePipe, hfirst]
    show ((s.without _).freeMessages (s.dir true).queue).bind _ = _
    rw [hsecond]
    rfl
  · show (if b ∈ (s.dir true).queue then none else
      if b ∈ (s.dir false).queue then none else s.msg b) = _
    by_cases h1 : b ∈ (s.dir true).queue
    · rw [if_pos h1, if_pos ⟨true, h1⟩]
    · by_cases h0 : b ∈ (s.dir false).queue
      · rw [if_neg h1, if_pos h0, if_pos ⟨false, h0⟩]
      · rw [if_neg h1, if_neg h0, if_neg]
        rintro ⟨d, hd⟩
        cases d with
        | false => exact h0 hd
        | true => exact h1 hd

theorem Memory.freed (h : Memory s) (hdir : ∀ d, s'.dir d = ⟨[], 0⟩)
    (hpc : s'.pc = update s.pc t .out) (ht : (s.pc t).holds = none)
    (hmsg : ∀ b, s'.msg b = if ∃ d, b ∈ (s.dir d).queue then none else s.msg b) : Memory s' := by
  have hempty : ∀ {d b}, b ∉ (s'.dir d).queue := fun {d b} hb => by
    rw [hdir] at hb
    cases hb
  have hback : ∀ t', s'.pc t' = .out ∨ s'.pc t' = s.pc t' := by
    intro t'
    rw [hpc]
    by_cases htt : t' = t
    · exact .inl (by rw [htt, update_self])
    · exact .inr (update_of_ne htt ..)
  have hold : ∀ {t' b}, (s'.pc t').holds = some b →
      (s.pc t').holds = some b ∧ s'.msg b = s.msg b := by
    intro t' b hb
    have hb' : (s.pc t').holds = some b := by
      rcases hback t' with hout | heq
      · exact nomatch (congrArg Pc.holds hout).symm.trans hb
      · exact heq ▸ hb
    refine ⟨hb', ?_⟩
    rw [hmsg, if_neg]
    rintro ⟨d, hd⟩
    exact (h.held t' b hb').2 d hd
  exact {
    queued := fun d b hb => absurd hb hempty
    nodup := fun d => by
      rw [hdir]
      exact .nil
    apart := fun hb => absurd hb hempty
    held := fun t' b hb => by
      obtain ⟨hb', hm⟩ := hold hb
      exact ⟨hm ▸ (h.held t' b hb').1, fun d => hempty⟩
    holder := fun t1 t2 b h1 h2 => h.holder t1 t2 b (hold h1).1 (hold h2).1
    unsent := fun t' e' b m ht' hm => by
      have hm' := (hold (congrArg Pc.holds ht')).2
      rcases hback t' with hout | heq
      · exact nomatch hout.symm.trans ht'
      · exact h.unsent t' e' b m (heq ▸ ht') (hm' ▸ hm)
    owned := fun b hb => by
      rw [hmsg] at hb
      split at hb
      · cases hb
      · next hnot =>
        obtain ⟨t', ht'⟩ := (h.owned b hb).resolve_left hnot
        refine .inr ⟨t', ?_⟩
        have htt : t' ≠ t := by
          rintro rfl
          exact nomatch ht.symm.trans ht'
        rw [hpc, update_of_ne htt]
        exact ht' }

/-! ## Directions as channels -/

namespace State

/-- The messages of a queue. -/
def messages (s : State) (d : Side) : List Message := (s.dir d).queue.filterMap s.msg

/-- The channel that a direction is. -/
def chan (s : State) (d : Side) : Channel UInt8 where
  sent := s.log.sent d
  received := s.log.received d
  taken := s.log.taken d
  queue := (s.messages d).map fun m => (m.data, m.pos)

end State

/-- A direction's queue and count agree with what was sent and received. -/
structure Content (s : State) (d : Side) : Prop where
  ok : (s.chan d).Ok
  bytes : (s.dir d).bytes = ((s.messages d).map (·.data.length)).sum

theorem messages_congr (hdir : (s'.dir d).queue = (s.dir d).queue)
    (hmsg : ∀ b ∈ (s.dir d).queue, s'.msg b = s.msg b) : s'.messages d = s.messages d := by
  unfold State.messages
  rw [hdir]
  exact filterMap_congr hmsg

theorem Content.congr (h : Content s d) (hdir : s'.dir d = s.dir d)
    (hmsg : ∀ b ∈ (s.dir d).queue, s'.msg b = s.msg b) (hsent : s'.log.sent d = s.log.sent d)
    (hrecv : s'.log.received d = s.log.received d) (htaken : s'.log.taken d = s.log.taken d) :
    Content s' d := by
  have hm := messages_congr (congrArg _ hdir) hmsg
  refine ⟨?_, ?_⟩
  · unfold State.chan
    rw [hm, hsent, hrecv, htaken]
    exact h.ok
  · rw [hm, hdir]
    exact h.bytes

theorem Content.push {n : Nat} (h : Content s d) (hm : s.msg a = some m) (hpos : m.pos = 0)
    (hdir : s'.dir d = ⟨(s.dir d).queue ++ [a], n⟩) (hn : n = (s.dir d).bytes + m.data.length)
    (hmsg : s'.msg = s.msg) (hsent : s'.log.sent d = s.log.sent d ++ [m.data])
    (hrecv : s'.log.received d = s.log.received d) (htaken : s'.log.taken d = s.log.taken d) :
    Content s' d := by
  have hmessages : s'.messages d = s.messages d ++ [m] := by
    simp only [State.messages, hdir, hmsg, filterMap_append]
    simp [hm]
  have hchan : s'.chan d = (s.chan d).push m.data := by
    simp only [State.chan, Channel.push, hmessages, hsent, hrecv, htaken, map_append,
      map_singleton, hpos]
  refine ⟨hchan ▸ h.ok.push m.data, ?_⟩
  rw [hmessages, hdir]
  simp [hn, h.bytes]

theorem messages_cons (hq : (s.dir d).queue = a :: rest) (hm : s.msg a = some m) :
    s.messages d = m :: rest.filterMap s.msg := by
  rw [State.messages, hq, filterMap_cons_some hm]

theorem Message.part_le (m : Message) (len : Nat) (hpos : m.pos ≤ m.data.length) :
    m.pos + m.part len ≤ m.data.length := by
  unfold Message.part
  split <;> omega

theorem take_all {len : Nat} (hn : m.pos + m.part len = m.data.length) :
    s.take t e len a rest m = State.goto t (.recvFree e a) { s with
      msg := update s.msg a (some { m with pos := m.pos + m.part len })
      dir := update s.dir e ⟨rest, (s.dir e).bytes - m.data.length⟩
      log := { s.log with
        received := update s.log.received e
          (s.log.received e ++ [(s.log.taken e, (m.data.drop m.pos).take (m.part len))])
        taken := update s.log.taken e (s.log.taken e + 1) } } := by
  exact if_pos hn

theorem take_part {len : Nat} (hn : m.pos + m.part len ≠ m.data.length) :
    s.take t e len a rest m = State.goto t .out { s with
      msg := update s.msg a (some { m with pos := m.pos + m.part len })
      log := { s.log with
        received := update s.log.received e
          (s.log.received e ++ [(s.log.taken e, (m.data.drop m.pos).take (m.part len))]) } } := by
  exact if_neg hn

/-- A part of the first message is read, or all that is left of it, and it leaves the queue. -/
theorem Content.read {ms : List Message} {n : Nat} (h : Content s e) (hq : s.messages e = m :: ms)
    (hsent : s'.log.sent e = s.log.sent e)
    (hrecv : s'.log.received e = s.log.received e ++ [(s.log.taken e, (m.data.drop m.pos).take n)])
    (hrest : m.pos + n = m.data.length ∧ s'.messages e = ms ∧
        (s'.dir e).bytes = (s.dir e).bytes - m.data.length ∧ s'.log.taken e = s.log.taken e + 1 ∨
      m.pos + n < m.data.length ∧ s'.messages e = { m with pos := m.pos + n } :: ms ∧
        (s'.dir e).bytes = (s.dir e).bytes ∧ s'.log.taken e = s.log.taken e) : Content s' e := by
  have hqueue : (s.chan e).queue = (m.data, m.pos) :: ms.map fun m => (m.data, m.pos) := by
    rw [State.chan, hq]
    rfl
  have hread := h.ok.read (n := n) hqueue (by omega)
  rw [Channel.read_eq hqueue] at hread
  rcases hrest with ⟨hn, hmessages, hbytes, htaken⟩ | ⟨hn, hmessages, hbytes, htaken⟩
  · rw [if_pos hn, if_pos hn] at hread
    refine ⟨?_, ?_⟩
    · rw [State.chan, hmessages, hsent, hrecv, htaken]
      exact hread
    · rw [hbytes, h.bytes, hq, hmessages]
      simp
  · rw [if_neg (Nat.ne_of_lt hn), if_neg (Nat.ne_of_lt hn)] at hread
    refine ⟨?_, ?_⟩
    · rw [State.chan, hmessages, hsent, hrecv, htaken]
      exact hread
    · rw [hbytes, h.bytes, hq, hmessages]
      rfl

theorem Content.take (h : Content s e) (hmem : Memory s) (hq : (s.dir e).queue = a :: rest)
    (hm : s.msg a = some m) (len : Nat) : Content (s.take t e len a rest m) e := by
  obtain ⟨m', hm', hpos⟩ := hmem.queued e a (hq ▸ mem_cons_self)
  cases Option.some.inj (hm'.symm.trans hm)
  have hnd := hmem.nodup e
  rw [hq] at hnd
  -- the other messages of the queue are as before
  have hrest : ∀ {x : Option Message}, rest.filterMap (update s.msg a x) = rest.filterMap s.msg :=
    filterMap_congr fun b hb =>
      update_of_ne (fun he : b = a => (nodup_cons.mp hnd).1 (he ▸ hb)) ..
  by_cases hn : m.pos + m.part len = m.data.length
  · rw [take_all hn]
    refine h.read (messages_cons hq hm) rfl (update_self ..)
      (.inl ⟨hn, ?_, congrArg _ (update_self ..), update_self ..⟩)
    show (update s.dir e ⟨rest, _⟩ e).queue.filterMap (update s.msg a _) = _
    rw [update_self, hrest]
  · rw [take_part hn]
    refine h.read (messages_cons hq hm) rfl (update_self ..)
      (.inr ⟨Nat.lt_of_le_of_ne (m.part_le len hpos) hn, ?_, rfl, rfl⟩)
    show (s.dir e).queue.filterMap (update s.msg a _) = _
    rw [hq, filterMap_cons_some (update_self ..), hrest]

end ManiOS.Pipe

import ManiOS.Sched.Queues

/-!
# Where a thread is

`Place` says where a thread is, and with that which lists it is on and what its
`state` and `waiting_on` fields hold.  `Fits s l place` says that every thread
is where `place` puts it.

While a function moves a thread from one place to another its lists and fields
do not agree.  `Transit` describes such a moment: every thread but one is where
it should be, and the lists of that one are known.  Each list operation is a
step of a transit.
-/

namespace ManiOS.Sched

open Function (update update_self update_of_ne)
open ManiOS.Lib List

/-! ## Places -/

/-- Where a thread is.  `created` is a thread that its creator did not put on
the run queue yet. -/
inductive Place where
  | running
  | ready
  | waiting (w : Wid) (timed : Bool)
  | sleeping
  | idle
  | created
  | dead
deriving DecidableEq, Repr

namespace Place

def state : Place → ThreadState
  | running => .running
  | ready => .runnable
  | waiting _ _ => .blocked
  | sleeping => .sleeping
  | idle => .runnable
  | created => .runnable
  | dead => .dead

def waitingOn : Place → Option Wid
  | waiting w true => some w
  | _ => none

def queue : Place → Option QueueId
  | ready => some .run
  | waiting w _ => some (.waitq w)
  | _ => none

def asleep : Place → Bool
  | waiting _ timed => timed
  | sleeping => true
  | _ => false

/-- Waiting for a wake or for a tick. -/
def stopped : Place → Bool
  | waiting _ _ => true
  | sleeping => true
  | _ => false

/-- What a wake does to a place: nothing, or it makes a thread that was stopped
ready. -/
def Woken (p p' : Place) : Prop := p' = p ∨ p.stopped = true ∧ p' = ready

theorem Woken.refl (p : Place) : Woken p p := .inl rfl

theorem Woken.trans {p p' p'' : Place} (h : Woken p p') (h' : Woken p' p'') : Woken p p'' := by
  rcases h with rfl | ⟨hp, rfl⟩
  · exact h'
  · rcases h' with rfl | ⟨hp', _⟩
    · exact .inr ⟨hp, rfl⟩
    · exact absurd hp' (by decide)

variable {p : Place}

theorem state_eq_running : p.state = .running ↔ p = running := by
  cases p <;> simp [state]

theorem state_eq_dead : p.state = .dead ↔ p = dead := by
  cases p <;> simp [state]

theorem queue_eq_run : p.queue = some .run ↔ p = ready := by
  cases p <;> simp [queue]

theorem queue_eq_waitq {w : Wid} : p.queue = some (.waitq w) ↔ ∃ timed, p = waiting w timed := by
  cases p <;> simp [queue]

theorem waitingOn_eq_some {w : Wid} : p.waitingOn = some w ↔ p = waiting w true := by
  cases p with
  | waiting w' timed => cases timed <;> simp [waitingOn]
  | _ => simp [waitingOn]

theorem asleep_iff : p.asleep = true ↔ p = sleeping ∨ ∃ w, p = waiting w true := by
  cases p <;> simp [asleep]

theorem waitingOn_eq_none (hp : p.asleep = true) (hn : p.waitingOn = none) : p = sleeping := by
  rcases asleep_iff.mp hp with rfl | ⟨w, rfl⟩
  · rfl
  · cases hn

theorem stopped_of_asleep (hp : p.asleep = true) : p.stopped = true := by
  rcases asleep_iff.mp hp with rfl | ⟨w, rfl⟩ <;> rfl

end Place

/-- Thread `t` is in place `p`. -/
structure Placed (s : Sched) (l : Lists) (t : Tid) (p : Place) : Prop where
  state : s.state t = p.state
  waitingOn : s.waitingOn t = p.waitingOn
  queue : ∀ k, t ∈ l.queue k ↔ p.queue = some k
  sleep : t ∈ l.sleep ↔ p.asleep = true

/-- Every thread is where `place` says. -/
structure Fits (s : Sched) (l : Lists) (place : Tid → Place) : Prop where
  rep : Rep s l
  placed : ∀ t ∈ l.all, Placed s l t (place t)

/-- Every thread but `t` is where `place` says, and `t` is on queue `q` and, if
`z` holds, on the sleep list. -/
structure Transit (s : Sched) (l : Lists) (place : Tid → Place) (t : Tid) (q : Option QueueId)
    (z : Bool) : Prop where
  rep : Rep s l
  mem : t ∈ l.all
  others : ∀ a ∈ l.all, a ≠ t → Placed s l a (place a)
  queue : ∀ k, t ∈ l.queue k ↔ q = some k
  sleep : t ∈ l.sleep ↔ z = true

variable {s s' : Sched} {l l' : Lists} {place place' : Tid → Place} {t : Tid} {p : Place}
  {q : Option QueueId} {z : Bool}

theorem Placed.congr (h : Placed s l t p) (hstate : s'.state t = s.state t)
    (hwait : s'.waitingOn t = s.waitingOn t) (hq : ∀ k, t ∈ l'.queue k ↔ t ∈ l.queue k)
    (hs : t ∈ l'.sleep ↔ t ∈ l.sleep) : Placed s' l' t p where
  state := hstate.trans h.state
  waitingOn := hwait.trans h.waitingOn
  queue k := (hq k).trans (h.queue k)
  sleep := hs.trans h.sleep

theorem Fits.congr (h : Fits s l place) (hrep : Rep s' l) (hstate : s'.state = s.state)
    (hwait : s'.waitingOn = s.waitingOn) : Fits s' l place where
  rep := hrep
  placed t ht := (h.placed t ht).congr (congrFun hstate t) (congrFun hwait t) (fun _ => .rfl) .rfl

/-! ## Transits -/

theorem Fits.depart (h : Fits s l place) (ht : t ∈ l.all) :
    Transit s l place t (place t).queue (place t).asleep where
  rep := h.rep
  mem := ht
  others a ha _ := h.placed a ha
  queue := (h.placed t ht).queue
  sleep := (h.placed t ht).sleep

namespace Transit

section

variable (h : Transit s l place t q z)
include h

theorem arrive (hstate : s.state t = p.state) (hwait : s.waitingOn t = p.waitingOn)
    (hq : p.queue = q) (hz : p.asleep = z) : Fits s l (update place t p) where
  rep := h.rep
  placed a ha := by
    by_cases hat : a = t
    · subst hat
      rw [update_self]
      exact ⟨hstate, hwait, fun k => hq ▸ h.queue k, hz ▸ h.sleep⟩
    · rw [update_of_ne hat]
      exact h.others a ha hat

theorem move {q' : Option QueueId} {z' : Bool} (hrep : Rep s' l') (hall : l'.all = l.all)
    (hfields : ∀ a, a ≠ t → s'.state a = s.state a ∧ s'.waitingOn a = s.waitingOn a)
    (hothers : ∀ a, a ≠ t → (∀ k, a ∈ l'.queue k ↔ a ∈ l.queue k) ∧ (a ∈ l'.sleep ↔ a ∈ l.sleep))
    (hq : ∀ k, t ∈ l'.queue k ↔ q' = some k) (hz : t ∈ l'.sleep ↔ z' = true) :
    Transit s' l' place t q' z' where
  rep := hrep
  mem := hall.symm ▸ h.mem
  others a ha hat := by
    rw [hall] at ha
    exact (h.others a ha hat).congr (hfields a hat).1 (hfields a hat).2 (hothers a hat).1
      (hothers a hat).2
  queue := hq
  sleep := hz

theorem fields (hrep : Rep s' l)
    (hfields : ∀ a, a ≠ t → s'.state a = s.state a ∧ s'.waitingOn a = s.waitingOn a) :
    Transit s' l place t q z :=
  h.move hrep rfl hfields (fun _ _ => ⟨fun _ => .rfl, .rfl⟩) h.queue h.sleep

theorem setState (x : ThreadState) : Transit { s with state := update s.state t x } l place t q z :=
  h.fields { h.rep with } fun _ ha => ⟨update_of_ne ha .., rfl⟩

theorem setWaitingOn (x : Option Wid) (b : Bool) : Transit { s with
      waitingOn := update s.waitingOn t x
      timedOut := update s.timedOut t b } l place t q z :=
  h.fields { h.rep with } fun _ ha => ⟨rfl, update_of_ne ha ..⟩

theorem clearWaitingOn : Transit { s with waitingOn := update s.waitingOn t none } l place t q z :=
  h.fields { h.rep with } fun _ ha => ⟨rfl, update_of_ne ha ..⟩

end

theorem setWakeTick (h : Transit s l place t q false) (n : Nat) :
    Transit { s with wakeTick := update s.wakeTick t n } l place t q false :=
  h.fields (h.rep.setWakeTick (by rw [h.sleep]; decide) n) fun _ _ => ⟨rfl, rfl⟩

variable {r : List Tid} {k : QueueId}

theorem setQueue {q' : Option QueueId}
    (h : Transit s l place t q z) (hrep : Rep s' (l.setQueue k r))
    (hfields : ∀ a, a ≠ t → s'.state a = s.state a ∧ s'.waitingOn a = s.waitingOn a)
    (hothers : ∀ a, a ≠ t → (a ∈ r ↔ a ∈ l.queue k)) (hr : t ∈ r ↔ q' = some k)
    (hkeep : ∀ k', k' ≠ k → (q = some k' ↔ q' = some k')) :
    Transit s' (l.setQueue k r) place t q' z := by
  refine h.move hrep rfl hfields (fun a ha => ⟨fun k' => ?_, .rfl⟩) (fun k' => ?_) h.sleep
  · by_cases hk : k' = k
    · subst hk
      rw [Lists.setQueue_queue_self]
      exact hothers a ha
    · rw [Lists.setQueue_queue_of_ne hk]
  · by_cases hk : k' = k
    · subst hk
      rw [Lists.setQueue_queue_self]
      exact hr
    · rw [Lists.setQueue_queue_of_ne hk, h.queue, hkeep k' hk]

theorem enqueue (h : Transit s l place t none z) (k : QueueId) :
    Transit (s.enqueue k t) (l.setQueue k (l.queue k ++ [t])) place t (some k) z := by
  refine h.setQueue (h.rep.enqueue h.mem fun k' => ?_) (fun _ _ => ⟨rfl, rfl⟩) (fun a ha => ?_) ?_
    fun k' hk => ?_
  · rw [h.queue]
    exact fun he => nomatch he
  · rw [mem_append, mem_singleton, or_iff_left ha]
  · simp
  · simp [Ne.symm hk]

theorem leaveQueue (h : Transit s l place t (some k) z) (hrep : Rep s' (l.setQueue k r))
    (hfields : ∀ a, a ≠ t → s'.state a = s.state a ∧ s'.waitingOn a = s.waitingOn a)
    (hothers : ∀ a, a ≠ t → (a ∈ r ↔ a ∈ l.queue k)) (hr : t ∉ r) :
    Transit s' (l.setQueue k r) place t none z := by
  refine h.setQueue hrep hfields hothers (by simp [hr]) fun k' hk => ?_
  simp [Ne.symm hk]

theorem dequeue (h : Transit s l place t (some k) z) (hk : l.queue k = t :: r) :
    ∃ f, s.dequeue k = some (t, { s with queue := update s.queue k f }) ∧
      Transit { s with queue := update s.queue k f } (l.setQueue k r) place t none z := by
  obtain ⟨f, hf, hrep⟩ := h.rep.dequeue_cons hk
  have hnd := (h.rep.queue k).nodup
  rw [hk] at hnd
  refine ⟨f, hf, h.leaveQueue hrep (fun _ _ => ⟨rfl, rfl⟩) (fun a ha => ?_)
    (nodup_cons.mp hnd).1⟩
  rw [hk, mem_cons, or_iff_right ha]

theorem waitqRemove {w : Wid} (h : Transit s l place t (some (.waitq w)) z) :
    ∃ nx f, s.waitqRemove w t =
        some { s with next := nx, queue := update s.queue (.waitq w) f } ∧
      Transit { s with next := nx, queue := update s.queue (.waitq w) f }
        (l.setQueue (.waitq w) ((l.queue (.waitq w)).erase t)) place t none z := by
  obtain ⟨nx, f, hf, hrep⟩ := h.rep.waitqRemove ((h.queue (.waitq w)).mpr rfl)
  have hnd := (h.rep.queue (.waitq w)).nodup
  exact ⟨nx, f, hf, h.leaveQueue hrep (fun _ _ => ⟨rfl, rfl⟩)
    (fun a ha => mem_erase_of_ne ha) hnd.not_mem_erase⟩

theorem sleepInsert (h : Transit s l place t q false) :
    ∃ nx pt r, s.sleepInsert t = some { s with sleepNext := nx, sleepers := pt } ∧
      Transit { s with sleepNext := nx, sleepers := pt } { l with sleep := r } place t q true := by
  obtain ⟨nx, pt, a, b, hf, hab, hrep⟩ := h.rep.sleepInsert h.mem (by rw [h.sleep]; decide)
  refine ⟨nx, pt, a ++ t :: b, hf, h.move hrep rfl (fun _ _ => ⟨rfl, rfl⟩) (fun c hc => ?_) h.queue
    (by simp)⟩
  refine ⟨fun _ => .rfl, ?_⟩
  rw [hab, mem_append, mem_append, mem_cons, or_iff_right hc]

theorem sleepRemove (h : Transit s l place t q true) :
    ∃ nx pt, s.sleepRemove t = some { s with sleepNext := nx, sleepers := pt } ∧
      Transit { s with sleepNext := nx, sleepers := pt } { l with sleep := l.sleep.erase t } place t
        q false := by
  obtain ⟨nx, pt, hf, hrep⟩ := h.rep.sleepRemove (h.sleep.mpr rfl)
  have hnd := h.rep.sleep.nodup
  refine ⟨nx, pt, hf, h.move hrep rfl (fun _ _ => ⟨rfl, rfl⟩) (fun c hc => ?_) h.queue ?_⟩
  · exact ⟨fun _ => .rfl, mem_erase_of_ne hc⟩
  · simp [hnd.not_mem_erase]

theorem sleepPop (h : Transit s l place t q true) (hs : l.sleep = t :: r) :
    Transit { s with sleepers := s.sleepNext t } { l with sleep := r } place t q false := by
  have hnd := h.rep.sleep.nodup
  rw [hs] at hnd
  refine h.move (h.rep.sleepPop hs).2 rfl (fun _ _ => ⟨rfl, rfl⟩) (fun c hc => ?_) h.queue ?_
  · refine ⟨fun _ => .rfl, ?_⟩
    rw [hs, mem_cons, or_iff_right hc]
  · simp [(nodup_cons.mp hnd).1]

end Transit

end ManiOS.Sched

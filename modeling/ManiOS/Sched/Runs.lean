import ManiOS.Lib.Runs
import ManiOS.Sched.Steps

/-!
# The scheduler's lists in every run

In every state that a run reaches from `sched_init` the two pointers of a queue
describe one list without repetition, and the sleep list is sorted.  A thread
that was started is running, on the run queue once, on exactly one wait queue,
only on the sleep list, or dead.  One in a timed wait is on a wait queue and on
the sleep list, and it leaves both in one step.

A thread that its creator has not put on the run queue yet is nowhere
(`created_nowhere`).
-/

namespace ManiOS.Sched

open Function (update update_self update_of_ne)
open ManiOS.Lib

variable {y y' : System} {l l' : Lists} {place place' : Tid → Place} {t : Tid}
  {went : Place → Prop}

/-! ## The start -/

/-- The lists `sched_init` leaves: two threads, on no queue. -/
def bootLists (main idle : Tid) : Lists :=
  { queue := fun _ => [], sleep := [], all := [idle, main] }

/-- `main` is running, the other thread is the idle thread. -/
def bootPlace (main : Tid) (t : Tid) : Place := if t = main then .running else .idle

theorem settled_boot (m : Sched) {main idle : Tid} (hne : main ≠ idle) :
    Settled (System.boot m main idle) (bootLists main idle) (bootPlace main) := by
  have hmain : bootPlace main main = .running := if_pos rfl
  have hidle : bootPlace main idle = .idle := if_neg (Ne.symm hne)
  have hnew : idle ∉ [main] := fun hm => hne (List.mem_singleton.mp hm).symm
  have hother : ∀ {f : Tid → ThreadState} {x x'}, update (update f main x) idle x' main = x :=
    (update_of_ne hne ..).trans (update_self ..)
  have hrep : Rep (schedInit m main idle) (bootLists main idle) := by
    refine { Rep.threadAlloc (l := { queue := fun _ => [], sleep := [], all := [main] }) (t := idle)
      ?_ hnew (.text "idle") with }
    exact {
      queue := fun _ => .empty
      apart := fun h => nomatch h
      sleep := rfl
      sorted := .nil
      all := ⟨rfl, update_self ..⟩
      queued := fun h => nomatch h
      asleep := fun h => nomatch h
      count := rfl
      live := fun t => by simp [allThreadsAdd] }
  have hcases : ∀ {a}, a ∈ [idle, main] → a = idle ∨ a = main := by
    intro a ha
    simpa using ha
  exact {
    fits := by
      refine ⟨hrep, fun a ha => ?_⟩
      rcases hcases ha with rfl | rfl
      · rw [hidle]
        exact ⟨update_self .., update_self ..,
          fun k => ⟨fun h => (nomatch h), fun h => (nomatch h)⟩,
          ⟨fun h => (nomatch h), fun h => (nomatch h)⟩⟩
      · rw [hmain]
        exact ⟨hother, (update_of_ne hne ..).trans (update_self ..),
          fun k => ⟨fun h => (nomatch h), fun h => (nomatch h)⟩,
          ⟨fun h => (nomatch h), fun h => (nomatch h)⟩⟩
    current_mem := List.mem_cons_of_mem _ List.mem_cons_self
    idle_mem := List.mem_cons_self
    running := fun a ha hp => by
      rcases hcases ha with rfl | rfl
      · rw [hidle] at hp
        cases hp
      · rfl
    idle := .inl hidle
    idle_only := fun a ha hp => by
      rcases hcases ha with rfl | rfl
      · rfl
      · rw [hmain] at hp
        cases hp
    created := fun a ha => by
      refine ⟨fun hp => ?_, fun ⟨_, hc⟩ => nomatch hc⟩
      rcases hcases ha with rfl | rfl
      · rw [hidle] at hp
        cases hp
      · rw [hmain] at hp
        cases hp
    creating := fun _ _ hc => nomatch hc
    creating_inj := fun _ _ _ hc => nomatch hc
    current := hmain
    dead := fun a ha hp => by
      rcases hcases ha with rfl | rfl
      · rw [hidle] at hp
        cases hp
      · rw [hmain] at hp
        cases hp
    switched := fun h => nomatch h }

theorem settled_reached {m : Sched} {main idle : Tid} (hne : main ≠ idle)
    (hr : Reached System.Step (System.boot m main idle) y) : ∃ l place, Settled y l place := by
  refine hr.invariant (P := fun y => ∃ l place, Settled y l place) ⟨_, _, settled_boot m hne⟩ ?_
  rintro e y y' ⟨l, place, h⟩ ⟨hen, hy'⟩
  obtain ⟨y1, hy1, l', place', hsettled, _⟩ := h.step hen
  cases Option.some.inj (hy1.symm.trans hy')
  exact ⟨l', place', hsettled⟩

/-! ## The lists in every state -/

/-- The places a thread that was started may be in. -/
inductive Spot where
  | running | ready | waiting | sleeping | dead
deriving DecidableEq, Repr

/-- Thread `t` is running, on the run queue once, on exactly one wait queue, only
on the sleep list, or dead. -/
def At (s : Sched) (t : Tid) : Spot → Prop
  | .running => t = s.current
  | .ready => (s.queued .run).count t = 1
  | .waiting => ∃! w, t ∈ s.queued (.waitq w)
  | .sleeping => t ∈ s.asleep ∧ ∀ w, t ∉ s.queued (.waitq w)
  | .dead => s.state t = .dead

/-- The pointers of every queue describe one list without repetition, and so
does the sleep list, which is sorted.  A thread whose wait is timed is on both. -/
structure Consistent (s : Sched) : Prop where
  queue : ∀ k, (s.queue k).Holds s.next (s.queued k) ∧ (s.queued k).Nodup
  live : ∀ k, ∀ t ∈ s.queued k, s.allocated t = true
  sleep : Linked s.sleepNext s.sleepers s.asleep ∧ s.asleep.Nodup
  sorted : s.asleep.Pairwise fun a b => s.wakeTick a ≤ s.wakeTick b
  timed : ∀ t w, s.allocated t = true →
    (s.waitingOn t = some w ↔ t ∈ s.queued (.waitq w) ∧ t ∈ s.asleep)

/-- A thread in a timed wait stays on both lists or leaves both. -/
def LeavesTogether (s s' : Sched) : Prop :=
  ∀ t w, t ∈ s.queued (.waitq w) → t ∈ s.asleep →
    t ∈ s'.queued (.waitq w) ∧ t ∈ s'.asleep ∨ (∀ w', t ∉ s'.queued (.waitq w')) ∧ t ∉ s'.asleep

theorem Settled.consistent (h : Settled y l place) : Consistent y.sched where
  queue k := by
    rw [h.fits.rep.queued_eq]
    exact ⟨h.fits.rep.queue k, (h.fits.rep.queue k).nodup⟩
  live k t ht := by
    rw [h.fits.rep.queued_eq] at ht
    exact (h.fits.rep.live t).mpr (h.fits.rep.queued ht)
  sleep := by
    rw [h.fits.rep.asleep_eq]
    exact ⟨h.fits.rep.sleep, h.fits.rep.sleep.nodup⟩
  sorted := by
    rw [h.fits.rep.asleep_eq]
    exact h.fits.rep.sorted
  timed t w ht := by
    have hm := (h.fits.rep.live t).mp ht
    have hp := h.fits.placed t hm
    rw [h.fits.rep.queued_eq, h.fits.rep.asleep_eq, hp.waitingOn, hp.queue, hp.sleep,
      Place.waitingOn_eq_some, Place.queue_eq_waitq]
    constructor
    · intro hw
      rw [hw]
      exact ⟨⟨true, rfl⟩, rfl⟩
    · rintro ⟨⟨timed, hw⟩, hz⟩
      rw [hw] at hz ⊢
      exact congrArg _ hz

/-- The spot that belongs to a place. -/
def Place.spot : Place → Spot
  | running => .running
  | ready => .ready
  | waiting _ _ => .waiting
  | sleeping => .sleeping
  | idle | created | dead => .dead

theorem Settled.at_iff (h : Settled y l place) (ht : t ∈ l.all) (hidle : place t ≠ .idle)
    (hcreated : place t ≠ .created) (p : Spot) : y.sched.At t p ↔ (place t).spot = p := by
  have hp := h.fits.placed t ht
  have hnd := (h.fits.rep.queue .run).nodup
  have hcur : t = y.sched.current ↔ place t = .running := ⟨fun he => he ▸ h.current, h.running t ht⟩
  cases p with
  | running =>
    rw [At]
    cases hpt : place t <;> simp_all [Place.spot]
  | ready =>
    rw [At, h.fits.rep.queued_eq, hnd.count]
    have hmem := (hp.queue .run).trans Place.queue_eq_run
    cases hpt : place t <;> simp_all [Place.spot]
  | waiting =>
    have hmem : ∀ w, t ∈ y.sched.queued (.waitq w) ↔ ∃ timed, place t = .waiting w timed :=
      fun w => by rw [h.fits.rep.queued_eq, hp.queue, Place.queue_eq_waitq]
    rw [At]
    cases hpt : place t <;> simp_all [Place.spot]
  | sleeping =>
    have hmem : ∀ w, t ∈ y.sched.queued (.waitq w) ↔ ∃ timed, place t = .waiting w timed :=
      fun w => by rw [h.fits.rep.queued_eq, hp.queue, Place.queue_eq_waitq]
    rw [At, h.fits.rep.asleep_eq, hp.sleep]
    cases hpt : place t <;> simp_all [Place.spot, Place.asleep]
  | dead =>
    rw [At, hp.state, Place.state_eq_dead]
    cases hpt : place t <;> simp_all [Place.spot]

theorem Settled.leavesTogether (h : Settled y l place) (h' : Settled y' l' place')
    (hadv : Advanced y l place y'.sched l' place' went) : LeavesTogether y.sched y'.sched := by
  intro t w hq hz
  rw [h.fits.rep.queued_eq] at hq
  rw [h.fits.rep.asleep_eq] at hz
  obtain ⟨hm, hqueue⟩ := h.fits.mem_queue hq
  have hasleep := (h.fits.placed t hm).sleep.mp hz
  obtain ⟨timed, hp⟩ := Place.queue_eq_waitq.mp hqueue
  rw [hp] at hasleep
  cases (hasleep : timed = true)
  have hcur : t ≠ y.sched.current := by
    rintro rfl
    exact nomatch hp.symm.trans h.current
  simp only [h'.fits.rep.queued_eq, h'.fits.rep.asleep_eq]
  by_cases hm' : t ∈ l'.all
  · have hp' := h'.fits.placed t hm'
    simp only [hp'.queue, hp'.sleep]
    rcases hadv.others t hm hcur with he | he | he
    · rw [he, hp]
      exact .inl ⟨rfl, rfl⟩
    all_goals
      rw [he]
      exact .inr ⟨fun _ hk => (nomatch hk), fun hk => (nomatch hk)⟩
  · exact .inr ⟨fun w' hk => hm' (h'.fits.rep.queued hk), fun hk => hm' (h'.fits.rep.asleep hk)⟩

/-- In every state a run reaches the queues are lists that their two pointers
agree on, the sleep list is sorted, a thread in a timed wait is on two lists and
leaves both together, and a thread that was started is in exactly one spot. -/
theorem sched_consistent (m : Sched) {main idle : Tid} (hne : main ≠ idle)
    (hr : Reached System.Step (System.boot m main idle) y) : y.sched.Consistent ∧
      (∀ t, y.sched.allocated t = true → t ≠ y.sched.idle → (∀ c, y.creating c ≠ some t) →
        ∃! p, y.sched.At t p) ∧
      ∀ e y', System.Step e y y' → y.sched.LeavesTogether y'.sched := by
  obtain ⟨l, place, h⟩ := settled_reached hne hr
  refine ⟨h.consistent, fun t ht hidle hcreated => ?_, fun e y' hstep => ?_⟩
  · have hm := (h.fits.rep.live t).mp ht
    have hat := h.at_iff hm (fun hp => hidle (h.idle_only t hm hp)) fun hp => by
      obtain ⟨c, hc⟩ := (h.created t hm).mp hp
      exact hcreated c hc
    exact ⟨_, (hat _).mpr rfl, fun p hp => ((hat p).mp hp).symm⟩
  · obtain ⟨y1, hy1, l', place', hsettled, hadv⟩ := h.step hstep.1
    cases Option.some.inj (hy1.symm.trans hstep.2)
    exact h.leavesTogether hsettled hadv

/-! ## A thread between its two steps of creation -/

def zeroed : Sched where
  id _ := 0
  name _ := .text ""
  state _ := .runnable
  wakeTick _ := 0
  next _ := none
  sleepNext _ := none
  waitingOn _ := none
  timedOut _ := false
  allNext _ := none
  allocated _ := false
  current := 0
  idle := 0
  queue _ := .empty
  sleepers := none
  switchedFrom := 0
  allThreads := none
  preemptive := false
  idleTicks := 0
  sliceLeft := 0
  nextId := 0
  threadCount := 0
  switching := false

/-- A thread was started, and `main` is in a timed wait. -/
theorem sched_consistent_timed :
    ∃ y, Reached System.Step (System.boot zeroed 0 1) y ∧ y.sched.waitingOn 0 = some 7 ∧
      y.sched.Consistent ∧
      (∀ t, y.sched.allocated t = true → t ≠ y.sched.idle → (∀ c, y.creating c ≠ some t) →
        ∃! p, y.sched.At t p) ∧
      ∀ e y', System.Step e y y' → y.sched.LeavesTogether y'.sched := by
  have hfree : (System.boot zeroed 0 1).Free := ⟨by decide, rfl⟩
  have hcreate : Reached System.Step (.boot zeroed 0 1) _ :=
    .step (.create 2 (.text "worker")) .start ⟨⟨rfl, hfree, rfl⟩, rfl⟩
  have hstart : Reached System.Step (.boot zeroed 0 1) _ :=
    .step .start hcreate ⟨⟨rfl, rfl⟩, rfl⟩
  have hwait : Reached System.Step (.boot zeroed 0 1) _ :=
    .step (.waitUntil 7 5) hstart ⟨⟨rfl, ⟨by decide, rfl⟩⟩, rfl⟩
  exact ⟨_, hwait, rfl, sched_consistent zeroed (by decide) hwait⟩

/-- A new thread is in none of the spots until its creator starts it. -/
theorem created_nowhere :
    ∃ y, Reached System.Step (System.boot zeroed 0 1) y ∧ y.sched.allocated 2 = true ∧
      2 ≠ y.sched.idle ∧ ¬ ∃ p, y.sched.At 2 p := by
  have hfree : (System.boot zeroed 0 1).Free := ⟨by decide, rfl⟩
  refine ⟨_, .step (.create 2 (.text "worker")) .start ⟨⟨rfl, hfree, rfl⟩, rfl⟩, rfl, by decide, ?_⟩
  rintro ⟨p, hp⟩
  cases p with
  | running => exact nomatch (show 2 = 0 from hp)
  | ready => exact nomatch (show 0 = 1 from hp)
  | waiting =>
    obtain ⟨w, hw, _⟩ := hp
    exact nomatch hw
  | sleeping => exact absurd hp.1 (by decide)
  | dead => exact nomatch (show ThreadState.runnable = .dead from hp)

end ManiOS.Sched

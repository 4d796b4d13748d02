import ManiOS.Sched.Runs

/-!
# The sleeping lock

`mutex_unlock` wakes one waiter and does not hand the lock over.  Another thread
may take it before the waiter runs, and then the waiter sleeps again.

The lock runs on the scheduler: a step of `mutex_lock` is its test of the owner
followed by the end of the call or by `waitq_sleep`, all with interrupts off.
`locking` marks the threads in the loop of `mutex_lock` and `holding` those that
came out of it and did not call `mutex_unlock` since.  Between these steps any
other step of the scheduler may happen, except that the lock's wait queue is
used by the lock alone.
-/

namespace ManiOS.Sched

open Function (update update_self update_of_ne)
open ManiOS.Lib

/-! ## The lock -/

/-- A mutex and the threads that use it. -/
structure Mutex where
  sys : System
  owner : Option Tid
  locking : Tid → Bool
  holding : Tid → Bool

/-- The steps of a system with one mutex. -/
inductive Mutex.Event where
  /-- `mutex_lock`, up to its end or its first sleep. -/
  | lock
  /-- The loop of `mutex_lock` once more. -/
  | recheck
  | unlock
  | other (e : Sched.Event)

/-- The wait queue that an event is about. -/
def Event.waitq : Event → Option Wid
  | .wait w | .waitUntil w _ | .wakeOne w | .wakeAll w => some w
  | _ => none

/-- Not a call of the running thread. -/
def Event.interrupt : Event → Bool
  | .wakeOne _ | .wakeAll _ | .tick _ | .finishSwitch => true
  | _ => false

namespace Mutex

/-- The test of `mutex_lock`: the lock is taken if it is free, or the thread
sleeps on `w`. -/
def tryLock (w : Wid) (z : Mutex) : Mutex :=
  let t := z.sys.sched.current
  if z.owner.isSome then
    { z with
      sys := { z.sys with sched := z.sys.sched.waitqSleep w }
      locking := update z.locking t true }
  else
    { z with
      owner := some t
      locking := update z.locking t false
      holding := update z.holding t true }

/-- What a step does.  `none` is a panic. -/
def perform (w : Wid) (z : Mutex) : Event → Option Mutex
  | .lock => if z.owner = some z.sys.sched.current then none else some (z.tryLock w)
  | .recheck => some (z.tryLock w)
  | .unlock =>
    if z.owner ≠ some z.sys.sched.current then
      none
    else
      (z.sys.sched.waitqWakeOne w).map fun s =>
        { z with
          sys := { z.sys with sched := s }
          owner := none
          holding := update z.holding z.sys.sched.current false }
  | .other e => (z.sys.perform e).map ({ z with sys := · })

/-- What the callers grant: a thread that came out of `waitq_sleep` goes on in
the loop of `mutex_lock`, and no one else uses the lock's wait queue. -/
def Enabled (w : Wid) (z : Mutex) : Event → Prop
  | .lock | .unlock =>
    z.sys.sched.switching = false ∧ z.sys.Free ∧ z.locking z.sys.sched.current = false
  | .recheck => z.sys.sched.switching = false ∧ z.locking z.sys.sched.current = true
  | .other e => z.sys.Enabled e ∧ e.waitq ≠ some w ∧
      (e.interrupt = false → z.locking z.sys.sched.current = false)

instance (w : Wid) (z : Mutex) : (e : Event) → Decidable (z.Enabled w e)
  | .lock | .unlock => inferInstanceAs (Decidable (_ ∧ z.sys.Free ∧ _))
  | .recheck => inferInstanceAs (Decidable (_ ∧ _))
  | .other e => inferInstanceAs (Decidable (z.sys.Enabled e ∧ _ ∧ _))

def Step (w : Wid) (e : Event) (z z' : Mutex) : Prop := z.Enabled w e ∧ z.perform w e = some z'

def init (y : System) : Mutex :=
  { sys := y, owner := none, locking := fun _ => false, holding := fun _ => false }

/-! ## The invariant -/

/-- The threads on the lock's wait queue are in `mutex_lock`, and if the lock is
free and one waits, another one is about to look at it. -/
structure Inv (w : Wid) (z : Mutex) (l : Lists) (place : Tid → Place) : Prop where
  settled : Settled z.sys l place
  holding : ∀ t, z.holding t = true ↔ z.owner = some t
  waiting : ∀ t ∈ l.all, ∀ timed, place t = .waiting w timed → z.locking t = true
  locking : ∀ t, z.locking t = true → t ∈ l.all ∧ t ≠ z.sys.sched.idle ∧
    (place t = .waiting w false ∨ place t = .ready ∨ place t = .running)
  woken : z.owner = none → ∀ a ∈ l.all, ∀ timed, place a = .waiting w timed →
    ∃ t, z.locking t = true ∧ (place t = .ready ∨ place t = .running)

variable {w : Wid} {z z' : Mutex} {l l' : Lists} {place place' : Tid → Place} {t : Tid}

theorem Inv.init {y : System} (h : Settled y l place)
    (hw : ∀ t ∈ l.all, ∀ timed, place t ≠ .waiting w timed) : Inv w (init y) l place where
  settled := h
  holding t := by simp [Mutex.init]
  waiting t ht timed hp := absurd hp (hw t ht timed)
  locking t ht := nomatch ht
  woken _ a ha timed hp := absurd hp (hw a ha timed)

/-- A thread in the loop, not running when a step begins, is in it after the
step: it still waits, or it was woken. -/
theorem Inv.locking_others (h : Inv w z l place) {s' : Sched} {went : Place → Prop}
    (hadv : Advanced z.sys l place s' l' place' went) (ht : z.locking t = true)
    (hcur : t ≠ z.sys.sched.current) : t ∈ l'.all ∧ t ≠ s'.idle ∧
      (place' t = place t ∨ place' t = .ready ∨ place' t = .running) := by
  obtain ⟨hm, hidle, hp⟩ := h.locking t ht
  refine ⟨hadv.kept t hm ?_, hadv.idle ▸ hidle, hadv.others t hm hcur⟩
  rcases hp with hp | hp | hp <;> exact fun hd => nomatch hp.symm.trans hd

theorem waiting_of_advanced {s' : Sched} {went : Place → Prop} {timed : Bool}
    (hadv : Advanced z.sys l place s' l' place' went) (ht : t ∈ l'.all)
    (hcur : t ≠ z.sys.sched.current) (hp : place' t = .waiting w timed) :
    t ∈ l.all ∧ place t = .waiting w timed := by
  rcases hadv.new t ht with hm | hcreated
  · rcases hadv.others t hm hcur with he | he | he
    · exact ⟨hm, he.symm.trans hp⟩
    · exact nomatch hp.symm.trans he
    · exact nomatch hp.symm.trans he
  · exact nomatch hp.symm.trans hcreated

theorem tryLock_free (howner : z.owner = none) : z.tryLock w = { z with
      owner := some z.sys.sched.current
      locking := update z.locking z.sys.sched.current false
      holding := update z.holding z.sys.sched.current true } := by
  rw [tryLock, howner]
  rfl

theorem tryLock_held {o : Tid} (howner : z.owner = some o) : z.tryLock w = { z with
      sys := { z.sys with sched := z.sys.sched.waitqSleep w }
      locking := update z.locking z.sys.sched.current true } :=
  if_pos (by rw [howner]; rfl)

theorem Inv.tryLock (h : Inv w z l place) (hs : z.sys.sched.switching = false)
    (hidle : z.sys.sched.current ≠ z.sys.sched.idle) :
    ∃ l' place', Inv w (z.tryLock w) l' place' := by
  cases howner : z.owner with
  | none =>
    refine ⟨l, place, ?_⟩
    rw [tryLock_free howner]
    exact { h with
      holding := fun t => by
        by_cases ht : t = z.sys.sched.current
        · subst ht
          simp
        · have hnot : z.holding t ≠ true := fun hh => nomatch howner.symm.trans ((h.holding t).mp hh)
          simp [update_of_ne ht, hnot, Ne.symm ht]
      waiting := fun t ht timed hp => by
        have hcur : t ≠ z.sys.sched.current := by
          rintro rfl
          exact nomatch hp.symm.trans h.settled.current
        exact (update_of_ne hcur ..).trans (h.waiting t ht timed hp)
      locking := fun t ht => by
        have hcur : t ≠ z.sys.sched.current := by
          rintro rfl
          exact nomatch (update_self ..).symm.trans ht
        exact h.locking t ((update_of_ne hcur ..).symm.trans ht)
      woken := fun hnone => nomatch hnone }
  | some o =>
    obtain ⟨l', place', hsettled, hadv⟩ := h.settled.wait hs hidle w
    refine ⟨l', place', ?_⟩
    rw [tryLock_held howner]
    have hself : update z.locking z.sys.sched.current true z.sys.sched.current = true :=
      update_self ..
    have hother : ∀ {a}, a ≠ z.sys.sched.current →
        update z.locking z.sys.sched.current true a = z.locking a :=
      fun ha => update_of_ne ha ..
    exact { h with
      settled := hsettled
      waiting := fun t ht timed hp => by
        by_cases hcur : t = z.sys.sched.current
        · rw [hcur]
          exact hself
        · obtain ⟨hm, hold⟩ := waiting_of_advanced hadv ht hcur hp
          exact (hother hcur).trans (h.waiting t hm timed hold)
      locking := fun t ht => by
        by_cases hcur : t = z.sys.sched.current
        · subst hcur
          refine ⟨hadv.kept _ h.settled.current_mem ?_, hadv.idle ▸ hidle, .inl hadv.self⟩
          rw [h.settled.current]
          decide
        · have hold := (hother hcur).symm.trans ht
          obtain ⟨hm, hi, hp⟩ := h.locking_others hadv hold hcur
          refine ⟨hm, hi, ?_⟩
          rcases hp with he | hp
          · rw [he]
            exact (h.locking t hold).2.2
          · exact .inr hp
      woken := fun hnone => nomatch howner.symm.trans hnone }

theorem waitqWakeOne_eq {s s1 : Sched} {popped : Option Tid}
    (hpop : s.waitqPop w = some (popped, s1))
    (hidle : s1.current ≠ s1.idle) : s.waitqWakeOne w = some s1 := by
  rw [waitqWakeOne, hpop]
  exact congrArg some (if_neg fun h => hidle h.1)

theorem Inv.unlock (h : Inv w z l place) (hidle : z.sys.sched.current ≠ z.sys.sched.idle)
    (howner : z.owner = some z.sys.sched.current) :
    ∃ z' l' place', z.perform w .unlock = some z' ∧ Inv w z' l' place' := by
  have hholding : ∀ t, update z.holding z.sys.sched.current false t = true ↔
      (none : Option Tid) = some t := by
    intro t
    by_cases ht : t = z.sys.sched.current
    · subst ht
      simp
    · have hnot : z.holding t ≠ true := fun hh => by
        have hboth := howner.symm.trans ((h.holding t).mp hh)
        exact ht (Option.some.inj hboth).symm
      simp [update_of_ne ht, hnot]
  have hperform : ∀ {s1}, z.sys.sched.waitqWakeOne w = some s1 → z.perform w .unlock =
      some { z with
        sys := { z.sys with sched := s1 }
        owner := none
        holding := update z.holding z.sys.sched.current false } := by
    intro s1 hs1
    rw [Mutex.perform, if_neg (not_not.mpr howner), hs1]
    rfl
  cases hk : l.queue (.waitq w) with
  | nil =>
    have hwake := waitqWakeOne_eq (h.settled.fits.waitqPop_nil hk) hidle
    refine ⟨_, l, place, hperform hwake, h.settled, hholding, h.waiting, h.locking,
      fun _ a ha timed hp => ?_⟩
    have hmem : a ∈ l.queue (.waitq w) := by
      rw [(h.settled.fits.placed a ha).queue, hp]
      rfl
    rw [hk] at hmem
    cases hmem
  | cons t r =>
    obtain ⟨s1, l1, hpop, hfits, hkept, _, hstop⟩ := h.settled.fits.waitqPop_cons hk
    have hwake := waitqWakeOne_eq hpop (by rwa [hkept.current, hkept.idle])
    have hw : ∀ a, Place.Woken (place a) (update place t .ready a) := woken_update hstop
    obtain ⟨hm, hq⟩ := h.settled.fits.mem_queue (t := t) (hk ▸ List.mem_cons_self)
    obtain ⟨timed, hp⟩ := Place.queue_eq_waitq.mp hq
    have hready : update place t .ready t = .ready := update_self ..
    refine ⟨_, l1, _, hperform hwake, h.settled.woken hfits hkept hw, hholding,
      fun a ha timed' hpa => ?_, fun a ha => ?_, fun _ _ _ _ _ => ?_⟩
    · have hpa' := (hw a).eq_of_ne (fun he => nomatch hpa.symm.trans he) ▸ hpa
      exact h.waiting a (hkept.all ▸ ha) timed' hpa'
    · obtain ⟨ham, hai, hpa⟩ := h.locking a ha
      refine ⟨hkept.all ▸ ham, hkept.idle ▸ hai, ?_⟩
      rcases hw a with he | ⟨_, he⟩
      · rw [he]
        exact hpa
      · exact .inr (.inl he)
    · exact ⟨t, h.waiting t hm timed hp, .inl hready⟩

theorem Inv.other (h : Inv w z l place) {e : Sched.Event} (he : z.Enabled w (.other e)) :
    ∃ z' l' place', z.perform w (.other e) = some z' ∧ Inv w z' l' place' := by
  obtain ⟨hen, hq, hcall⟩ := he
  obtain ⟨y', hy', l', place', hsettled, hadv⟩ := h.settled.step hen
  -- the running thread, if it is in the loop, was interrupted and did not stop
  have hself : z.locking z.sys.sched.current = true →
      z.sys.sched.current ∈ l'.all ∧ z.sys.sched.current ≠ y'.sched.idle ∧
        (place' z.sys.sched.current = .ready ∨ place' z.sys.sched.current = .running) := by
    intro hlock
    have hm : z.sys.sched.current ∈ l'.all :=
      hadv.kept _ h.settled.current_mem (by rw [h.settled.current]; decide)
    have hi : z.sys.sched.current ≠ y'.sched.idle := hadv.idle ▸ (h.locking _ hlock).2.1
    have honward : Place.Onward (place' z.sys.sched.current) := by
      cases e with
      | wakeOne | wakeAll | tick | finishSwitch => exact hadv.self
      | _ => exact nomatch (hcall rfl).symm.trans hlock
    rcases honward with hp | hp | hp
    · exact ⟨hm, hi, .inr hp⟩
    · exact ⟨hm, hi, .inl hp⟩
    · exact absurd (hsettled.idle_only _ hm hp) hi
  have hnotHere : ∀ {t timed}, place' t = .waiting w timed → t ≠ z.sys.sched.current := by
    rintro t timed hp rfl
    have hsends := hadv.self
    rw [hp] at hsends
    cases e with
    | wait w' =>
      cases hsends
      exact hq rfl
    | waitUntil w' tick =>
      cases hsends
      exact hq rfl
    | sleepUntil | exit => cases hsends
    | _ => rcases hsends with hsends | hsends | hsends <;> cases hsends
  refine ⟨{ z with sys := y' }, l', place', by rw [Mutex.perform, hy']; rfl, hsettled, h.holding,
    fun t ht timed hp => ?_, fun t ht => ?_, fun hnone a ha timed hp => ?_⟩
  · obtain ⟨hm, hold⟩ := waiting_of_advanced hadv ht (hnotHere hp) hp
    exact h.waiting t hm timed hold
  · by_cases hcur : t = z.sys.sched.current
    · subst hcur
      obtain ⟨hm, hi, hp⟩ := hself ht
      exact ⟨hm, hi, .inr hp⟩
    · obtain ⟨hm, hi, hp⟩ := h.locking_others hadv ht hcur
      refine ⟨hm, hi, ?_⟩
      rcases hp with hp | hp
      · rw [hp]
        exact (h.locking t ht).2.2
      · exact .inr hp
  · -- a thread that waits did so before, so one was about to look at the lock
    obtain ⟨hm, hold⟩ := waiting_of_advanced hadv ha (hnotHere hp) hp
    obtain ⟨t, htl, htp⟩ := h.woken hnone a hm timed hold
    refine ⟨t, htl, ?_⟩
    by_cases htc : t = z.sys.sched.current
    · subst htc
      exact (hself htl).2.2
    · rcases hadv.others t (h.locking t htl).1 htc with hpt | hpt
      · rw [hpt]
        exact htp
      · exact hpt

/-! ## Runs -/

theorem Inv.step (h : Inv w z l place) {e : Event} (hstep : Step w e z z') :
    ∃ l' place', Inv w z' l' place' := by
  obtain ⟨hen, hz'⟩ := hstep
  cases e with
  | lock =>
    rw [Mutex.perform] at hz'
    split at hz'
    · cases hz'
    · cases hz'
      exact h.tryLock hen.1 hen.2.1.1
  | recheck =>
    cases hz'
    exact h.tryLock hen.1 (h.locking _ hen.2).2.1
  | unlock =>
    by_cases howner : z.owner = some z.sys.sched.current
    · obtain ⟨z1, l', place', hz1, hinv⟩ := h.unlock hen.2.1.1 howner
      cases Option.some.inj (hz1.symm.trans hz')
      exact ⟨l', place', hinv⟩
    · rw [Mutex.perform, if_pos howner] at hz'
      cases hz'
  | other e =>
    obtain ⟨z1, l', place', hz1, hinv⟩ := h.other hen
    cases Option.some.inj (hz1.symm.trans hz')
    exact ⟨l', place', hinv⟩

/-- At most one thread holds the lock, and if it is free and threads sleep on
it, a thread that was woken from it is runnable and will look at it again. -/
theorem mutex_correct (m : Sched) {main idle : Tid} (hne : main ≠ idle)
    (hr : Reached (Step w) (init (System.boot m main idle)) z) :
    (∀ t t', z.holding t = true → z.holding t' = true → t = t') ∧
      (z.owner = none → z.sys.sched.queued (.waitq w) ≠ [] →
        ∃ t, z.locking t = true ∧ t ∉ z.sys.sched.queued (.waitq w) ∧
          (t ∈ z.sys.sched.queued .run ∧ z.sys.sched.state t = .runnable ∨
            t = z.sys.sched.current ∧ z.sys.sched.state t = .running)) := by
  have hboot := settled_boot m hne
  obtain ⟨l, place, h⟩ : ∃ l place, Inv w z l place := by
    refine hr.invariant (P := fun z => ∃ l place, Inv w z l place) ⟨_, _, .init hboot ?_⟩ ?_
    · intro t ht timed hp
      rw [bootPlace] at hp
      split at hp <;> cases hp
    · rintro e z z' ⟨l, place, h⟩ hstep
      exact h.step hstep
  refine ⟨fun t t' ht ht' => ?_, fun howner hq => ?_⟩
  · have hboth := ((h.holding t).mp ht).symm.trans ((h.holding t').mp ht')
    exact Option.some.inj hboth
  · rw [h.settled.fits.rep.queued_eq] at hq
    obtain ⟨a, ha⟩ := List.exists_mem_of_ne_nil _ hq
    obtain ⟨ham, haq⟩ := h.settled.fits.mem_queue ha
    obtain ⟨timed, hap⟩ := Place.queue_eq_waitq.mp haq
    obtain ⟨t, htl, htp⟩ := h.woken howner a ham timed hap
    obtain ⟨htm, _, _⟩ := h.locking t htl
    have hplaced := h.settled.fits.placed t htm
    refine ⟨t, htl, ?_⟩
    simp only [h.settled.fits.rep.queued_eq, hplaced.queue, hplaced.state]
    rcases htp with htp | htp
    · rw [htp]
      exact ⟨fun hk => (nomatch hk), .inl ⟨rfl, rfl⟩⟩
    · rw [htp]
      exact ⟨fun hk => (nomatch hk), .inr ⟨h.settled.running t htm htp, rfl⟩⟩

def take (w : Wid) (e : Event) (z : Mutex) : Option Mutex :=
  if z.Enabled w e then z.perform w e else none

theorem step_of_take {e : Event} (h : take w e z = some z') : Step w e z z' := by
  rw [take] at h
  split at h
  · next hen => exact ⟨hen, h⟩
  · cases h

/-- Two threads wait for `main`, which unlocks: one of them is woken and the
other still sleeps. -/
theorem mutex_correct_woken :
    ∃ z, Reached (Step 7) (init (System.boot zeroed 0 1)) z ∧ z.owner = none ∧
      z.sys.sched.queued (.waitq 7) = [3] ∧
      (∀ t t', z.holding t = true → z.holding t' = true → t = t') ∧
      (z.owner = none → z.sys.sched.queued (.waitq 7) ≠ [] →
        ∃ t, z.locking t = true ∧ t ∉ z.sys.sched.queued (.waitq 7) ∧
          (t ∈ z.sys.sched.queued .run ∧ z.sys.sched.state t = .runnable ∨
            t = z.sys.sched.current ∧ z.sys.sched.state t = .running)) := by
  obtain ⟨z, hz, howner, hq⟩ : ∃ z, follow (take 7)
      [.other (.create 2 (.text "a")), .other .start, .other (.create 3 (.text "b")), .other .start,
        .lock, .other .yield, .other .finishSwitch, .lock, .other .finishSwitch, .lock,
        .other .finishSwitch, .unlock]
      (init (.boot zeroed 0 1)) = some z ∧ z.owner = none ∧
        z.sys.sched.queued (.waitq 7) = [3] :=
    ⟨_, rfl, rfl, rfl⟩
  have hr := Reached.start.follow (fun _ _ _ => step_of_take) hz
  exact ⟨z, hr, howner, hq, mutex_correct zeroed (by decide) hr⟩

end Mutex

end ManiOS.Sched

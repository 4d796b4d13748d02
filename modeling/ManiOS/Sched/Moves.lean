import ManiOS.Sched.Places

/-!
# What the scheduler's functions do to places

A wake makes stopped threads ready and moves no other (`Place.Woken`).  It
leaves alone who is running (`Kept`).  A call of `schedule` lets the running
thread give way and makes one thread the running one (`Switched`).
-/

namespace ManiOS.Sched

open Function (update update_self update_of_ne)
open ManiOS.Lib

variable {s s' s'' : Sched} {l l' l'' : Lists} {place place' : Tid → Place} {t : Tid} {w : Wid}
  {r : List Tid}

/-- The variables that no wake changes. -/
structure Kept (s s' : Sched) (l l' : Lists) : Prop where
  current : s'.current = s.current
  idle : s'.idle = s.idle
  switching : s'.switching = s.switching
  switchedFrom : s'.switchedFrom = s.switchedFrom
  name : s'.name = s.name
  all : l'.all = l.all

theorem Kept.refl : Kept s s l l := ⟨rfl, rfl, rfl, rfl, rfl, rfl⟩

theorem Kept.trans (h : Kept s s' l l') (h' : Kept s' s'' l' l'') : Kept s s'' l l'' where
  current := h'.current.trans h.current
  idle := h'.idle.trans h.idle
  switching := h'.switching.trans h.switching
  switchedFrom := h'.switchedFrom.trans h.switchedFrom
  name := h'.name.trans h.name
  all := h'.all.trans h.all

/-! ## Wakes -/

theorem Transit.makeReady (h : Transit s l place t none false) (hw : s.waitingOn t = none) :
    Fits (runEnqueue t { s with state := update s.state t .runnable })
      (l.setQueue .run (l.queue .run ++ [t])) (update place t .ready) :=
  ((h.setState .runnable).enqueue .run).arrive (update_self ..) hw rfl rfl

theorem woken_update (ht : (place t).stopped = true) (a : Tid) :
    Place.Woken (place a) (update place t .ready a) := by
  by_cases ha : a = t
  · subst ha
    rw [update_self]
    exact .inr ⟨ht, rfl⟩
  · rw [update_of_ne ha]
    exact .refl _

section

variable (h : Fits s l place)
include h

theorem Fits.mem_queue {k : QueueId} (ht : t ∈ l.queue k) : t ∈ l.all ∧ (place t).queue = some k :=
  ⟨h.rep.queued ht, ((h.placed t (h.rep.queued ht)).queue k).mp ht⟩

theorem Fits.waitqPop_nil (hk : l.queue (.waitq w) = []) : s.waitqPop w = some (none, s) := by
  rw [waitqPop, h.rep.dequeue_nil hk]

theorem Fits.waitqPop_cons (hk : l.queue (.waitq w) = t :: r) :
    ∃ s' l', s.waitqPop w = some (some t, s') ∧ Fits s' l' (update place t .ready) ∧
      Kept s s' l l' ∧ l'.queue (.waitq w) = r ∧ (place t).stopped = true := by
  obtain ⟨ht, hq⟩ := h.mem_queue (t := t) (hk ▸ List.mem_cons_self)
  obtain ⟨timed, hp⟩ := Place.queue_eq_waitq.mp hq
  have hdepart := h.depart ht
  have hwait := (h.placed t ht).waitingOn
  rw [hp] at hdepart hwait
  obtain ⟨f, hf, hout⟩ := Transit.dequeue hdepart hk
  have hrun : QueueId.waitq w ≠ .run := fun he => nomatch he
  cases timed with
  | false =>
    refine ⟨_, _, ?_, hout.makeReady hwait, ⟨rfl, rfl, rfl, rfl, rfl, rfl⟩, ?_, by rw [hp]; rfl⟩
    · simp only [waitqPop, hf, hwait]
      rfl
    · rw [Lists.setQueue_queue_of_ne hrun, Lists.setQueue_queue_self]
  | true =>
    obtain ⟨nx, pt, hremove, hawake⟩ := hout.sleepRemove
    refine ⟨_, _, ?_, hawake.clearWaitingOn.makeReady (update_self ..),
      ⟨rfl, rfl, rfl, rfl, rfl, rfl⟩, ?_, by rw [hp]; rfl⟩
    · simp only [waitqPop, hf, hwait, Place.waitingOn, Option.isSome_some, if_true, hremove]
      rfl
    · exact Lists.setQueue_queue_self

theorem Fits.waitqPopAll {n : Nat} (hn : (l.queue (.waitq w)).length < n) :
    ∃ s' l' place', s.waitqPopAll w n = some s' ∧ Fits s' l' place' ∧ Kept s s' l l' ∧
      ∀ a, Place.Woken (place a) (place' a) := by
  induction n generalizing s l place with
  | zero => exact absurd hn (Nat.not_lt_zero _)
  | succ n ih =>
    cases hk : l.queue (.waitq w) with
    | nil =>
      refine ⟨s, l, place, ?_, h, .refl, fun a => .refl _⟩
      rw [Sched.waitqPopAll, h.waitqPop_nil hk]
      rfl
    | cons t r =>
      obtain ⟨s1, l1, hpop, hfits, hkept, hr, hstop⟩ := h.waitqPop_cons hk
      have hlen : (l1.queue (.waitq w)).length < n := by
        rw [hr]
        rw [hk] at hn
        exact Nat.lt_of_succ_lt_succ hn
      obtain ⟨s2, l2, place2, hall, hfits2, hkept2, hwoken⟩ := ih hfits hlen
      refine ⟨s2, l2, place2, ?_, hfits2, hkept.trans hkept2, fun a => ?_⟩
      · rw [Sched.waitqPopAll, hpop]
        exact hall
      · exact (woken_update hstop a).trans (hwoken a)

/-- A thread whose time has come is made ready.  In a timed wait it leaves its
wait queue with that. -/
theorem Fits.wakeSleepers_cons {now : Nat} (hs : l.sleep = t :: r) (htick : s.wakeTick t ≤ now) :
    ∃ s' l', (∀ n, s.wakeSleepers now (n + 1) = s'.wakeSleepers now n) ∧
      Fits s' l' (update place t .ready) ∧ Kept s s' l l' ∧ l'.sleep = r ∧
      (place t).stopped = true := by
  have hfirst : t ∈ l.sleep := hs ▸ List.mem_cons_self
  have hsome := (h.rep.sleepPop hs).1
  have ht : t ∈ l.all := h.rep.asleep hfirst
  have hasleep : (place t).asleep = true := (h.placed t ht).sleep.mp hfirst
  have hwait := (h.placed t ht).waitingOn
  have hdepart := h.depart ht
  rw [hasleep] at hdepart
  have hout := hdepart.sleepPop hs
  cases hw : (place t).waitingOn with
  | none =>
    rw [hw] at hwait
    rw [Place.waitingOn_eq_none hasleep hw] at hout
    refine ⟨_, _, fun n => ?_, Transit.makeReady hout hwait, ⟨rfl, rfl, rfl, rfl, rfl, rfl⟩, rfl,
      Place.stopped_of_asleep hasleep⟩
    rw [Sched.wakeSleepers, hsome]
    simp only [if_pos htick, hwait]
    rfl
  | some w =>
    rw [hw] at hwait
    rw [Place.waitingOn_eq_some.mp hw] at hout
    obtain ⟨nx, f, hremove, hgone⟩ := Transit.waitqRemove hout
    refine ⟨_, _, fun n => ?_,
      (hgone.setWaitingOn none true).makeReady (update_self ..),
      ⟨rfl, rfl, rfl, rfl, rfl, rfl⟩, rfl, Place.stopped_of_asleep hasleep⟩
    rw [Sched.wakeSleepers, hsome]
    simp only [if_pos htick, hwait, hremove]
    rfl

theorem Fits.wakeSleepers (now : Nat) {n : Nat} (hn : l.sleep.length < n) :
    ∃ s' l' place', s.wakeSleepers now n = some s' ∧ Fits s' l' place' ∧ Kept s s' l l' ∧
      ∀ a, Place.Woken (place a) (place' a) := by
  induction n generalizing s l place with
  | zero => exact absurd hn (Nat.not_lt_zero _)
  | succ n ih =>
    have hhead := h.rep.sleep.head_eq
    cases hs : l.sleep with
    | nil =>
      rw [hs] at hhead
      refine ⟨s, l, place, ?_, h, .refl, fun a => .refl _⟩
      rw [Sched.wakeSleepers, hhead]
      rfl
    | cons t r =>
      by_cases htick : s.wakeTick t ≤ now
      · obtain ⟨s1, l1, hstep, hfits, hkept, hr, hstop⟩ := h.wakeSleepers_cons hs htick
        have hlen : l1.sleep.length < n := by
          rw [hr]
          rw [hs] at hn
          exact Nat.lt_of_succ_lt_succ hn
        obtain ⟨s2, l2, place2, hall, hfits2, hkept2, hwoken⟩ := ih hfits hlen
        exact ⟨s2, l2, place2, (hstep n).trans hall, hfits2, hkept.trans hkept2,
          fun a => (woken_update hstop a).trans (hwoken a)⟩
      · rw [hs] at hhead
        refine ⟨s, l, place, ?_, h, .refl, fun a => .refl _⟩
        rw [Sched.wakeSleepers, hhead]
        exact if_neg htick

end

/-! ## The switch -/

/-- Where the running thread goes when it gives way. -/
def gaveWay (s : Sched) (place : Tid → Place) : Tid → Place :=
  if place s.current = .running then
    update place s.current (if s.current = s.idle then .idle else .ready)
  else
    place

theorem giveWay_idle (hstate : s.state s.current = .running) (hidle : s.current = s.idle) :
    s.giveWay = { s with state := update s.state s.current .runnable } := by
  rw [Sched.giveWay, if_pos hstate]
  exact if_neg fun h => h hidle

theorem giveWay_ready (hstate : s.state s.current = .running) (hidle : s.current ≠ s.idle) :
    s.giveWay = runEnqueue s.current { s with state := update s.state s.current .runnable } := by
  rw [Sched.giveWay, if_pos hstate]
  exact if_pos hidle

theorem Fits.giveWay (h : Fits s l place) (hcur : s.current ∈ l.all) :
    ∃ l', Fits s.giveWay l' (gaveWay s place) ∧ Kept s s.giveWay l l' := by
  have hplaced := h.placed _ hcur
  by_cases hrun : place s.current = .running
  · have hdepart := h.depart hcur
    rw [hrun] at hdepart hplaced
    rw [gaveWay, if_pos hrun]
    by_cases hidle : s.current = s.idle
    · rw [if_pos hidle, giveWay_idle hplaced.state hidle]
      exact ⟨l, (hdepart.setState .runnable).arrive (update_self ..) hplaced.waitingOn rfl
        rfl, ⟨rfl, rfl, rfl, rfl, rfl, rfl⟩⟩
    · rw [if_neg hidle, giveWay_ready hplaced.state hidle]
      exact ⟨_, Transit.makeReady hdepart hplaced.waitingOn, ⟨rfl, rfl, rfl, rfl, rfl, rfl⟩⟩
  · have hne : ¬ s.state s.current = .running := by
      rw [hplaced.state, Place.state_eq_running]
      exact hrun
    rw [Sched.giveWay, if_neg hne, gaveWay, if_neg hrun]
    exact ⟨l, h, .refl⟩

/-- Thread `t` is running after `schedule`, and the thread that gave way is
another or went on. -/
structure Switched (s s' : Sched) (l l' : Lists) (t : Tid) : Prop where
  current : s'.current = t
  idle : s'.idle = s.idle
  name : s'.name = s.name
  all : l'.all = l.all
  same : t = s.current → s'.switching = s.switching ∧ s'.switchedFrom = s.switchedFrom
  other : t ≠ s.current → s'.switching = true ∧ s'.switchedFrom = s.current

/-- The second half of `schedule`: thread `t`, taken off the run queue, runs. -/
def switchTo (prev t : Tid) (s : Sched) : Sched :=
  let s := { s with state := update s.state t .running, sliceLeft := timeSliceTicks }
  if t = prev then s else { s with current := t, switchedFrom := prev, switching := true }

theorem schedule_eq (s : Sched) :
    s.schedule = switchTo s.current (s.giveWay.runDequeue.getD (s.giveWay.idle, s.giveWay)).1
      (s.giveWay.runDequeue.getD (s.giveWay.idle, s.giveWay)).2 := rfl

theorem Transit.switchTo (h : Transit s l place t none false) (prev : Tid)
    (hw : s.waitingOn t = none) (hprev : prev = s.current) :
    Fits (switchTo prev t s) l (update place t .running) ∧ Switched s (switchTo prev t s) l l t := by
  have hset := (h.setState .running).arrive (p := .running) (update_self ..) hw rfl rfl
  rw [Sched.switchTo]
  by_cases ht : t = prev
  · subst hprev
    rw [if_pos ht]
    exact ⟨⟨{ hset.rep with }, fun a ha => { hset.placed a ha with }⟩, ht.symm, rfl, rfl, rfl,
      fun _ => ⟨rfl, rfl⟩, fun hne => absurd ht hne⟩
  · rw [if_neg ht]
    exact ⟨⟨{ hset.rep with }, fun a ha => { hset.placed a ha with }⟩, rfl, rfl, rfl, rfl,
      fun he => absurd (he.trans hprev.symm) ht, fun _ => ⟨rfl, hprev⟩⟩

theorem Switched.of_kept {s1 : Sched} {l1 : Lists} (h : Switched s1 s' l1 l' t)
    (hk : Kept s s1 l l1) : Switched s s' l l' t where
  current := h.current
  idle := h.idle.trans hk.idle
  name := h.name.trans hk.name
  all := h.all.trans hk.all
  same ht := by
    rw [← hk.current] at ht
    rw [← hk.switching, ← hk.switchedFrom]
    exact h.same ht
  other ht := by
    rw [← hk.current] at ht ⊢
    exact h.other ht

theorem Fits.schedule (h : Fits s l place) (hcur : s.current ∈ l.all) (hidle : s.idle ∈ l.all)
    (hp : gaveWay s place s.idle = .idle) :
    ∃ l' t, Fits s.schedule l' (update (gaveWay s place) t .running) ∧
      Switched s s.schedule l l' t ∧ t ∈ l.all ∧
      (gaveWay s place t = .ready ∨ t = s.idle) := by
  obtain ⟨l1, hfits, hkept⟩ := h.giveWay hcur
  rw [schedule_eq]
  cases hrun : l1.queue .run with
  | nil =>
    rw [runDequeue, hfits.rep.dequeue_nil hrun]
    have hmem : s.idle ∈ l1.all := hkept.all ▸ hidle
    have hdepart := hfits.depart hmem
    have hwait := (hfits.placed _ hmem).waitingOn
    rw [hp] at hdepart hwait
    obtain ⟨hto, hsw⟩ := Transit.switchTo hdepart s.current hwait hkept.current.symm
    rw [hkept.idle]
    exact ⟨l1, s.idle, hto, hsw.of_kept hkept, hidle, .inr rfl⟩
  | cons t r =>
    obtain ⟨ht, hq⟩ := hfits.mem_queue (t := t) (hrun ▸ List.mem_cons_self)
    have hready := Place.queue_eq_run.mp hq
    have hdepart := hfits.depart ht
    have hwait := (hfits.placed t ht).waitingOn
    rw [hready] at hdepart hwait
    obtain ⟨f, hf, hout⟩ := Transit.dequeue hdepart hrun
    rw [runDequeue, hf]
    obtain ⟨hto, hsw⟩ := Transit.switchTo hout s.current hwait hkept.current.symm
    exact ⟨_, t, hto, hsw.of_kept (hkept.trans ⟨rfl, rfl, rfl, rfl, rfl, rfl⟩),
      hkept.all ▸ ht, .inl hready⟩

end ManiOS.Sched

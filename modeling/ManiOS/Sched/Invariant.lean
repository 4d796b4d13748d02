import ManiOS.Sched.Moves

/-!
# Steps of the scheduler and its invariant

A run starts with `sched_init`.  Threads create others, yield, sleep, wait,
wake and exit, and timer ticks and wakes from interrupts come in between.  The
steps are the stretches with interrupts off, so a run is any interleaving.

`thread_create_in` has two of them: the new thread joins the list of all
threads, and later the run queue.  Its creator may lose the CPU in between.
`creating` holds the new thread meanwhile, which is a variable of the creator.

`Settled` is the invariant.  Each thread is where some `place` says, one thread
is running, and a dead one is only met between a context switch and
`finish_switch`.
-/

namespace ManiOS.Sched

open Function (update update_self update_of_ne)
open ManiOS.Lib

/-! ## Steps -/

/-- The scheduler, and what each thread has allocated and not started. -/
structure System where
  sched : Sched
  creating : Tid → Option Tid

/-- The steps with interrupts off. -/
inductive Event where
  /-- `thread_create_in` up to the new thread on the list of all threads, at the
  address that `kmalloc` returned. -/
  | create (t : Tid) (name : NamePtr)
  /-- The rest of `thread_create_in`. -/
  | start
  | yield
  | sleepUntil (tick : Nat)
  | exit
  | wait (w : Wid)
  | waitUntil (w : Wid) (tick : Nat)
  | wakeOne (w : Wid)
  | wakeAll (w : Wid)
  | tick (now : Nat)
  | enablePreemption
  /-- `finish_switch` on the stack of the thread that was switched to. -/
  | finishSwitch

namespace System

/-- The running thread may make a call: it is not the idle thread, which makes
none, and not in the middle of `thread_create_in`. -/
def Free (y : System) : Prop :=
  y.sched.current ≠ y.sched.idle ∧ y.creating y.sched.current = none

/-- What the callers grant.  Nothing comes between a context switch and
`finish_switch`.  A wake or a tick may be an interrupt, so it may come at any
other time.  `kmalloc` returns memory that is not in use. -/
def Enabled (y : System) : Event → Prop
  | .create t _ => y.sched.switching = false ∧ y.Free ∧ y.sched.allocated t = false
  | .start => y.sched.switching = false ∧ (y.creating y.sched.current).isSome
  | .yield | .sleepUntil _ | .exit | .wait _ | .waitUntil _ _ | .enablePreemption =>
    y.sched.switching = false ∧ y.Free
  | .wakeOne _ | .wakeAll _ | .tick _ => y.sched.switching = false
  | .finishSwitch => y.sched.switching = true

instance (y : System) : Decidable y.Free := inferInstanceAs (Decidable (_ ∧ _))

instance (y : System) : (e : Event) → Decidable (y.Enabled e)
  | .create _ _ => inferInstanceAs (Decidable (_ ∧ y.Free ∧ _))
  | .start => inferInstanceAs (Decidable (_ ∧ _))
  | .yield | .sleepUntil _ | .exit | .wait _ | .waitUntil _ _ | .enablePreemption =>
    inferInstanceAs (Decidable (_ ∧ y.Free))
  | .wakeOne _ | .wakeAll _ | .tick _ => inferInstanceAs (Decidable (_ = _))
  | .finishSwitch => inferInstanceAs (Decidable (_ = _))

/-- What a step does.  `none` is a walk along a list that does not end. -/
def perform (y : System) : Event → Option System
  | .create t name => some
      { sched := y.sched.threadAlloc t name
        creating := update y.creating y.sched.current (some t) }
  | .start => (y.creating y.sched.current).map fun t =>
    { sched := y.sched.runEnqueue t
      creating := update y.creating y.sched.current none }
  | .yield => some { y with sched := y.sched.threadYield }
  | .sleepUntil tick => (y.sched.threadSleepUntil tick).map ({ y with sched := · })
  | .exit => some { y with sched := y.sched.threadExit }
  | .wait w => some { y with sched := y.sched.waitqSleep w }
  | .waitUntil w tick => (y.sched.waitqSleepUntil w tick).map ({ y with sched := · })
  | .wakeOne w => (y.sched.waitqWakeOne w).map ({ y with sched := · })
  | .wakeAll w => (y.sched.waitqWakeAll w).map ({ y with sched := · })
  | .tick now => (y.sched.schedTick now).map ({ y with sched := · })
  | .enablePreemption => some { y with sched := y.sched.schedEnablePreemption }
  | .finishSwitch => y.sched.finishSwitch.map ({ y with sched := · })

def Step (e : Event) (y y' : System) : Prop := y.Enabled e ∧ y.perform e = some y'

/-- After `sched_init`, in memory `m`. -/
def boot (m : Sched) (main idle : Tid) : System :=
  { sched := schedInit m main idle, creating := fun _ => none }

end System

/-! ## The invariant -/

/-- What holds of the places whenever every thread is in one. -/
structure Sound (y : System) (l : Lists) (place : Tid → Place) : Prop where
  fits : Fits y.sched l place
  current_mem : y.sched.current ∈ l.all
  idle_mem : y.sched.idle ∈ l.all
  running : ∀ t ∈ l.all, place t = .running → t = y.sched.current
  idle : place y.sched.idle = .idle ∨ y.sched.current = y.sched.idle ∧ place y.sched.idle = .running
  idle_only : ∀ t ∈ l.all, place t = .idle → t = y.sched.idle
  created : ∀ t ∈ l.all, place t = .created ↔ ∃ c, y.creating c = some t
  creating : ∀ c t, y.creating c = some t → t ∈ l.all ∧ c ∈ l.all ∧ place c ≠ .dead
  creating_inj : ∀ c c' t, y.creating c = some t → y.creating c' = some t → c = c'

/-- Between two steps: one thread is running. -/
structure Settled (y : System) (l : Lists) (place : Tid → Place) : Prop
    extends Sound y l place where
  current : place y.sched.current = .running
  dead : ∀ t ∈ l.all, place t = .dead → y.sched.switching = true ∧ t = y.sched.switchedFrom
  switched : y.sched.switching = true →
    y.sched.switchedFrom ∈ l.all ∧ y.sched.switchedFrom ≠ y.sched.current

/-- Before a call of `schedule`: the thread that makes it may have stopped. -/
structure Poised (y : System) (l : Lists) (place : Tid → Place) : Prop
    extends Sound y l place where
  current_ne : place y.sched.current ≠ .created
  dead : ∀ t ∈ l.all, place t = .dead → t = y.sched.current
  switching : y.sched.switching = false

variable {y y' : System} {s' : Sched} {l l' : Lists} {place place' : Tid → Place} {t : Tid}
  {p : Place}

theorem Settled.poised (h : Settled y l place) (hs : y.sched.switching = false) :
    Poised y l place where
  toSound := h.toSound
  current_ne := by
    rw [h.current]
    decide
  dead t ht hp := by
    have hsw := (h.dead t ht hp).1
    rw [hs] at hsw
    cases hsw
  switching := hs

/-! ## Wakes -/

namespace Place

theorem Woken.eq_of_ne {p' : Place} (h : Woken p p') (hp : p' ≠ ready) : p' = p :=
  h.resolve_right fun h => hp h.2

theorem Woken.eq_of_not_stopped {p' : Place} (h : Woken p p') (hp : p.stopped = false) : p' = p :=
  h.resolve_right fun h => by
    rw [hp] at h
    cases h.1

end Place

theorem Settled.woken (h : Settled y l place) (hfits : Fits s' l' place')
    (hkept : Kept y.sched s' l l') (hw : ∀ a, Place.Woken (place a) (place' a)) :
    Settled { y with sched := s' } l' place' where
  fits := hfits
  current_mem := by
    rw [hkept.current, hkept.all]
    exact h.current_mem
  idle_mem := by
    rw [hkept.idle, hkept.all]
    exact h.idle_mem
  running a ha hp := by
    rw [hkept.all] at ha
    rw [hkept.current]
    exact h.running a ha ((hw a).eq_of_ne (by rw [hp]; decide) ▸ hp)
  idle := by
    rw [hkept.idle, hkept.current]
    refine h.idle.imp (fun hp => ?_) fun hp => ⟨hp.1, ?_⟩
    · rw [(hw _).eq_of_not_stopped (by rw [hp]; rfl), hp]
    · rw [(hw _).eq_of_not_stopped (by rw [hp.2]; rfl), hp.2]
  idle_only a ha hp := by
    rw [hkept.all] at ha
    rw [hkept.idle]
    exact h.idle_only a ha ((hw a).eq_of_ne (by rw [hp]; decide) ▸ hp)
  created a ha := by
    rw [hkept.all] at ha
    rw [← h.created a ha]
    constructor
    · intro hp
      exact (hw a).eq_of_ne (by rw [hp]; decide) ▸ hp
    · intro hp
      rw [(hw a).eq_of_not_stopped (by rw [hp]; rfl), hp]
  creating c a hc := by
    obtain ⟨ha, hcm, hd⟩ := h.creating c a hc
    rw [hkept.all]
    refine ⟨ha, hcm, fun hp => hd ?_⟩
    exact (hw c).eq_of_ne (by rw [hp]; decide) ▸ hp
  creating_inj := h.creating_inj
  current := by
    rw [hkept.current, (hw _).eq_of_not_stopped (by rw [h.current]; rfl)]
    exact h.current
  dead a ha hp := by
    rw [hkept.all] at ha
    rw [hkept.switching, hkept.switchedFrom]
    exact h.dead a ha ((hw a).eq_of_ne (by rw [hp]; decide) ▸ hp)
  switched hs := by
    rw [hkept.switching] at hs
    rw [hkept.switchedFrom, hkept.current, hkept.all]
    exact h.switched hs

/-! ## The call of `schedule` -/

theorem gaveWay_of_ne {s : Sched} (ht : t ≠ s.current) : gaveWay s place t = place t := by
  unfold gaveWay
  split
  · exact update_of_ne ht ..
  · rfl

/-- The thread that gives way was running, or it stays where it went. -/
theorem gaveWay_current (s : Sched) (place : Tid → Place) : place s.current = .running ∧
        gaveWay s place s.current = (if s.current = s.idle then .idle else .ready) ∨
      place s.current ≠ .running ∧ gaveWay s place s.current = place s.current := by
  unfold gaveWay
  split
  · next hrun => exact .inl ⟨hrun, update_self ..⟩
  · next hrun => exact .inr ⟨hrun, rfl⟩

theorem gaveWay_eq {s : Sched} (hp : gaveWay s place t = p) (hready : p ≠ .ready)
    (hidle : p ≠ .idle) : place t = p := by
  by_cases ht : t = s.current
  · subst ht
    rcases gaveWay_current s place with ⟨_, hg⟩ | ⟨_, hg⟩
    · rw [hg] at hp
      split at hp
      · exact absurd hp.symm hidle
      · exact absurd hp.symm hready
    · exact hg.symm.trans hp
  · exact (gaveWay_of_ne ht).symm.trans hp

theorem Sound.gaveWay_idle (h : Sound y l place) : gaveWay y.sched place y.sched.idle = .idle := by
  rcases h.idle with hp | ⟨hcur, hp⟩
  · by_cases ht : y.sched.idle = y.sched.current
    · rcases gaveWay_current y.sched place with ⟨hrun, _⟩ | ⟨_, hg⟩
      · rw [← ht, hp] at hrun
        cases hrun
      · rw [ht, hg, ← ht, hp]
    · rw [gaveWay_of_ne ht, hp]
  · rw [← hcur] at hp
    rcases gaveWay_current y.sched place with ⟨_, hg⟩ | ⟨hne, _⟩
    · rw [← hcur, hg, if_pos hcur]
    · exact absurd hp hne

theorem Sound.gaveWay_ne_running (h : Sound y l place) (ht : t ∈ l.all) :
    gaveWay y.sched place t ≠ .running := by
  intro hp
  have hrun := gaveWay_eq hp (by decide) (by decide)
  have hcur := h.running t ht hrun
  subst hcur
  rcases gaveWay_current y.sched place with ⟨_, hg⟩ | ⟨hne, _⟩
  · rw [hg] at hp
    split at hp <;> cases hp
  · exact hne hrun

theorem Sound.gaveWay_idle_only (h : Sound y l place) (ht : t ∈ l.all)
    (hp : gaveWay y.sched place t = .idle) : t = y.sched.idle := by
  by_cases hcur : t = y.sched.current
  · subst hcur
    rcases gaveWay_current y.sched place with ⟨_, hg⟩ | ⟨_, hg⟩
    · rw [hg] at hp
      split at hp
      · assumption
      · cases hp
    · exact h.idle_only _ ht (hg.symm.trans hp)
  · exact h.idle_only _ ht ((gaveWay_of_ne hcur).symm.trans hp)

theorem Poised.gaveWay_created (h : Poised y l place) :
    gaveWay y.sched place t = .created ↔ place t = .created := by
  constructor
  · exact fun hp => gaveWay_eq hp (by decide) (by decide)
  · intro hp
    rw [gaveWay_of_ne, hp]
    rintro rfl
    exact h.current_ne hp

theorem Poised.schedule (h : Poised y l place) :
    ∃ l' t, Settled { y with sched := y.sched.schedule } l'
        (update (gaveWay y.sched place) t .running) ∧
      Switched y.sched y.sched.schedule l l' t ∧
      (gaveWay y.sched place t = .ready ∨ t = y.sched.idle) := by
  obtain ⟨l', t, hfits, hsw, ht, hnext⟩ := h.fits.schedule h.current_mem h.idle_mem h.gaveWay_idle
  refine ⟨l', t, ?_, hsw, hnext⟩
  have hself : update (gaveWay y.sched place) t .running t = .running := update_self ..
  have hother : ∀ {a}, a ≠ t →
      update (gaveWay y.sched place) t .running a = gaveWay y.sched place a :=
    fun ha => update_of_ne ha ..
  -- the thread picked is not one that is still being created
  have hpicked : place t ≠ .created := by
    rw [ne_eq, ← h.gaveWay_created]
    rcases hnext with hp | rfl
    · rw [hp]
      decide
    · rw [h.gaveWay_idle]
      decide
  have hdead : ∀ {a}, update (gaveWay y.sched place) t .running a = .dead →
      a ≠ t ∧ place a = .dead := by
    intro a hp
    have ha : a ≠ t := by
      rintro rfl
      rw [hself] at hp
      cases hp
    rw [hother ha] at hp
    exact ⟨ha, gaveWay_eq hp (by decide) (by decide)⟩
  exact { h with
    fits := hfits
    current_mem := by
      rw [hsw.current, hsw.all]
      exact ht
    idle_mem := by
      rw [hsw.idle, hsw.all]
      exact h.idle_mem
    running := fun a ha hp => by
      rw [hsw.all] at ha
      rw [hsw.current]
      by_contra hat
      rw [hother hat] at hp
      exact h.gaveWay_ne_running ha hp
    idle := by
      rw [hsw.idle, hsw.current]
      by_cases hti : y.sched.idle = t
      · exact .inr ⟨hti.symm, hti ▸ hself⟩
      · exact .inl ((hother hti).trans h.gaveWay_idle)
    idle_only := fun a ha hp => by
      rw [hsw.all] at ha
      rw [hsw.idle]
      by_cases hat : a = t
      · rw [hat, hself] at hp
        cases hp
      · exact h.gaveWay_idle_only ha ((hother hat).symm.trans hp)
    created := fun a ha => by
      rw [hsw.all] at ha
      rw [← h.created a ha]
      by_cases hat : a = t
      · rw [hat, hself]
        exact ⟨fun hp => (nomatch hp), fun hp => absurd hp hpicked⟩
      · rw [hother hat, h.gaveWay_created]
    creating := fun c a hc => by
      obtain ⟨ha, hcm, hd⟩ := h.creating c a hc
      rw [hsw.all]
      exact ⟨ha, hcm, fun hp => hd (hdead hp).2⟩
    current := by
      rw [hsw.current]
      exact hself
    dead := fun a ha hp => by
      rw [hsw.all] at ha
      obtain ⟨hat, hda⟩ := hdead hp
      have hcur := h.dead a ha hda
      have hto := hsw.other fun he => hat (hcur.trans he.symm)
      exact ⟨hto.1, hcur.trans hto.2.symm⟩
    switched := fun hs => by
      rw [hsw.current, hsw.all]
      by_cases htc : t = y.sched.current
      · rw [(hsw.same htc).1, h.switching] at hs
        cases hs
      · rw [(hsw.other htc).2]
        exact ⟨h.current_mem, .symm htc⟩ }

/-! ## The running thread stops -/

/-- The running thread went to place `p` and will call `schedule`.  It has
nothing half created if that is its end. -/
theorem Settled.leave (h : Settled y l place) (hs : y.sched.switching = false)
    (hidle : y.sched.current ≠ y.sched.idle)
    (hfits : Fits s' l' (update place y.sched.current p)) (hkept : Kept y.sched s' l l')
    (hp : p.stopped = true ∨ p = .dead ∧ y.creating y.sched.current = none) :
    Poised { y with sched := s' } l' (update place y.sched.current p) := by
  have hself : update place y.sched.current p y.sched.current = p := update_self ..
  have hother : ∀ {a}, a ≠ y.sched.current → update place y.sched.current p a = place a :=
    fun ha => update_of_ne ha ..
  have hne : p ≠ .running ∧ p ≠ .idle ∧ p ≠ .created := by
    rcases hp with hp | ⟨rfl, _⟩
    · refine ⟨?_, ?_, ?_⟩ <;> rintro rfl <;> cases hp
    · decide
  exact { h with
    fits := hfits
    current_mem := by
      rw [hkept.current, hkept.all]
      exact h.current_mem
    idle_mem := by
      rw [hkept.idle, hkept.all]
      exact h.idle_mem
    running := fun a ha hpa => by
      rw [hkept.all] at ha
      rw [hkept.current]
      by_contra hac
      rw [hother hac] at hpa
      exact hac (h.running a ha hpa)
    idle := by
      rw [hkept.idle]
      rcases h.idle with hpi | ⟨hcur, _⟩
      · exact .inl ((hother hidle.symm).trans hpi)
      · exact absurd hcur hidle
    idle_only := fun a ha hpa => by
      rw [hkept.all] at ha
      rw [hkept.idle]
      by_cases hac : a = y.sched.current
      · rw [hac, hself] at hpa
        exact absurd hpa hne.2.1
      · exact h.idle_only a ha ((hother hac).symm.trans hpa)
    created := fun a ha => by
      rw [hkept.all] at ha
      rw [← h.created a ha]
      by_cases hac : a = y.sched.current
      · rw [hac, hself, h.current]
        exact ⟨fun hpa => absurd hpa hne.2.2, fun hpa => (nomatch hpa)⟩
      · rw [hother hac]
    creating := fun c a hc => by
      obtain ⟨ha, hcm, hd⟩ := h.creating c a hc
      rw [hkept.all]
      refine ⟨ha, hcm, ?_⟩
      by_cases hcc : c = y.sched.current
      · rw [hcc, hself]
        rcases hp with hp | ⟨_, hnone⟩
        · rintro rfl
          cases hp
        · rw [← hcc, hc] at hnone
          cases hnone
      · rw [hother hcc]
        exact hd
    current_ne := by
      rw [hkept.current, hself]
      exact hne.2.2
    dead := fun a ha hpa => by
      rw [hkept.all] at ha
      rw [hkept.current]
      by_contra hac
      rw [hother hac] at hpa
      have hsw := (h.dead a ha hpa).1
      rw [hs] at hsw
      cases hsw
    switching := hkept.switching.trans hs }

theorem Settled.transit (h : Settled y l place) :
    Transit y.sched l place y.sched.current none false ∧
      y.sched.waitingOn y.sched.current = none := by
  have hdepart := h.fits.depart h.current_mem
  have hwait := (h.fits.placed _ h.current_mem).waitingOn
  rw [h.current] at hdepart hwait
  exact ⟨hdepart, hwait⟩

end ManiOS.Sched

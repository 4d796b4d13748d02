import ManiOS.Sched.Invariant

/-!
# Each step keeps the invariant

One lemma per step says that it ends, that the invariant holds again, and where
the threads are then (`Advanced`).  A thread other than the running one is
where it was, or ready, or running.  The running one is where its call sent it
(`Event.Sends`).  Only a dead thread is gone.
-/

namespace ManiOS.Sched

open Function (update update_self update_of_ne)
open ManiOS.Lib List

variable {y y' : System} {s' : Sched} {l l' : Lists} {place place' : Tid → Place} {t : Tid}
  {p : Place} {went went' : Place → Prop}

/-- Where the threads are after a step that sent the running thread to a place
with `went`. -/
structure Advanced (y : System) (l : Lists) (place : Tid → Place) (s' : Sched) (l' : Lists)
    (place' : Tid → Place) (went : Place → Prop) : Prop where
  others : ∀ a ∈ l.all, a ≠ y.sched.current →
    place' a = place a ∨ place' a = .ready ∨ place' a = .running
  self : went (place' y.sched.current)
  kept : ∀ a ∈ l.all, place a ≠ .dead → a ∈ l'.all
  new : ∀ a ∈ l'.all, a ∈ l.all ∨ place' a = .created
  idle : s'.idle = y.sched.idle
  name : ∀ a ∈ l.all, s'.name a = y.sched.name a

/-- The place of a thread that did not stop. -/
def Place.Onward (p : Place) : Prop := p = .running ∨ p = .ready ∨ p = .idle

/-- The place a step sends the running thread to. -/
def Event.Sends : Event → Place → Prop
  | .wait w => (· = .waiting w false)
  | .waitUntil w _ => (· = .waiting w true)
  | .sleepUntil _ => (· = .sleeping)
  | .exit => (· = .dead)
  | _ => Place.Onward

/-- A step leads to `y'`, where the invariant holds. -/
def Leads (y : System) (l : Lists) (place : Tid → Place) (y' : System) (went : Place → Prop) :
    Prop :=
  ∃ l' place', Settled y' l' place' ∧ Advanced y l place y'.sched l' place' went

theorem Advanced.of_woken (h : Settled y l place) (hkept : Kept y.sched s' l l')
    (hw : ∀ a, Place.Woken (place a) (place' a)) :
    Advanced y l place s' l' place' Place.Onward where
  others a _ _ := (hw a).imp_right fun h => .inl h.2
  self := .inl ((hw _).eq_of_not_stopped (by rw [h.current]; rfl) ▸ h.current)
  kept a ha _ := hkept.all ▸ ha
  new a ha := .inl (hkept.all ▸ ha)
  idle := hkept.idle
  name a _ := congrFun hkept.name a

theorem Settled.stop (h : Settled y l place) (hs : y.sched.switching = false)
    (hidle : y.sched.current ≠ y.sched.idle)
    (hfits : Fits s' l' (update place y.sched.current p)) (hkept : Kept y.sched s' l l')
    (hp : p.stopped = true ∨ p = .dead ∧ y.creating y.sched.current = none) :
    Leads y l place { y with sched := s'.schedule } (· = p) := by
  have hpoised := h.leave hs hidle hfits hkept hp
  obtain ⟨l'', t, hsettled, hsw, hnext⟩ := hpoised.schedule
  have hne : p ≠ .running ∧ p ≠ .ready := by
    rcases hp with hp | ⟨rfl, _⟩
    · refine ⟨?_, ?_⟩ <;> rintro rfl <;> cases hp
    · decide
  have hself : update place y.sched.current p y.sched.current = p := update_self ..
  -- the thread that stopped stays where it went
  have hgave : gaveWay s' (update place y.sched.current p) = update place y.sched.current p := by
    rw [gaveWay, hkept.current, hself, if_neg hne.1]
  have hpicked : y.sched.current ≠ t := by
    rintro rfl
    rcases hnext with hready | hi
    · exact hne.2 (hself.symm.trans (congrFun hgave _ ▸ hready))
    · exact hidle (hi.trans hkept.idle)
  have hall : l''.all = l.all := hsw.all.trans hkept.all
  refine ⟨l'', _, hsettled, fun a ha hac => ?_, ?_, fun a ha _ => hall ▸ ha,
    fun a ha => .inl (hall ▸ ha), hsw.idle.trans hkept.idle,
    fun a _ => congrFun (hsw.name.trans hkept.name) a⟩
  · by_cases hat : a = t
    · subst hat
      exact .inr (.inr (update_self ..))
    · rw [update_of_ne hat, hgave]
      exact .inl (update_of_ne hac ..)
  · rw [update_of_ne hpicked, hgave]
    exact hself

/-! ## The steps of a thread -/

section

variable (h : Settled y l place)
include h

section

variable (hs : y.sched.switching = false) (hidle : y.sched.current ≠ y.sched.idle)
include hs hidle

theorem Settled.wait (w : Wid) :
    Leads y l place { y with sched := y.sched.waitqSleep w } (· = .waiting w false) := by
  obtain ⟨hdepart, hwait⟩ := h.transit
  have hfits := ((hdepart.setState .blocked).enqueue (.waitq w)).arrive (p := .waiting w false)
    (update_self ..) hwait rfl rfl
  exact h.stop hs hidle hfits ⟨rfl, rfl, rfl, rfl, rfl, rfl⟩ (.inl rfl)

theorem Settled.sleepUntil (tick : Nat) : ∃ s', y.sched.threadSleepUntil tick = some s' ∧
      Leads y l place { y with sched := s' } (· = .sleeping) := by
  obtain ⟨hdepart, hwait⟩ := h.transit
  obtain ⟨nx, pt, r, hins, hasleep⟩ := ((hdepart.setState .sleeping).setWakeTick tick).sleepInsert
  have hfits := hasleep.arrive (p := .sleeping) (update_self ..) hwait rfl rfl
  refine ⟨_, ?_, h.stop hs hidle hfits ⟨rfl, rfl, rfl, rfl, rfl, rfl⟩ (.inl rfl)⟩
  rw [threadSleepUntil, hins]
  rfl

theorem Settled.waitUntil (w : Wid) (tick : Nat) : ∃ s', y.sched.waitqSleepUntil w tick = some s' ∧
      Leads y l place { y with sched := s' } (· = .waiting w true) := by
  obtain ⟨hdepart, _⟩ := h.transit
  obtain ⟨nx, pt, r, hins, hasleep⟩ :=
    ((hdepart.setWaitingOn (some w) false).setWakeTick tick).sleepInsert
  have hfits := ((hasleep.setState .blocked).enqueue (.waitq w)).arrive (p := .waiting w true)
    (update_self ..) (update_self ..) rfl rfl
  refine ⟨_, ?_, h.stop hs hidle hfits ⟨rfl, rfl, rfl, rfl, rfl, rfl⟩ (.inl rfl)⟩
  rw [waitqSleepUntil, hins]
  rfl

end

theorem Settled.exit (hs : y.sched.switching = false) (hfree : y.Free) :
    Leads y l place { y with sched := y.sched.threadExit } (· = .dead) := by
  obtain ⟨hdepart, hwait⟩ := h.transit
  have hfits := (hdepart.setState .dead).arrive (p := .dead) (update_self ..) hwait rfl rfl
  exact h.stop hs hfree.1 hfits ⟨rfl, rfl, rfl, rfl, rfl, rfl⟩ (.inr ⟨rfl, hfree.2⟩)

theorem Settled.schedule (hs : y.sched.switching = false) :
    Leads y l place { y with sched := y.sched.schedule } Place.Onward := by
  obtain ⟨l', t, hsettled, hsw, _⟩ := (h.poised hs).schedule
  refine ⟨l', _, hsettled, fun a _ hac => ?_, ?_, fun a ha _ => hsw.all ▸ ha,
    fun a ha => .inl (hsw.all ▸ ha), hsw.idle, fun a _ => congrFun hsw.name a⟩
  · by_cases hat : a = t
    · subst hat
      exact .inr (.inr (update_self ..))
    · rw [update_of_ne hat, gaveWay_of_ne hac]
      exact .inl rfl
  · by_cases hct : y.sched.current = t
    · rw [hct, update_self]
      exact .inl rfl
    · rw [update_of_ne hct, gaveWay, if_pos h.current, update_self]
      split
      · exact .inr (.inr rfl)
      · exact .inr (.inl rfl)

end

/-! ## Wakes and ticks -/

section

variable (h : Settled y l place) (hs : y.sched.switching = false)
include h hs

theorem Settled.wake {s1 : Sched}
    {l1 : Lists} {place1 : Tid → Place} (hfits : Fits s1 l1 place1) (hkept : Kept y.sched s1 l l1)
    (hw : ∀ a, Place.Woken (place a) (place1 a)) (c : Prop) [Decidable c] :
    Leads y l place { y with sched := if c then s1.schedule else s1 } Place.Onward := by
  have hsettled := h.woken hfits hkept hw
  have hadv := Advanced.of_woken h hkept hw
  by_cases hc : c
  · simp only [if_pos hc]
    obtain ⟨l', place', hsettled', hadv'⟩ := hsettled.schedule (hkept.switching.trans hs)
    refine ⟨l', place', hsettled', fun a ha hac => ?_, hkept.current ▸ hadv'.self, fun a ha hd => ?_,
      fun a ha => hkept.all ▸ hadv'.new a ha, hadv'.idle.trans hkept.idle,
      fun a ha => (hadv'.name a (hkept.all ▸ ha)).trans (congrFun hkept.name a)⟩
    · rcases hadv'.others a (hkept.all ▸ ha) (hkept.current ▸ hac) with hp | hp
      · rw [hp]
        exact hadv.others a ha hac
      · exact .inr hp
    · refine hadv'.kept a (hkept.all ▸ ha) fun hp => hd ?_
      exact (hw a).eq_of_ne (by rw [hp]; decide) ▸ hp
  · simp only [if_neg hc]
    exact ⟨l1, place1, hsettled, hadv⟩

theorem Settled.wakeOne (w : Wid) : ∃ s', y.sched.waitqWakeOne w = some s' ∧
      Leads y l place { y with sched := s' } Place.Onward := by
  cases hk : l.queue (.waitq w) with
  | nil =>
    refine ⟨_, ?_, h.wake hs h.fits .refl (fun a => .refl _)
      (y.sched.current = y.sched.idle ∧ (y.sched.queue .run).head.isSome)⟩
    rw [waitqWakeOne, h.fits.waitqPop_nil hk]
    rfl
  | cons t r =>
    obtain ⟨s1, l1, hpop, hfits, hkept, _, hstop⟩ := h.fits.waitqPop_cons hk
    refine ⟨_, ?_, h.wake hs hfits hkept (woken_update hstop)
      (s1.current = s1.idle ∧ (s1.queue .run).head.isSome)⟩
    rw [waitqWakeOne, hpop]
    rfl

theorem Settled.wakeAll (w : Wid) : ∃ s', y.sched.waitqWakeAll w = some s' ∧
      Leads y l place { y with sched := s' } Place.Onward := by
  obtain ⟨s1, l1, place1, hpop, hfits, hkept, hw⟩ :=
    h.fits.waitqPopAll (Nat.lt_succ_of_le (h.fits.rep.queue_length (.waitq w)))
  refine ⟨_, ?_, h.wake hs hfits hkept hw
    (s1.current = s1.idle ∧ (s1.queue .run).head.isSome)⟩
  rw [waitqWakeAll, budget, hpop]
  rfl

end

theorem endTick_eq (s : Sched) : ∃ (c : Prop) (_ : Decidable c) (n : Nat),
      s.endTick = if c then { s with sliceLeft := n }.schedule else { s with sliceLeft := n } := by
  unfold endTick
  by_cases hidle : s.current = s.idle
  · exact ⟨_, inferInstance, s.sliceLeft, if_pos hidle⟩
  · by_cases hpre : s.preemptive = true
    · exact ⟨u32 (s.sliceLeft + 4294967295) = 0, inferInstance, u32 (s.sliceLeft + 4294967295),
        by rw [if_neg hidle, if_pos hpre]⟩
    · exact ⟨False, inferInstance, s.sliceLeft, by rw [if_neg hidle, if_neg hpre, if_neg not_false]⟩

variable (h : Settled y l place)
include h

theorem Settled.tick (hs : y.sched.switching = false) (now : Nat) :
    ∃ s', y.sched.schedTick now = some s' ∧
      Leads y l place { y with sched := s' } Place.Onward := by
  -- the count of idle ticks
  obtain ⟨s0, hs0, hfits0, hkept0⟩ : ∃ s0,
      s0 = (if y.sched.current = y.sched.idle
        then { y.sched with idleTicks := y.sched.idleTicks + 1 } else y.sched) ∧
      Fits s0 l place ∧ Kept y.sched s0 l l := by
    refine ⟨_, rfl, ?_⟩
    split
    · exact ⟨h.fits.congr { h.fits.rep with } rfl rfl, ⟨rfl, rfl, rfl, rfl, rfl, rfl⟩⟩
    · exact ⟨h.fits, .refl⟩
  obtain ⟨s1, l1, place1, hwake, hfits1, hkept1, hw⟩ :=
    hfits0.wakeSleepers now (Nat.lt_succ_of_le hfits0.rep.sleep_length)
  obtain ⟨c, _, n, hend⟩ := endTick_eq s1
  have hfits2 : Fits { s1 with sliceLeft := n } l1 place1 :=
    hfits1.congr { hfits1.rep with } rfl rfl
  have hkept2 : Kept y.sched { s1 with sliceLeft := n } l l1 :=
    (hkept0.trans hkept1).trans ⟨rfl, rfl, rfl, rfl, rfl, rfl⟩
  refine ⟨_, ?_, h.wake hs hfits2 hkept2 hw c⟩
  rw [schedTick, ← hs0]
  simp only [budget] at hwake ⊢
  rw [hwake, ← hend]
  rfl

/-! ## Creation and reclaiming -/

theorem Settled.create (hfree : y.Free) (ht : y.sched.allocated t = false) (name : NamePtr) :
    Settled { sched := y.sched.threadAlloc t name
              creating := update y.creating y.sched.current (some t) }
      { l with all := t :: l.all } (update place t .created) := by
  have hnew : t ∉ l.all := by
    rw [← h.fits.rep.live, ht]
    decide
  have hself : update place t .created t = .created := update_self ..
  have hother : ∀ {a}, a ∈ l.all → a ≠ t ∧ update place t .created a = place a := by
    intro a ha
    have hat : a ≠ t := fun he => hnew (he ▸ ha)
    exact ⟨hat, update_of_ne hat ..⟩
  -- a thread of the old list kept its fields, the new one has fresh ones
  have hfits : Fits (y.sched.threadAlloc t name) { l with all := t :: l.all }
      (update place t .created) := by
    refine ⟨h.fits.rep.threadAlloc hnew name, fun a ha => ?_⟩
    rcases mem_cons.mp ha with rfl | ha
    · rw [hself]
      exact ⟨update_self .., update_self ..,
        fun k => ⟨fun hm => absurd (h.fits.rep.queued hm) hnew, fun hk => (nomatch hk)⟩,
        ⟨fun hm => absurd (h.fits.rep.asleep hm) hnew, fun hz => (nomatch hz)⟩⟩
    · obtain ⟨hat, hp⟩ := hother ha
      rw [hp]
      exact (h.fits.placed a ha).congr (update_of_ne hat ..) (update_of_ne hat ..)
        (fun _ => .rfl) .rfl
  have hback : ∀ {a p}, a ∈ t :: l.all → update place t .created a = p → p ≠ .created →
      a ∈ l.all ∧ place a = p := by
    intro a p ha hp hne
    rcases mem_cons.mp ha with rfl | ha
    · exact absurd (hp.symm.trans hself) hne
    · exact ⟨ha, (hother ha).2.symm.trans hp⟩
  have hold : ∀ {c}, y.creating c ≠ some t := fun hc => hnew (h.creating _ t hc).1
  have hmine : update y.creating y.sched.current (some t) y.sched.current = some t := update_self ..
  have hcreating : ∀ {c a}, update y.creating y.sched.current (some t) c = some a →
      c = y.sched.current ∧ a = t ∨ y.creating c = some a := by
    intro c a hc
    by_cases hcc : c = y.sched.current
    · rw [hcc, hmine] at hc
      exact .inl ⟨hcc, (Option.some.inj hc).symm⟩
    · exact .inr ((update_of_ne hcc ..).symm.trans hc)
  exact {
    fits := hfits
    current_mem := mem_cons_of_mem t h.current_mem
    idle_mem := mem_cons_of_mem t h.idle_mem
    running := fun a ha hp => (hback ha hp (by decide)).elim (h.running a)
    idle := h.idle.imp (hother h.idle_mem).2.trans fun hp =>
      ⟨hp.1, (hother h.idle_mem).2.trans hp.2⟩
    idle_only := fun a ha hp => (hback ha hp (by decide)).elim (h.idle_only a)
    created := fun a ha => by
      rcases mem_cons.mp ha with rfl | ha
      · rw [hself]
        exact ⟨fun _ => ⟨y.sched.current, hmine⟩, fun _ => rfl⟩
      · obtain ⟨hat, hp⟩ := hother ha
        rw [hp, h.created a ha]
        constructor
        · rintro ⟨c, hc⟩
          refine ⟨c, (update_of_ne ?_ ..).trans hc⟩
          rintro rfl
          rw [hfree.2] at hc
          cases hc
        · rintro ⟨c, hc⟩
          exact ⟨c, (hcreating hc).resolve_left fun hca => hat hca.2⟩
    creating := fun c a hc => by
      rcases hcreating hc with ⟨rfl, rfl⟩ | hc
      · refine ⟨mem_cons_self, mem_cons_of_mem _ h.current_mem, ?_⟩
        rw [(hother h.current_mem).2, h.current]
        decide
      · obtain ⟨ha, hcm, hd⟩ := h.creating c a hc
        refine ⟨mem_cons_of_mem t ha, mem_cons_of_mem t hcm, ?_⟩
        rw [(hother hcm).2]
        exact hd
    creating_inj := fun c c' a hc hc' => by
      rcases hcreating hc with ⟨hcc, hat⟩ | hold'
      · rcases hcreating hc' with ⟨hcc', _⟩ | hold''
        · rw [hcc, hcc']
        · exact absurd (hat ▸ hold'') hold
      · rcases hcreating hc' with ⟨_, hat⟩ | hold''
        · exact absurd (hat ▸ hold') hold
        · exact h.creating_inj c c' a hold' hold''
    current := (hother h.current_mem).2.trans h.current
    dead := fun a ha hp => (hback ha hp (by decide)).elim (h.dead a)
    switched := fun hsw => by
      obtain ⟨hm, hne⟩ := h.switched hsw
      exact ⟨mem_cons_of_mem t hm, hne⟩ }

theorem Settled.start (ht : y.creating y.sched.current = some t) :
    ∃ l', Settled { sched := y.sched.runEnqueue t
                    creating := update y.creating y.sched.current none }
        l' (update place t .ready) ∧ l'.all = l.all := by
  obtain ⟨hm, _, _⟩ := h.creating _ _ ht
  have hcreated := (h.created t hm).mpr ⟨_, ht⟩
  have hdepart := h.fits.depart hm
  have hplaced := h.fits.placed t hm
  rw [hcreated] at hdepart hplaced
  have hfits := (Transit.enqueue hdepart .run).arrive (p := .ready) hplaced.state hplaced.waitingOn
    rfl rfl
  have hself : update place t .ready t = .ready := update_self ..
  have hother : ∀ {a}, place a ≠ .created → update place t .ready a = place a := by
    intro a ha
    refine update_of_ne ?_ ..
    rintro rfl
    exact ha hcreated
  have hback : ∀ {a p}, update place t .ready a = p → p ≠ .ready → place a = p := by
    intro a p hp hne
    rwa [update_of_ne] at hp
    rintro rfl
    exact hne (hp.symm.trans hself)
  have hcur : ∀ {c}, c ≠ y.sched.current →
      update y.creating y.sched.current none c = y.creating c :=
    fun hc => update_of_ne hc ..
  have hdrop : ∀ {c a}, update y.creating y.sched.current none c = some a →
      c ≠ y.sched.current ∧ y.creating c = some a := by
    intro c a hc
    have hcc : c ≠ y.sched.current := by
      rintro rfl
      rw [update_self] at hc
      cases hc
    exact ⟨hcc, (hcur hcc).symm.trans hc⟩
  refine ⟨_, { h with
    fits := hfits
    running := fun a ha hp => h.running a ha (hback hp (by decide))
    idle := ?_
    idle_only := fun a ha hp => h.idle_only a ha (hback hp (by decide))
    created := fun a ha => ?_
    creating := fun c a hc => ?_
    creating_inj := fun c c' a hc hc' => h.creating_inj c c' a (hdrop hc).2 (hdrop hc').2
    current := ?_
    dead := fun a ha hp => h.dead a ha (hback hp (by decide))
    switched := h.switched }, rfl⟩
  · refine h.idle.imp (fun hp => ?_) fun hp => ⟨hp.1, ?_⟩
    · exact (hother fun hc => nomatch hp.symm.trans hc).trans hp
    · exact (hother fun hc => nomatch hp.2.symm.trans hc).trans hp.2
  · constructor
    · intro hp
      obtain ⟨c, hc⟩ := (h.created a ha).mp (hback hp (by decide))
      refine ⟨c, (hcur ?_).trans hc⟩
      rintro rfl
      rw [ht] at hc
      cases hc
      rw [hself] at hp
      cases hp
    · rintro ⟨c, hc⟩
      obtain ⟨hcc, hkeep⟩ := hdrop hc
      have hat : a ≠ t := by
        rintro rfl
        exact hcc (h.creating_inj c _ a hkeep ht)
      exact (update_of_ne hat ..).trans ((h.created a ha).mpr ⟨c, hkeep⟩)
  · obtain ⟨ha, hcm, hd⟩ := h.creating c a (hdrop hc).2
    exact ⟨ha, hcm, fun hp => hd (hback hp (by decide))⟩
  · exact (hother fun hc => nomatch h.current.symm.trans hc).trans h.current

theorem Settled.finishSwitch (hs : y.sched.switching = true) :
    ∃ s' l', y.sched.finishSwitch = some s' ∧ Settled { y with sched := s' } l' place ∧
      (∀ a ∈ l.all, place a ≠ .dead → a ∈ l'.all) ∧ (∀ a ∈ l'.all, a ∈ l.all) ∧
      s'.idle = y.sched.idle ∧ s'.name = y.sched.name := by
  obtain ⟨hm, hne⟩ := h.switched hs
  have hplaced := h.fits.placed _ hm
  by_cases hdead : place y.sched.switchedFrom = .dead
  · rw [hdead] at hplaced
    have hloose : l.Loose y.sched.switchedFrom :=
      ⟨fun k hk => (by cases (hplaced.queue k).mp hk), fun hz => (by cases hplaced.sleep.mp hz)⟩
    obtain ⟨nx, pt, hremove, hrep⟩ := h.fits.rep.reclaim hm hloose
    have hold : ∀ {a}, a ∈ l.all.erase y.sched.switchedFrom → a ∈ l.all :=
      fun ha => mem_of_mem_erase ha
    have hstay : ∀ {a}, a ∈ l.all → place a ≠ .dead → a ∈ l.all.erase y.sched.switchedFrom :=
      fun {a} ha hp =>
        (mem_erase_of_ne (fun he : a = _ => hp (he ▸ hdead))).mpr ha
    refine ⟨_, { l with all := l.all.erase y.sched.switchedFrom }, ?_, { h with
      fits := ⟨hrep, fun a ha => (h.fits.placed a (hold ha)).congr rfl rfl (fun _ => .rfl)
        .rfl⟩
      current_mem := (mem_erase_of_ne (.symm hne)).mpr h.current_mem
      idle_mem := ?_
      running := fun a ha => h.running a (hold ha)
      idle_only := fun a ha => h.idle_only a (hold ha)
      created := fun a ha => h.created a (hold ha)
      creating := fun c a hc => ?_
      dead := fun a ha hp => ?_
      switched := by simp }, fun a ha hp => hstay ha hp, fun a ha => hold ha, rfl, rfl⟩
    · rw [Sched.finishSwitch]
      simp only [hplaced.state, Place.state, if_true, hremove]
      rfl
    · refine hstay h.idle_mem fun hp => ?_
      rcases h.idle with hi | hi
      · cases hi.symm.trans hp
      · cases hi.2.symm.trans hp
    · obtain ⟨ha, hcm, hd⟩ := h.creating c a hc
      refine ⟨hstay ha fun hp => ?_, hstay hcm hd, hd⟩
      cases ((h.created a ha).mpr ⟨c, hc⟩).symm.trans hp
    · have hsame := (h.dead a (hold ha) hp).2
      subst hsame
      exact absurd ha h.fits.rep.all.nodup.not_mem_erase
  · refine ⟨{ y.sched with switching := false }, l, ?_, { h with
      fits := h.fits.congr { h.fits.rep with } rfl rfl
      dead := fun a ha hp => ?_
      switched := by simp }, fun _ ha _ => ha, fun _ ha => ha, rfl, rfl⟩
    · have hstate : ¬ y.sched.state y.sched.switchedFrom = .dead := by
        rw [hplaced.state, Place.state_eq_dead]
        exact hdead
      exact if_neg hstate
    · rw [(h.dead a ha hp).2] at hp
      exact absurd hp hdead

/-! ## Every step -/

/-- A step that may be taken ends, and it keeps the invariant. -/
theorem Settled.step {e : Event} (he : y.Enabled e) :
    ∃ y', y.perform e = some y' ∧ Leads y l place y' e.Sends := by
  cases e with
  | create t name =>
    have hnew : ∀ {a}, a ∈ l.all → a ≠ t := by
      rintro a ha rfl
      have hlive := (h.fits.rep.live _).mpr ha
      rw [he.2.2] at hlive
      cases hlive
    refine ⟨_, rfl, _, _, h.create he.2.1 he.2.2 name, fun a ha _ => ?_, ?_,
      fun a ha _ => mem_cons_of_mem t ha, fun a ha => ?_, rfl,
      fun a ha => update_of_ne (hnew ha) ..⟩
    · exact .inl (update_of_ne (hnew ha) ..)
    · exact .inl ((update_of_ne (hnew h.current_mem) ..).trans h.current)
    · rcases mem_cons.mp ha with rfl | ha
      · exact .inr (update_self ..)
      · exact .inl ha
  | start =>
    obtain ⟨t, ht⟩ := Option.isSome_iff_exists.mp he.2
    obtain ⟨l', hsettled, hall⟩ := h.start ht
    refine ⟨_, by rw [System.perform, ht]; rfl, l', _, hsettled, fun a _ _ => ?_,
      .inl hsettled.current, fun a ha _ => hall ▸ ha, fun a ha => .inl (hall ▸ ha), rfl,
      fun _ _ => rfl⟩
    by_cases hat : a = t
    · subst hat
      exact .inr (.inl (update_self ..))
    · exact .inl (update_of_ne hat ..)
  | yield => exact ⟨_, rfl, h.schedule he.1⟩
  | sleepUntil tick =>
    obtain ⟨s', hs', hleads⟩ := h.sleepUntil he.1 he.2.1 tick
    exact ⟨_, by rw [System.perform, hs']; rfl, hleads⟩
  | exit => exact ⟨_, rfl, h.exit he.1 he.2⟩
  | wait w => exact ⟨_, rfl, h.wait he.1 he.2.1 w⟩
  | waitUntil w tick =>
    obtain ⟨s', hs', hleads⟩ := h.waitUntil he.1 he.2.1 w tick
    exact ⟨_, by rw [System.perform, hs']; rfl, hleads⟩
  | wakeOne w =>
    obtain ⟨s', hs', hleads⟩ := h.wakeOne he w
    exact ⟨_, by rw [System.perform, hs']; rfl, hleads⟩
  | wakeAll w =>
    obtain ⟨s', hs', hleads⟩ := h.wakeAll he w
    exact ⟨_, by rw [System.perform, hs']; rfl, hleads⟩
  | tick now =>
    obtain ⟨s', hs', hleads⟩ := h.tick he now
    exact ⟨_, by rw [System.perform, hs']; rfl, hleads⟩
  | enablePreemption =>
    have hkept : Kept y.sched y.sched.schedEnablePreemption l l := ⟨rfl, rfl, rfl, rfl, rfl, rfl⟩
    exact ⟨_, rfl, l, place,
      h.woken (h.fits.congr { h.fits.rep with } rfl rfl) hkept (fun a => .refl _),
      .of_woken h hkept fun a => .refl _⟩
  | finishSwitch =>
    obtain ⟨s', l', hs', hsettled, hkept, hold, hidle, hname⟩ := h.finishSwitch he
    exact ⟨_, by rw [System.perform, hs']; rfl, l', place, hsettled, fun _ _ _ => .inl rfl,
      .inl h.current, hkept, fun a ha => .inl (hold a ha), hidle, fun a _ => congrFun hname a⟩

omit h

end ManiOS.Sched

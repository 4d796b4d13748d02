import ManiOS.Process.Effects
import ManiOS.Sched.Names

/-!
# The names of the threads of processes

The thread of a process is named by a field of the process structure.
`sched_snapshot` reads the names of all threads that were not reclaimed.  So a
structure must not be freed before its thread is.

It can be: a process is a zombie as soon as `process_exit` has marked it.  Its
thread still has to get through `thread_exit`, and the next thread to run takes
it off the list.  A parent that collects the zombie meanwhile frees the name of
a thread on the list (`name_freed`), and an orphan always does, for it frees its
own structure.  `names_stay_valid` is about the runs where a process that has
exited is freed after its thread.

A machine is the processes and the scheduler at once.  A step of a process call
is taken by the thread that runs.
-/

namespace ManiOS.Process

open Function (update update_self update_of_ne)
open Lib

/-! ## The machine -/

/-- Processes and threads. -/
structure Machine where
  procs : State
  sys : Sched.System
  /-- The actor that a thread is. -/
  self : Tid → Actor

/-- The steps of the machine. -/
inductive Machine.Event where
  /-- A step of a process call. -/
  | call (e : Process.Event)
  /-- `thread_create_in` of `process_spawn`, up to the new thread on the list. -/
  | alloc (t : Tid)
  /-- The rest of it. -/
  | start
  /-- A step of the scheduler. -/
  | other (e : Sched.Event)

namespace Machine

/-- The kernel's threads, and no process. -/
def boot (mem : Sched) (main idle : Tid) : Machine where
  procs := .boot
  sys := .boot mem main idle
  self := .kernel

variable (m : Machine)

/-- The actor that runs. -/
def me : Actor := m.self m.sys.sched.current

/-- The process that the running thread is about to start. -/
def Spawns (p : Ptr) : Prop := m.procs.pc m.me = .listed p

/-- What the callers grant of the scheduler's steps: a thread that is not the
thread of a process has a text for a name, and a thread exits at the end of
`process_exit` or, if it is the kernel's, between two calls. -/
def Grants : Sched.Event → Prop
  | .create _ name => (∃ text, name = .text text) ∧ ∀ p, ¬ m.Spawns p
  | .start => ∀ p, ¬ m.Spawns p
  | .exit => m.procs.pc m.me = if m.me.ptr.isSome then .gone else .ready
  | _ => True

def Enabled : Event → Prop
  | .call e => m.sys.sched.switching = false ∧ m.sys.Free ∧ e.actor = m.me ∧
      e ≠ .create m.me true ∧ m.procs.Enabled e
  | .alloc t => (∃ p, m.Spawns p) ∧ m.sys.sched.switching = false ∧ m.sys.Free ∧
      m.sys.sched.allocated t = false
  | .start => (∃ p, m.Spawns p) ∧ m.sys.Enabled .start
  | .other e => m.sys.Enabled e ∧ m.Grants e

/-- Who the threads are after a step of the scheduler. -/
def hire : Sched.Event → Tid → Actor
  | .create t _ => update m.self t (.kernel t)
  | _ => m.self

def perform : Event → Option Machine
  | .call e => (m.procs.perform e).map ({ m with procs := · })
  | .alloc t => match m.procs.pc m.me with
      | .listed p => (m.sys.perform (.create t (.ofProcess p))).map fun sys =>
        { m with sys, self := update m.self t (.user p) }
      | _ => none
  | .start => (m.procs.perform (.create m.me true)).bind fun procs =>
    (m.sys.perform .start).map fun sys => { m with procs, sys }
  | .other e => (m.sys.perform e).map fun sys => { m with sys, self := m.hire e }

def Step (e : Event) (m m' : Machine) : Prop := m.Enabled e ∧ m.perform e = some m'

/-! ## Freeing a process after its thread -/

/-- A thread of process `p` is on the list of all threads. -/
def Lingers (p : Ptr) : Prop := ∃ t ∈ m.sys.sched.threads, m.self t = .user p

/-- `process_wait`, `process_reap` and `process_exit` do not free a process whose
thread is on the list of all threads. -/
def Late : Event → Prop
  | .call (.go a) => match m.procs.pc a with
      | .collected p => ¬ m.Lingers p
      | .exiting _ => ∀ n p, a = .user n → m.procs.Loses n p → ¬ m.Lingers p
      | _ => True
  | _ => True

/-- A step that frees a process after its thread. -/
def LateStep (e : Event) (m m' : Machine) : Prop := m.Late e ∧ m.Step e m'

/-- A name that can be read. -/
def Valid : NamePtr → Prop
  | .text _ => True
  | .ofProcess p => ∃ q, m.procs.mem p = some q

/-! ## The invariant -/

/-- Which threads there are for which processes, and which structures are there. -/
structure Inv (m : Machine) (l : Sched.Lists) (place : Tid → Sched.Place) : Prop where
  settled : Sched.Settled m.sys l place
  kernel : ∀ t ∈ l.all, ∀ k, m.self t = .kernel k → k = t
  alone : ∀ t ∈ l.all, ∀ t' ∈ l.all, ∀ p, m.self t = .user p → m.self t' = .user p → t = t'
  born : ∀ t ∈ l.all, ∀ p, m.self t = .user p → p < m.procs.count
  named : ∀ t ∈ l.all, ∀ p, m.sys.sched.name t = .ofProcess p →
    m.self t = .user p ∧ ∃ q, m.procs.mem p = some q
  alloc : ∀ p q, m.procs.mem p = some q → p < m.procs.count ∧ q.parent ≠ some p
  new : ∀ a p, (m.procs.pc a).new = some p →
    m.procs.spawner p = a ∧ ∃ q, m.procs.mem p = some q ∧ q.exited = false
  unstarted : ∀ a p, (m.procs.pc a).new = some p → ∀ t ∈ l.all, m.self t = .user p →
    m.procs.pc a = .listed p ∧ ∃ c ∈ l.all, m.self c = a ∧ m.sys.creating c = some t
  collected : ∀ a p, m.procs.pc a = .collected p →
    p < m.procs.count ∧ ∀ q, m.procs.mem p = some q → q.exited = true

variable {m m' : Machine} {l : Sched.Lists} {place : Tid → Sched.Place} {p : Ptr} {t : Tid}
  {a : Actor} {e : Process.Event}

theorem inv_boot (mem : Sched) {main idle : Tid} (hne : main ≠ idle) :
    Inv (boot mem main idle) (Sched.bootLists main idle) (Sched.bootPlace main) where
  settled := Sched.settled_boot mem hne
  kernel t _ k hk := (Actor.kernel.inj hk).symm
  alone t _ t' _ p hp := nomatch hp
  born t _ p hp := nomatch hp
  named t ht p hp := by
    change update (update mem.name main (.text "main")) idle (.text "idle") t = .ofProcess p at hp
    rcases List.mem_pair.mp ht with rfl | rfl
    · rw [update_self] at hp
      cases hp
    · rw [update_of_ne hne, update_self] at hp
      cases hp
  alloc p q hq := nomatch hq
  new a p hp := by
    cases a <;> cases hp
  unstarted a p hp := by
    cases a <;> cases hp
  collected a p hp := by
    cases a <;> cases hp

variable (h : Inv m l place)
include h

theorem Inv.self_inj {t' : Tid} (ht : t ∈ l.all) (ht' : t' ∈ l.all)
    (he : m.self t = m.self t') : t = t' := by
  cases hs : m.self t with
  | kernel k => rw [← h.kernel t ht k hs, ← h.kernel t' ht' k (he ▸ hs)]
  | user p => exact h.alone t ht t' ht' p hs (he ▸ hs)

theorem Inv.lingers_iff : m.Lingers p ↔ ∃ t ∈ l.all, m.self t = .user p := by
  rw [Lingers, h.settled.fits.rep.threads_eq]

theorem Inv.new_alone (hfree : m.sys.Free) (hp : (m.procs.pc m.me).new = some p)
    (ht : t ∈ l.all) : m.self t ≠ .user p := by
  intro hs
  obtain ⟨-, c, hc, hme, hct⟩ := h.unstarted m.me p hp t ht hs
  rw [h.self_inj hc h.settled.current_mem hme, hfree.2] at hct
  cases hct

theorem Inv.me_started (hp : (m.procs.pc a).new = some p) : m.me ≠ .user p := by
  intro hs
  obtain ⟨-, c, -, -, hct⟩ := h.unstarted a p hp _ h.settled.current_mem hs
  have hcreated := (h.settled.created _ h.settled.current_mem).mpr ⟨c, hct⟩
  rw [h.settled.current] at hcreated
  cases hcreated

/-! ## Steps of process calls -/

theorem Inv.drops_alone (hfree : m.sys.Free) (hme : e.actor = m.me)
    (hlate : m.Late (.call e)) (hd : m.procs.Drops p e) (ht : t ∈ l.all) : m.self t ≠ .user p := by
  intro hs
  have hlingers := h.lingers_iff.mpr ⟨t, ht, hs⟩
  rcases hd.cases with hp | ⟨a, rfl, hpc⟩ | ⟨n, status, rfl, hpc, hloses⟩
  · rw [hme] at hp
    exact h.new_alone hfree hp ht hs
  · rw [Late, hpc] at hlate
    exact hlate hlingers
  · rw [Late, hpc] at hlate
    exact hlate n p rfl hloses hlingers

theorem Inv.drops_new (hme : e.actor = m.me)
    (hd : m.procs.Drops p e) (ha : a ≠ m.me) : (m.procs.pc a).new ≠ some p := by
  intro hp
  obtain ⟨hspawner, q, hq, hex⟩ := h.new a p hp
  rcases hd.cases with hp' | ⟨b, rfl, hpc⟩ | ⟨n, status, rfl, hpc, r, hr, ⟨-, he⟩ | ⟨hn, -⟩⟩
  · rw [hme] at hp'
    exact ha (hspawner.symm.trans (h.new m.me p hp').1)
  · rw [(h.collected b p hpc).2 q hq] at hex
    cases hex
  · rw [hq] at hr
    cases hr
    rw [he] at hex
    cases hex
  · subst hn
    exact h.me_started hp hme.symm

theorem Inv.ends_new (hme : e.actor = m.me)
    (hd : m.procs.Ends p e) : (m.procs.pc a).new ≠ some p := by
  intro hp
  cases e with
  | go b => exact h.me_started hp (hme.symm.trans hd.1)
  | _ => exact hd

theorem Inv.call {s' : State} {drops ends : Ptr → Prop} (hfree : m.sys.Free)
    (heff : Effect m.me drops ends m.procs s')
    (halone : ∀ p, drops p → ∀ t ∈ l.all, m.self t ≠ .user p)
    (hnew : ∀ a p, a ≠ m.me → (m.procs.pc a).new = some p → ¬ drops p ∧ ¬ ends p) :
    Inv { m with procs := s' } l place := { h with
  born t ht p hp := heff.count ▸ h.born t ht p hp
  named t ht p hp := by
    obtain ⟨hs, q, hq⟩ := h.named t ht p hp
    obtain ⟨q', hq', -⟩ := heff.kept p q hq fun hd => halone p hd t ht hs
    exact ⟨hs, q', hq'⟩
  alloc p q' hq' := by
    obtain ⟨q, hq, -, hparent⟩ := heff.old p q' hq'
    obtain ⟨hlt, hself⟩ := h.alloc p q hq
    refine ⟨heff.count ▸ hlt, ?_⟩
    rcases hparent with hparent | hparent <;> rw [hparent]
    · exact hself
    · nofun
  new a p hp := by
    have hold : (m.procs.pc a).new = some p ∧ ¬ drops p ∧ ¬ ends p := by
      by_cases ha : a = m.me
      · subst ha
        exact heff.new p hp
      · rw [heff.pc a ha] at hp
        exact ⟨hp, hnew a p ha hp⟩
    obtain ⟨hspawner, q, hq, hex⟩ := h.new a p hold.1
    obtain ⟨q', hq', he⟩ := heff.kept p q hq hold.2.1
    exact ⟨heff.spawner ▸ hspawner, q', hq', (he hold.2.2).trans hex⟩
  unstarted a p hp t ht hs := by
    by_cases ha : a = m.me
    · subst ha
      exact absurd hs (h.new_alone hfree (heff.new p hp).1 ht)
    · rw [heff.pc a ha] at hp
      obtain ⟨hpc, hc⟩ := h.unstarted a p hp t ht hs
      exact ⟨(heff.pc a ha).trans hpc, hc⟩
  collected a p hp := by
    by_cases ha : a = m.me
    · subst ha
      obtain ⟨q', hq', he⟩ := heff.collected p hp
      obtain ⟨q, hq, -⟩ := heff.old p q' hq'
      refine ⟨heff.count ▸ (h.alloc p q hq).1, fun r hr => ?_⟩
      rw [hq'] at hr
      cases hr
      exact he
    · obtain ⟨hlt, hex⟩ := h.collected a p ((heff.pc a ha).symm.trans hp)
      refine ⟨heff.count ▸ hlt, fun q' hq' => ?_⟩
      obtain ⟨q, hq, he, -⟩ := heff.old p q' hq'
      exact he (hex q hq) }

theorem Inv.spawn : Inv { m with procs := m.procs.spawn m.me } l place := by
  have hme : m.me.ptr ≠ some m.procs.count := fun hp =>
    lt_irrefl _ (h.born _ h.settled.current_mem _ (Actor.ptr_eq_some.mp hp))
  have hmem : ∀ p, p ≠ m.procs.count → (m.procs.spawn m.me).mem p = m.procs.mem p :=
    fun p hp => update_of_ne hp ..
  have hself : (m.procs.spawn m.me).mem m.procs.count =
      some ⟨0, m.me.ptr, false, false, false, 0⟩ := update_self ..
  have hpc : ∀ a, a ≠ m.me → (m.procs.spawn m.me).pc a = m.procs.pc a :=
    fun a ha => update_of_ne ha ..
  have hme' : (m.procs.spawn m.me).pc m.me = .spawning m.procs.count := update_self ..
  have hold : ∀ {p q}, m.procs.mem p = some q → p ≠ m.procs.count := fun hq =>
    ne_of_lt (h.alloc _ _ hq).1
  exact { h with
    born := fun t ht p hp => Nat.lt_succ_of_lt (h.born t ht p hp)
    named := fun t ht p hp => by
      obtain ⟨hs, q, hq⟩ := h.named t ht p hp
      exact ⟨hs, q, (hmem p (hold hq)).trans hq⟩
    alloc := fun p q hq => by
      by_cases hp : p = m.procs.count
      · subst hp
        rw [hself] at hq
        cases hq
        exact ⟨Nat.lt_succ_self _, hme⟩
      · rw [hmem p hp] at hq
        exact ⟨Nat.lt_succ_of_lt (h.alloc p q hq).1, (h.alloc p q hq).2⟩
    new := fun a p hp => by
      by_cases ha : a = m.me
      · subst ha
        rw [hme'] at hp
        cases hp
        exact ⟨update_self .., _, hself, rfl⟩
      · rw [hpc a ha] at hp
        obtain ⟨hspawner, q, hq, hex⟩ := h.new a p hp
        exact ⟨(update_of_ne (hold hq) ..).trans hspawner, q, (hmem p (hold hq)).trans hq, hex⟩
    unstarted := fun a p hp t ht hs => by
      by_cases ha : a = m.me
      · subst ha
        rw [hme'] at hp
        cases hp
        exact absurd (h.born t ht _ hs) (lt_irrefl _)
      · rw [hpc a ha] at hp
        obtain ⟨hlisted, hc⟩ := h.unstarted a p hp t ht hs
        exact ⟨(hpc a ha).trans hlisted, hc⟩
    collected := fun a p hp => by
      by_cases ha : a = m.me
      · subst ha
        rw [hme'] at hp
        cases hp
      · rw [hpc a ha] at hp
        obtain ⟨hlt, hex⟩ := h.collected a p hp
        exact ⟨Nat.lt_succ_of_lt hlt, fun q hq =>
          hex q ((hmem p (ne_of_lt hlt)).symm.trans hq)⟩ }

/-! ## Steps of the scheduler -/

/-- The running thread creates a thread that is actor `b`. -/
theorem Inv.hire {b : Actor} {name : NamePtr} (hfree : m.sys.Free)
    (ht : m.sys.sched.allocated t = false) (hb : ∀ c ∈ l.all, m.self c ≠ b)
    (hkernel : ∀ k, b = .kernel k → k = t)
    (hname : ∀ p, name = .ofProcess p → b = .user p ∧ ∃ q, m.procs.mem p = some q)
    (huser : ∀ p, b = .user p → m.Spawns p) : Inv { m with
        sys := { sched := m.sys.sched.threadAlloc t name
                 creating := update m.sys.creating m.sys.sched.current (some t) }
        self := update m.self t b }
      { l with all := t :: l.all } (update place t .created) := by
  have hnew : t ∉ l.all := by
    rw [← h.settled.fits.rep.live, ht]
    decide
  have hself : update m.self t b t = b := update_self ..
  have hother : ∀ c ∈ l.all, update m.self t b c = m.self c := fun c hc =>
    update_of_ne (fun he : c = t => hnew (he ▸ hc)) ..
  have hspawned : ∀ a p, (m.procs.pc a).new = some p → b = .user p → a = m.me ∧ m.Spawns p := by
    intro a p hp hbp
    have hs := huser p hbp
    exact ⟨(h.new a p hp).1.symm.trans (h.new m.me p (congrArg Pc.new hs)).1, hs⟩
  exact { h with
    settled := h.settled.create hfree ht name
    kernel := fun c hc k hk => by
      rcases List.mem_cons.mp hc with rfl | hc
      · exact hkernel k (hself.symm.trans hk)
      · exact h.kernel c hc k ((hother c hc).symm.trans hk)
    alone := fun c hc c' hc' p hp hp' => by
      change update m.self t b c = .user p at hp
      change update m.self t b c' = .user p at hp'
      rcases List.mem_cons.mp hc with rfl | hm <;> rcases List.mem_cons.mp hc' with rfl | hm'
      · rfl
      · rw [hother c' hm', ← hp, hself] at hp'
        exact absurd hp' (hb c' hm')
      · rw [hother c hm, ← hp', hself] at hp
        exact absurd hp (hb c hm)
      · exact h.alone c hm c' hm' p ((hother c hm).symm.trans hp) ((hother c' hm').symm.trans hp')
    born := fun c hc p hp => by
      rcases List.mem_cons.mp hc with rfl | hc
      · obtain ⟨-, q, hq, -⟩ := h.new m.me p (congrArg Pc.new (huser p (hself.symm.trans hp)))
        exact (h.alloc p q hq).1
      · exact h.born c hc p ((hother c hc).symm.trans hp)
    named := fun c hc p hp => by
      change update m.sys.sched.name t name c = .ofProcess p at hp
      show update m.self t b c = .user p ∧ _
      rcases List.mem_cons.mp hc with rfl | hc
      · rw [update_self] at hp
        rw [hself]
        exact hname p hp
      · rw [update_of_ne fun he : c = t => hnew (he ▸ hc)] at hp
        rw [hother c hc]
        exact h.named c hc p hp
    unstarted := fun a p hp c hc hs => by
      rcases List.mem_cons.mp hc with rfl | hc
      · obtain ⟨ha, hlisted⟩ := hspawned a p hp (hself.symm.trans hs)
        subst ha
        exact ⟨hlisted, m.sys.sched.current, List.mem_cons_of_mem _ h.settled.current_mem,
          hother _ h.settled.current_mem, update_self ..⟩
      · obtain ⟨hlisted, d, hd, hda, hcreating⟩ :=
          h.unstarted a p hp c hc ((hother c hc).symm.trans hs)
        refine ⟨hlisted, d, List.mem_cons_of_mem _ hd, (hother d hd).trans hda, ?_⟩
        refine (update_of_ne (fun he => ?_) ..).trans hcreating
        rw [he, hfree.2] at hcreating
        cases hcreating
    collected := h.collected }

theorem Inv.start (ht : m.sys.creating m.sys.sched.current = some t) : ∃ l', Inv { m with
        procs := .goto m.me (.created p) (m.procs.goto (.user p) .ready)
        sys := { sched := m.sys.sched.runEnqueue t
                 creating := update m.sys.creating m.sys.sched.current none } }
      l' (update place t .ready) := by
  obtain ⟨l', hsettled, hall⟩ := h.settled.start ht
  -- the other actors are where they were
  have hpc : ∀ a pc, (State.goto m.me (.created p) (m.procs.goto (.user p) .ready)).pc a = pc →
      (pc = .created p ∨ pc = .ready) ∨ a ≠ m.me ∧ m.procs.pc a = pc := by
    rintro a pc rfl
    by_cases ha : a = m.me
    · subst ha
      exact .inl (.inl (State.goto_pc_self ..))
    · rw [State.goto_pc_of_ne ha]
      by_cases hp : a = .user p
      · subst hp
        exact .inl (.inr (State.goto_pc_self ..))
      · exact .inr ⟨ha, (State.goto_pc_of_ne hp).symm⟩
  have hnew : ∀ a x, ((State.goto m.me (.created p) (m.procs.goto (.user p) .ready)).pc a).new =
      some x → a ≠ m.me ∧ (m.procs.pc a).new = some x ∧
        (State.goto m.me (.created p) (m.procs.goto (.user p) .ready)).pc a = m.procs.pc a := by
    intro a x hx
    rcases hpc a _ rfl with (he | he) | ⟨ha, he⟩
    · rw [he] at hx
      cases hx
    · rw [he] at hx
      cases hx
    · exact ⟨ha, he ▸ hx, he.symm⟩
  exact ⟨l', { h with
    settled := hsettled
    kernel := hall ▸ h.kernel
    alone := hall ▸ h.alone
    born := hall ▸ h.born
    named := hall ▸ h.named
    new := fun a x hx => h.new a x (hnew a x hx).2.1
    unstarted := fun a x hx c hc hs => by
      obtain ⟨ha, hx, hsame⟩ := hnew a x hx
      rw [hall] at hc ⊢
      obtain ⟨hlisted, d, hd, hda, hcreating⟩ := h.unstarted a x hx c hc hs
      refine ⟨hsame.trans hlisted, d, hd, hda, (update_of_ne ?_ ..).trans hcreating⟩
      rintro rfl
      exact ha hda.symm
    collected := fun a x hx => by
      rcases hpc a _ hx with (he | he) | ⟨-, he⟩
      · cases he
      · cases he
      · exact h.collected a x he }⟩

/-- A step of the scheduler that creates no thread and starts no process. -/
theorem Inv.other {e : Sched.Event} {y' : Sched.System} (he : m.sys.Enabled e)
    (hc : e.creates = false) (hstart : e = .start → ∀ p, ¬ m.Spawns p)
    (hy' : m.sys.perform e = some y') : ∃ l' place', Inv { m with sys := y' } l' place' := by
  obtain ⟨y1, l', place', hy1, hsettled, hold⟩ := h.settled.step_names he hc
  have hsub : ∀ t ∈ l'.all, t ∈ l.all := fun t ht => (hold t ht).1
  cases Option.some.inj (hy1.symm.trans hy')
  refine ⟨l', place', { h with
    settled := hsettled
    kernel := fun t ht => h.kernel t (hsub t ht)
    alone := fun t ht t' ht' => h.alone t (hsub t ht) t' (hsub t' ht')
    born := fun t ht => h.born t (hsub t ht)
    named := fun t ht p hp => h.named t (hsub t ht) p ((hold t ht).2 ▸ hp)
    unstarted := fun a p hp t ht hs => ?_
    collected := h.collected }⟩
  obtain ⟨hlisted, c, hc', hca, hcreating⟩ := h.unstarted a p hp t (hsub t ht) hs
  have hkept : y'.creating c = some t := by
    rcases Sched.System.perform_creating hy' hc with hsame | ⟨rfl, hsame⟩
    · rw [hsame]
      exact hcreating
    · rw [hsame, update_of_ne]
      · exact hcreating
      · rintro rfl
        refine hstart rfl p ?_
        rw [Spawns, me, hca]
        exact hlisted
  exact ⟨hlisted, c, (hsettled.creating c t hkept).2.1, hca, hkept⟩

/-- Every step that frees a process after its thread keeps the invariant. -/
theorem Inv.step {e : Event} (hlate : m.Late e) (hs : m.Step e m') :
    ∃ l' place', Inv m' l' place' := by
  obtain ⟨he, hrun⟩ := hs
  cases e with
  | call e =>
    obtain ⟨-, hfree, hme, hstart, hen⟩ := he
    obtain ⟨s', hs', hm'⟩ := Option.map_eq_some_iff.mp hrun
    cases hm'
    by_cases hspawn : e = .spawn m.me
    · subst hspawn
      cases hs'
      exact ⟨l, place, h.spawn⟩
    · have heff := Effect.step (fun p q hq => (h.alloc p q hq).2)
        (fun a ha => hspawn (by rw [← hme, ha]; rfl))
        (fun a ha => hstart (by rw [← hme, ha]; rfl)) hs'
      rw [hme] at heff
      exact ⟨l, place, h.call hfree heff (fun p hd t ht => h.drops_alone hfree hme hlate hd ht)
        fun a p ha hp => ⟨fun hd => h.drops_new hme hd ha hp, fun hd => h.ends_new hme hd hp⟩⟩
  | alloc t =>
    obtain ⟨⟨p, hp⟩, -, hfree, ht⟩ := he
    rw [perform, show m.procs.pc m.me = .listed p from hp] at hrun
    cases hrun
    have hnew : (m.procs.pc m.me).new = some p := congrArg Pc.new hp
    refine ⟨_, _, h.hire hfree ht (fun c hc => h.new_alone hfree hnew hc) (by simp) (fun x hx => ?_)
      fun x hx => ?_⟩
    · cases hx
      obtain ⟨-, q, hq, -⟩ := h.new m.me p hnew
      exact ⟨rfl, q, hq⟩
    · cases hx
      exact hp
  | start =>
    obtain ⟨⟨p, hp⟩, -, hcreating⟩ := he
    obtain ⟨t, ht⟩ := Option.isSome_iff_exists.mp hcreating
    obtain ⟨l', hinv⟩ := h.start (p := p) ht
    have hcreate : m.procs.perform (.create m.me true) =
        some (.goto m.me (.created p) (m.procs.goto (.user p) .ready)) := by
      rw [State.perform, show m.procs.pc m.me = .listed p from hp]
      rfl
    rw [perform, hcreate, Sched.System.perform, ht] at hrun
    cases hrun
    exact ⟨l', _, hinv⟩
  | other e =>
    obtain ⟨hen, hgrants⟩ := he
    obtain ⟨y', hy', hm'⟩ := Option.map_eq_some_iff.mp hrun
    cases hm'
    cases e with
    | create t name =>
      obtain ⟨⟨text, rfl⟩, -⟩ := hgrants
      cases hy'
      refine ⟨_, _, h.hire hen.2.1 hen.2.2 (fun c hc hk => ?_) (fun k hk => ?_) (by simp) (by simp)⟩
      · have hlive := (h.settled.fits.rep.live c).mpr hc
        rw [← h.kernel c hc t hk, hen.2.2] at hlive
        cases hlive
      · exact (Actor.kernel.inj hk).symm
    | start => exact h.other hen rfl (fun _ => hgrants) hy'
    | _ => exact h.other hen rfl (by simp) hy'

omit h

/-! ## A process that has exited -/

theorem late_step {m0 : Machine} (h : Reached LateStep m0 m) (e : Event) (hl : m.Late e)
    (he : m.Enabled e) (hs : m.perform e = some m') : Reached LateStep m0 m' :=
  .step e h ⟨hl, he, hs⟩

/-- The main thread spawns a process with thread 2 and lets it run, and it exits. -/
def exits : List Event :=
  [.other .enablePreemption, .call (.spawn (.kernel 0)), .call (.load (.kernel 0) none), .alloc 2,
    .start, .call (.go (.kernel 0)), .other .yield, .other .finishSwitch, .call (.exit 0 7),
    .call (.go (.user 0))]

/-- The process is a zombie and its thread has not got through `thread_exit`. -/
def zombie : Machine :=
  (follow (fun e m => perform m e) exits (boot Sched.zeroed 0 1)).getD (boot Sched.zeroed 0 1)

theorem zombie_reached : Reached LateStep (boot Sched.zeroed 0 1) zombie := by
  have h0 : Reached LateStep (boot .zeroed 0 1) _ :=
    late_step .start (.other .enablePreemption) trivial ⟨⟨rfl, by decide, rfl⟩, trivial⟩ rfl
  have h1 := late_step h0 (.call (.spawn (.kernel 0))) trivial
    ⟨rfl, ⟨by decide, rfl⟩, rfl, nofun, rfl⟩ rfl
  have h2 := late_step h1 (.call (.load (.kernel 0) none)) trivial
    ⟨rfl, ⟨by decide, rfl⟩, rfl, nofun, 0, rfl⟩ rfl
  have h3 := late_step h2 (.alloc 2) trivial ⟨⟨0, rfl⟩, rfl, ⟨by decide, rfl⟩, rfl⟩ rfl
  have h4 := late_step h3 .start trivial ⟨⟨0, rfl⟩, rfl, rfl⟩ rfl
  have h5 := late_step h4 (.call (.go (.kernel 0))) trivial
    ⟨rfl, ⟨by decide, rfl⟩, rfl, nofun, trivial⟩ rfl
  have h6 := late_step h5 (.other .yield) trivial ⟨⟨rfl, by decide, rfl⟩, trivial⟩ rfl
  have h7 := late_step h6 (.other .finishSwitch) trivial ⟨rfl, trivial⟩ rfl
  have h8 := late_step h7 (.call (.exit 0 7)) trivial ⟨rfl, ⟨by decide, rfl⟩, rfl, nofun, rfl⟩ rfl
  refine late_step h8 (.call (.go (.user 0))) ?_ ⟨rfl, ⟨by decide, rfl⟩, rfl, nofun, rfl⟩ rfl
  -- it has no children and is no orphan, so nothing is freed
  rintro n p hn ⟨q, hq, hlost⟩
  cases hn
  by_cases hp : p = 0
  · subst hp
    cases hq
    rcases hlost with ⟨hparent, -⟩ | ⟨-, ho⟩
    · cases hparent
    · cases ho
  · change update (update (fun _ => none) 0 _) 0 _ p = some q at hq
    rw [update_of_ne hp, update_of_ne hp] at hq
    cases hq

/-- In every run where a process that has exited is freed after its thread, the
name of every thread on the list of all threads, and so each name that
`sched_snapshot` returns, can be read. -/
theorem names_stay_valid (mem : Sched) {main idle : Tid} (hne : main ≠ idle)
    (hr : Reached LateStep (boot mem main idle) m) :
    (∀ t ∈ m.sys.sched.threads, m.Valid (m.sys.sched.name t)) ∧
      ∀ max, ∀ i ∈ m.sys.sched.schedSnapshot max, m.Valid i.name := by
  obtain ⟨l, place, h⟩ : ∃ l place, Inv m l place :=
    hr.invariant (P := fun m => ∃ l place, Inv m l place) ⟨_, _, inv_boot mem hne⟩
      fun e m m' ⟨l, place, h⟩ hs => h.step hs.1 hs.2
  have hall : ∀ t ∈ l.all, m.Valid (m.sys.sched.name t) := by
    intro t ht
    cases hname : m.sys.sched.name t with
    | text s => trivial
    | ofProcess p => exact (h.named t ht p hname).2
  refine ⟨fun t ht => hall t (h.settled.fits.rep.threads_eq ▸ ht), fun max i hi => ?_⟩
  obtain ⟨t, ht, hname⟩ := h.settled.fits.rep.schedSnapshot_mem hi
  exact hname ▸ hall t ht

/-- A zombie whose thread is on the list. -/
theorem names_stay_valid_zombie :
    Reached LateStep (boot Sched.zeroed 0 1) zombie ∧ 2 ∈ zombie.sys.sched.threads ∧
      zombie.sys.sched.name 2 = .ofProcess 0 ∧
      ∃ q, zombie.procs.mem 0 = some q ∧ q.exited = true := by
  have hmem : 2 ∈ zombie.sys.sched.threads := List.mem_cons_self ..
  obtain ⟨q, hq⟩ := (names_stay_valid .zeroed (by decide) zombie_reached).1 2 hmem
  exact ⟨zombie_reached, hmem, rfl, q, hq, by cases hq; rfl⟩

theorem plain_step {m0 : Machine} (h : Reached Step m0 m) (e : Event)
    (he : m.Enabled e) (hs : m.perform e = some m') : Reached Step m0 m' :=
  .step e h ⟨he, hs⟩

/-- The zombie is preempted in `thread_exit`.  Its parent waits for it and frees it, and
then `sched_snapshot` returns the name of its thread, which is still on the list. -/
theorem name_freed : ∃ m, Reached Step (boot Sched.zeroed 0 1) m ∧ 2 ∈ m.sys.sched.threads ∧
      m.sys.sched.name 2 = .ofProcess 0 ∧ m.procs.mem 0 = none ∧
      ∃ i ∈ m.sys.sched.schedSnapshot 32, i.name = .ofProcess 0 := by
  have h0 : Reached Step (boot .zeroed 0 1) zombie :=
    zombie_reached.invariant .start fun e _ _ h hs => .step e h hs.2
  have h1 := plain_step h0 (.other (.tick 0)) ⟨rfl, trivial⟩ rfl
  have h2 := plain_step h1 (.other (.tick 0)) ⟨rfl, trivial⟩ rfl
  have h3 := plain_step h2 (.other .finishSwitch) ⟨rfl, trivial⟩ rfl
  have h4 := plain_step h3 (.call (.wait (.kernel 0) 1))
    ⟨rfl, ⟨by decide, rfl⟩, rfl, nofun, rfl,
      fun _ => ⟨0, List.mem_cons_self .., _, rfl, rfl, rfl⟩⟩ rfl
  have h5 := plain_step h4 (.call (.go (.kernel 0)))
    ⟨rfl, ⟨by decide, rfl⟩, rfl, nofun, trivial⟩ rfl
  exact ⟨_, h5, List.mem_cons_self .., rfl, rfl, _, List.mem_cons_self .., rfl⟩

end Machine

end ManiOS.Process

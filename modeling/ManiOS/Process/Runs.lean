import ManiOS.Process.Life

/-!
# Runs of processes

In a run, no step meets memory that is not allocated, every structure is freed
once, after it has left the list, and the status of a child reaches its parent
once (`process_life_cycle`).

A process is known to its callers by a number, which `process_spawn` takes from
a counter of 32 bits.  After 2³² of them the counter meets numbers that are in
use.  A parent with two children of one number waits for the newer, though the
older has exited (`waits_for_the_other`).  So the theorem is about runs where no spawn
hands out a number under which its parent still has a child to wait for.
-/

namespace ManiOS.Process

open Lib List Option
open Function (update update_self update_of_ne)

/-! ## Numbers -/

namespace State

/-- A spawn does not list a process under the number of another child of the same
parent, one that can still be waited for. -/
def FreshPid (s : State) : Event → Prop
  | .load a none => ∀ p ∈ s.processes, ∀ q, s.mem p = some q →
      awaited a.ptr (toLong s.nextPid) q = false
  | _ => True

end State

def FreshStep (e : Event) (s s' : State) : Prop := s.FreshPid e ∧ s.Step e s'

/-- `process_wait` never has two processes to choose from. -/
def Distinct (s : State) : Prop :=
  ∀ parent pid p p' q q', p ∈ s.processes → p' ∈ s.processes → s.mem p = some q →
    s.mem p' = some q' → State.awaited parent pid q = true → State.awaited parent pid q' = true →
    p = p'

/-- Nothing joins the list and no number changes. -/
structure Shrunk (s s' : State) : Prop where
  listed : ∀ p ∈ s'.processes, p ∈ s.processes
  awaited : ∀ p q', s'.mem p = some q' → ∃ q, s.mem p = some q ∧
    ∀ parent pid, State.awaited parent pid q' = true → State.awaited parent pid q = true

theorem Shrunk.refl (s : State) : Shrunk s s := ⟨fun _ h => h, fun _ q h => ⟨q, h, fun _ _ h => h⟩⟩

theorem Shrunk.trans {s s1 s' : State} (h : Shrunk s s1) (h' : Shrunk s1 s') : Shrunk s s' := by
  refine ⟨fun p hp => h.listed p (h'.listed p hp), fun p q' hq' => ?_⟩
  obtain ⟨q1, hq1, ha1⟩ := h'.awaited p q' hq'
  obtain ⟨q, hq, ha⟩ := h.awaited p q1 hq1
  exact ⟨q, hq, fun parent pid hw => ha parent pid (ha1 parent pid hw)⟩

variable {s s' : State}

theorem Distinct.shrunk (h : Distinct s) (hs : Shrunk s s') : Distinct s' := by
  intro parent pid p p' q q' hp hp' hq hq' hw hw'
  obtain ⟨r, hr, ha⟩ := hs.awaited p q hq
  obtain ⟨r', hr', ha'⟩ := hs.awaited p' q' hq'
  exact h parent pid p p' r r' (hs.listed p hp) (hs.listed p' hp') hr hr' (ha parent pid hw)
    (ha' parent pid hw')

theorem Shrunk.set {p : Ptr} {q : Proc} (hq : s.mem p = some q) (q' : Proc)
    (ha : ∀ parent pid, State.awaited parent pid q' = true → State.awaited parent pid q = true)
    (hl : s'.processes = s.processes) (hm : s'.mem = update s.mem p (some q')) : Shrunk s s' := by
  refine ⟨fun _ h => hl ▸ h, fun x r hr => ?_⟩
  rw [hm] at hr
  by_cases hx : x = p
  · subst hx
    rw [update_self] at hr
    cases hr
    exact ⟨q, hq, ha⟩
  · rw [update_of_ne hx] at hr
    exact ⟨r, hr, fun _ _ h => h⟩

theorem Shrunk.shut {p : Ptr} {q : Proc} (hq : s.mem p = some q) (q' : Proc)
    (hno : q'.orphaned = true ∨ q'.waitedOn = true) : Shrunk s (s.set p q') := by
  refine .set hq q' (fun parent pid h => ?_) rfl rfl
  rcases hno with hno | hno <;> simp [State.awaited, hno] at h

theorem Shrunk.of_subset (hl : s'.processes ⊆ s.processes)
    (hm : ∀ p, s'.mem p = s.mem p ∨ s'.mem p = none) : Shrunk s s' := by
  refine ⟨fun p hp => hl hp, fun p q hq => ?_⟩
  rcases hm p with h | h
  · exact ⟨q, h ▸ hq, fun _ _ h => h⟩
  · rw [h] at hq
    cases hq

theorem update_none (mem : Ptr → Option Proc) (p x : Ptr) :
    update mem p none x = mem x ∨ update mem p none x = none := by
  by_cases hx : x = p
  · exact .inr (hx ▸ update_self ..)
  · exact .inl (update_of_ne hx ..)

/-! ## The invariant -/

/-- What holds between two steps. -/
structure Inv (s : State) (σ : Ptr → Stage) : Prop where
  rep : Rep s σ
  kin : Kin s σ
  distinct : Distinct s

theorem Inv.life {σ : Ptr → Stage} (h : Inv s σ) : Life s σ := ⟨h.rep, h.kin⟩

theorem Life.inv {σ : Ptr → Stage} (h : Life s σ) (hd : Distinct s) : Inv s σ := ⟨h.rep, h.kin, hd⟩

theorem inv_boot : Inv .boot (fun _ => .unborn) where
  rep := by
    constructor <;> simp [State.boot, Stage.allocated, Stage.onList, Pc.alive]
    · intro a
      cases a <;> simp
    · intro a
      cases a <;> simp
    · intro a
      cases a <;> simp
    · intro a
      cases a <;> simp
  kin := by
    constructor <;> simp [State.boot]
    · intro a
      cases a <;> simp
    · intro a
      cases a <;> simp
  distinct _ _ _ _ _ _ hp := (nomatch hp)

section

variable {a : Actor} {p : Ptr} {s : State} {σ : Ptr → Stage} {q : Proc} {status : Int}

theorem Rep.listed_alloc (h : Rep s σ) (hp : p ∈ s.processes) : ∃ q, s.mem p = some q := by
  have hl := (h.listed p).mp hp
  refine h.allocated ?_
  cases hσ : σ p <;> rw [hσ] at hl <;> first | rfl | cases hl

theorem Rep.zombie (h : Rep s σ) (hp : p ∈ s.processes) (hq : s.mem p = some q)
    (he : q.exited = true) : σ p = .zombie := by
  have hl := (h.listed p).mp hp
  have ho := h.exited p q hq
  rw [he] at ho
  cases hσ : σ p with
  | zombie => rfl
  | collected =>
    rw [hσ] at hl
    cases hl
  | _ =>
    rw [hσ] at ho
    cases ho

theorem Kin.parent_eq (k : Kin s σ) (hq : s.mem p = some q) (ho : q.orphaned = false) :
    q.parent = (s.spawner p).ptr := by
  cases hparent : q.parent with
  | none => rw [k.noParent p q hq hparent ho]
  | some n =>
    rw [(k.parent p q n hq hparent).2.1]
    rfl

theorem Inv.search (h : Inv s σ) (test : Proc → Bool) :
    s.search test s.processes = some (s.processes.find? fun p => (s.mem p).any test) := by
  have hall : ∀ l : List Ptr, (∀ p ∈ l, ∃ q, s.mem p = some q) →
      s.search test l = some (l.find? fun p => (s.mem p).any test) := by
    intro l hl
    induction l with
    | nil => rfl
    | cons p l ih =>
      obtain ⟨q, hq⟩ := hl p (mem_cons_self ..)
      rw [State.search, hq, bind_some, find?_cons, hq, any_some]
      cases test q with
      | true => rfl
      | false => exact ih (forall_mem_cons.mp hl).2
  exact hall s.processes fun p hp => h.rep.listed_alloc hp

theorem find_spec {test : Proc → Bool}
    (h : s.processes.find? (fun p => (s.mem p).any test) = some p) :
    p ∈ s.processes ∧ ∃ q, s.mem p = some q ∧ test q = true := by
  have htest : (s.mem p).any test = true := find?_some (p := fun p => (s.mem p).any test) h
  exact ⟨mem_of_find?_eq_some h, (any_eq_true _ _).mp htest⟩

theorem Inv.back (h : Inv s σ) (hpc : (s.pc a).plain = true) (hne : ∀ x, s.pc a ≠ .waiting x)
    (r : Int) : Inv (s.back a r) σ := by
  have hr : Rep (s.goto a .ready) σ := h.rep.plain hpc rfl
  have hk : Kin (s.goto a .ready) σ := h.kin.plain hne fun _ => ⟨nofun, nofun⟩
  exact ⟨{ hr with }, { hk with }, h.distinct⟩

/-! ## Exiting -/

theorem Life.child_listed {c : Ptr} (h : Life s σ)
    (hpc : s.pc (.user p) = .exiting status) (hq : s.mem c = some q) (hparent : q.parent = some p) :
    c ∈ s.processes := by
  obtain ⟨h, k⟩ := h
  have hspawner := (k.parent c q p hq hparent).2.1
  have hne : ∀ pc : Pc, s.pc (.user p) = pc → pc.holds = none := by
    rintro pc rfl
    rw [hpc]
    rfl
  rw [h.listed c]
  cases hσ : σ c with
  | listed | alive | zombie => rfl
  | unborn | freed =>
    have := (h.mem c).mpr (by rw [hσ]; rfl)
    rw [hq] at this
    cases this
  | spawning => cases hne _ ((h.spawning _ c).mpr ⟨hspawner, hσ⟩)
  | failed => cases hne _ ((h.failed _ c).mpr ⟨hspawner, hσ⟩)
  | collected => cases hne _ ((h.collected _ c).mpr ⟨hspawner, hσ⟩)

theorem drop_eq {c : Ptr} (hc : c ∈ s.processes) :
    ((s.set c q).unlinkProcess c).bind (State.free c) =
      some { s with mem := update s.mem c none, processes := s.processes.erase c,
                    freed := c :: s.freed } := by
  simp [State.unlinkProcess, State.free, State.set, hc]

theorem orphan_spec {l : List Ptr} (h : Life s σ)
    (hpc : s.pc (.user p) = .exiting status) (hnodup : l.Nodup) (hl : ∀ c ∈ l, c ∈ s.processes) :
    ∃ s' σ', s.orphan p l = some s' ∧ Life s' σ' ∧ s'.pc = s.pc ∧ Shrunk s s' ∧
      ∀ c q, s'.mem c = some q → q.parent = some p → c ∉ l ∧ s.mem c = some q := by
  induction l generalizing s σ with
  | nil =>
    exact ⟨s, σ, rfl, h, rfl, .refl s, fun c q hq _ => ⟨not_mem_nil, hq⟩⟩
  | cons c l ih =>
    obtain ⟨hc, hnodup⟩ := nodup_cons.mp hnodup
    have hcl := hl c (mem_cons_self ..)
    have hl' : ∀ x ∈ l, x ∈ s.processes := (forall_mem_cons.mp hl).2
    obtain ⟨q, hq⟩ := h.rep.listed_alloc hcl
    rw [State.orphan, hq, bind_some]
    by_cases hparent : q.parent = some p
    · rw [if_pos hparent]
      by_cases hex : q.exited = true
      · rw [if_pos hex, drop_eq hcl]
        have hz := h.rep.zombie hcl hq hex
        obtain ⟨s', σ', hrun, h', hpc', hsh, hrest⟩ :=
          ih (h.drop hpc hq hparent hz) hpc hnodup fun x hx =>
            (mem_erase_of_ne fun hxc : x = c => hc (hxc ▸ hx)).mpr (hl' x hx)
        refine ⟨s', σ', hrun, h', hpc', .trans (.of_subset
          (erase_subset ..) (update_none s.mem c)) hsh, fun x r hr hx => ?_⟩
        obtain ⟨hxl, hr'⟩ := hrest x r hr hx
        by_cases hxc : x = c
        · subst hxc
          exact nomatch (update_self x none s.mem).symm.trans hr'
        · replace hr' := (update_of_ne hxc none s.mem).symm.trans hr'
          exact ⟨fun hm => (mem_cons.mp hm).elim hxc hxl, hr'⟩
      · rw [if_neg hex]
        obtain ⟨s', σ', hrun, h', hpc', hsh, hrest⟩ :=
          ih (h.adopt hpc hq hparent (Bool.eq_false_iff.mpr hex)) hpc hnodup hl'
        refine ⟨s', σ', hrun, h', hpc', .trans
          (.shut hq { q with parent := none, orphaned := true } (.inl rfl)) hsh, ?_⟩
        intro x r hr hx
        obtain ⟨hxl, hr'⟩ := hrest x r hr hx
        by_cases hxc : x = c
        · subst hxc
          rw [State.set_mem_self] at hr'
          cases hr'
          exact absurd hx nofun
        · rw [State.set_mem_of_ne hxc] at hr'
          exact ⟨fun hm => (mem_cons.mp hm).elim hxc hxl, hr'⟩
    · rw [if_neg hparent]
      obtain ⟨s', σ', hrun, h', hpc', hsh, hrest⟩ := ih h hpc hnodup hl'
      refine ⟨s', σ', hrun, h', hpc', hsh, fun x r hr hx => ?_⟩
      obtain ⟨hxl, hr'⟩ := hrest x r hr hx
      refine ⟨fun hm => (mem_cons.mp hm).elim (fun hxc => ?_) hxl, hr'⟩
      subst hxc
      rw [hq] at hr'
      cases hr'
      exact hparent hx

theorem Inv.exit (h : Inv s σ) (hpc : s.pc (.user p) = .exiting status) :
    ∃ s' σ', s.exit p status = some s' ∧ Inv s' σ' := by
  obtain ⟨s1, σ1, hrun, h1, hpc1, hsh, hrest⟩ :=
    orphan_spec h.life hpc h.rep.nodup fun _ hc => hc
  rw [← hpc1] at hpc
  have hal : σ1 p = .alive := (h1.rep.alive p).mp (by rw [hpc]; rfl)
  obtain ⟨q, hq⟩ := h1.rep.allocated (p := p) (by rw [hal]; rfl)
  -- every child was on the list, so none is left
  have halone : ∀ c r, s1.mem c = some r → r.parent ≠ some p := by
    intro c r hr hparent
    obtain ⟨hout, hr'⟩ := hrest c r hr hparent
    exact hout (h.life.child_listed (hpc1 ▸ hpc) hr' hparent)
  have hd : Distinct s1 := h.distinct.shrunk hsh
  rw [State.exit, hrun, bind_some, hq, bind_some]
  by_cases ho : q.orphaned = true
  · rw [if_pos ho]
    have hp : p ∈ s1.processes := (h1.rep.listed p).mpr (by rw [hal]; rfl)
    refine ⟨_, _, ?_, (h1.exit_orphan hpc hq halone ho).inv ?_⟩
    · simp [State.unlinkProcess, State.free, State.set, State.goto, hp]
    · exact hd.shrunk (.of_subset (erase_subset ..) (update_none s1.mem p))
  · rw [if_neg ho]
    exact ⟨_, _, rfl, (h1.exit hpc hq halone (Bool.eq_false_iff.mpr ho)).inv
      (hd.shrunk (.set hq { q with status, exited := true } (fun _ _ h => h) rfl rfl))⟩

/-! ## Collecting -/

/-- A process that its parent looks at in `process_wait`. -/
structure Awaited (s : State) (σ : Ptr → Stage) (a : Actor) (p : Ptr) (q : Proc) : Prop where
  mem : s.mem p = some q
  listed : p ∈ s.processes
  mine : s.spawner p = a
  settled : (σ p).early = false
  notOrphan : q.orphaned = false

section

variable (h : Inv s σ)
include h

/-- A turn of the loop of `process_wait`. -/
theorem Inv.recheck (hpc : s.pc a = .ready ∨ s.pc a = .waiting p) (hp : Awaited s σ a p q) :
    ∃ s' σ', (s.set p { q with waitedOn := true }).recheck a p = some s' ∧ Inv s' σ' ∧
      (q.exited = true → s'.pc a = .collected p) := by
  have hplain : (s.pc a).plain = true := by
    rcases hpc with hpc | hpc <;> rw [hpc] <;> rfl
  have hset := h.rep.set hp.mem { q with waitedOn := true } rfl
  have hshrunk : Shrunk s (s.set p { q with waitedOn := true }) := .shut hp.mem _ (.inr rfl)
  rw [State.recheck, State.set_mem_self, bind_some]
  by_cases he : q.exited = true
  · have hz := h.rep.zombie hp.listed hp.mem he
    rw [if_pos he, State.unlinkProcess_eq (show p ∈ (State.set p _ s).processes from hp.listed)]
    refine ⟨_, _, rfl, ⟨hset.collect hplain hp.mine hz, h.kin.collect hp.mem hpc hp.mine hz,
      ?_⟩, fun _ => State.goto_pc_self ..⟩
    exact h.distinct.shrunk (hshrunk.trans (.of_subset (erase_subset ..) fun _ => .inl rfl))
  · rw [if_neg he]
    refine ⟨_, _, rfl, ⟨hset.plain hplain rfl, h.kin.await hp.mem hpc hp.mine
      ((h.rep.listed p).mp hp.listed) hp.settled hp.notOrphan, ?_⟩,
      fun h' => absurd h' he⟩
    exact h.distinct.shrunk { hshrunk with }

/-- A child on the list that nobody waits for, and whose parent is not in the
middle of spawning it. -/
theorem Inv.awaited (hpc : s.pc a = .ready) (hp : p ∈ s.processes) (hq : s.mem p = some q)
    (ha : s.spawner p = a) (ho : q.orphaned = false) : Awaited s σ a p q := by
  refine ⟨hq, hp, ha, Bool.eq_false_iff.mpr fun he => ?_, ho⟩
  have hl := (h.rep.listed p).mp hp
  cases hσ : σ p with
  | listed =>
    have := (h.rep.new a p).mpr ⟨ha, hσ⟩
    rw [hpc] at this
    cases this
  | spawning | failed =>
    rw [hσ] at hl
    cases hl
  | _ =>
    rw [hσ] at he
    cases he

theorem Inv.spawner_of_parent (hq : s.mem p = some q) (hparent : q.parent = a.ptr)
    (ho : q.orphaned = false) : s.spawner p = a ∨ (a.ptr = none ∧ (s.spawner p).ptr = none) := by
  cases a with
  | kernel k => exact .inr ⟨rfl, h.kin.noParent p q hq hparent ho⟩
  | user n => exact .inl (h.kin.parent p q n hq hparent).2.1

theorem Inv.wait {pid : Int} (hpc : s.pc a = .ready)
    (hown : a.ptr = none → s.OwnChild a pid) : ∃ s' σ', s.wait a pid = some s' ∧ Inv s' σ' := by
  rw [State.wait, h.search, bind_some]
  cases hfind : s.processes.find? fun p => (s.mem p).any (State.awaited a.ptr pid) with
  | none =>
    exact ⟨_, σ, rfl, h.back (by rw [hpc]; rfl) (by rw [hpc]; nofun) _⟩
  | some p =>
    obtain ⟨hp, q, hq, htest⟩ := find_spec hfind
    have hspec := htest
    simp only [State.awaited, Bool.and_eq_true, decide_eq_true_iff, Bool.not_eq_true'] at hspec
    obtain ⟨⟨⟨-, hparent⟩, ho⟩, -⟩ := hspec
    have ha : s.spawner p = a := by
      rcases h.spawner_of_parent hq hparent ho with ha | ⟨hnone, -⟩
      · exact ha
      · obtain ⟨x, hx, r, hr, hxa, hxtest⟩ := hown hnone
        rw [h.distinct _ _ p x q r hp hx hq hr htest hxtest]
        exact hxa
    obtain ⟨s', σ', hrun, hinv, -⟩ := h.recheck (.inl hpc) (h.awaited hpc hp hq ha ho)
    dsimp only
    rw [hq]
    exact ⟨s', σ', hrun, hinv⟩

theorem Inv.reap (hpc : s.pc (.user p) = .ready) :
    ∃ s' σ', s.reap (.user p) = some s' ∧ Inv s' σ' := by
  rw [State.reap, h.search, h.search, bind_some]
  have hback := h.back (a := .user p) (by rw [hpc]; rfl) (by rw [hpc]; nofun)
  split
  next c hfind =>
    obtain ⟨hc, q, hq, htest⟩ := find_spec hfind
    simp only [State.child, Bool.and_eq_true, decide_eq_true_iff, Bool.not_eq_true'] at htest
    obtain ⟨⟨⟨hparent, ho⟩, -⟩, he⟩ := htest
    have ha : s.spawner c = .user p := (h.kin.parent c q p hq hparent).2.1
    have hz := h.rep.zombie hc hq he
    rw [State.unlinkProcess_eq hc]
    have hk := h.kin.collect (w := q.waitedOn) hq (.inl hpc) ha hz
    rw [show s.set c { q with waitedOn := q.waitedOn } = s from State.set_same hq] at hk
    exact ⟨_, _, rfl, h.rep.collect (by rw [hpc]; rfl) ha hz, hk,
      h.distinct.shrunk (.of_subset (erase_subset ..) fun _ => .inl rfl)⟩
  next =>
    rw [map_some]
    split
    · exact ⟨_, σ, rfl, hback 0⟩
    · exact ⟨_, σ, rfl, hback _⟩

theorem Inv.release {r : Int} (hp : (s.pc a).holds = some p) : ∃ q, s.mem p = some q ∧
      s.free p = some { s with mem := update s.mem p none, freed := p :: s.freed } ∧
      Inv (s.release a p r) (update σ p .freed) := by
  obtain ⟨q, hq⟩ : ∃ q, s.mem p = some q := by
    refine h.rep.allocated ?_
    rcases (h.rep.held hp).2 with hσ | hσ | hσ <;> rw [hσ] <;> rfl
  exact ⟨q, hq, State.free_eq hq, (h.life.release hp).inv
    (h.distinct.shrunk (.of_subset (fun _ hx => hx) (update_none s.mem p)))⟩

theorem Inv.deliver (hpc : s.pc a = .collected p) :
    ∃ q s', s.mem p = some q ∧ s.exits p = some q.status ∧ s.deliver a p = some s' ∧
      s'.delivered = ⟨p, a, q.status⟩ :: s.delivered ∧ s'.ret a = toLong q.pid ∧
      Inv s' (update σ p .freed) := by
  obtain ⟨q, hq, hfree, hinv⟩ := h.release (r := 0) (show (s.pc a).holds = some p by rw [hpc]; rfl)
  have hover : q.exited = true := by
    rw [h.rep.exited p q hq, ((h.rep.collected a p).mp hpc).2]
    rfl
  refine ⟨q, _, hq, h.kin.exits p q hq hover, by rw [State.deliver, hq, bind_some, hfree,
    map_some], rfl, update_self .., ?_⟩
  have hlife := h.life.deliver (r := 0) hpc hq
  exact ⟨{ hlife.rep with }, { hlife.kin with }, hinv.distinct⟩

end

/-! ## Steps -/

theorem Inv.go (h : Inv s σ) (he : s.Enabled (.go a)) : ∃ s' σ', s.go a = some s' ∧ Inv s' σ' := by
  unfold State.Enabled at he
  dsimp only at he
  unfold State.go
  cases hpc : s.pc a with
  | created p =>
    obtain ⟨ha, hl⟩ := h.kin.created a p hpc
    obtain ⟨q, hq⟩ := h.rep.listed_alloc ((h.rep.listed p).mpr hl)
    dsimp only
    rw [hq]
    exact ⟨_, σ, rfl, h.back (by rw [hpc]; rfl) (by rw [hpc]; nofun) _⟩
  | failed p =>
    obtain ⟨q, hq, hfree, hinv⟩ := h.release (r := Errno.enomem.negated)
      (show (s.pc a).holds = some p by rw [hpc]; rfl)
    dsimp only
    rw [hfree]
    exact ⟨_, _, rfl, hinv⟩
  | waiting p =>
    obtain ⟨ha, hl⟩ := h.kin.waiting a p hpc
    have hp := (h.rep.listed p).mpr hl
    obtain ⟨q, hq⟩ := h.rep.listed_alloc hp
    have hw : q.waitedOn = true := (h.kin.waitedOn p q hq hl).mpr (by rw [ha, hpc])
    have hearly : (σ p).early = false := Bool.eq_false_iff.mpr fun he => by
      have := (h.kin.early p q hq he).2
      rw [hw] at this
      cases this
    obtain ⟨s', σ', hrun, hinv, -⟩ := h.recheck (.inr hpc)
      ⟨hq, hp, ha, hearly, h.kin.attended a p q hq (.inr hpc)⟩
    rw [State.set_same (by rw [hq]; exact congrArg some (by rw [← hw]))] at hrun
    exact ⟨s', σ', hrun, hinv⟩
  | collected p =>
    obtain ⟨q, s', -, -, hrun, -, -, hinv⟩ := h.deliver hpc
    exact ⟨s', _, hrun, hinv⟩
  | exiting status =>
    rw [hpc] at he
    obtain ⟨p, hp⟩ := Option.isSome_iff_exists.mp he
    cases Actor.ptr_eq_some.mp hp
    exact h.exit hpc
  | _ =>
    rw [hpc] at he
    exact absurd he not_false

theorem Distinct.spawn (h : Rep s σ) (hd : Distinct s) : Distinct (s.spawn a) := by
  have hout : s.count ∉ s.processes := fun hm => by
    have hl := (h.listed _).mp hm
    rw [(h.unborn _).mpr (Nat.le_refl _)] at hl
    cases hl
  have hmem : ∀ x ∈ s.processes, (s.spawn a).mem x = s.mem x := fun x hx =>
    update_of_ne (fun he : x = s.count => hout (he ▸ hx)) ..
  intro parent pid p p' q q' hp hp' hq hq'
  exact hd parent pid p p' q q' hp hp' ((hmem p hp).symm.trans hq) ((hmem p' hp').symm.trans hq')

/-- A process joins the list under a number that its parent does not use. -/
theorem Distinct.load {n : Nat} (hd : Distinct s) (hparent : q.parent = a.ptr)
    (hf : ∀ x ∈ s.processes, ∀ r, s.mem x = some r →
      State.awaited a.ptr (toLong s.nextPid) r = false) :
    Distinct (State.goto a (.listed p) { s.set p { q with pid := s.nextPid } with
      nextPid := n, processes := p :: s.processes }) := by
  -- no other process is awaited where this one is
  have hself : ∀ parent pid x r r', x ≠ p → x ∈ p :: s.processes →
      update s.mem p (some { q with pid := s.nextPid }) p = some r →
      update s.mem p (some { q with pid := s.nextPid }) x = some r' →
      State.awaited parent pid r = true → State.awaited parent pid r' ≠ true := by
    intro parent pid x r r' hx hm hr hr' hw hw'
    rw [update_self] at hr
    rw [update_of_ne hx] at hr'
    cases hr
    simp only [State.awaited, Bool.and_eq_true, decide_eq_true_iff, hparent] at hw
    have := hf x ((mem_cons.mp hm).resolve_left hx) r' hr'
    rw [hw.1.1.1, hw.1.1.2, hw'] at this
    cases this
  intro parent pid x x' r r' hx hx' hr hr' hw hw'
  by_cases hxp : x = p <;> by_cases hxp' : x' = p
  · rw [hxp, hxp']
  · subst hxp
    exact absurd hw' (hself parent pid x' r r' hxp' hx' hr hr' hw)
  · subst hxp'
    exact absurd hw (hself parent pid x r' r hxp hx hr' hr hw')
  · refine hd parent pid x x' r r' ((mem_cons.mp hx).resolve_left hxp)
      ((mem_cons.mp hx').resolve_left hxp') ?_ ?_ hw hw'
    · exact (update_of_ne hxp ..).symm.trans hr
    · exact (update_of_ne hxp' ..).symm.trans hr'

/-- A step that the callers grant does not fault and keeps the invariant. -/
theorem Inv.step {e : Event} (h : Inv s σ) (hf : s.FreshPid e) (he : s.Enabled e) :
    ∃ s' σ', s.perform e = some s' ∧ Inv s' σ' := by
  cases e with
  | spawn a =>
    exact ⟨_, _, rfl, (h.life.spawn he).inv (h.distinct.spawn h.rep)⟩
  | load a err =>
    obtain ⟨p, hpc⟩ := he
    rw [State.perform, hpc]
    cases err with
    | some e =>
      obtain ⟨q, -, hfree, hinv⟩ := h.release (r := e.negated)
        (show (s.pc a).holds = some p by rw [hpc]; rfl)
      refine ⟨_, _, ?_, hinv⟩
      show (s.free p).map _ = _
      rw [hfree]
      rfl
    | none =>
      obtain ⟨q, hq⟩ := h.rep.allocated (p := p) (by rw [((h.rep.spawning a p).mp hpc).2]; rfl)
      have hparent : q.parent = a.ptr := by
        obtain ⟨ha, hσ⟩ := (h.rep.spawning a p).mp hpc
        rw [h.kin.parent_eq hq (h.kin.early p q hq (by rw [hσ]; rfl)).1, ha]
      refine ⟨_, _, ?_, (h.life.load (n := u32 (s.nextPid + 1)) hpc hq).inv
        (h.distinct.load hparent hf)⟩
      show (s.mem p).map _ = _
      rw [hq]
      rfl
  | create a ok =>
    obtain ⟨p, hpc⟩ := he
    rw [State.perform, hpc]
    cases ok with
    | true =>
      exact ⟨_, _, rfl, (h.life.create hpc).inv h.distinct⟩
    | false =>
      have hp : p ∈ s.processes := (h.rep.listed p).mpr (by rw [((h.rep.new a p).mp hpc).2]; rfl)
      refine ⟨_, _, ?_, (h.life.create_fails hpc).inv
        (h.distinct.shrunk (.of_subset (erase_subset ..) fun _ => .inl rfl))⟩
      show (s.unlinkProcess p).map _ = _
      rw [State.unlinkProcess_eq hp]
      rfl
  | wait a pid => exact h.wait he.1 he.2
  | reap p => exact h.reap he
  | exit p status =>
    have hr : Rep (s.goto (.user p) (.exiting status)) σ :=
      h.rep.plain (by rw [show s.pc (.user p) = .ready from he]; rfl) rfl
    refine ⟨_, σ, rfl, hr, h.kin.plain ?_ fun _ => ⟨nofun, nofun⟩, h.distinct⟩
    rw [show s.pc (.user p) = .ready from he]
    nofun
  | go a => exact h.go he

end

/-! ## Runs -/

theorem inv_reached (h : Reached FreshStep .boot s) : ∃ σ, Inv s σ :=
  h.invariant (P := fun s => ∃ σ, Inv s σ) ⟨_, inv_boot⟩ fun e s s' ⟨σ, hi⟩ hs => by
    obtain ⟨s1, σ', hrun, hi'⟩ := hi.step hs.1 hs.2.1
    cases hrun.symm.trans hs.2.2
    exact ⟨σ', hi'⟩

section

variable {a : Actor} {p : Ptr} {q : Proc} {s : State} {σ : Ptr → Stage}

theorem Inv.zombie_parent (h : Inv s σ) (hq : s.mem p = some q) (hz : σ p = .zombie) :
    q.orphaned = false ∧ (s.pc (s.spawner p)).alive = true := by
  have ho := h.kin.zombie p q hq hz
  refine ⟨ho, ?_⟩
  cases hs : s.spawner p with
  | kernel k => exact h.rep.kernel k
  | user n =>
    refine (h.rep.alive n).mpr (h.kin.parent p q n hq ?_).1
    rw [h.kin.parent_eq hq ho, hs]
    rfl

theorem Rep.accounted (h : Rep s σ) (hp : p < s.count) :
    p ∈ s.freed ∨ p ∈ s.processes ∨ (s.pc (s.spawner p)).holds = some p := by
  cases hσ : σ p with
  | unborn => exact absurd ((h.unborn p).mp hσ) (Nat.not_le.mpr hp)
  | freed => exact .inl ((h.freed p).mpr hσ)
  | listed | alive | zombie => exact .inr (.inl ((h.listed p).mpr (by rw [hσ]; rfl)))
  | spawning => exact .inr (.inr (by rw [(h.spawning _ p).mpr ⟨rfl, hσ⟩]; rfl))
  | failed => exact .inr (.inr (by rw [(h.failed _ p).mpr ⟨rfl, hσ⟩]; rfl))
  | collected => exact .inr (.inr (by rw [(h.collected _ p).mpr ⟨rfl, hσ⟩]; rfl))

theorem Inv.wait_exited (h : Inv s σ) (hp : p ∈ s.processes) (hq : s.mem p = some q)
    (ha : s.spawner p = a) (he : q.exited = true) (hpc : s.pc a = .ready) :
    ∃ s', s.wait a (toLong q.pid) = some s' ∧ s'.pc a = .collected p := by
  have hz := h.rep.zombie hp hq he
  have ho := h.kin.zombie p q hq hz
  have hw : q.waitedOn = false := Bool.eq_false_iff.mpr fun hw => by
    have := (h.kin.waitedOn p q hq ((h.rep.listed p).mp hp)).mp hw
    rw [ha, hpc] at this
    cases this
  have htest : (s.mem p).any (State.awaited a.ptr (toLong q.pid)) = true := by
    rw [hq, any_some, State.awaited, h.kin.parent_eq hq ho, ha, ho, hw]
    simp
  have hfind : s.processes.find? (fun x => (s.mem x).any (State.awaited a.ptr (toLong q.pid))) =
      some p := by
    cases hf : s.processes.find? fun x => (s.mem x).any (State.awaited a.ptr (toLong q.pid)) with
    | none => exact absurd htest (find?_eq_none.mp hf p hp)
    | some x =>
      obtain ⟨hx, r, hr, hxtest⟩ := find_spec hf
      rw [hq] at htest
      rw [h.distinct _ _ x p r q hx hp hr hq hxtest htest]
  obtain ⟨s', σ', hrun, -, hcol⟩ := h.recheck (.inl hpc) (h.awaited hpc hp hq ha ho)
  refine ⟨s', ?_, hcol he⟩
  rw [State.wait, h.search, bind_some, hfind]
  dsimp only
  rw [hq]
  exact hrun

end

/-! ## The life cycle -/

theorem fresh_step (h : Reached FreshStep .boot s) (e : Event) (hf : s.FreshPid e)
    (he : s.Enabled e) (hs : s.perform e = some s') : Reached FreshStep .boot s' :=
  .step e h ⟨hf, he, hs⟩

/-- A child of process 0 has exited, and the next number is `n`. -/
structure Uncollected (n : Nat) (s : State) : Prop where
  processes : s.processes = [1, 0]
  child : s.mem 1 = some ⟨2, some 0, false, true, false, 7⟩
  mine : s.spawner 1 = .user 0
  ready : s.pc (.user 0) = .ready
  nextPid : s.nextPid = n
  count : 1 < s.count

/-- Process 0 is spawned, it spawns a process, and that exits. -/
theorem exited_child : ∃ s, Reached FreshStep .boot s ∧ Uncollected 3 s := by
  have h1 := fresh_step .start (.spawn (.kernel 0)) trivial rfl rfl
  have h2 := fresh_step h1 (.load (.kernel 0) none) (fun _ hp => nomatch hp) ⟨0, rfl⟩ rfl
  have h3 := fresh_step h2 (.create (.kernel 0) true) trivial ⟨0, rfl⟩ rfl
  have h4 := fresh_step h3 (.spawn (.user 0)) trivial rfl rfl
  have h5 := fresh_step h4 (.load (.user 0) none) (by
    intro p hp q hq
    cases mem_singleton.mp hp
    cases hq
    rfl) ⟨1, rfl⟩ rfl
  have h6 := fresh_step h5 (.create (.user 0) true) trivial ⟨1, rfl⟩ rfl
  have h7 := fresh_step h6 (.go (.user 0)) trivial trivial rfl
  have h8 := fresh_step h7 (.exit 1 7) trivial rfl rfl
  have h9 := fresh_step h8 (.go (.user 1)) trivial rfl rfl
  exact ⟨_, h9, rfl, rfl, rfl, rfl, rfl, by decide⟩

/-- In every run without a number handed out twice: no step meets memory that is
not allocated.  No structure is freed twice or while it is on the list, and one
that is not freed is on the list or in the hands of the actor that spawned it;
if it has exited there, its parent is still to collect it.  A status reaches no
parent but the right one, once.  And a parent that waits for a child that has
exited takes it off the list, and then gets its status. -/
theorem process_life_cycle {s : State} (h : Reached FreshStep .boot s) :
    (∀ e, s.FreshPid e → s.Enabled e → ∃ s', s.perform e = some s') ∧ s.freed.Nodup ∧
    (∀ p ∈ s.processes, p ∉ s.freed ∧ ∃ q, s.mem p = some q ∧
      (q.exited = true → q.orphaned = false ∧ (s.pc (s.spawner p)).alive = true)) ∧
    (∀ p < s.count, p ∈ s.freed ∨ p ∈ s.processes ∨ (s.pc (s.spawner p)).holds = some p) ∧
    (s.delivered.map (·.child)).Nodup ∧
    (∀ d ∈ s.delivered, s.spawner d.child = d.parent ∧ s.exits d.child = some d.status) ∧
    (∀ a p q, p ∈ s.processes → s.mem p = some q → s.spawner p = a → q.exited = true →
      s.pc a = .ready →
      ∃ s', s.perform (.wait a (toLong q.pid)) = some s' ∧ s'.pc a = .collected p) ∧
    ∀ a p, s.pc a = .collected p →
      ∃ q s', s.mem p = some q ∧ s.exits p = some q.status ∧ s.perform (.go a) = some s' ∧
        s'.delivered = ⟨p, a, q.status⟩ :: s.delivered ∧ s'.ret a = toLong q.pid := by
  obtain ⟨σ, hi⟩ := inv_reached h
  refine ⟨fun e hf he => ?_, hi.rep.freedOnce, fun p hp => ⟨fun hf => ?_, ?_⟩,
    fun p hp => hi.rep.accounted hp, hi.kin.deliveredOnce,
    fun d hd => (hi.kin.delivered d hd).2.symm,
    fun a p q hp hq ha he hpc => hi.wait_exited hp hq ha he hpc, fun a p hpc => ?_⟩
  · obtain ⟨s', _, hrun, _⟩ := hi.step hf he
    exact ⟨s', hrun⟩
  · have hl := (hi.rep.listed p).mp hp
    rw [(hi.rep.freed p).mp hf] at hl
    cases hl
  · obtain ⟨q, hq⟩ := hi.rep.listed_alloc hp
    exact ⟨q, hq, fun he => hi.zombie_parent hq (hi.rep.zombie hp hq he)⟩
  · obtain ⟨q, s', hq, hex, hrun, hdel, hret, -⟩ := hi.deliver hpc
    refine ⟨q, s', hq, hex, ?_, hdel, hret⟩
    show s.go a = some s'
    unfold State.go
    rw [hpc]
    exact hrun

/-- The parent of a child that has exited. -/
theorem process_life_cycle_uncollected : ∃ s, Reached FreshStep .boot s ∧
      ∃ s', s.perform (.wait (.user 0) 2) = some s' ∧ s'.pc (.user 0) = .collected 1 := by
  obtain ⟨s, hr, h⟩ := exited_child
  refine ⟨s, hr, (process_life_cycle hr).2.2.2.2.2.2.1 (.user 0) 1 _ ?_ h.child h.mine rfl h.ready⟩
  rw [h.processes]
  exact mem_cons_self ..

/-! ## Two children of one number -/

section

variable {a : Actor} {n : Nat} {s : State}

/-- An actor has listed a new process. -/
def State.spawned (a : Actor) (s : State) : State :=
  State.goto a (.listed s.count)
    { s.set s.count ⟨s.nextPid, a.ptr, false, false, false, 0⟩ with
      nextPid := u32 (s.nextPid + 1)
      processes := s.count :: s.processes
      count := s.count + 1
      spawner := update s.spawner s.count a }

theorem reached_spawned (h : Reached State.Step .boot s) (hpc : s.pc a = .ready) :
    Reached State.Step .boot (s.spawned a) := by
  have h1 : Reached State.Step .boot (s.spawn a) := .step (.spawn a) h ⟨hpc, rfl⟩
  refine .step (.load a none) h1 ⟨⟨s.count, State.goto_pc_self ..⟩, ?_⟩
  simp [State.perform, State.spawn, State.load, State.spawned, State.goto, State.set]

/-- The thread for it cannot be made. -/
def State.unstarted (a : Actor) (s : State) : State :=
  State.goto a (.failed s.count) { s.spawned a with processes := s.processes }

theorem reached_unstarted (h : Reached State.Step .boot s) (hpc : s.pc a = .ready) :
    Reached State.Step .boot (s.unstarted a) := by
  refine .step (.create a false) (reached_spawned h hpc) ⟨⟨s.count, State.goto_pc_self ..⟩, ?_⟩
  simp [State.perform, State.create, State.unstarted, State.spawned, State.goto, State.set,
    State.unlinkProcess]

theorem Uncollected.spawn_fails (hr : Reached State.Step .boot s) (h : Uncollected n s) :
    ∃ s', Reached State.Step .boot s' ∧ Uncollected (u32 (n + 1)) s' := by
  have hpc : (s.unstarted (.user 0)).pc (.user 0) = .failed s.count := State.goto_pc_self ..
  have hmem : (s.unstarted (.user 0)).mem s.count =
      some ⟨s.nextPid, some 0, false, false, false, 0⟩ := State.set_mem_self ..
  have hold : 1 ≠ s.count := Nat.ne_of_lt h.count
  have hgo : (s.unstarted (.user 0)).perform (.go (.user 0)) =
      some ((s.unstarted (.user 0)).release (.user 0) s.count Errno.enomem.negated) := by
    rw [State.perform, State.go, hpc]
    dsimp only
    rw [State.free_eq hmem]
    rfl
  refine ⟨_, .step (.go (.user 0)) (reached_unstarted hr h.ready) ⟨?_, hgo⟩, h.processes, ?_, ?_,
    State.back_pc_self .., congrArg (fun n => u32 (n + 1)) h.nextPid, Nat.lt_succ_of_lt h.count⟩
  · trivial
  · simp [State.release, State.back, State.unstarted, State.spawned, State.goto, State.set, hold,
      h.child]
  · exact (update_of_ne hold ..).trans h.mine

theorem uncollected (k : Nat) : ∃ s, Reached State.Step .boot s ∧ Uncollected (u32 (3 + k)) s := by
  induction k with
  | zero =>
    obtain ⟨s, hr, h⟩ := exited_child
    exact ⟨s, hr.invariant .start fun e _ _ h hs => .step e h hs.2, h⟩
  | succ k ih =>
    obtain ⟨s, hr, h⟩ := ih
    obtain ⟨s', hr', h'⟩ := h.spawn_fails hr
    refine ⟨s', hr', ?_⟩
    rw [show u32 (3 + (k + 1)) = u32 (u32 (3 + k) + 1) by unfold u32; omega]
    exact h'

/-- After 2³² spawns a process has a second child with the number of the first.
The first has exited.  Its parent waits, finds the second and sleeps. -/
theorem waits_for_the_other :
    ∃ s p c q s', Reached State.Step .boot s ∧ s.pc (.user 0) = .ready ∧ p ∈ s.processes ∧
      s.mem p = some q ∧ s.spawner p = .user 0 ∧ q.exited = true ∧
      s.perform (.wait (.user 0) (toLong q.pid)) = some s' ∧ c ≠ p ∧
      s'.pc (.user 0) = .waiting c := by
  obtain ⟨s, hr, h⟩ := uncollected 4294967295
  have hold : 1 ≠ s.count := Nat.ne_of_lt h.count
  have hpid : s.nextPid = 2 := h.nextPid
  obtain ⟨s1, hs1⟩ : ∃ s1, s1 = State.goto (.user 0) (.created s.count)
      ((s.spawned (.user 0)).goto (.user s.count) .ready) := ⟨_, rfl⟩
  have hmem : s1.mem s.count = some ⟨2, some 0, false, false, false, 0⟩ := by
    rw [hs1, ← hpid]
    exact State.set_mem_self ..
  have hold' : s1.mem 1 = some ⟨2, some 0, false, true, false, 7⟩ := by
    rw [hs1, ← h.child]
    exact State.set_mem_of_ne hold
  have hspawner : s1.spawner 1 = .user 0 := by
    rw [hs1, ← h.mine]
    exact update_of_ne hold ..
  have hlist : s1.processes = s.count :: [1, 0] := by
    rw [hs1, ← h.processes]
    rfl
  have hpc : s1.pc (.user 0) = .created s.count := by
    rw [hs1]
    exact State.goto_pc_self ..
  have h1 : Reached State.Step .boot s1 :=
    .step (.create (.user 0) true) (reached_spawned hr h.ready)
      ⟨⟨s.count, State.goto_pc_self ..⟩, congrArg some hs1.symm⟩
  have h2 : Reached State.Step .boot (s1.back (.user 0) 2) := by
    refine .step (.go (.user 0)) h1 ⟨by rw [State.Enabled, hpc]; trivial, ?_⟩
    rw [State.perform, State.go, hpc]
    dsimp only
    rw [hmem]
    rfl
  have hwait : (s1.back (.user 0) 2).perform (.wait (.user 0) 2) =
      some (.goto (.user 0) (.waiting s.count)
        ((s1.back (.user 0) 2).set s.count ⟨2, some 0, false, false, true, 0⟩)) := by
    show (State.search _ _ s1.processes).bind _ = _
    rw [hlist]
    show ((s1.mem s.count).bind _).bind _ = _
    rw [hmem]
    show (s1.mem s.count).bind _ = _
    rw [hmem, bind_some, State.recheck, State.set_mem_self]
    rfl
  refine ⟨_, 1, s.count, _, _, h2, State.back_pc_self .., ?_, hold', hspawner, rfl, hwait,
    hold.symm, State.goto_pc_self ..⟩
  show 1 ∈ s1.processes
  simp [hlist]

end

end ManiOS.Process

import ManiOS.Mm.Tables
import ManiOS.Mm.UserCopy

/-!
# Pages of a program

The loader, the stack and the heap of a program get their pages in one way: a frame
is taken, mapped for the user, and filled with zeros.  They lose them by
`vmm_unmap_page` and `pmm_free_frame`.  `Adds` and `Removes` say what that does to the
address space: one page comes or goes, and all others keep their place and their
bytes.  Page tables stay once they are made.
-/

namespace ManiOS.Mm

open Function (update)
open List

/-- `USER_IMAGE_TOP`: where the image and the heap of a program end. -/
def userImageTop : Nat := 0xBFFEE000

namespace Paging

variable {own own' : Roles} {pages : List Space} {pending : Nat → Option (Nat × Nat)}
  {s s' : Paging} {f v : Nat}

/-- No page of the active address space is on its way. -/
structure Settled (own : Roles) (pages : List Space) (pending : Nat → Option (Nat × Nat))
    (s : Paging) : Prop extends Layout own pages pending s where
  pend : pending s.active.frame = none

theorem Settled.noFrame (h : Settled own pages pending s) (hn : NoFrame s s') :
    Settled own pages pending s' := by
  refine ⟨hn.layout h.toLayout, ?_⟩
  obtain ⟨m, rfl, -⟩ := hn
  exact h.pend

/-- The flags of a page of a program: `VMM_WRITABLE | VMM_USER`. -/
def userFlags : MapFlags := ⟨true, true, false⟩

/-- A page of zeros is mapped at `v`. -/
structure Adds (pages : List Space) (pending : Nat → Option (Nat × Nat)) (v : Nat)
    (own own' : Roles) (s s' : Paging) : Prop where
  layout : Settled own' pages pending s'
  rest : s' = { s with pmm := s'.pmm, ram := s'.ram }
  fresh : s.walk v = none
  page : ∃ f, s'.walk v = some ⟨f, true, true, false⟩ ∧ s.pmm.used f = false ∧ ∀ o, s'.ram f o = 0
  walk : ∀ u, pdIndexOf u < ptAreaIndex → u / pageSize ≠ v / pageSize → s'.walk u = s.walk u
  data : ∀ g a, own g = some a → ¬ a.IsTable → s'.ram g = s.ram g
  entries : ∀ i e, s.ram.entry s.active.frame i = some e → s'.ram.entry s.active.frame i = some e
  used : ∀ g, s'.pmm.used g = true ↔ s.pmm.used g = true ∨ NewTable s s' g ∨ s'.page v = some g

/-- The page at `v` is unmapped, and its frame `f` is given back. -/
structure Removes (pages : List Space) (pending : Nat → Option (Nat × Nat)) (v f : Nat)
    (own own' : Roles) (s s' : Paging) : Prop where
  layout : Settled own' pages pending s'
  rest : s' = { s with pmm := s'.pmm, ram := s'.ram }
  gone : s'.walk v = none
  walk : ∀ u, pdIndexOf u < ptAreaIndex → u / pageSize ≠ v / pageSize → s'.walk u = s.walk u
  data : ∀ g a, own g = some a → ¬ a.IsTable → s'.ram g = s.ram g
  entries : ∀ i, s'.ram.entry s.active.frame i = s.ram.entry s.active.frame i
  used : ∀ g, s'.pmm.used g = true ↔ s.pmm.used g = true ∧ g ≠ f

theorem user_index (hv : v < userSpaceTop) : pdIndexOf v < ptAreaIndex :=
  Nat.lt_trans (user_area hv).2 (by decide)

variable {u : Nat}

theorem walk_page (h : u / pageSize = v / pageSize) : s.walk u = s.walk v := by
  have hpd : pdIndexOf u = pdIndexOf v := by
    simp only [pdIndexOf, pageSize] at *
    omega
  rw [walk, walk, hpd, ptIndexOf, ptIndexOf, h]

section

variable (h : Settled own pages pending s)
include h

theorem Settled.walk_role (hv : v < userSpaceTop) {pte : Entry} (hw : s.walk v = some pte) :
    own pte.frame = some (.userPage s.active.frame (pdIndexOf v) (ptIndexOf v)) := by
  obtain ⟨e, he, hpte⟩ := Option.bind_eq_some_iff.mp hw
  exact h.userPage _ h.active _ (user_area hv).2 e he _ pte hpte (by rw [h.pend]; nofun)

/-- Pages that keep their place keep their bytes, where only tables are written. -/
theorem Settled.byteAt_apart
    (hw : ∀ u, pdIndexOf u < ptAreaIndex → u / pageSize ≠ v / pageSize → s'.walk u = s.walk u)
    (hdata : ∀ g a, own g = some a → ¬ a.IsTable → s'.ram g = s.ram g) (hu : u < userSpaceTop)
    (hne : u / pageSize ≠ v / pageSize) : s'.byteAt u = s.byteAt u := by
  rw [byteAt, byteAt, page, page, hw u (user_index hu) hne]
  generalize hpte : s.walk u = x
  cases x with
  | none => rfl
  | some pte =>
    have hrole := h.walk_role hu hpte
    exact congrArg some (congrFun (hdata _ _ hrole id) _)

theorem Settled.page_inj (hu : u < userSpaceTop) (hv : v < userSpaceTop) (hpu : s.page u = some f)
    (hpv : s.page v = some f) : u / pageSize = v / pageSize := by
  obtain ⟨x, hx, rfl⟩ := Option.map_eq_some_iff.mp hpu
  obtain ⟨y, hy, hxy⟩ := Option.map_eq_some_iff.mp hpv
  have hroleU := h.walk_role hu hx
  have hroleV := h.walk_role hv hy
  rw [hxy, hroleU] at hroleV
  simp only [Option.some.injEq, Role.userPage.injEq, true_and, pdIndexOf, ptIndexOf] at hroleV
  simp only [pageSize] at *
  omega

/-- A page of zeros is added, or there is no frame for it or for its table. -/
theorem Settled.addUserPage (hv : v < userSpaceTop) :
    ∃ m : Pmm, s.allocFrame = (0, { s with pmm := m }) ∧ NoFrame s { s with pmm := m } ∨
      ∃ f ok s2, s.allocFrame = (f * pageSize, { s with pmm := m }) ∧ f * pageSize ≠ 0 ∧
        Paging.mapPage v (f * pageSize) userFlags { s with pmm := m } = some (ok, s2) ∧
        (ok = false ∧ (∃ s3, s2.freeFrame (f * pageSize) = some s3 ∧ NoFrame s s3) ∨
          ok = true ∧ ∃ s3 own', s2.clear v = some s3 ∧ Adds pages pending v own own' s s3) := by
  obtain ⟨m, hno⟩ | ⟨m, f, hnew⟩ := h.alloc
  · exact ⟨m, .inl hno⟩
  · have hvirt := (user_area hv).1
    have hindex := user_index hv
    have harea : pdIndexOf v ≠ ptAreaIndex := Nat.ne_of_lt hindex
    have hphys := hnew.phys_lt
    have hclear := hnew.free
    have hdiv : f * pageSize / pageSize = f := Nat.mul_div_cancel f (by decide)
    have h1 := h.take hnew
    have hheld : update own f (some .held) f = some .held := Function.update_self ..
    obtain ⟨ok, s2, hs2, hor⟩ := h1.mapPage (f * pageSize) userFlags hvirt harea
    refine ⟨m, .inr ⟨f, ok, s2, hnew.alloc, hnew.ne_zero, hs2, ?_⟩⟩
    rcases hor with ⟨rfl, hno, -⟩ | ⟨rfl, own2, s1, hm⟩
    · obtain ⟨m3, hm3, hok3, hcount₃, hused3⟩ := (hno.layout h1).freeFrame hheld
      obtain ⟨m2, rfl, -, hcount₂, hused2⟩ := hno
      refine .inl ⟨rfl, _, hm3, m3, rfl, hok3, hcount₃.trans (hcount₂.trans hnew.count), ?_⟩
      rw [hused3]
      refine (congrArg (update · f false) (hused2.trans hnew.used)).trans ?_
      rw [Function.update_idem, ← hclear, Function.update_eq_self]
    · have hlayout := hm.layout_user hphys hv (by rw [hdiv]; exact hheld) h.pend
      rw [hdiv] at hlayout
      obtain ⟨hself, hothers⟩ := hm.walk hphys
      rw [show pageEntry (f * pageSize) userFlags = ⟨f, true, true, false⟩ by
        rw [pageEntry, hdiv]
        rfl] at hself
      have hpage : s2.page v = some f := by rw [page, hself, Option.map_some]
      generalize hown : update own2 f (some (.userPage _ (pdIndexOf v) (ptIndexOf v))) = own3
        at hlayout
      have hrole : own3 f = some (.userPage s.active.frame (pdIndexOf v) (ptIndexOf v)) := by
        rw [← hown, Function.update_self]
      have hzero : ∀ g a, own3 g = some a → a.IsTable →
          (s2.ram.zero f).entry g = s2.ram.entry g := fun g a hg ha => by
        refine Ram.entry_congr (Ram.zero_of_ne (role_ne hg hrole ?_))
        rintro rfl
        exact ha
      have hactive : s2.active = s.active := by
        obtain ⟨e, -, -, rfl⟩ := hm.entry
        exact hm.active
      have hdir : (s2.ram.zero f).entry s.active.frame = s2.ram.entry s.active.frame :=
        hzero _ .dir (by rw [← hactive]; exact hlayout.active_dir) trivial
      refine .inr ⟨rfl, { s2 with ram := s2.ram.zero f }, own3, by rw [clear, hpage]; rfl, ?_⟩
      refine ⟨⟨hlayout.of_data hlayout.ok hlayout.used (fun _ _ hg _ => hg) hzero, ?_⟩, ?_, ?_,
        ⟨f, ?_, hclear, fun o => if_pos rfl⟩, fun u hu hne => ?_, fun g a hg ha => ?_,
        fun i e he => ?_, fun g => ?_⟩
      · rw [hactive]
        exact h.pend
      · rw [hm.rest]
      · exact hm.fresh
      · exact (hlayout.walk_congr hzero hindex).trans hself
      · exact (hlayout.walk_congr hzero hu).trans (hothers u hu hne)
      · refine (Ram.zero_of_ne (role_ne_none hg hnew.role)).trans ?_
        exact hm.ram_eq (role_update hnew.role hg) (.inl ha)
      · rw [hdir, hm.dir_entry]
        exact hm.table.entries i e he
      · rw [page, (hlayout.walk_congr hzero hindex).trans hself, NewTable]
        rw [hdir, hm.used, hnew.used, NewTable]
        by_cases hg : g = f
        · simp [hg]
        · simp [hg, Ne.symm hg]

theorem Settled.removeUserPage (hv : v < userSpaceTop) {pte : Entry}
    (hmapped : s.walk v = some pte) :
    ∃ s1 s2 own', s.unmapPage v = some (some pte.frame, s1) ∧
      s1.freeFrame (pte.frame * pageSize) = some s2 ∧
      Removes pages pending v pte.frame own own' s s2 := by
  obtain ⟨hnone, -⟩ | ⟨e, pte', he, hpte, hpage, hs1, hlayout⟩ := h.unmapPage_user hv h.pend
  · cases hnone.symm.trans hmapped
  · cases (walk_eq he).symm.trans hmapped |>.symm.trans hpte
    have hindex := user_index hv
    obtain ⟨hgone, hothers⟩ := h.walk_setEntry hindex he Entry.fits_none
    obtain ⟨m, hm, hused, hlayout'⟩ := hlayout.give (Function.update_self ..)
    obtain ⟨a, ha, hdir, htable⟩ := h.table_role hindex he
    refine ⟨_, _, _, hs1, hm, ⟨hlayout', h.pend⟩, rfl, hgone, hothers, fun g b hg hb => ?_, fun i => ?_,
      fun g => ?_⟩
    · refine Ram.setEntry_of_ne_frame (role_ne hg ha ?_)
      rintro rfl
      exact hb htable
    · exact congrFun (Ram.entry_congr (Ram.setEntry_of_ne_frame
        (role_ne h.active_dir ha hdir.symm))) i
    · rw [show ({ s with pmm := m } : Paging).pmm.used = _ from hused]
      by_cases hg : g = pte.frame
      · simp [hg]
      · simp [hg]

end

/-! ## Several pages -/

/-- An address is on one of the pages of a list. -/
def OnPages (P : List Nat) (u : Nat) : Prop := ∃ v ∈ P, u / pageSize = v / pageSize

/-- Pages of zeros are mapped at all places of `P`, and nothing else has changed, except
that there can be new page tables. -/
structure Grown (pages : List Space) (pending : Nat → Option (Nat × Nat)) (P : List Nat)
    (own : Roles) (s s' : Paging) : Prop where
  layout : Settled own pages pending s'
  rest : s' = { s with pmm := s'.pmm, ram := s'.ram }
  user : ∀ v ∈ P, v < userSpaceTop
  fresh : ∀ v ∈ P, s.walk v = none
  page : ∀ v ∈ P, ∃ f, s'.walk v = some ⟨f, true, true, false⟩ ∧ s.pmm.used f = false
  zero : ∀ u < userSpaceTop, OnPages P u → s'.byteAt u = some 0
  walk : ∀ u < userSpaceTop, ¬ OnPages P u → s'.walk u = s.walk u
  bytes : ∀ u < userSpaceTop, ¬ OnPages P u → s'.byteAt u = s.byteAt u
  entries : ∀ i e, s.ram.entry s.active.frame i = some e → s'.ram.entry s.active.frame i = some e
  used : ∀ g, s'.pmm.used g = true ↔
    s.pmm.used g = true ∨ NewTable s s' g ∨ ∃ v ∈ P, s'.page v = some g

/-- The pages at all places of `P` are gone, and their frames are free. -/
structure Shrunk (pages : List Space) (pending : Nat → Option (Nat × Nat)) (P : List Nat)
    (own : Roles) (s s' : Paging) : Prop where
  layout : Settled own pages pending s'
  rest : s' = { s with pmm := s'.pmm, ram := s'.ram }
  gone : ∀ v ∈ P, s'.walk v = none
  walk : ∀ u < userSpaceTop, ¬ OnPages P u → s'.walk u = s.walk u
  bytes : ∀ u < userSpaceTop, ¬ OnPages P u → s'.byteAt u = s.byteAt u

variable {P : List Nat} {own1 own2 : Roles} {s1 s2 : Paging}

theorem onPages_nil : ¬ OnPages [] u := fun ⟨_, hv, _⟩ => not_mem_nil hv

theorem onPages_cons : OnPages (v :: P) u ↔ u / pageSize = v / pageSize ∨ OnPages P u := by
  simp [OnPages]

theorem onPages_append : OnPages (P ++ [v]) u ↔ OnPages P u ∨ u / pageSize = v / pageSize := by
  simp [OnPages, or_and_right, exists_or]

theorem NewTable.not_self : ¬ NewTable s s f := by
  rintro ⟨i, _, e, hnone, he, _⟩
  cases hnone.symm.trans he

theorem NewTable.trans_iff (hactive : s1.active = s.active)
    (h1 : ∀ i e, s.ram.entry s.active.frame i = some e → s1.ram.entry s.active.frame i = some e)
    (h2 : ∀ i e, s1.ram.entry s.active.frame i = some e → s2.ram.entry s.active.frame i = some e) :
    NewTable s s2 f ↔ NewTable s s1 f ∨ NewTable s1 s2 f := by
  constructor
  · rintro ⟨i, hi, e, hnone, he, hf⟩
    cases hmid : s1.ram.entry s.active.frame i with
    | none => exact .inr ⟨i, hi, e, by rw [hactive]; exact hmid, by rw [hactive]; exact he, hf⟩
    | some e1 =>
      cases (h2 i e1 hmid).symm.trans he
      exact .inl ⟨i, hi, _, hnone, hmid, hf⟩
  · rintro (⟨i, hi, e, hnone, he, hf⟩ | ⟨i, hi, e, hnone, he, hf⟩)
    · exact ⟨i, hi, e, hnone, h2 i e he, hf⟩
    · rw [hactive] at hnone he
      refine ⟨i, hi, e, ?_, he, hf⟩
      cases hfirst : s.ram.entry s.active.frame i with
      | none => rfl
      | some e0 => cases (h1 i e0 hfirst).symm.trans hnone

theorem Grown.nil (h : Settled own pages pending s) (hn : NoFrame s s') :
    Grown pages pending [] own s s' := by
  have hlayout := h.noFrame hn
  obtain ⟨m, rfl, -, -, hused⟩ := hn
  refine ⟨hlayout, rfl, nofun, nofun, nofun, fun u _ hu => (onPages_nil hu).elim,
    fun _ _ _ => rfl, fun _ _ _ => rfl, fun _ _ he => he, fun g => ?_⟩
  rw [hused]
  refine ⟨.inl, ?_⟩
  rintro (hg | hnew | ⟨v, hv, -⟩)
  · exact hg
  · exact (NewTable.not_self hnew).elim
  · exact (not_mem_nil hv).elim

theorem Grown.noFrame (hg : Grown pages pending P own s s1) (hn : NoFrame s1 s2) :
    Grown pages pending P own s s2 := by
  have hlayout := hg.layout.noFrame hn
  obtain ⟨m, rfl, -, -, hused⟩ := hn
  have hrest : ({ s1 with pmm := m } : Paging) = { s with pmm := m, ram := s1.ram } := by
    rw [hg.rest]
  refine ⟨hlayout, hrest, hg.user, hg.fresh, hg.page, hg.zero, hg.walk, hg.bytes, hg.entries,
    fun g => ?_⟩
  rw [hused]
  exact hg.used g

theorem Grown.active (hg : Grown pages pending P own s s') : s'.active = s.active := by
  rw [hg.rest]

theorem Grown.mapped (hg : Grown pages pending P own s s') (hu : OnPages P u) :
    ∃ e, s'.walk u = some e := by
  obtain ⟨v, hv, huv⟩ := hu
  obtain ⟨f, hf, -⟩ := hg.page v hv
  exact ⟨_, (walk_page huv).trans hf⟩

theorem Grown.add (hg : Grown pages pending P own1 s s1)
    (hv : v < userSpaceTop) (hnew : ¬ OnPages P v) (ha : Adds pages pending v own1 own2 s1 s2) :
    Grown pages pending (P ++ [v]) own2 s s2 := by
  have hactive := hg.active
  have hrest : s2 = { s with pmm := s2.pmm, ram := s2.ram } := by
    rw [ha.rest, hg.rest]
  have hapart : ∀ w ∈ P, w / pageSize ≠ v / pageSize := fun w hw h => hnew ⟨w, hw, h.symm⟩
  have hwalk : ∀ u < userSpaceTop, u / pageSize ≠ v / pageSize → s2.walk u = s1.walk u :=
    fun u hu hne => ha.walk u (user_index hu) hne
  have hbytes {u} := hg.layout.byteAt_apart ha.walk ha.data (u := u)
  have hentries := ha.entries
  rw [hactive] at hentries
  obtain ⟨f, hf, hfree, hzero⟩ := ha.page
  refine ⟨ha.layout, hrest, forall_mem_append.mpr ⟨hg.user, forall_mem_singleton.mpr hv⟩,
    forall_mem_append.mpr ⟨hg.fresh, ?_⟩, fun w hw => ?_, fun u hu hon => ?_,
    fun u hu hon => ?_, fun u hu hon => ?_, fun i e he => hentries i e (hg.entries i e he),
    fun g => ?_⟩
  · rw [forall_mem_singleton, ← hg.walk v hv hnew]
    exact ha.fresh
  · rcases mem_append.mp hw with hw | hw
    · obtain ⟨g, hwg, hfree'⟩ := hg.page w hw
      exact ⟨g, (hwalk w (hg.user w hw) (hapart w hw)).trans hwg, hfree'⟩
    · rw [mem_singleton.mp hw]
      refine ⟨f, hf, ?_⟩
      have := (hg.used f).not.mp (by rw [hfree]; nofun)
      exact Bool.eq_false_iff.mpr fun h => this (.inl h)
  · rcases eq_or_ne (u / pageSize) (v / pageSize) with heq | hne
    · rw [byteAt, Paging.page, walk_page heq, hf]
      exact congrArg some (hzero _)
    · rw [hbytes hu hne]
      exact hg.zero u hu ((onPages_append.mp hon).resolve_right hne)
  · rw [onPages_append, not_or] at hon
    exact (hwalk u hu hon.2).trans (hg.walk u hu hon.1)
  · rw [onPages_append, not_or] at hon
    exact (hbytes hu hon.2).trans (hg.bytes u hu hon.1)
  · have hpages : (∃ w ∈ P ++ [v], s2.page w = some g) ↔
        (∃ w ∈ P, s1.page w = some g) ∨ s2.page v = some g := by
      simp only [mem_append, mem_singleton, or_and_right, exists_or, exists_eq_left]
      refine or_congr (exists_congr fun w => and_congr_right fun hw => ?_) .rfl
      rw [Paging.page, Paging.page, hwalk w (hg.user w hw) (hapart w hw)]
    rw [ha.used, hg.used, NewTable.trans_iff hactive hg.entries hentries, hpages,
      or_assoc, or_or_or_comm]

theorem Grown.remove (hg : Grown pages pending (v :: P) own1 s s1)
    (hnew : ¬ OnPages P v) (hpage : s1.page v = some f)
    (hr : Removes pages pending v f own1 own2 s1 s2) : Grown pages pending P own2 s s2 := by
  have hactive := hg.active
  have hrest : s2 = { s with pmm := s2.pmm, ram := s2.ram } := by
    rw [hr.rest, hg.rest]
  have hv := hg.user v mem_cons_self
  have hapart : ∀ w ∈ P, w / pageSize ≠ v / pageSize := fun w hw h => hnew ⟨w, hw, h.symm⟩
  have hwalk : ∀ u < userSpaceTop, u / pageSize ≠ v / pageSize → s2.walk u = s1.walk u :=
    fun u hu hne => hr.walk u (user_index hu) hne
  have hbytes {u} := hg.layout.byteAt_apart hr.walk hr.data (u := u)
  have hentries := hr.entries
  rw [hactive] at hentries
  have hne : ∀ u, OnPages P u → u / pageSize ≠ v / pageSize := fun u ⟨w, hw, huw⟩ h =>
    hapart w hw (huw.symm.trans h)
  -- where the page was there is nothing again
  have hback : ∀ u < userSpaceTop, ¬ OnPages P u → s2.walk u = s.walk u := fun u hu hon => by
    rcases eq_or_ne (u / pageSize) (v / pageSize) with heq | hne
    · rw [walk_page heq, walk_page heq, hr.gone, hg.fresh v mem_cons_self]
    · rw [hwalk u hu hne]
      exact hg.walk u hu fun h => hon ((onPages_cons.mp h).resolve_left hne)
  refine ⟨hr.layout, hrest, (forall_mem_cons.mp hg.user).2,
    (forall_mem_cons.mp hg.fresh).2, fun w hw => ?_, fun u hu hon => ?_,
    hback, fun u hu hon => ?_, fun i e he => ?_, fun g => ?_⟩
  · have hw' := mem_cons_of_mem v hw
    rw [hwalk w (hg.user w hw') (hapart w hw)]
    exact hg.page w hw'
  · rw [hbytes hu (hne u hon)]
    exact hg.zero u hu (onPages_cons.mpr (.inr hon))
  · rcases eq_or_ne (u / pageSize) (v / pageSize) with heq | hne
    · rw [byteAt, byteAt, Paging.page, Paging.page, hback u hu hon, walk_page heq,
        hg.fresh v mem_cons_self]
      rfl
    · rw [hbytes hu hne]
      exact hg.bytes u hu fun h => hon ((onPages_cons.mp h).resolve_left hne)
  · rw [hentries]
    exact hg.entries i e he
  · have htables : NewTable s s2 g ↔ NewTable s s1 g := by
      rw [NewTable, NewTable]
      simp only [hentries]
    have hpages : (∃ w ∈ P, s2.page w = some g) ↔ ∃ w ∈ P, s1.page w = some g := by
      refine exists_congr fun w => and_congr_right fun hw => ?_
      rw [Paging.page, Paging.page, hwalk w (hg.user w (mem_cons_of_mem v hw)) (hapart w hw)]
    obtain ⟨e, he, hframe⟩ := Option.map_eq_some_iff.mp hpage
    -- the frame was free before, is no table, and is that of no other page
    have hfree : s.pmm.used f ≠ true := by
      obtain ⟨f', hf', hfree⟩ := hg.page v mem_cons_self
      cases hf'.symm.trans he
      rw [← hframe, hfree]
      exact Bool.false_ne_true
    have htable : ¬ NewTable s s1 f := by
      rintro ⟨i, hi, d, -, hd, hdf⟩
      rw [← hactive] at hd
      obtain ⟨a, ha, -, hat⟩ := hg.layout.table_role hi hd
      have hrole := hg.layout.walk_role hv he
      rw [hdf, ← hframe, hrole] at ha
      cases ha
      exact hat
    have hother : ∀ w ∈ P, s1.page w ≠ some f := fun w hw hpw =>
      hapart w hw (hg.layout.page_inj (hg.user w (mem_cons_of_mem v hw)) hv hpw hpage)
    have hcons : (∃ w ∈ v :: P, s1.page w = some g) ↔ f = g ∨ ∃ w ∈ P, s1.page w = some g := by
      simp only [mem_cons, or_and_right, exists_or, exists_eq_left, hpage, Option.some.injEq]
    rw [hr.used, hg.used, htables, hpages, hcons]
    constructor
    · rintro ⟨hused | hnew | rfl | hw, hgf⟩
      · exact .inl hused
      · exact .inr (.inl hnew)
      · exact absurd rfl hgf
      · exact .inr (.inr hw)
    · rintro (hused | hnew | ⟨w, hw, hpw⟩)
      · exact ⟨.inl hused, by rintro rfl; exact hfree hused⟩
      · exact ⟨.inr (.inl hnew), by rintro rfl; exact htable hnew⟩
      · exact ⟨.inr (.inr (.inr ⟨w, hw, hpw⟩)), by rintro rfl; exact hother w hw hpw⟩

theorem Shrunk.nil (h : Settled own pages pending s) : Shrunk pages pending [] own s s :=
  ⟨h, rfl, nofun, fun _ _ _ => rfl, fun _ _ _ => rfl⟩

theorem Shrunk.unmapped (hg : Shrunk pages pending P own s s') (hu : OnPages P u) :
    s'.walk u = none := by
  obtain ⟨v, hv, huv⟩ := hu
  exact (walk_page huv).trans (hg.gone v hv)

theorem Shrunk.cons (h : Settled own pages pending s)
    (hr : Removes pages pending v f own own1 s s1) (hv : v < userSpaceTop)
    (hg : Shrunk pages pending P own2 s1 s2) : Shrunk pages pending (v :: P) own2 s s2 := by
  have hrest : s2 = { s with pmm := s2.pmm, ram := s2.ram } := by
    rw [hg.rest, hr.rest]
  refine ⟨hg.layout, hrest, fun w hw => ?_, fun u hu hon => ?_, fun u hu hon => ?_⟩
  · rcases mem_cons.mp hw with rfl | hw
    · by_cases hon : OnPages P w
      · exact hg.unmapped hon
      · rw [hg.walk w hv hon]
        exact hr.gone
    · exact hg.gone w hw
  · rw [onPages_cons, not_or] at hon
    exact (hg.walk u hu hon.2).trans (hr.walk u (user_index hu) hon.1)
  · rw [onPages_cons, not_or] at hon
    exact (hg.bytes u hu hon.2).trans (h.byteAt_apart hr.walk hr.data hu hon.1)

end Paging

end ManiOS.Mm

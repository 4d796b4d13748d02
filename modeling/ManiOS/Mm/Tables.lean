import ManiOS.Mm.Layout

/-!
# `vmm_map_page` and `vmm_unmap_page`

To map a page takes a table, which may have to be made, and an entry in it.  The
first part is `MakesTable`: no page is mapped or unmapped by it, and the table is in
every directory of the list if it is one of the kernel.  The second part stores one
entry of that table.
-/

namespace ManiOS.Mm

open Function (update update_self update_of_ne)
open List Option

namespace Paging

variable {own own' : Roles} {pages : List Space} {pending : Nat → Option (Nat × Nat)}
  {s s' : Paging} {p : Space} {f t i j virt phys pdi pti : Nat} {flags : MapFlags}
  {m : Pmm} {r : Ram} {x : Option Entry} {e : Entry}

/-- The frame of a page, by the two entries that the processor reads. -/
theorem page_eq {pde pte : Entry} (hpde : s.ram.entry s.active.frame (pdIndexOf virt) = some pde)
    (hpte : s.ram.entry pde.frame (ptIndexOf virt) = some pte) : s.page virt = some pte.frame := by
  rw [page, walk, hpde, bind_some, hpte, map_some]

theorem walk_eq {pde : Entry} (hpde : s.ram.entry s.active.frame (pdIndexOf virt) = some pde) :
    s.walk virt = s.ram.entry pde.frame (ptIndexOf virt) := by
  rw [walk, hpde, bind_some]

theorem user_area (h : virt < userSpaceTop) :
    virt < 4294967296 ∧ pdIndexOf virt < kernelPdFirst := by
  simp only [pdIndexOf, kernelPdFirst, userSpaceTop] at *
  omega

theorem pdIndexOf_lt (h : virt < 4294967296) : pdIndexOf virt < 1024 := by
  simp only [pdIndexOf]
  omega

theorem pdIndexOf_kernelPageTable (hi : i < 1024) :
    pdIndexOf (kernelPageTable i) = ptAreaIndex := by
  simp only [pdIndexOf, kernelPageTable, kernelPtAreaStart, pageSize, ptAreaIndex]
  omega

theorem ptIndexOf_kernelPageTable (hi : i < 1024) : ptIndexOf (kernelPageTable i) = i := by
  simp only [ptIndexOf, kernelPageTable, kernelPtAreaStart, pageSize]
  omega

/-! ## A frame -/

/-- A call found no frame: at most the search hint has moved. -/
def NoFrame (s s' : Paging) : Prop :=
  ∃ m : Pmm, s' = { s with pmm := m } ∧ m.Ok ∧ m.frameCount = s.pmm.frameCount ∧ m.used = s.pmm.used

/-- `pmm_alloc_frame` hands out the frame `t`, which had no role. -/
structure Allocs (own : Roles) (s : Paging) (m : Pmm) (t : Nat) : Prop where
  alloc : s.allocFrame = (t * pageSize, { s with pmm := m })
  ok : m.Ok
  count : m.frameCount = s.pmm.frameCount
  used : m.used = update s.pmm.used t true
  small : t < 1048576
  role : own t = none
  taken : m.Taken t
  free : s.pmm.used t = false

theorem Allocs.mono (ha : Allocs own s m t) (f : Nat) (hf : s.pmm.Taken f) : m.Taken f :=
  hf.mono ha.count (.inr ha.used)

theorem Allocs.ne_zero (ha : Allocs own s m t) : t * pageSize ≠ 0 :=
  Nat.mul_ne_zero ha.taken.2.1 (by decide)

theorem Allocs.phys_lt (ha : Allocs own s m t) : t * pageSize < 4294967296 := by
  have hsmall := ha.small
  simp only [pageSize]
  omega

/-! ## One entry -/

section

variable (h : Layout own pages pending s)
include h

theorem Layout.storePage (hpdi : pdi < 1024) (he : s.ram.entry s.active.frame pdi = some e) :
    s.storePage pdi pti phys flags =
      some (if (s.ram.entry e.frame pti).isSome then (false, s)
        else (true, { s with ram := (s.ram.setEntry e.frame pti
          (some ⟨phys / pageSize, flags.writable, flags.user, flags.uncached⟩)) })) := by
  have hpage : s.page (pageTable pdi) = some e.frame := by
    rw [h.page_pageTable hpdi, he, map_some]
  rw [Paging.storePage, load, hpage, map_some, bind_some, store, hpage]
  split <;> rfl

theorem Layout.of_pmm (hok : m.Ok)
    (hused : ∀ f, s.pmm.Taken f → m.Taken f) : Layout own pages pending { s with pmm := m } :=
  h.of_data hok (fun f a hf => hused f (h.used f a hf)) (fun _ _ hf _ => hf) fun _ _ _ _ => rfl

theorem Layout.alloc : (∃ m : Pmm, s.allocFrame = (0, { s with pmm := m }) ∧
      NoFrame s { s with pmm := m }) ∨ ∃ m t, Allocs own s m t := by
  obtain ⟨⟨hzero, hused⟩ | ⟨t, hpos, hlt, hfree, haddr, hused⟩, hcount⟩ := h.ok.alloc
  · refine .inl ⟨s.pmm.allocFrame.2, by rw [allocFrame, hzero], _, rfl, ?_, hcount, hused⟩
    exact ⟨hcount ▸ h.ok.limit, hused ▸ h.ok.first,
      fun x hx => hused ▸ h.ok.absent x (hcount ▸ hx)⟩
  · refine .inr ⟨s.pmm.allocFrame.2, t, by rw [allocFrame, haddr],
      h.ok.of_update hcount hused hpos hlt, hcount, hused, Nat.lt_of_lt_of_le hlt h.ok.limit, ?_,
      ⟨by rw [hused, update_self], hpos, hcount ▸ hlt⟩, hfree⟩
    refine Option.eq_none_iff_forall_ne_some.mpr fun a ha => ?_
    exact Bool.false_ne_true (hfree.symm.trans (h.used t a ha).1)

theorem Layout.freeFrame {a : Role} (hf : own f = some a) :
    ∃ m : Pmm, s.freeFrame (f * pageSize) = some { s with pmm := m } ∧ m.Ok ∧
      m.frameCount = s.pmm.frameCount ∧ m.used = update s.pmm.used f false := by
  obtain ⟨hused, hpos, hlt⟩ := h.used f a hf
  obtain ⟨m, hm, hused', hcount, hok⟩ := h.ok.free hpos hlt hused
  exact ⟨m, by rw [Paging.freeFrame, hm, map_some], hok, hcount, hused'⟩

theorem Layout.used_give {a : Role} (hcount : m.frameCount = s.pmm.frameCount)
    (hused : m.used = update s.pmm.used f false) {g : Nat} (hg : update own f none g = some a) :
    m.Taken g := by
  rcases eq_or_ne g f with rfl | hne
  · rw [update_self] at hg
    cases hg
  · rw [update_of_ne hne] at hg
    obtain ⟨hused', hpos, hlt⟩ := h.used g a hg
    exact ⟨by rw [hused, update_of_ne hne]; exact hused', hpos, hcount ▸ hlt⟩

theorem Layout.give (hf : own f = some .held) :
    ∃ m : Pmm, s.freeFrame (f * pageSize) = some { s with pmm := m } ∧
      m.used = update s.pmm.used f false ∧
      Layout (update own f none) pages pending { s with pmm := m } := by
  obtain ⟨m, hm, hok, hcount, hused⟩ := h.freeFrame hf
  exact ⟨m, hm, hused, h.of_data hok (fun _ _ => h.used_give hcount hused)
    (fun _ _ hg hne => role_change hg hf hne) fun _ _ _ _ => rfl⟩

theorem NoFrame.layout (hn : NoFrame s s') : Layout own pages pending s' := by
  obtain ⟨m, rfl, hok, hcount, hused⟩ := hn
  exact h.of_pmm hok fun f hf => hf.mono (t := 0) hcount (.inl hused)

theorem Layout.take (ha : Allocs own s m t) :
    Layout (update own t (some .held)) pages pending { s with pmm := m } :=
  h.of_data ha.ok (h.used_enter ha.mono ha.taken) (fun _ _ hg _ => role_update ha.role hg)
    fun _ _ _ _ => rfl

theorem Layout.entry_role (hi : i < ptAreaIndex) (he : s.ram.entry s.active.frame i = some e) :
    own e.frame =
      some (if i < kernelPdFirst then .userTable s.active.frame i else .kernelTable i) := by
  split
  next hlt => exact (h.userTable _ h.active i hlt e he).1
  next hge =>
    have hge := Nat.le_of_not_lt hge
    exact h.kernelTable i hge hi e ((h.shared_active hge hi).symm.trans he)

theorem Layout.table_role (hi : i < ptAreaIndex) (he : s.ram.entry s.active.frame i = some e) :
    ∃ a, own e.frame = some a ∧ a ≠ .dir ∧ a.IsTable := by
  refine ⟨_, h.entry_role hi he, ?_, ?_⟩
  · split <;> simp
  · split <;> trivial

theorem Layout.walk_congr (hram : ∀ f a, own f = some a → a.IsTable → r.entry f = s.ram.entry f)
    (hvirt : pdIndexOf virt < ptAreaIndex) : walk virt { s with ram := r } = s.walk virt := by
  rw [walk]
  rw [hram _ _ h.active_dir trivial]
  refine bind_congr fun d hd => ?_
  obtain ⟨a, ha, -, htable⟩ := h.table_role hvirt hd
  rw [hram _ a ha htable]

/-- A page of the kernel's half can be reached from every address space. -/
theorem Layout.window_of_walk
    (hlo : kernelPdFirst ≤ pdIndexOf virt) (hhi : pdIndexOf virt < ptAreaIndex)
    (hw : s.walk virt = some e) : s.Window ⟨virt, e.frame⟩ := by
  obtain ⟨pde, hpde, hpte⟩ := Option.bind_eq_some_iff.mp hw
  rw [h.shared_active hlo hhi] at hpde
  exact ⟨hlo, hhi, pde, e, hpde, hpte, rfl⟩

/-- A directory is where it was, if the tables that lead to it are. -/
theorem Layout.page_window (hp : p ∈ s.spaces ++ pages)
    (hdir : ∀ d, s.ram.entry s.active.frame (pdIndexOf p.pd) = some d →
      r.entry s.active.frame (pdIndexOf p.pd) = some d)
    (htable : ∀ f, own f = some (.kernelTable (pdIndexOf p.pd)) →
      r.entry f (ptIndexOf p.pd) = s.ram.entry f (ptIndexOf p.pd)) :
    page p.pd { s with pmm := m, ram := r } = some p.frame := by
  obtain ⟨hlo, hhi, pde, pte, hpde, hpte, hframe⟩ := h.window p hp
  have hpde' := hdir pde ((h.shared_active hlo hhi).trans hpde)
  have hpte' := (htable _ (h.kernelTable _ hlo hhi pde hpde)).trans hpte
  rw [page_eq (s := { s with pmm := m, ram := r }) hpde' hpte', hframe]

variable {a : Role}

omit h in
theorem Layout.zero_entry (h : own f = some .held) {g : Nat} (hg : own g = some a)
    (ha : a.IsTable) : (r.zero f).entry g = r.entry g := by
  refine Ram.entry_congr (Ram.zero_of_ne (role_ne hg h ?_))
  rintro rfl
  exact ha

theorem Layout.index_inj {d : Entry} (hi : i < ptAreaIndex) (hj : j < ptAreaIndex)
    (hd : s.ram.entry s.active.frame i = some d)
    (he : s.ram.entry s.active.frame j = some e) (hframe : d.frame = e.frame) : i = j := by
  have hi := h.entry_role hi hd
  rw [hframe, h.entry_role hj he] at hi
  split at hi <;> split at hi <;> first | cases hi; rfl | cases hi

/-- An entry of a table of the active directory is changed: its page changes, and no
other. -/
theorem Layout.walk_setEntry (hhi : pdIndexOf virt < ptAreaIndex)
    (he : s.ram.entry s.active.frame (pdIndexOf virt) = some e) (hx : Entry.Fits x) :
    walk virt { s with ram := (s.ram.setEntry e.frame (ptIndexOf virt) x) } = x ∧
      ∀ v, pdIndexOf v < ptAreaIndex → v / pageSize ≠ virt / pageSize →
        walk v { s with ram := (s.ram.setEntry e.frame (ptIndexOf virt) x) } = s.walk v := by
  obtain ⟨a, ha, hdir, -⟩ := h.table_role hhi he
  have hentry := Ram.entry_setEntry (r := s.ram) (f := e.frame) (i := ptIndexOf virt) hx
  have hactive : ∀ k, (s.ram.setEntry e.frame (ptIndexOf virt) x).entry s.active.frame k =
      s.ram.entry s.active.frame k := fun k => by
    rw [hentry, if_neg fun hc => role_ne ha h.active_dir hdir hc.1.symm]
  refine ⟨?_, fun v hv hvne => ?_⟩
  · rw [walk]
    rw [hactive, he, bind_some, hentry, if_pos ⟨rfl, rfl⟩]
  · rw [walk]
    rw [hactive]
    refine bind_congr fun d hd => ?_
    rw [hentry, if_neg fun hc => hvne ?_]
    have hpd := h.index_inj hv hhi hd he hc.1
    have hpt := hc.2
    simp only [pdIndexOf, ptIndexOf, pageSize] at hpd hpt ⊢
    omega

/-! ## A page table is made -/

/-- A frame holds a table of the active directory that was not there before. -/
def NewTable (s s' : Paging) (f : Nat) : Prop :=
  ∃ i < ptAreaIndex, ∃ e, s.ram.entry s.active.frame i = none ∧
    s'.ram.entry s.active.frame i = some e ∧ e.frame = f

/-- A table for entry `pdi` of the active directory is there, or is made.  Everything
else is as before. -/
structure MakesTable (pages : List Space) (pending : Nat → Option (Nat × Nat)) (pdi : Nat)
    (own own' : Roles) (s s' : Paging) : Prop where
  layout : Layout own' pages pending s'
  rest : s' = { s with pmm := s'.pmm, ram := s'.ram }
  table : ∃ e, s'.ram.entry s.active.frame pdi = some e
  roles : ∀ f a, own f = some a → own' f = some a
  data : ∀ f a, own f = some a → ¬ a.IsTable → s'.ram f = s.ram f
  unlisted : ∀ f, own f = some .dir → f ∉ s.spaces.map Space.frame → s'.ram f = s.ram f
  frameCount : s'.pmm.frameCount = s.pmm.frameCount
  walk : ∀ virt, pdIndexOf virt < ptAreaIndex → s'.walk virt = s.walk virt
  entries : ∀ i e, s.ram.entry s.active.frame i = some e → s'.ram.entry s.active.frame i = some e
  used : ∀ f, s'.pmm.used f = true ↔ s.pmm.used f = true ∨ NewTable s s' f

theorem MakesTable.there (he : s.ram.entry s.active.frame pdi = some e) :
    MakesTable pages pending pdi own own s s where
  layout := h
  rest := rfl
  table := ⟨e, he⟩
  roles _ _ hf := hf
  data _ _ _ _ := rfl
  unlisted _ _ _ := rfl
  frameCount := rfl
  walk _ _ := rfl
  entries _ _ he := he
  used f := ⟨.inl, fun hor => hor.elim id fun ⟨i, _, e, hnone, he, _⟩ => by
    cases hnone.symm.trans he⟩

theorem MakesTable.made {D : List Nat} (hpdi : pdi < ptAreaIndex)
    (hnone : s.ram.entry s.active.frame pdi = none) (ht : own t = none)
    (hD : ∀ g ∈ D, g ∈ s.spaces.map Space.frame) (hactive : s.active.frame ∈ D)
    (hcount : m.frameCount = s.pmm.frameCount)
    (hlayout : Layout (update own t (some a)) pages pending { s with pmm := m, ram := r })
    (hused : m.used = update s.pmm.used t true) {u : Bool}
    (hram : ∀ g k, r.entry g k = if g = t then none else
      if k = pdi ∧ g ∈ D then some ⟨t, true, u, false⟩ else s.ram.entry g k)
    (hdata : ∀ g, g ≠ t → g ∉ D → r g = s.ram g) :
    MakesTable pages pending pdi own (update own t (some a)) s { s with pmm := m, ram := r } := by
  have hAt : s.active.frame ≠ t := role_ne_none h.active_dir ht
  have hdirs : ∀ g ∈ D, own g = some .dir := fun g hg => h.listed_dir (hD g hg)
  have hdir : ∀ k, r.entry s.active.frame k =
      if k = pdi then some ⟨t, true, u, false⟩ else s.ram.entry s.active.frame k := fun k => by
    rw [hram, if_neg hAt]
    exact if_congr (and_iff_left hactive) rfl rfl
  refine ⟨hlayout, rfl, ⟨_, (hdir pdi).trans (if_pos rfl)⟩, fun f b hf => role_update ht hf,
    fun f b hf hb => ?_,
    fun f hf hlist => hdata f (role_ne_none hf ht) fun hin => hlist (hD f hin), hcount,
    fun virt hvirt => ?_, fun i e he => ?_, fun f => ?_⟩
  · refine hdata f (role_ne_none hf ht) fun hin => hb ?_
    cases hf.symm.trans (hdirs f hin)
    trivial
  · -- the table is empty, and pages of other tables are where they were
    rw [Paging.walk, Paging.walk]
    refine .trans (congrArg (Option.bind · _) (hdir _)) ?_
    split
    next hpdi =>
      rw [hpdi, hnone]
      exact (hram _ _).trans (if_pos rfl)
    next hpdi =>
      refine bind_congr fun d hd => ?_
      obtain ⟨b, hb, hne, -⟩ := h.table_role hvirt hd
      refine (hram _ _).trans ?_
      rw [if_neg (role_ne_none hb ht), if_neg fun hc => role_ne hb (hdirs _ hc.2) hne rfl]
  · refine (hdir i).trans ((if_neg ?_).trans he)
    rintro rfl
    cases hnone.symm.trans he
  · rw [hused, Function.update_apply]
    constructor
    · intro hf
      split at hf
      next heq => exact .inr ⟨pdi, hpdi, _, hnone, (hdir pdi).trans (if_pos rfl), heq.symm⟩
      next => exact .inl hf
    · rintro (hf | ⟨i, -, e, hnone', he, rfl⟩)
      · rw [hf]
        exact ite_self true
      · have he := (hdir i).symm.trans he
        split at he
        next =>
          cases he
          exact if_pos rfl
        next => cases hnone'.symm.trans he

omit h in
/-- A table is entered in a directory, and reached by that entry. -/
theorem page_setEntry (hpde : s.ram.entry s.active.frame (pdIndexOf virt) = some e)
    (hne : pdIndexOf virt ≠ ptIndexOf virt) {e' : Entry} (hfits : Entry.Fits (some e')) :
    page virt { s with ram := (s.ram.setEntry e.frame (ptIndexOf virt) (some e')) } =
      some e'.frame := by
  have hpde' : (s.ram.setEntry e.frame (ptIndexOf virt) (some e')).entry s.active.frame
      (pdIndexOf virt) = some e := by
    rw [Ram.entry_setEntry hfits, if_neg fun hc => hne hc.2, hpde]
  exact page_eq hpde' ((Ram.entry_setEntry hfits _ _).trans (if_pos ⟨rfl, rfl⟩))

theorem Layout.makeTable_user (hpdi : pdi < kernelPdFirst)
    (hnone : s.ram.entry s.active.frame pdi = none) (ha : Allocs own s m t)
    (mapTable : Nat → Nat → Paging → Option (Bool × Paging)) :
    ∃ s' own', s.makeTable mapTable pdi true = some (true, s') ∧
      MakesTable pages pending pdi own own' s s' := by
  have hfits : Entry.Fits (some ⟨t, true, true, false⟩) := Entry.fits_some ha.small
  have hlt : pdi < 1024 := Nat.lt_trans hpdi (by decide)
  have hself : s.ram.entry s.active.frame (pdIndexOf (pageTable pdi)) =
      some ⟨s.active.frame, true, false, false⟩ := by
    rw [pdIndexOf_pageTable hlt]
    exact h.self _ h.active
  -- the entry is stored, then the table is cleared
  have hpage := page_setEntry (s := { s with pmm := m }) hself (by
    rw [pdIndexOf_pageTable hlt, ptIndexOf_pageTable hlt]
    simp only [recursivePdIndex, kernelPdFirst] at *
    omega) hfits
  rw [ptIndexOf_pageTable hlt] at hpage
  generalize hr : s.ram.setEntry s.active.frame pdi (some ⟨t, true, true, false⟩) = r at hpage
  have hentry : ∀ g k, (r.zero t).entry g k = if g = t then none else
      if g = s.active.frame ∧ k = pdi then some ⟨t, true, true, false⟩
      else s.ram.entry g k := fun g k => by
    rw [Ram.entry_zero, ← hr, Ram.entry_setEntry hfits]
  refine ⟨{ s with pmm := m, ram := r.zero t }, update own t (some (.userTable s.active.frame pdi)),
    ?_, ?_⟩
  · rw [makeTable, ha.alloc]
    dsimp only
    rw [if_neg ha.ne_zero, if_neg (Nat.not_le.mpr hpdi), store, (h.of_pmm ha.ok ha.mono).page_pd,
      Nat.mul_div_cancel t (by decide), map_some, bind_some, hr, clear, hpage]
    rfl
  · refine .made (D := [s.active.frame]) (u := true) h (Nat.lt_trans hpdi (by decide)) hnone ha.role
      ?_ (mem_singleton_self _) ha.count
      (h.enterUserTable h.active hpdi ha.role hentry ha.ok ha.mono ha.taken)
      ha.used (fun g k => ?_) fun g hgt hgD => ?_
    · exact forall_mem_singleton.mpr (mem_map_of_mem h.active)
    · rw [hentry]
      simp only [mem_singleton, and_comm]
    · rw [Ram.zero_of_ne hgt, ← hr, Ram.setEntry_of_ne_frame]
      exact fun heq => hgD (mem_singleton.mpr heq)

omit h in
/-- An entry is written into every directory of a list.  No directory is reached by
that entry. -/
theorem storeAll_spec {D : List Nat} (hx : Entry.Fits x) (ps : List Space)
    (hD : ∀ p ∈ ps, p.frame ∈ D)
    (hpage : ∀ p ∈ ps, ∀ r : Ram, (∀ g k, ¬ (k = i ∧ g ∈ D) → r.entry g k = s.ram.entry g k) →
      page p.pd { s with ram := r } = some p.frame) :
    ∃ r, s.storeAll i x ps = some { s with ram := r } ∧
      (∀ g k, r.entry g k = if k = i ∧ g ∈ ps.map Space.frame then x else s.ram.entry g k) ∧
      ∀ g ∉ ps.map Space.frame, r g = s.ram g := by
  induction ps generalizing s with
  | nil => exact ⟨s.ram, rfl, fun g k => by simp, fun _ _ => rfl⟩
  | cons p ps ih =>
    have hp := hpage p mem_cons_self s.ram fun _ _ _ => rfl
    have hentry := Ram.entry_setEntry (r := s.ram) (f := p.frame) (i := i) hx
    obtain ⟨r, hr, hentry', hdata⟩ := ih (s := { s with ram := s.ram.setEntry p.frame i x })
      (forall_mem_cons.mp hD).2 fun q hq r' hr' => by
        refine hpage q (mem_cons_of_mem _ hq) r' fun g k hgk => ?_
        refine (hr' g k hgk).trans ((hentry g k).trans (if_neg fun hc => hgk ⟨hc.2, ?_⟩))
        rw [hc.1]
        exact hD p mem_cons_self
    refine ⟨r, ?_, fun g k => ?_, fun g hg => ?_⟩
    · rw [storeAll, store, hp, map_some]
      exact hr
    · rw [hentry']
      split
      next hc => rw [if_pos ⟨hc.1, mem_cons_of_mem _ hc.2⟩]
      next hc =>
        refine (hentry g k).trans (if_congr ?_ rfl rfl)
        refine ⟨fun ⟨hg, hk⟩ => ⟨hk, ?_⟩, fun ⟨hk, hg⟩ => ⟨?_, hk⟩⟩
        · rw [hg]
          exact mem_cons_self
        · exact (mem_cons.mp hg).resolve_right fun hin => hc ⟨hk, hin⟩
    · rw [map_cons, mem_cons, not_or] at hg
      exact (hdata g hg.2).trans (Ram.setEntry_of_ne_frame hg.1)

/-- To map a page table of the kernel is to store its entry in the kernel's directory. -/
theorem Layout.mapPageLocked_area (n : Nat) (hpdi : pdi < 1024)
    (hnone : s.ram.entry s.kernelSpace.frame pdi = none) :
    s.mapPageLocked (n + 1) (kernelPageTable pdi) (t * pageSize) ⟨true, false, false⟩ =
      some (true, { s with ram :=
        (s.ram.setEntry s.kernelSpace.frame pdi (some ⟨t, true, false, false⟩)) }) := by
  have hcheck : ¬ (kernelPageTable pdi % pageSize ≠ 0 ∨ t * pageSize % pageSize ≠ 0 ∨
      ptAreaIndex = recursivePdIndex ∨
      false ≠ decide (kernelPageTable pdi < userSpaceTop)) := by
    have hmod := Nat.mul_mod_left t pageSize
    have htop : ¬ kernelPageTable pdi < userSpaceTop := by
      simp only [kernelPageTable, kernelPtAreaStart, userSpaceTop]
      omega
    simp only [hmod, htop, decide_false, ne_eq, not_true_eq_false, or_false, false_or]
    simp only [kernelPageTable, kernelPtAreaStart, pageSize, ptAreaIndex, recursivePdIndex]
    omega
  rw [mapPageLocked]
  rw [pdIndexOf_kernelPageTable hpdi, ptIndexOf_kernelPageTable hpdi, if_neg hcheck, load,
    h.page_pd, map_some, bind_some, h.active_area,
    h.storePage (by decide) h.active_area, hnone, Nat.mul_div_cancel t (by decide)]
  rfl

theorem Layout.makeTable_kernel (n : Nat) (hlo : kernelPdFirst ≤ pdi)
    (hhi : pdi < ptAreaIndex) (hnone : s.ram.entry s.active.frame pdi = none)
    (ha : Allocs own s m t) :
    ∃ s' own', s.makeTable (fun virt phys => mapPageLocked (n + 1) virt phys ⟨true, false, false⟩)
        pdi false = some (true, s') ∧ MakesTable pages pending pdi own own' s s' := by
  have hfits : Entry.Fits (some ⟨t, true, false, false⟩) := Entry.fits_some ha.small
  have ht := ha.role
  have hlt : pdi < 1024 := Nat.lt_trans hhi (by decide)
  have hnone' : s.ram.entry s.kernelSpace.frame pdi = none :=
    (h.shared_active hlo hhi).symm.trans hnone
  have hmemK : s.kernelSpace.frame ∈ s.spaces.map Space.frame := mem_map_of_mem h.kernel
  -- the table is mapped, then cleared
  have harea : s.ram.entry s.active.frame (pdIndexOf (kernelPageTable pdi)) =
      some ⟨s.kernelSpace.frame, true, false, false⟩ := by
    rw [pdIndexOf_kernelPageTable hlt]
    exact h.active_area
  have hpage := page_setEntry (s := { s with pmm := m }) harea (by
    rw [pdIndexOf_kernelPageTable hlt, ptIndexOf_kernelPageTable hlt]
    exact Nat.ne_of_gt hhi) hfits
  rw [ptIndexOf_kernelPageTable hlt] at hpage
  generalize hr : s.ram.setEntry s.kernelSpace.frame pdi (some ⟨t, true, false, false⟩) = r at hpage
  have hentry : ∀ g k, r.entry g k = if g = s.kernelSpace.frame ∧ k = pdi then
      some ⟨t, true, false, false⟩ else s.ram.entry g k := by
    rw [← hr]
    exact Ram.entry_setEntry hfits
  -- then it is written into every directory
  obtain ⟨r', hr', hentry', hdata⟩ := storeAll_spec (s := { s with pmm := m, ram := r.zero t })
    (i := pdi) (D := s.spaces.map Space.frame) (x := some ⟨t, true, false, false⟩)
    hfits s.spaces (fun p hp => mem_map_of_mem hp) fun p hp r' hr' => by
      refine h.page_window (mem_append_left _ hp) (fun d hd => ?_) fun f hf => ?_
      · have hother : pdIndexOf p.pd ≠ pdi := fun heq => by
          rw [heq, hnone] at hd
          cases hd
        refine (hr' _ _ fun hc => hother hc.1).trans ((Ram.entry_zero _ _).trans ?_)
        rw [if_neg (role_ne_none h.active_dir ht), hentry, if_neg fun hc => hother hc.2, hd]
      · refine (hr' _ _ fun hc => role_ne hf (h.listed_dir hc.2) nofun rfl).trans
          ((Ram.entry_zero _ _).trans ?_)
        rw [if_neg (role_ne_none hf ht), hentry,
          if_neg fun hc => role_ne hf h.kernel_dir nofun hc.1]
  have hfinal : ∀ g k, r'.entry g k = if g = t then none else
      if k = pdi ∧ g ∈ s.spaces.map Space.frame then some ⟨t, true, false, false⟩
      else s.ram.entry g k := by
    intro g k
    rw [hentry']
    rcases eq_or_ne g t with rfl | hgt
    · rw [if_neg fun hc => role_ne_none (h.listed_dir hc.2) ht rfl, if_pos rfl]
      exact (Ram.entry_zero _ _).trans (if_pos rfl)
    · rw [if_neg hgt]
      refine ite_congr rfl (fun _ => rfl) fun hc => ?_
      refine (Ram.entry_zero _ _).trans ?_
      rw [if_neg hgt, hentry]
      exact if_neg fun ⟨hg, hk⟩ => hc ⟨hk, hg ▸ hmemK⟩
  refine ⟨{ s with pmm := m, ram := r' }, update own t (some (.kernelTable pdi)), ?_, ?_⟩
  · rw [makeTable, ha.alloc]
    dsimp only
    rw [if_neg ha.ne_zero, if_pos hlo,
      (h.of_pmm ha.ok ha.mono).mapPageLocked_area n hlt hnone', bind_some]
    rw [hr, clear, hpage, map_some, bind_some, Nat.mul_div_cancel t (by decide), hr']
    rfl
  · refine .made (u := false) h hhi hnone ht (fun g hg => hg)
      (mem_map_of_mem h.active) ha.count
      (h.enterKernelTable hlo hhi hnone' ht hfinal ha.ok ha.mono ha.taken) ha.used hfinal
      fun g hgt hgD => ?_
    rw [hdata g hgD]
    refine (Ram.zero_of_ne hgt).trans ?_
    rw [← hr, Ram.setEntry_of_ne_frame]
    exact fun heq => hgD (heq ▸ hmemK)

/-! ## Mapping -/

/-- The entry that `vmm_map_page` stores. -/
def pageEntry (phys : Nat) (flags : MapFlags) : Entry :=
  ⟨phys / pageSize, flags.writable, flags.user, flags.uncached⟩

/-- A page is mapped: a table is there or made, and its entry is stored. -/
structure Maps (pages : List Space) (pending : Nat → Option (Nat × Nat)) (virt phys : Nat)
    (flags : MapFlags) (own own1 : Roles) (s s1 s' : Paging) : Prop where
  aligned : virt % pageSize = 0 ∧ phys % pageSize = 0
  user : flags.user = decide (virt < userSpaceTop)
  index : pdIndexOf virt < ptAreaIndex
  table : MakesTable pages pending (pdIndexOf virt) own own1 s s1
  entry : ∃ e, s1.ram.entry s.active.frame (pdIndexOf virt) = some e ∧
    s1.ram.entry e.frame (ptIndexOf virt) = none ∧
    s' = { s1 with ram := (s1.ram.setEntry e.frame (ptIndexOf virt) (some (pageEntry phys flags))) }

/-- Why a page cannot be mapped: the arguments are wrong, there is a page already, or there is
no frame for a table. -/
def Refused (virt phys : Nat) (flags : MapFlags) (s : Paging) : Prop :=
  (virt % pageSize ≠ 0 ∨ phys % pageSize ≠ 0 ∨ pdIndexOf virt = recursivePdIndex ∨
    flags.user ≠ decide (virt < userSpaceTop)) ∨ (s.walk virt).isSome = true ∨ s.allocFrame.1 = 0

theorem Layout.mapPage (phys : Nat) (flags : MapFlags) (hvirt : virt < 4294967296)
    (harea : pdIndexOf virt ≠ ptAreaIndex) :
    ∃ ok s', s.mapPage virt phys flags = some (ok, s') ∧
      (ok = false ∧ NoFrame s s' ∧ Refused virt phys flags s ∨
        ok = true ∧ ∃ own1 s1, Maps pages pending virt phys flags own own1 s s1 s') := by
  have hsame : NoFrame s s := ⟨s.pmm, rfl, h.ok, rfl, rfl⟩
  have hlt := pdIndexOf_lt hvirt
  rw [Paging.mapPage, mapPageLocked]
  split
  next hcheck => exact ⟨false, s, rfl, .inl ⟨rfl, hsame, .inl hcheck⟩⟩
  next hcheck =>
    simp only [not_or, not_not] at hcheck
    obtain ⟨hv, hp, hrec, huser⟩ := hcheck
    have hhi : pdIndexOf virt < ptAreaIndex := by
      simp only [recursivePdIndex, ptAreaIndex] at *
      omega
    rw [load, h.page_pd, map_some, bind_some]
    -- the entry, once there is a table
    have hstore : ∀ {own1 s1}, MakesTable pages pending (pdIndexOf virt) own own1 s s1 →
        ∃ ok s', s1.storePage (pdIndexOf virt) (ptIndexOf virt) phys flags = some (ok, s') ∧
          (ok = false ∧ s' = s1 ∧ (s.walk virt).isSome = true ∨
            ok = true ∧ Maps pages pending virt phys flags own own1 s s1 s') := by
      intro own1 s1 hmake
      obtain ⟨e, he⟩ := hmake.table
      have hactive : s1.active = s.active := by rw [hmake.rest]
      rw [hmake.layout.storePage hlt (by rw [hactive]; exact he)]
      split
      next hsome =>
        refine ⟨false, s1, rfl, .inl ⟨rfl, rfl, ?_⟩⟩
        rw [← hmake.walk virt hhi, walk_eq (by rw [hactive]; exact he)]
        exact hsome
      next hnone =>
        exact ⟨true, _, rfl, .inr ⟨rfl, ⟨hv, hp⟩, huser, hhi, hmake, e, he,
          Option.not_isSome_iff_eq_none.mp hnone, rfl⟩⟩
    split
    next hsome =>
      obtain ⟨e, he⟩ := Option.isSome_iff_exists.mp hsome
      obtain ⟨ok, s', hs', ⟨hok, rfl, hwalk⟩ | ⟨hok, hmaps⟩⟩ := hstore (.there h he)
      · exact ⟨ok, s', hs', .inl ⟨hok, hsame, .inr (.inl hwalk)⟩⟩
      · exact ⟨ok, s', hs', .inr ⟨hok, own, s, hmaps⟩⟩
    next hnone =>
      have hnone := Option.not_isSome_iff_eq_none.mp hnone
      have hmake : ∃ ok s', s.makeTable
            (fun virt phys => mapPageLocked 2 virt phys ⟨true, false, false⟩) (pdIndexOf virt)
            flags.user = some (ok, s') ∧
          (ok = false ∧ NoFrame s s' ∧ s.allocFrame.1 = 0 ∨ ok = true ∧ ∃ own',
            MakesTable pages pending (pdIndexOf virt) own own' s s') := by
        obtain ⟨m, hzero, hno⟩ | ⟨m, t, ha⟩ := h.alloc
        · refine ⟨false, _, ?_, .inl ⟨rfl, hno, by rw [hzero]⟩⟩
          rw [makeTable, hzero]
          rfl
        have htop : virt < userSpaceTop ↔ pdIndexOf virt < kernelPdFirst := by
          simp only [pdIndexOf, kernelPdFirst, userSpaceTop]
          omega
        rw [huser]
        by_cases hk : pdIndexOf virt < kernelPdFirst
        · rw [decide_eq_true (htop.mpr hk)]
          obtain ⟨s', own', hs', hmade⟩ := h.makeTable_user hk hnone ha _
          exact ⟨true, s', hs', .inr ⟨rfl, own', hmade⟩⟩
        · rw [decide_eq_false (mt htop.mp hk)]
          obtain ⟨s', own', hs', hmade⟩ :=
            h.makeTable_kernel 1 (Nat.le_of_not_lt hk) hhi hnone ha
          exact ⟨true, s', hs', .inr ⟨rfl, own', hmade⟩⟩
      obtain ⟨ok, s1, hs1, ⟨rfl, hno, hzero⟩ | ⟨rfl, own1, hmade⟩⟩ := hmake
      · refine ⟨false, s1, ?_, .inl ⟨rfl, hno, .inr (.inr hzero)⟩⟩
        rw [hs1]
        rfl
      · rw [hs1]
        obtain ⟨ok, s', hs', ⟨-, -, hwalk⟩ | ⟨hok, hmaps⟩⟩ := hstore hmade
        · -- a new table is empty
          rw [walk, hnone] at hwalk
          cases hwalk
        · exact ⟨ok, s', hs', .inr ⟨hok, own1, s1, hmaps⟩⟩

end

namespace Maps

variable {own1 : Roles} {s1 : Paging}

theorem fits (flags : MapFlags) (hphys : phys < 4294967296) :
    Entry.Fits (some (pageEntry phys flags)) := by
  refine Entry.fits_some ?_
  simp only [pageEntry, pageSize]
  omega

section

variable (hm : Maps pages pending virt phys flags own own1 s s1 s')
include hm

theorem active : s1.active = s.active := by rw [hm.table.rest]

theorem layout_kernel (hphys : phys < 4294967296) (hkernel : ¬ virt < userSpaceTop) :
    Layout own1 pages pending s' := by
  have hhi := hm.index
  have hlo : kernelPdFirst ≤ pdIndexOf virt := by
    simp only [pdIndexOf, ptAreaIndex, kernelPdFirst, userSpaceTop] at *
    omega
  obtain ⟨e, he, hnone, rfl⟩ := hm.entry
  have h1 := hm.table.layout
  rw [← hm.active, h1.shared_active hlo hhi] at he
  refine h1.setKernelEntry hlo hhi he (fun p hp hpd hpt => ?_)
    (Ram.entry_setEntry (fits flags hphys))
  -- an entry that is not present leads to no directory
  obtain ⟨-, -, pde, pte, hpde, hpte, -⟩ := h1.window p hp
  rw [hpd, he] at hpde
  cases hpde
  rw [hpt, hnone] at hpte
  cases hpte

theorem layout_user (hphys : phys < 4294967296) (huser : virt < userSpaceTop)
    (hheld : own (phys / pageSize) = some .held) (hpend : pending s.active.frame = none) :
    Layout (update own1 (phys / pageSize)
      (some (.userPage s.active.frame (pdIndexOf virt) (ptIndexOf virt)))) pages pending s' := by
  have hi := (user_area huser).2
  obtain ⟨e, he, -, rfl⟩ := hm.entry
  have h1 := hm.table.layout
  have hheld1 := hm.table.roles _ _ hheld
  rw [← hm.active] at he hpend ⊢
  refine h1.setUserEntry (m := s1.pmm) h1.active hi he (Ram.entry_setEntry (fits flags hphys))
    (.inl hpend) (fun _ _ => rfl) (fun _ _ hf hne _ => role_change hf hheld1 hne)
    (fun e' he' _ => ?_) h1.ok (h1.used_update hheld1)
  cases he'
  exact update_self ..

/-- Frames that hold no tables, and directories that are not in the list, are as before. -/
theorem ram_eq (hf : own f = some a)
    (ha : ¬ a.IsTable ∨ a = .dir ∧ f ∉ s.spaces.map Space.frame) : s'.ram f = s.ram f := by
  obtain ⟨e, he, -, rfl⟩ := hm.entry
  rw [← hm.active] at he
  obtain ⟨b, hb, hdir, htable⟩ := hm.table.layout.table_role hm.index he
  have hf1 := hm.table.roles f a hf
  have hne : f ≠ e.frame := by
    refine role_ne hf1 hb ?_
    rintro rfl
    exact ha.elim (· htable) fun hd => hdir hd.1
  refine (Ram.setEntry_of_ne_frame hne).trans ?_
  rcases ha with hdata | ⟨rfl, hlist⟩
  · exact hm.table.data f a hf hdata
  · exact hm.table.unlisted f hf hlist

theorem rest : s' = { s with pmm := s'.pmm, ram := s'.ram } := by
  obtain ⟨e, -, -, rfl⟩ := hm.entry
  rw [hm.table.rest]

theorem fresh : s.walk virt = none := by
  obtain ⟨e, he, hnone, -⟩ := hm.entry
  rw [← hm.table.walk virt hm.index]
  exact (walk_eq (by rw [hm.active]; exact he)).trans hnone

theorem dir_entry : s'.ram.entry s.active.frame = s1.ram.entry s.active.frame := by
  obtain ⟨e, he, -, rfl⟩ := hm.entry
  rw [← hm.active] at he ⊢
  obtain ⟨b, hb, hdir, -⟩ := hm.table.layout.table_role hm.index he
  exact Ram.entry_congr (Ram.setEntry_of_ne_frame (role_ne hm.table.layout.active_dir hb hdir.symm))

theorem used (g : Nat) : s'.pmm.used g = true ↔ s.pmm.used g = true ∨ NewTable s s' g := by
  have hpmm : s'.pmm = s1.pmm := by
    obtain ⟨e, -, -, rfl⟩ := hm.entry
    rfl
  rw [hpmm, hm.table.used, NewTable, NewTable, hm.dir_entry]

theorem walk (hphys : phys < 4294967296) : s'.walk virt = some (pageEntry phys flags) ∧
      ∀ v, pdIndexOf v < ptAreaIndex → v / pageSize ≠ virt / pageSize →
        s'.walk v = s.walk v := by
  obtain ⟨e, he, -, rfl⟩ := hm.entry
  have h1 := hm.table.layout
  rw [← hm.active] at he
  obtain ⟨hself, hothers⟩ := h1.walk_setEntry hm.index he (fits flags hphys)
  exact ⟨hself, fun v hv hne => (hothers v hv hne).trans (hm.table.walk v hv)⟩

end

end Maps

/-! ## Unmapping -/

theorem Layout.pteOf (h : Layout own pages pending s) (hvirt : virt < 4294967296) :
    s.pteOf virt = some (s.walk virt) := by
  rw [Paging.pteOf, load, h.page_pd, map_some, bind_some, Paging.walk]
  cases he : s.ram.entry s.active.frame (pdIndexOf virt) with
  | none => rfl
  | some e =>
    rw [load, h.page_pageTable (pdIndexOf_lt hvirt), he]
    rfl

theorem Layout.change (h : Layout own pages pending s) (hvirt : virt < 4294967296)
    (y : Entry → Option Entry) : (s.walk virt = none ∨ pdIndexOf virt = recursivePdIndex) ∧
        s.change virt y = some (none, s) ∨
      pdIndexOf virt ≠ recursivePdIndex ∧
        ∃ e pte, s.ram.entry s.active.frame (pdIndexOf virt) = some e ∧
          s.ram.entry e.frame (ptIndexOf virt) = some pte ∧
          s.change virt y = some (some pte,
            { s with ram := (s.ram.setEntry e.frame (ptIndexOf virt) (y pte)) }) := by
  rw [Paging.change, h.pteOf hvirt, bind_some]
  cases hw : s.walk virt with
  | none => exact .inl ⟨.inl rfl, rfl⟩
  | some pte =>
    by_cases hrec : pdIndexOf virt = recursivePdIndex
    · exact .inl ⟨.inr hrec, if_pos hrec⟩
    · obtain ⟨e, he, hpte⟩ := Option.bind_eq_some_iff.mp hw
      refine .inr ⟨hrec, e, pte, he, hpte, ?_⟩
      dsimp only
      rw [if_neg hrec, store, h.page_pageTable (pdIndexOf_lt hvirt), he]
      rfl

theorem Layout.unmapPage_user (h : Layout own pages pending s) (huser : virt < userSpaceTop)
    (hpend : pending s.active.frame = none) :
    s.walk virt = none ∧ s.unmapPage virt = some (none, s) ∨
      ∃ e pte, s.ram.entry s.active.frame (pdIndexOf virt) = some e ∧
        s.ram.entry e.frame (ptIndexOf virt) = some pte ∧
        own pte.frame = some (.userPage s.active.frame (pdIndexOf virt) (ptIndexOf virt)) ∧
        s.unmapPage virt = some (some pte.frame,
          { s with ram := (s.ram.setEntry e.frame (ptIndexOf virt) none) }) ∧
        Layout (update own pte.frame (some .held)) pages pending
          { s with ram := (s.ram.setEntry e.frame (ptIndexOf virt) none) } := by
  obtain ⟨hvirt, hi⟩ := user_area huser
  rcases h.change hvirt fun _ => none with ⟨hor, hs⟩ | ⟨-, e, pte, he, hpte, hs⟩
  · refine .inl ⟨hor.resolve_right fun hrec => ?_, ?_⟩
    · rw [hrec] at hi
      exact absurd hi (by decide)
    · rw [Paging.unmapPage, hs]
      rfl
  · have hpage := h.userPage _ h.active _ hi e he _ pte hpte (by rw [hpend]; nofun)
    refine .inr ⟨e, pte, he, hpte, hpage, ?_, ?_⟩
    · rw [Paging.unmapPage, hs]
      rfl
    · exact h.setUserEntry (m := s.pmm) h.active hi he (Ram.entry_setEntry Entry.fits_none)
        (.inl hpend) (fun _ _ => rfl) (fun _ _ hf _ hne => role_change hf hpage hne) nofun h.ok
        (h.used_update hpage)

end Paging

end ManiOS.Mm

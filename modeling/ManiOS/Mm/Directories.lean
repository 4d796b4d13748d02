import ManiOS.Mm.Tables

/-!
# Page directories

A page directory is a kernel page (`kpage.c`), filled with zeros.  It joins the list
of address spaces with a copy of the kernel's entries, and leaves it before its
page is given back.
-/

namespace ManiOS.Mm

open Function (update)
open List Option

namespace Paging

variable {own : Roles} {pages : List Space} {pending : Nat → Option (Nat × Nat)}
  {s s' : Paging} {p : Space} {f i : Nat}

/-! ## Kernel pages -/

/-- A kernel page is made: a page of zeros that can be reached. -/
structure NewPage (pages : List Space) (pending : Nat → Option (Nat × Nat)) (p : Space)
    (own own' : Roles) (s s' : Paging) : Prop where
  layout : Layout own' (p :: pages) pending s'
  roles : ∀ f a, own f = some a → own' f = some a
  blank : ∀ k, s'.ram.entry p.frame k = none
  unlisted : ∀ f, own f = some .dir → f ∉ s.spaces.map Space.frame → s'.ram f = s.ram f

theorem slot_area (hi : i < kernelPageSlots) :
    slotAddr i < 4294967296 ∧ ¬ slotAddr i < userSpaceTop ∧ pdIndexOf (slotAddr i) ≠ ptAreaIndex ∧
      kernelPdFirst ≤ pdIndexOf (slotAddr i) ∧ pdIndexOf (slotAddr i) < ptAreaIndex := by
  simp only [slotAddr, kernelPageSlots, kernelPagesStart, pageSize, userSpaceTop, pdIndexOf,
    ptAreaIndex, kernelPdFirst] at *
  omega

theorem freeSlot_lt (h : s.freeSlot = some i) : i < kernelPageSlots := by
  have hmem := mem_of_find?_eq_some h
  exact mem_range.mp hmem

theorem Layout.kpageAlloc (h : Layout own pages pending s) : ∃ x s', s.kpageAlloc = some (x, s') ∧
      (x = none ∧ s'.ram = s.ram ∧ s'.spaces = s.spaces ∧ Layout own pages pending s' ∨
        ∃ p own', x = some p ∧ NewPage pages pending p own own' s s') := by
  unfold Paging.kpageAlloc
  generalize hslot : s.freeSlot = slot
  cases slot with
  | none => exact ⟨none, s, rfl, .inl ⟨rfl, rfl, rfl, h⟩⟩
  | some i =>
    obtain ⟨hvirt, hkernel, harea, hlo, hhi⟩ := slot_area (freeSlot_lt hslot)
    obtain ⟨m, hzero, hno⟩ | ⟨m, f, ha⟩ := h.alloc
    · rw [hzero]
      exact ⟨none, _, rfl, .inl ⟨rfl, rfl, rfl, hno.layout h⟩⟩
    · rw [ha.alloc]
      dsimp only
      rw [if_neg ha.ne_zero]
      have hnone := ha.role
      have h1 := h.take ha
      have hheld : update own f (some .held) f = some .held := Function.update_self ..
      have hphys := ha.phys_lt
      obtain ⟨ok, s2, hs2, ⟨rfl, hno, -⟩ | ⟨rfl, own2, s1, hm⟩⟩ :=
        h1.mapPage (f * pageSize) ⟨true, false, false⟩ hvirt harea
      · -- the frame is given back
        rw [hs2, bind_some]
        have h2 := hno.layout h1
        obtain ⟨m3, hm3, -, hlayout⟩ := h2.give hheld
        obtain ⟨m2, rfl, -⟩ := hno
        refine ⟨none, { s with pmm := m3 }, ?_, .inl ⟨rfl, rfl, rfl, ?_⟩⟩
        · rw [hm3]
          rfl
        · rw [Function.update_idem, ← hnone, Function.update_eq_self] at hlayout
          exact hlayout
      · rw [hs2, bind_some]
        have h2 := hm.layout_kernel hphys hkernel
        have hheld2 := hm.table.roles f _ hheld
        have hpage : page (slotAddr i) { s2 with slots := update s2.slots i true } = some f := by
          refine (congrArg (Option.map Entry.frame) (hm.walk hphys).1).trans ?_
          exact congrArg some (Nat.mul_div_cancel f (by decide))
        refine ⟨some ⟨slotAddr i, f⟩,
          { s2 with slots := update s2.slots i true, ram := s2.ram.zero f }, ?_,
          .inr ⟨_, update own2 f (some .dir), rfl, ?_⟩⟩
        · rw [clear, hpage, Nat.mul_div_cancel f (by decide)]
          rfl
        · have hzero : ∀ g a, own2 g = some a → a.IsTable →
              (s2.ram.zero f).entry g = s2.ram.entry g := fun g a => Layout.zero_entry hheld2
          have h3 : Layout own2 pages pending
              { s2 with slots := update s2.slots i true, ram := s2.ram.zero f } :=
            (h2.setSlots (update s2.slots i true)).of_data h2.ok h2.used (fun _ _ hg _ => hg) hzero
          have hwindow := h3.window_of_walk hlo hhi
            ((h2.walk_congr hzero hhi).trans (hm.walk hphys).1)
          rw [show (pageEntry (f * pageSize) ⟨true, false, false⟩).frame = f from
            Nat.mul_div_cancel f (by decide)] at hwindow
          refine ⟨h3.addPage hheld2 ha.small hwindow, fun g a hg => ?_, fun k => ?_,
            fun g hg hlist => ?_⟩
          · rw [Function.update_of_ne (role_ne_none hg hnone)]
            exact hm.table.roles g a (role_update hnone hg)
          · exact (Ram.entry_zero _ _).trans (if_pos rfl)
          · refine (Ram.zero_of_ne (role_ne_none hg hnone)).trans ?_
            exact hm.ram_eq (role_update hnone hg) (.inr ⟨rfl, hlist⟩)

theorem Layout.kpageUnmap (h : Layout own pages pending s) (hp : p ∈ pages)
    (hs : s.kpageUnmap p.pd = some (f, s')) :
    f = p.frame ∧ Layout (update own p.frame (some .held)) (pages.erase p) pending s' ∧
      ∀ g, own g = some .dir → s'.ram g = s.ram g := by
  rw [Paging.kpageUnmap] at hs
  obtain ⟨hcheck, hs⟩ := ite_none_left_eq_some.mp hs
  have hvirt : p.pd < 4294967296 := by
    simp only [slotOf, kernelPagesStart, kernelPageSlots, pageSize] at hcheck
    omega
  obtain ⟨hlo, hhi, pde, pte, hpde, hpte, hframe⟩ := h.window p (mem_append_right _ hp)
  have hpde' : s.ram.entry s.active.frame (pdIndexOf p.pd) = some pde :=
    (h.shared_active hlo hhi).trans hpde
  rcases h.change hvirt fun _ => none with ⟨hor, -⟩ | ⟨-, e, x, he, hx, hchange⟩
  · rcases hor with hnone | hrec
    · rw [walk_eq hpde', hpte] at hnone
      cases hnone
    · rw [hrec] at hhi
      exact absurd hhi (by decide)
  · cases hpde'.symm.trans he
    cases hpte.symm.trans hx
    rw [unmapPage, hchange] at hs
    cases hs
    have hrole := h.kernelTable _ hlo hhi pde hpde
    have hdrop := h.dropPage hp
    refine ⟨hframe, hdrop.setKernelEntry hlo hhi hpde (fun q hq hpd hpt => ?_)
      (Ram.entry_setEntry Entry.fits_none),
      fun g hg => Ram.setEntry_of_ne_frame (role_ne hg hrole (by simp))⟩
    -- a directory at the same address would be the one that is given up
    obtain ⟨-, -, pde', pte', hpde', hpte', hframe'⟩ := hdrop.window q hq
    rw [hpd, hpde] at hpde'
    cases hpde'
    rw [hpt, hpte] at hpte'
    cases hpte'
    have hdir := hdrop.dir q hq
    rw [← hframe', hframe, Function.update_self] at hdir
    cases hdir

/-! ## Joining the list -/

theorem copyEntries_spec (is : List Nat) (hne : s.kernelSpace.frame ≠ p.frame)
    (hpage : ∀ r : Ram, (∀ g, g ≠ p.frame → r g = s.ram g) →
      page s.kernelSpace.pd { s with ram := r } = some s.kernelSpace.frame ∧
        page p.pd { s with ram := r } = some p.frame) :
    ∃ r, s.copyEntries p is = some { s with ram := r } ∧ (∀ g, g ≠ p.frame → r g = s.ram g) ∧
      ∀ k, r.entry p.frame k =
        if k ∈ is then s.ram.entry s.kernelSpace.frame k else s.ram.entry p.frame k := by
  induction is generalizing s with
  | nil => exact ⟨s.ram, rfl, fun _ _ => rfl, fun k => by simp⟩
  | cons i is ih =>
    obtain ⟨hK, hP⟩ := hpage s.ram fun _ _ => rfl
    generalize hr1 : s.ram.setEntry p.frame i (s.ram.entry s.kernelSpace.frame i) = r1
    have hother : ∀ g, g ≠ p.frame → r1 g = s.ram g := fun g hg => by
      rw [← hr1, Ram.setEntry_of_ne_frame hg]
    have hentry : ∀ k, r1.entry p.frame k =
        if k = i then s.ram.entry s.kernelSpace.frame k else s.ram.entry p.frame k := by
      intro k
      rw [← hr1, Ram.entry_setEntry (Ram.entry_fits s.ram s.kernelSpace.frame i)]
      by_cases hk : k = i
      · rw [if_pos ⟨rfl, hk⟩, if_pos hk, hk]
      · rw [if_neg fun hc => hk hc.2, if_neg hk]
    obtain ⟨r, hr, hother', hentry'⟩ := ih (s := { s with ram := r1 }) hne fun r hr =>
      hpage r fun g hg => (hr g hg).trans (hother g hg)
    refine ⟨r, ?_, fun g hg => (hother' g hg).trans (hother g hg), fun k => ?_⟩
    · rw [copyEntries, load, hK, map_some, bind_some, store, hP, map_some, hr1]
      exact hr
    · rw [hentry']
      rw [Ram.entry_congr (hother _ hne), hentry]
      simp only [mem_cons]
      split
      next hk => rw [if_pos (.inr hk)]
      next hk => simp only [hk, or_false]

theorem Layout.asJoin (h : Layout own pages pending s) (hp : p ∈ pages)
    (hblank : ∀ k, s.ram.entry p.frame k = none) :
    ∃ r, s.asJoin p = some { s with ram := r, spaces := p :: s.spaces } ∧
      (∀ g, g ≠ p.frame → r g = s.ram g) ∧
      Layout own (pages.erase p) pending { s with ram := r, spaces := p :: s.spaces } := by
  have hdir := h.dir p (mem_append_right _ hp)
  have hlisted : ∀ q ∈ s.spaces, q.frame ≠ p.frame := by
    have hnodup := h.nodup
    rw [map_append] at hnodup
    exact fun q hq heq => (nodup_append.mp hnodup).2.2 _ (mem_map_of_mem hq) _
      (mem_map_of_mem hp) heq
  -- no directory is reached through the one that joins
  have hpage : ∀ q ∈ s.spaces ++ pages, ∀ r : Ram, (∀ g, g ≠ p.frame → r g = s.ram g) →
      page q.pd { s with ram := r } = some q.frame := fun q hq r hr =>
    h.page_window hq
      (fun _ => (congrFun (Ram.entry_congr (hr _ (hlisted _ h.active))) _).trans)
      fun f hf => congrFun (Ram.entry_congr (hr _ (role_ne hf hdir nofun))) _
  have hK := hpage _ (mem_append_left _ h.kernel)
  have hP := hpage p (mem_append_right _ hp)
  have hne := hlisted _ h.kernel
  obtain ⟨r1, hr1, hother₁, hentry₁⟩ := copyEntries_spec (s := s)
    (range' kernelPdFirst (recursivePdIndex - kernelPdFirst)) hne
    fun r hr => ⟨hK r hr, hP r hr⟩
  generalize hr2 : r1.setEntry p.frame recursivePdIndex (some ⟨p.frame, true, false, false⟩) = r2
  have hsmall := h.small p (mem_append_right _ hp)
  have hother₂ : ∀ g, g ≠ p.frame → r2 g = s.ram g := fun g hg => by
    rw [← hr2, Ram.setEntry_of_ne_frame hg, hother₁ g hg]
  obtain ⟨r, hr, hother, hentry⟩ := copyEntries_spec (s := { s with ram := r2 }) [ptAreaIndex] hne
    fun r hr => ⟨hK r fun g hg => (hr g hg).trans (hother₂ g hg),
      hP r fun g hg => (hr g hg).trans (hother₂ g hg)⟩
  have hrest : ∀ g, g ≠ p.frame → r g = s.ram g := fun g hg =>
    (hother g hg).trans (hother₂ g hg)
  -- the entries of the new directory
  have hfinal : ∀ k, r.entry p.frame k = if k = recursivePdIndex then
      some ⟨p.frame, true, false, false⟩
      else if kernelPdFirst ≤ k ∧ k < recursivePdIndex then s.ram.entry s.kernelSpace.frame k
      else none := by
    intro k
    rw [hentry]
    rw [Ram.entry_congr (hother₂ _ hne), ← hr2, Ram.entry_setEntry (Entry.fits_some hsmall),
      hentry₁, hblank]
    have harea : ptAreaIndex + 1 = recursivePdIndex := rfl
    have hfirst : kernelPdFirst ≤ ptAreaIndex := by decide
    by_cases hk : k = ptAreaIndex
    · rw [if_pos (mem_singleton.mpr hk), if_neg (by omega), if_pos (by omega)]
    · rw [if_neg (mt mem_singleton.mp hk)]
      refine if_congr (and_iff_right rfl) rfl (if_congr ?_ rfl rfl)
      rw [mem_range'_1]
      omega
  refine ⟨r, ?_, hrest, h.join hp (fun g hg => Ram.entry_congr (hrest g hg)) (fun k hlo hhi => ?_)
    ?_ fun k hk => ?_⟩
  · rw [Paging.asJoin, hr1, bind_some, store, hP r1 hother₁, map_some, bind_some, hr2, hr]
    rfl
  · rw [hfinal, if_neg (by omega), if_pos ⟨hlo, hhi⟩]
  · rw [hfinal, if_pos rfl]
  · rw [hfinal, if_neg, if_neg (by omega)]
    simp only [kernelPdFirst, recursivePdIndex] at *
    omega

end Paging

end ManiOS.Mm

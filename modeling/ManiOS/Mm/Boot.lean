import ManiOS.Mm.Bitmap

/-!
# The map that `pmm_init` leaves

The boot loader's regions may overlap, be in any order and reach past 4 GiB.  A
frame is free if a usable region holds all of it, no reserved one has a part of
it, and it lies behind the bitmap.  The bitmap is moved behind the reserved
regions that it lies on, until it lies on none.

The address behind a region is computed in 32 bits.  Behind one that ends in the
last page below 4 GiB it is 0, so that the search goes on below the kernel and
can end on it (`bitmap_on_kernel`).
-/

namespace ManiOS.Mm

namespace MemRegion

/-- The region holds all of a frame, also where it ends past 4 GiB. -/
def Holds (r : MemRegion) (f : Nat) : Prop :=
  r.base ≤ f * pageSize ∧ (f + 1) * pageSize ≤ r.base + r.length

/-- The region has a part of a frame. -/
def Meets (r : MemRegion) (f : Nat) : Prop :=
  r.base < (f + 1) * pageSize ∧ f * pageSize < r.base + r.length

/-- The bitmap is on the region. -/
def UnderBitmap (bitmapEnd start : Nat) (r : MemRegion) : Prop :=
  r.usable = false ∧ r.base < v2p bitmapEnd ∧ v2p start < r.regionEnd

instance (bitmapEnd start : Nat) (r : MemRegion) : Decidable (r.UnderBitmap bitmapEnd start) :=
  inferInstanceAs (Decidable (_ ∧ _))

end MemRegion

/-- A place for the bitmap behind the kernel: within the boot mapping, and in pages that no
reserved region has a part of. -/
def Place (bytes kernelEnd : Nat) (regions : List MemRegion) (p : Nat) : Prop :=
  v2p kernelEnd ≤ p ∧ p + bytes ≤ bootMappedPhysLimit ∧ (p = v2p kernelEnd ∨ p % pageSize = 0) ∧
    ∀ r ∈ regions, r.usable = false → r.base + r.length ≤ p ∨ pageAlign (p + bytes) ≤ r.base

variable {regions : List MemRegion} {bitmapEnd start bytes passes kernelEnd p : Nat}

/-! ## The place of the bitmap -/

/-- A region in a pass. -/
def movePast (bitmapEnd : Nat) (place : Nat × Bool) (r : MemRegion) : Nat × Bool :=
  if r.UnderBitmap bitmapEnd place.1 then (p2v (pageAlign r.regionEnd), true) else place

theorem moveBitmap_eq :
    moveBitmap bitmapEnd regions start = regions.foldl (movePast bitmapEnd) (start, false) := rfl

/-- A pass that moves nothing found no region under the bitmap. -/
theorem not_under_of_still {place : Nat × Bool}
    (h : (regions.foldl (movePast bitmapEnd) place).2 = false) :
    place.2 = false ∧ ∀ r ∈ regions, ¬ r.UnderBitmap bitmapEnd place.1 := by
  induction regions generalizing place with
  | nil => exact ⟨h, List.forall_mem_nil _⟩
  | cons r rs ih =>
    rw [List.foldl_cons, movePast] at h
    split at h
    next => cases (ih h).1
    next hr =>
      obtain ⟨hflag, hrs⟩ := ih h
      exact ⟨hflag, List.forall_mem_cons.mpr ⟨hr, hrs⟩⟩

/-- The bitmap moves to a page. -/
theorem aligned_of_pass {place : Nat × Bool} (h : v2p place.1 % pageSize = 0 ∨ place.2 = false) :
    v2p (regions.foldl (movePast bitmapEnd) place).1 % pageSize = 0 ∨
      (regions.foldl (movePast bitmapEnd) place).2 = false := by
  induction regions generalizing place with
  | nil => exact h
  | cons r rs ih =>
    rw [List.foldl_cons, movePast]
    split
    next =>
      refine ih (.inl ?_)
      simp only [v2p, p2v, pageAlign, u32, physAddrLimit, pageSize]
      omega
    next => exact ih h

theorem v2p_pageAlign (h : v2p start + bytes ≤ bootMappedPhysLimit) :
    v2p (pageAlign (start + bytes)) = pageAlign (v2p start + bytes) := by
  simp only [v2p, pageAlign, u32, physAddrLimit, pageSize, bootMappedPhysLimit] at *
  omega

/-- A region that ends in 64 bits ends at the least of its end and 4 GiB. -/
theorem regionEnd_eq {r : MemRegion} (h : r.base + r.length < 18446744073709551616) :
    r.regionEnd = min (r.base + r.length) physAddrLimit := by
  rw [MemRegion.regionEnd, Nat.mod_eq_of_lt h]
  split <;> omega

section

variable (hregions : ∀ r ∈ regions, 0 < r.length ∧ r.base + r.length < 18446744073709551616)
include hregions

/-- The search does not go past a place: a region that the bitmap lies on in front of it ends
in front of it. -/
theorem le_of_pass (hp : Place bytes kernelEnd regions p) (place : Nat × Bool)
    (hend : v2p bitmapEnd ≤ pageAlign (p + bytes)) (hlo : v2p kernelEnd ≤ v2p place.1)
    (hhi : v2p place.1 ≤ p) :
    v2p kernelEnd ≤ v2p (regions.foldl (movePast bitmapEnd) place).1 ∧
      v2p (regions.foldl (movePast bitmapEnd) place).1 ≤ p := by
  obtain ⟨-, hfit, halign, hfree⟩ := hp
  induction regions generalizing place with
  | nil => exact ⟨hlo, hhi⟩
  | cons r rs ih =>
    obtain ⟨⟨-, hr⟩, hrs⟩ := List.forall_mem_cons.mp hregions
    obtain ⟨hfree, hfrees⟩ := List.forall_mem_cons.mp hfree
    rw [List.foldl_cons, movePast]
    split
    next hunder =>
      obtain ⟨husable, hbase, hover⟩ := hunder
      have hbelow : r.base + r.length ≤ p := (hfree husable).resolve_right (by omega)
      rw [regionEnd_eq hr] at *
      refine ih hrs _ ?_ ?_ hfrees <;>
        simp only [v2p, p2v, pageAlign, u32, physAddrLimit, pageSize, bootMappedPhysLimit] at * <;>
        omega
    next => exact ih hrs _ hlo hhi hfrees

/-- The search ends at the kernel's end or at a page, on no reserved region, and behind the
kernel if there is a place for it there. -/
theorem placeBitmap_spec {start' : Nat}
    (h : placeBitmap bytes regions passes start = some (start', bitmapEnd)) :
    (∀ r ∈ regions, ¬ r.UnderBitmap bitmapEnd start') ∧
      (start' = start ∨ v2p start' % pageSize = 0) ∧
      (Place bytes kernelEnd regions p → v2p kernelEnd ≤ v2p start → v2p start ≤ p →
        v2p kernelEnd ≤ v2p start') := by
  induction passes generalizing start with
  | zero => cases h
  | succ n ih =>
    rw [placeBitmap, moveBitmap_eq] at h
    split at h
    next hmove =>
      have haligned := @aligned_of_pass regions (pageAlign (start + bytes)) (start, false) (.inr rfl)
      rw [hmove] at haligned
      obtain ⟨hfree, hat, hplace⟩ := ih h
      refine ⟨hfree, .inr (hat.elim (fun heq => ?_) id), fun hp hlo hhi => ?_⟩
      · rw [heq]
        simpa using haligned
      · have hend : v2p (pageAlign (start + bytes)) ≤ pageAlign (p + bytes) := by
          obtain ⟨-, hfit, -⟩ := hp
          rw [v2p_pageAlign (by omega)]
          simp only [pageAlign, u32, pageSize, bootMappedPhysLimit] at *
          omega
        have hpass := le_of_pass hregions hp (start, false) hend hlo hhi
        rw [hmove] at hpass
        exact hplace hp hpass.1 hpass.2
    next hmove =>
      cases h
      exact ⟨(not_under_of_still (congrArg Prod.snd hmove)).2, .inl rfl, fun _ hlo _ => hlo⟩

/-- The bitmap is behind the kernel if and only if there is a place for it there. -/
theorem behind_iff {start' : Nat} (hfit : v2p start' + bytes ≤ bootMappedPhysLimit)
    (h : placeBitmap bytes regions passes kernelEnd = some (start', bitmapEnd)) :
    v2p kernelEnd ≤ v2p start' ↔ ∃ p, Place bytes kernelEnd regions p := by
  constructor
  · intro hle
    obtain ⟨hfree, hat, -⟩ := @placeBitmap_spec _ _ _ _ _ kernelEnd 0 hregions _ h
    refine ⟨v2p start', hle, hfit, hat.imp_left (congrArg v2p), fun r hr husable => ?_⟩
    have hnot := hfree r hr
    rw [MemRegion.UnderBitmap, regionEnd_eq (hregions r hr).2, placeBitmap_end h,
      v2p_pageAlign hfit] at hnot
    simp only [bootMappedPhysLimit, physAddrLimit, husable, true_and] at *
    omega
  · rintro ⟨p, hp⟩
    exact (placeBitmap_spec hregions h).2.2 hp le_rfl hp.1

end

/-! ## The frames -/

theorem le_memoryTop {r : MemRegion} (hr : r ∈ regions) (husable : r.usable = true)
    (hbase : r.base < physAddrLimit) : r.regionEnd ≤ memoryTop regions := by
  rw [memoryTop]
  generalize 0 = top
  have hgrows : ∀ (rs : List MemRegion) top, top ≤ rs.foldl (fun top r =>
      if r.usable = true ∧ r.base < physAddrLimit ∧ top < r.regionEnd then r.regionEnd
      else top) top := by
    intro rs
    induction rs with
    | nil => exact fun top => le_refl top
    | cons s rs ih =>
      intro top
      refine le_trans ?_ (ih _)
      dsimp only
      split <;> omega
  induction regions generalizing top with
  | nil => cases hr
  | cons s rs ih =>
    rw [List.foldl_cons]
    rcases List.mem_cons.mp hr with rfl | hr
    · refine le_trans ?_ (hgrows rs _)
      split
      · exact le_rfl
      next hno => exact not_lt.mp fun hlt => hno ⟨husable, hbase, hlt⟩
    · exact ih hr _

/-- After `pmm_init` a frame is free if and only if a usable region holds it, no reserved one
has a part of it and it is behind the bitmap.  The bitmap is on no reserved region.  It is off
the kernel, whose image begins at `kernelStart`, if and only if there is a place for it behind
the kernel, or the place where it is ends below the image. -/
theorem pmm_init_map {b : Booted}
    (hregions : ∀ r ∈ regions, 0 < r.length ∧ r.base + r.length < 18446744073709551616)
    (h : pmmInit passes regions kernelEnd = some b) :
    ∃ start, placeBitmap (b.pmm.wordCount * 4) regions passes kernelEnd =
        some (start, b.bitmapEnd) ∧
      (∀ f < 1048576, b.pmm.used f = false ↔
        (∃ r ∈ regions, r.usable = true ∧ r.Holds f) ∧
          (∀ r ∈ regions, r.usable = false → ¬ r.Meets f) ∧ v2p b.bitmapEnd ≤ f * pageSize) ∧
      (∀ x, v2p start ≤ x → x < v2p start + b.pmm.wordCount * 4 →
        ∀ r ∈ regions, r.usable = false → ¬ (r.base ≤ x ∧ x < r.base + r.length)) ∧
      (b.pmm.wordCount ≠ 0 → ∀ kernelStart < v2p kernelEnd,
        (∀ x, v2p start ≤ x → x < v2p start + b.pmm.wordCount * 4 →
          ¬ (kernelStart ≤ x ∧ x < v2p kernelEnd)) ↔
        (∃ p, Place (b.pmm.wordCount * 4) kernelEnd regions p) ∨
          v2p start + b.pmm.wordCount * 4 ≤ kernelStart) ∧
      b.pmm.freeCount = b.pmm.clearFrames.card := by
  obtain ⟨start, hplace, hfit, hcount, -⟩ := pmmInit_eq h
  obtain ⟨hcounted, hfree⟩ := pmmInit_spec h
  obtain ⟨hunder, -⟩ := @placeBitmap_spec _ _ _ _ _ kernelEnd 0 hregions _ hplace
  have hend := placeBitmap_end hplace
  have hregionEnd : ∀ r ∈ regions, r.regionEnd = min (r.base + r.length) physAddrLimit :=
    fun r hr => regionEnd_eq (hregions r hr).2
  refine ⟨start, hplace, fun f hf => ?_, fun x hlo hhi r hr hkind hx => ?_,
    fun hwords kernelStart hkernel => ?_, hcounted.count⟩
  · have hbehind : ¬ f < v2p b.bitmapEnd / pageSize ↔ v2p b.bitmapEnd ≤ f * pageSize := by
      rw [hend]
      simp only [v2p, pageAlign, u32, physAddrLimit, pageSize]
      omega
    have hholds : ∀ r ∈ regions, r.Covers f ↔ r.Holds f := fun r hr => by
      rw [MemRegion.Covers, MemRegion.Holds, hregionEnd r hr]
      simp only [physAddrLimit, pageSize]
      omega
    have hmeets : ∀ r ∈ regions, r.Touches f ↔ r.Meets f := fun r hr => by
      rw [MemRegion.Touches, MemRegion.Meets, hregionEnd r hr]
      simp only [physAddrLimit, pageSize]
      omega
    rw [hfree, Reserved, not_or, not_or, not_not, hbehind]
    constructor
    · rintro ⟨-, ⟨r, hr, hkind, hcovers⟩, htouch, hlow⟩
      exact ⟨⟨r, hr, hkind, (hholds r hr).mp hcovers⟩,
        fun r hr hkind hm => htouch ⟨r, hr, hkind, (hmeets r hr).mpr hm⟩, hlow⟩
    · rintro ⟨⟨r, hr, hkind, hin⟩, hout, hlow⟩
      have hcovers := (hholds r hr).mpr hin
      refine ⟨?_, ⟨r, hr, hkind, hcovers⟩, ?_, hlow⟩
      · have htop : r.regionEnd ≤ memoryTop regions := le_memoryTop hr hkind (by
          simp only [MemRegion.Holds, physAddrLimit, pageSize] at *
          omega)
        simp only [MemRegion.Covers, pageSize] at *
        omega
      · rintro ⟨r, hr, hkind, ht⟩
        exact hout r hr hkind ((hmeets r hr).mp ht)
  · refine hunder r hr ⟨hkind, ?_⟩
    rw [hregionEnd r hr]
    simp only [v2p, pageAlign, u32, physAddrLimit, pageSize, bootMappedPhysLimit] at *
    omega
  · rw [← behind_iff hregions (hfit (by omega)) hplace]
    constructor
    · intro hoff
      by_contra hnot
      have := hoff (max (v2p start) kernelStart)
      omega
    · omega

/-- A frame of the map with 16 frames. -/
theorem pmm_init_map_tiny : ∃ b, pmmInit 1 tinyMap 0xC0003000 = some b ∧ b.pmm.used 5 = false ∧
      b.pmm.freeCount = b.pmm.clearFrames.card := by
  obtain ⟨b, hb⟩ := Option.isSome_iff_exists.mp
    (show (pmmInit 1 tinyMap 0xC0003000).isSome = true by decide)
  obtain ⟨start, -, hfree, -, -, hcount⟩ := pmm_init_map (by decide) hb
  have hend : (pmmInit 1 tinyMap 0xC0003000).map (v2p ·.bitmapEnd) = some 0x4000 := by decide
  rw [hb] at hend
  refine ⟨b, hb, (hfree 5 (by decide)).mpr ⟨?_, ?_, ?_⟩, hcount⟩
  · exact ⟨⟨0, 0x10000, true⟩, by decide, rfl, by decide, by decide⟩
  · simp [tinyMap, MemRegion.Meets, pageSize]
  · rw [show v2p b.bitmapEnd = 0x4000 from Option.some.inj hend]
    decide

/-- A map with memory that is reserved up to 4 GiB right behind a kernel from 1 MiB to 1.5 MiB,
and below it. -/
def fullMap : List MemRegion :=
  [⟨0, 0x200000, true⟩, ⟨0x180000, 0xFFE80000, false⟩, ⟨0, 0x100000, false⟩]

/-- The bitmap is put at 1 MiB, on the kernel. -/
theorem bitmap_on_kernel : ∃ b, pmmInit 2 fullMap 0xC0180000 = some b ∧ b.pmm.wordCount * 4 = 64 ∧
      placeBitmap 64 fullMap 2 0xC0180000 = some (0xC0100000, b.bitmapEnd) ∧
      v2p 0xC0100000 = 0x100000 ∧ v2p 0xC0180000 = 0x180000 := by
  obtain ⟨b, hb⟩ := Option.isSome_iff_exists.mp
    (show (pmmInit 2 fullMap 0xC0180000).isSome = true by decide)
  obtain ⟨start, hplace, -, hcount, hwords, -⟩ := pmmInit_eq hb
  have hbytes : b.pmm.wordCount * 4 = 64 := by
    rw [hwords, hcount]
    decide
  rw [hbytes] at hplace
  have hfound : placeBitmap 64 fullMap 2 0xC0180000 = some (0xC0100000, 0xC0101000) := by decide
  refine ⟨b, hb, hbytes, ?_, by decide, by decide⟩
  rw [hfound] at hplace ⊢
  rw [(Prod.mk.inj (Option.some.inj hplace)).2]

end ManiOS.Mm

import ManiOS.Lib.Runs
import ManiOS.Mm.Frames
import Mathlib.Order.Interval.Finset.Nat

/-!
# The bitmap of frames

`pmm_init` builds the bitmap from the boot loader's map of memory.  After it,
frames are taken one at a time, from the search hint on, or as a run of
neighbours (`pmm_alloc_contiguous`, for devices), and given back one at a time.

All that a call does to the bitmap is to take some frames that were free
(`Takes`) or to give one back.  `Counted` is what each of the two keeps: the free
count is the number of clear bits, and the words below the hint are full.
-/

namespace ManiOS.Mm

open Function (update)
open Lib (Reached)

/-! ## The boot loader's map -/

def physAddrLimit : Nat := 0x100000000

def bootMappedPhysLimit : Nat := 0x01000000

/-- `V2P`, where the address is not below `KERNEL_VIRT_BASE` or wraps around. -/
def v2p (va : Nat) : Nat := u32 (va + (physAddrLimit - 0xC0000000))

def p2v (pa : Nat) : Nat := u32 (pa + 0xC0000000)

/-- `struct mem_region`. -/
structure MemRegion where
  base : Nat
  length : Nat
  usable : Bool
deriving DecidableEq, Repr

namespace MemRegion

/-- `region_end`: the sum has 64 bits. -/
def regionEnd (r : MemRegion) : Nat :=
  let last := (r.base + r.length) % 18446744073709551616
  if physAddrLimit < last then physAddrLimit else last

/-- The region holds all of a frame. -/
def Covers (r : MemRegion) (f : Nat) : Prop :=
  r.base ≤ f * pageSize ∧ (f + 1) * pageSize ≤ r.regionEnd

/-- The region holds a part of a frame. -/
def Touches (r : MemRegion) (f : Nat) : Prop :=
  r.base < (f + 1) * pageSize ∧ f * pageSize < r.regionEnd

end MemRegion

/-- The end of usable memory below 4 GiB. -/
def memoryTop (regions : List MemRegion) : Nat :=
  regions.foldl (fun top r =>
    if r.usable = true ∧ r.base < physAddrLimit ∧ top < r.regionEnd then r.regionEnd else top) 0

/-- An address rounded up to a page, in 32 bits. -/
def pageAlign (x : Nat) : Nat := u32 (x + (pageSize - 1)) / pageSize * pageSize

/-- One pass over the regions: the bitmap is moved behind the reserved ones that it
lies on. -/
def moveBitmap (bitmapEnd : Nat) (regions : List MemRegion) (start : Nat) : Nat × Bool :=
  regions.foldl (fun place r =>
    if r.usable = false ∧ r.base < v2p bitmapEnd ∧ v2p place.1 < r.regionEnd then
      (p2v (pageAlign r.regionEnd), true)
    else place) (start, false)

/-- The place of the bitmap, with a bound on the number of passes. -/
def placeBitmap (bytes : Nat) (regions : List MemRegion) : Nat → Nat → Option (Nat × Nat)
  | 0, _ => none
  | n + 1, start =>
    let bitmapEnd := pageAlign (start + bytes)
    match moveBitmap bitmapEnd regions start with
    | (start', true) => placeBitmap bytes regions n start'
    | (_, false) => some (start, bitmapEnd)

/-- `mark_used` or `mark_free` of the frames from `lo` to below `hi`. -/
def markRange (b : Bool) (lo hi : Nat) (used : Nat → Bool) : Nat → Bool :=
  fun f => if lo ≤ f ∧ f < hi then b else used f

/-- The loops of `pmm_init` over the regions that are, or are not, usable. -/
def markRegions (b usable : Bool) (lo hi : MemRegion → Nat) (regions : List MemRegion)
    (used : Nat → Bool) : Nat → Bool :=
  regions.foldl (fun used r =>
    if r.usable = usable ∧ r.base < physAddrLimit then markRange b (lo r) (hi r) used
    else used) used

/-- The bits of the frames.  Usable regions round inward and reserved ones outward. -/
def initialBits (regions : List MemRegion) (frameCount bitmapEnd : Nat) : Nat → Bool :=
  markRange true 0 (min (v2p bitmapEnd / pageSize) frameCount)
    (markRegions true false (fun r => r.base / pageSize)
      (fun r => min ((r.regionEnd + (pageSize - 1)) / pageSize) frameCount) regions
      (markRegions false true (fun r => (r.base + (pageSize - 1)) / pageSize)
        (fun r => min (r.regionEnd / pageSize) frameCount) regions fun _ => true))

/-- What `pmm_init` leaves: its variables, and where the bitmap ends. -/
structure Booted where
  pmm : Pmm
  bitmapEnd : Nat

/-- `pmm_init`, with the address of `_kernel_end`.  `none` is a panic: no memory, or a
bitmap outside of the boot mapping, where there is nothing to write to. -/
def pmmInit (passes : Nat) (regions : List MemRegion) (kernelEnd : Nat) : Option Booted :=
  let top := memoryTop regions
  if top = 0 then none
  else
    let frameCount := top / pageSize
    let wordCount := (frameCount + bitsPerWord - 1) / bitsPerWord
    let bytes := wordCount * 4
    (placeBitmap bytes regions passes kernelEnd).bind fun (start, bitmapEnd) =>
      if bootMappedPhysLimit < v2p bitmapEnd then none
      else if bytes ≠ 0 ∧ bootMappedPhysLimit < v2p start + bytes then none
      else
        let used := initialBits regions frameCount bitmapEnd
        some {
          pmm := {
            used := used
            frameCount := frameCount
            wordCount := wordCount
            searchHint := 0
            freeCount := (List.range frameCount).countP fun f => !used f }
          bitmapEnd := bitmapEnd }

/-- A frame that `pmm_init` keeps back: no usable region holds it, a reserved one has a
part of it, or it lies below the end of the bitmap, with the kernel. -/
def Reserved (regions : List MemRegion) (bitmapEnd f : Nat) : Prop :=
  (¬ ∃ r ∈ regions, r.usable = true ∧ r.Covers f) ∨
    (∃ r ∈ regions, r.usable = false ∧ r.Touches f) ∨ f < v2p bitmapEnd / pageSize

/-! ## Runs of frames -/

namespace Pmm

/-- The frames from `f` on that are free, up to `n` of them. -/
def freeRun (m : Pmm) : Nat → Nat → Nat
  | 0, _ => 0
  | n + 1, f => if m.used f then 0 else m.freeRun n (f + 1) + 1

/-- The loop of `pmm_alloc_contiguous` from `start` on, with a bound on the number of
its passes. -/
def searchRun (m : Pmm) (frames last boundary : Nat) : Nat → Nat → Option (Nat × Pmm)
  | 0, _ => none
  | n + 1, start =>
    if u32 (start + frames) ≤ last then
      let lo := u32 (start * pageSize)
      let hi := u32 (lo + u32 (frames * pageSize) + 4294967295)
      if boundary ≠ 0 ∧ lo / boundary ≠ hi / boundary then
        m.searchRun frames last boundary n (hi / boundary * boundary / pageSize)
      else
        let run := m.freeRun frames start
        if run = frames then
          some (lo, { m with
            used := markRange true start (start + frames) m.used
            freeCount := m.freeCount - frames })
        else m.searchRun frames last boundary n (start + run + 1)
    else some (0, m)

/-- `pmm_alloc_contiguous`: the address of the first frame, or 0.  A boundary that is
not a multiple of the page size can keep the loop at one place. -/
def allocContiguous (fuel : Nat) (frames limit boundary : UInt32) (m : Pmm) :
    Option (Nat × Pmm) :=
  if frames.toNat = 0 then some (0, m)
  else
    m.searchRun frames.toNat (min (limit.toNat / pageSize) m.frameCount) boundary.toNat fuel 0

/-- The clear bits of the bitmap. -/
def clearFrames (m : Pmm) : Finset Nat :=
  (Finset.range (m.wordCount * bitsPerWord)).filter fun f => m.used f = false

/-- The variables fit together. -/
structure Counted (m : Pmm) : Prop extends m.Ok where
  words : m.frameCount ≤ m.wordCount * bitsPerWord
  count : m.freeCount = m.clearFrames.card
  full : ∀ w < m.searchHint, m.full w = true

/-- The `n` frames from `f` on were free and are taken. -/
structure Takes (f n : Nat) (m m' : Pmm) : Prop where
  frameCount : m'.frameCount = m.frameCount
  wordCount : m'.wordCount = m.wordCount
  free : ∀ x, f ≤ x → x < f + n → m.used x = false
  used : m'.used = markRange true f (f + n) m.used
  freeCount : m'.freeCount = m.freeCount - n
  hint : ∀ w < m'.searchHint, w < m.searchHint ∨ m.full w = true

variable {m m' : Pmm} {f n w : Nat}

theorem full_iff : m.full w = true ↔ ∀ i < bitsPerWord, m.used (w * bitsPerWord + i) = true := by
  simp [full]

theorem mem_clearFrames : f ∈ m.clearFrames ↔ f < m.wordCount * bitsPerWord ∧ m.used f = false := by
  simp [clearFrames]

theorem Ok.lt_of_clear (h : m.Ok) (hf : m.used f = false) : f < m.frameCount := by
  refine not_le.mp fun hle => ?_
  exact Bool.false_ne_true (hf.symm.trans (h.absent f hle))

theorem Ok.pos_of_clear (h : m.Ok) (hf : m.used f = false) : f ≠ 0 := by
  rintro rfl
  exact Bool.false_ne_true (hf.symm.trans h.first)

namespace Takes

theorem none (m : Pmm) : Takes 0 0 m m where
  frameCount := rfl
  wordCount := rfl
  free _ _ h := absurd h (Nat.not_lt_zero _)
  used := funext fun x => (if_neg (by omega)).symm
  freeCount := rfl
  hint _ h := .inl h

theorem used_iff (h : Takes f n m m') (x : Nat) :
    m'.used x = true ↔ (f ≤ x ∧ x < f + n) ∨ m.used x = true := by
  rw [h.used, markRange]
  split
  next hx => exact ⟨fun _ => .inl hx, fun _ => rfl⟩
  next hx => exact ⟨.inr, fun hor => hor.resolve_left hx⟩

theorem used_mono (h : Takes f n m m') {x : Nat} (hx : m.used x = true) : m'.used x = true :=
  (h.used_iff x).mpr (.inr hx)

theorem clearFrames (h : Takes f n m m') :
    m'.clearFrames = m.clearFrames \ Finset.Ico f (f + n) := by
  ext x
  rw [Finset.mem_sdiff, mem_clearFrames, mem_clearFrames, Finset.mem_Ico, h.wordCount,
    ← Bool.not_eq_true, ← Bool.not_eq_true, h.used_iff]
  tauto

end Takes

/-- Frames that were free are taken: the count goes down by their number. -/
theorem Counted.takes (h : m.Counted) (ht : Takes f n m m') : m'.Counted where
  limit := ht.frameCount ▸ h.limit
  first := ht.used_mono h.first
  absent x hx := ht.used_mono (h.absent x (ht.frameCount ▸ hx))
  words := by
    rw [ht.frameCount, ht.wordCount]
    exact h.words
  count := by
    have hsub : Finset.Ico f (f + n) ⊆ m.clearFrames := by
      intro x hx
      obtain ⟨hle, hlt⟩ := Finset.mem_Ico.mp hx
      have hfree := ht.free x hle hlt
      exact mem_clearFrames.mpr ⟨(h.toOk.lt_of_clear hfree).trans_le h.words, hfree⟩
    rw [ht.freeCount, ht.clearFrames, Finset.card_sdiff_of_subset hsub, Nat.card_Ico, h.count]
    omega
  full w hw := by
    have hfull : m.full w = true := (ht.hint w hw).elim (h.full w) id
    rw [full_iff] at hfull ⊢
    exact fun i hi => ht.used_mono (hfull i hi)

theorem skipFull_spec (n w : Nat) : (∀ x, w ≤ x → x < m.skipFull n w → m.full x = true) ∧
      (m.skipFull n w < w + n → m.full (m.skipFull n w) = false) := by
  induction n generalizing w with
  | zero => exact ⟨fun x hle hlt => absurd hlt (not_lt.mpr hle), fun h => absurd h (by
      rw [skipFull]
      omega)⟩
  | succ n ih =>
    rw [skipFull]
    split
    next hfull =>
      refine ⟨fun x hle hlt => ?_, fun hlt => (ih (w + 1)).2 (by omega)⟩
      rcases Nat.eq_or_lt_of_le hle with rfl | hlt'
      · exact hfull
      · exact (ih (w + 1)).1 x hlt' hlt
    next hfull =>
      exact ⟨fun x hle hlt => absurd hlt (not_lt.mpr hle), fun _ => Bool.eq_false_iff.mpr hfull⟩

theorem lowestClear_none (h : m.lowestClear w = none) : m.full w = true := by
  rw [full_iff]
  intro i hi
  simpa using List.find?_eq_none.mp h i (List.mem_range.mpr hi)

/-- `pmm_alloc_frame` takes a free frame, and finds none only if there is none. -/
theorem Counted.alloc (h : m.Counted) :
    m.allocFrame.1 = 0 ∧ Takes 0 0 m m.allocFrame.2 ∧ (∀ f, m.used f = true) ∨
      ∃ f, m.allocFrame.1 = f * pageSize ∧ f ≠ 0 ∧ Takes f 1 m m.allocFrame.2 := by
  obtain ⟨hskip, hstop⟩ := m.skipFull_spec (m.wordCount - m.searchHint) m.searchHint
  unfold allocFrame
  dsimp only
  generalize m.skipFull (m.wordCount - m.searchHint) m.searchHint = w at hskip hstop
  have hbelow : ∀ x < w, x < m.searchHint ∨ m.full x = true := fun x hx =>
    (lt_or_ge x m.searchHint).imp_right fun hle => hskip x hle hx
  split
  next hlt =>
    split
    next i hi =>
      have hclear : m.used (w * bitsPerWord + i) = false :=
        lowestClear_spec (m := { m with searchHint := w }) hi
      have hf := h.toOk.lt_of_clear hclear
      refine .inr ⟨w * bitsPerWord + i, u32_of_lt ?_, h.toOk.pos_of_clear hclear, ?_⟩
      · have := h.limit
        simp only [pageSize]
        omega
      · refine ⟨rfl, rfl, fun x hle hlt => ?_, funext fun x => ?_, rfl, hbelow⟩
        · rw [show x = w * bitsPerWord + i by omega]
          exact hclear
        · simp only [markRange, Function.update_apply]
          exact if_congr (by omega) rfl rfl
    next hi =>
      -- the word was not full
      have hfull : m.full w = true := lowestClear_none (m := { m with searchHint := w }) hi
      exact absurd (hfull.symm.trans (hstop (by omega))) Bool.noConfusion
  next hge =>
    refine .inl ⟨rfl, { Takes.none m with hint := hbelow }, fun f => ?_⟩
    refine Bool.eq_true_of_not_eq_false fun hclear => ?_
    have hlt := (h.toOk.lt_of_clear hclear).trans_le h.words
    have hdiv : f / bitsPerWord < w := by
      have := Nat.div_lt_of_lt_mul (Nat.mul_comm _ _ ▸ hlt)
      exact this.trans_le (not_lt.mp hge)
    have hfull := (hbelow _ hdiv).elim (h.full _) id
    have hbit := full_iff.mp hfull (f % bitsPerWord) (Nat.mod_lt _ (by decide))
    rw [mul_comm, Nat.div_add_mod] at hbit
    exact Bool.false_ne_true (hclear.symm.trans hbit)

/-! ## A run of neighbours -/

theorem freeRun_spec (n f : Nat) :
    m.freeRun n f ≤ n ∧ (∀ x, f ≤ x → x < f + m.freeRun n f → m.used x = false) ∧
      (m.freeRun n f ≠ n → m.used (f + m.freeRun n f) = true) := by
  induction n generalizing f with
  | zero => exact ⟨le_rfl, fun x hle hlt => absurd hlt (not_lt.mpr hle), fun h => absurd rfl h⟩
  | succ n ih =>
    rw [freeRun]
    split
    next hused =>
      exact ⟨Nat.zero_le _, fun x hle hlt => absurd hlt (not_lt.mpr hle), fun _ => hused⟩
    next hclear =>
      obtain ⟨hle, hfree, hstop⟩ := ih (f + 1)
      rw [← add_assoc, add_right_comm]
      refine ⟨Nat.succ_le_succ hle, fun x hle hlt => ?_, fun h => hstop (by omega)⟩
      rcases Nat.eq_or_lt_of_le hle with rfl | hlt'
      · exact Bool.eq_false_iff.mpr hclear
      · exact hfree x hlt' hlt

variable {boundary frames start fuel limit phys : Nat}

/-- The last byte of `frames` frames from `start` on, as the loop computes it. -/
theorem lastByte {last : Nat} (hlast : last ≤ 1048576) (hpos : 0 < frames)
    (hle : start + frames ≤ last) : u32 (start * pageSize) = start * pageSize ∧
      u32 (u32 (start * pageSize) + u32 (frames * pageSize) + 4294967295) =
        (start + frames) * pageSize - 1 := by
  simp only [u32, pageSize]
  omega

/-- A place for `frames` neighbours: they are there and free, they end below the limit, and
no multiple of the boundary lies inside. -/
structure RunAt (m : Pmm) (frames limit boundary f : Nat) : Prop where
  present : f + frames ≤ m.frameCount
  below : (f + frames) * pageSize ≤ limit
  free : ∀ x, f ≤ x → x < f + frames → m.used x = false
  within : boundary ≠ 0 → f * pageSize / boundary = ((f + frames) * pageSize - 1) / boundary

/-- The bitmap with `n` frames from `f` on taken. -/
def taking (m : Pmm) (f n : Nat) : Pmm :=
  { m with used := markRange true f (f + n) m.used, freeCount := m.freeCount - n }

theorem RunAt.takes (h : m.RunAt frames limit boundary f) : Takes f frames m (m.taking f frames) :=
  ⟨rfl, rfl, h.free, rfl, rfl, fun _ hw => .inl hw⟩

theorem RunAt.not_crossed (h : m.RunAt frames limit boundary f)
    (hb : boundary ≠ 0) (hle : start ≤ f) :
    ((start + frames) * pageSize - 1) / boundary * boundary / pageSize ≤ f := by
  refine not_lt.mp fun hlt => ?_
  have hbefore : f * pageSize < ((start + frames) * pageSize - 1) / boundary * boundary :=
    (Nat.mul_lt_mul_of_pos_right hlt (by decide)).trans_le (Nat.div_mul_le_self _ _)
  have hsame := (Nat.div_lt_iff_lt_mul (Nat.pos_of_ne_zero hb)).mpr hbefore
  have hmono : ((start + frames) * pageSize - 1) / boundary ≤
      ((f + frames) * pageSize - 1) / boundary :=
    Nat.div_le_div_right (by simp only [pageSize]; omega)
  have := h.within hb
  omega

/-- The frames of a run are free, and are taken; or none is, and there is no place. -/
theorem searchRun_takes (hcount : m.frameCount ≤ 1048576) (hpos : 0 < frames)
    (hfit : frames ≤ min (limit / pageSize) m.frameCount) (hstart : start ≤ 1048576)
    (hbefore : ∀ f, m.RunAt frames limit boundary f → start ≤ f)
    (h : m.searchRun frames (min (limit / pageSize) m.frameCount) boundary fuel start =
      some (phys, m')) : (phys = 0 ∧ m' = m ∧ ∀ f, ¬ m.RunAt frames limit boundary f) ∨
      ∃ f, phys = f * pageSize ∧ m.RunAt frames limit boundary f ∧ m' = m.taking f frames := by
  have hlast : min (limit / pageSize) m.frameCount ≤ 1048576 := (min_le_right ..).trans hcount
  induction fuel generalizing start with
  | zero => cases h
  | succ n ih =>
    rw [searchRun, u32_of_lt (by omega)] at h
    split at h
    next hle =>
      obtain ⟨hlo, hhi⟩ := lastByte hlast hpos hle
      dsimp only at h
      rw [hhi, hlo] at h
      split at h
      next hcross =>
        refine ih ?_ (fun f hf => hf.not_crossed hcross.1 (hbefore f hf)) h
        have hdiv := Nat.div_mul_le_self ((start + frames) * pageSize - 1) boundary
        simp only [pageSize] at hdiv ⊢
        omega
      next hcross =>
        split at h
        next hrun =>
          cases h
          have hfree := (m.freeRun_spec frames start).2.1
          rw [hrun] at hfree
          have hbelow : (start + frames) * pageSize ≤ limit := by
            simp only [pageSize] at hle ⊢
            omega
          exact .inr ⟨start, rfl, ⟨by omega, hbelow, hfree,
            fun hb => Decidable.not_not.mp fun hne => hcross ⟨hb, hne⟩⟩, rfl⟩
        next hrun =>
          obtain ⟨hlt, -, hused⟩ := m.freeRun_spec frames start
          refine ih (by omega) (fun f hf => Nat.lt_of_not_le fun hle => ?_) h
          have hused := hused hrun
          rw [hf.free _ hle (by have := hbefore f hf; omega)] at hused
          cases hused
    next hle =>
      cases h
      refine .inl ⟨rfl, rfl, fun f hf => ?_⟩
      have := hbefore f hf
      obtain ⟨hpresent, hbelow, -, -⟩ := hf
      simp only [pageSize] at *
      omega

/-- `pmm_alloc_contiguous` takes neighbours that were free; or nothing, if there is no place
for them. -/
theorem allocContiguous_takes (hcount : m.frameCount ≤ 1048576) {frames limit boundary : UInt32}
    (hm : m.allocContiguous fuel frames limit boundary = some (phys, m')) :
    (phys = 0 ∧ m' = m ∧ (frames.toNat ≠ 0 →
        ∀ f, ¬ m.RunAt frames.toNat limit.toNat boundary.toNat f)) ∨
      frames.toNat ≠ 0 ∧ ∃ f, phys = f * pageSize ∧
        m.RunAt frames.toNat limit.toNat boundary.toNat f ∧ m' = m.taking f frames.toNat := by
  rw [Pmm.allocContiguous] at hm
  split at hm
  next hzero =>
    cases hm
    exact .inl ⟨rfl, rfl, fun h => absurd hzero h⟩
  next hpos =>
    by_cases hfit : frames.toNat ≤ min (limit.toNat / pageSize) m.frameCount
    · exact (searchRun_takes hcount (Nat.pos_of_ne_zero hpos) hfit (Nat.zero_le _)
        (fun f _ => Nat.zero_le f) hm).imp (fun h => ⟨h.1, h.2.1, fun _ => h.2.2⟩) fun h => ⟨hpos, h⟩
    · cases fuel with
      | zero => cases hm
      | succ n =>
        rw [searchRun, zero_add, u32_of_lt frames.toNat_lt, if_neg hfit] at hm
        cases hm
        refine .inl ⟨rfl, rfl, fun _ f hf => ?_⟩
        obtain ⟨hpresent, hbelow, -, -⟩ := hf
        simp only [pageSize] at *
        omega

theorem Counted.allocContiguous (h : m.Counted) {frames limit boundary : UInt32}
    (hm : m.allocContiguous fuel frames limit boundary = some (phys, m')) :
    phys = 0 ∧ m' = m ∨ ∃ f, phys = f * pageSize ∧ f ≠ 0 ∧ Takes f frames.toNat m m' := by
  rcases allocContiguous_takes h.limit hm with ⟨hzero, hm', -⟩ | ⟨hpos, f, hphys, hf, rfl⟩
  · exact .inl ⟨hzero, hm'⟩
  · exact .inr ⟨f, hphys, h.toOk.pos_of_clear (hf.free f (le_refl f) (by omega)), hf.takes⟩

/-- With a boundary of whole pages every pass of the loop gets further. -/
theorem searchRun_isSome {last : Nat} (hlast : last ≤ 1048576)
    (hpos : 0 < frames) (hfit : frames ≤ last) (hstart : start ≤ last + 1)
    (hboundary : pageSize ∣ boundary) (hfuel : last + 1 < fuel + start) :
    (m.searchRun frames last boundary fuel start).isSome = true := by
  induction fuel generalizing start with
  | zero => omega
  | succ n ih =>
    rw [searchRun, u32_of_lt (by omega)]
    split
    next hle =>
      obtain ⟨hlo, hhi⟩ := lastByte hlast hpos hle
      dsimp only
      rw [hhi, hlo]
      split
      next hcross =>
        -- the next boundary lies behind the start
        obtain ⟨k, rfl⟩ := hboundary
        have hk : 0 < k := Nat.pos_of_ne_zero fun h0 => hcross.1 (by rw [h0]; rfl)
        have hmono : start * pageSize / (pageSize * k) ≤
            ((start + frames) * pageSize - 1) / (pageSize * k) :=
          Nat.div_le_div_right (by simp only [pageSize]; omega)
        generalize hq : ((start + frames) * pageSize - 1) / (pageSize * k) = q at *
        have hq' : q * (pageSize * k) / pageSize = q * k := by
          rw [mul_comm pageSize k, ← mul_assoc, Nat.mul_div_cancel _ (by decide)]
        have hlt : start < q * k := by
          have hlt : start * pageSize / (pageSize * k) < q := by omega
          rw [mul_comm start, Nat.mul_div_mul_left _ _ (by decide),
            Nat.div_lt_iff_lt_mul hk] at hlt
          exact hlt
        have hle' : q * k ≤ start + frames := by
          have := Nat.div_mul_le_self ((start + frames) * pageSize - 1) (pageSize * k)
          rw [hq, mul_comm pageSize k, ← mul_assoc] at this
          simp only [pageSize] at this
          omega
        exact ih (by omega) (by omega)
      next =>
        split
        next => rfl
        next hrun =>
          have := (m.freeRun_spec frames start).1
          exact ih (by omega) (by omega)
    next => rfl

/-- With a boundary of whole pages, or none, `pmm_alloc_contiguous` returns. -/
theorem allocContiguous_returns (hcount : m.frameCount ≤ 1048576)
    (frames limit boundary : UInt32) (hboundary : pageSize ∣ boundary.toNat) :
    ∃ r, m.allocContiguous (m.frameCount + 2) frames limit boundary = some r := by
  rw [← Option.isSome_iff_exists, Pmm.allocContiguous]
  split
  next => rfl
  next hpos =>
    have hlast : min (limit.toNat / pageSize) m.frameCount ≤ m.frameCount := min_le_right ..
    by_cases hfit : frames.toNat ≤ min (limit.toNat / pageSize) m.frameCount
    · exact searchRun_isSome (hlast.trans hcount) (Nat.pos_of_ne_zero hpos) hfit
        (Nat.zero_le _) hboundary (by omega)
    · rw [searchRun, zero_add, u32_of_lt frames.toNat_lt, if_neg hfit]
      rfl

/-- `pmm_alloc_contiguous` returns a place for the frames and takes these and no other, or it
returns 0, changes nothing, and there is no place. -/
theorem contiguous_complete (hcount : m.frameCount ≤ 1048576) (hfirst : m.used 0 = true)
    {frames : UInt32} (hpos : frames ≠ 0) (limit : UInt32) {boundary : UInt32}
    (hboundary : boundary = 0 ∨ ∃ k, boundary.toNat = 2 ^ k * pageSize) :
    ∃ phys m', (∃ fuel, m.allocContiguous fuel frames limit boundary = some (phys, m')) ∧
      ((∃ f, phys = f * pageSize ∧ f ≠ 0 ∧
          m.RunAt frames.toNat limit.toNat boundary.toNat f ∧ m' = m.taking f frames.toNat) ∨
        phys = 0 ∧ m' = m ∧ ∀ f, ¬ m.RunAt frames.toNat limit.toNat boundary.toNat f) := by
  have hdvd : pageSize ∣ boundary.toNat := by
    obtain rfl | ⟨k, hk⟩ := hboundary
    · exact Nat.dvd_zero _
    · exact ⟨2 ^ k, by rw [hk, mul_comm]⟩
  have hne : frames.toNat ≠ 0 := fun h => hpos (UInt32.toNat_inj.mp h)
  obtain ⟨⟨phys, m'⟩, hm⟩ := allocContiguous_returns hcount frames limit boundary hdvd
  refine ⟨phys, m', ⟨_, hm⟩, ?_⟩
  rcases allocContiguous_takes hcount hm with ⟨hzero, hsame, hnone⟩ | ⟨-, f, hphys, hf, hm'⟩
  · exact .inr ⟨hzero, hsame, hnone hne⟩
  · refine .inl ⟨f, hphys, ?_, hf, hm'⟩
    rintro rfl
    rw [hf.free 0 (le_refl 0) (by omega)] at hfirst
    cases hfirst

/-- Eight frames, the first and the fourth in use. -/
def eightFrames : Pmm := ⟨fun f => f = 0 ∨ f = 3 ∨ 8 ≤ f, 8, 1, 0, 6⟩

theorem contiguous_complete_eight :
    ∃ phys m', (∃ fuel, eightFrames.allocContiguous fuel 3 0x8000 0x4000 = some (phys, m')) ∧
      ((∃ f, phys = f * pageSize ∧ f ≠ 0 ∧
          eightFrames.RunAt 3 0x8000 0x4000 f ∧ m' = eightFrames.taking f 3) ∨
        phys = 0 ∧ m' = eightFrames ∧ ∀ f, ¬ eightFrames.RunAt 3 0x8000 0x4000 f) :=
  contiguous_complete (by decide) (by decide) (by decide) 0x8000 (.inr ⟨2, rfl⟩)

/-! ## A frame given back -/

/-- A frame that was taken is given back. -/
structure Gives (f : Nat) (m m' : Pmm) : Prop where
  frameCount : m'.frameCount = m.frameCount
  wordCount : m'.wordCount = m.wordCount
  used : m'.used = update m.used f false
  freeCount : m'.freeCount = m.freeCount + 1
  hint : m'.searchHint ≤ m.searchHint ∧ m'.searchHint ≤ f / bitsPerWord

theorem freeFrame_gives (hused : m.used f = true) (hlt : f < m.frameCount) :
    ∃ m', m.freeFrame (f * pageSize) = some m' ∧ Gives f m m' := by
  rw [freeFrame, Nat.mul_div_cancel f (by decide)]
  rw [if_neg (not_not.mpr (Nat.mul_mod_left f pageSize)), if_neg (not_le.mpr hlt),
    if_neg (by simp [hused])]
  refine ⟨_, rfl, rfl, rfl, rfl, rfl, ?_⟩
  dsimp only
  split <;> omega

theorem Gives.clearFrames (hg : Gives f m m') (hf : f < m.wordCount * bitsPerWord) :
    m'.clearFrames = insert f m.clearFrames := by
  ext x
  simp only [mem_clearFrames, Finset.mem_insert, hg.used, hg.wordCount, Function.update_apply]
  by_cases hx : x = f
  · simp [hx, hf]
  · simp [hx]

theorem Counted.gives (h : m.Counted) (hused : m.used f = true) (hf : f ≠ 0)
    (hlt : f < m.frameCount) (hg : Gives f m m') : m'.Counted where
  toOk := h.toOk.of_update hg.frameCount hg.used hf hlt
  words := by
    rw [hg.frameCount, hg.wordCount]
    exact h.words
  count := by
    have hnew : f ∉ m.clearFrames := fun hmem =>
      Bool.false_ne_true ((mem_clearFrames.mp hmem).2.symm.trans hused)
    rw [hg.freeCount, hg.clearFrames (hlt.trans_le h.words), Finset.card_insert_of_notMem hnew,
      h.count]
  full w hw := by
    have hfull := full_iff.mp (h.full w (hw.trans_le hg.hint.1))
    refine full_iff.mpr fun i hi => ?_
    -- the frame's own word is not below the hint
    have hne : w * bitsPerWord + i ≠ f := by
      have := hw.trans_le hg.hint.2
      simp only [bitsPerWord] at *
      omega
    rw [hg.used, Function.update_of_ne hne]
    exact hfull i hi

end Pmm

/-! ## After `pmm_init` -/

variable {regions : List MemRegion}

theorem markRegions_eq_iff {b usable : Bool} {lo hi : MemRegion → Nat}
    {used : Nat → Bool} {f : Nat} : markRegions b usable lo hi regions used f = b ↔
      used f = b ∨ ∃ r ∈ regions, (r.usable = usable ∧ r.base < physAddrLimit) ∧
        lo r ≤ f ∧ f < hi r := by
  induction regions generalizing used with
  | nil => simp [markRegions]
  | cons r regions ih =>
    rw [markRegions, List.foldl_cons, ← markRegions, ih]
    simp only [List.exists_mem_cons_iff, ← or_assoc]
    refine or_congr_left ?_
    split
    next hr =>
      rw [markRange]
      split
      next hf => exact ⟨fun _ => .inr ⟨hr, hf⟩, fun _ => rfl⟩
      next hf => exact ⟨.inl, fun h => h.resolve_right fun h => hf h.2⟩
    next hr => exact ⟨.inl, fun h => h.resolve_right fun h => hr h.1⟩

theorem regionEnd_le (r : MemRegion) : r.regionEnd ≤ physAddrLimit := by
  rw [MemRegion.regionEnd]
  split <;> omega

theorem memoryTop_le (regions : List MemRegion) : memoryTop regions ≤ physAddrLimit := by
  suffices h : ∀ top, top ≤ physAddrLimit → regions.foldl (fun top r =>
      if r.usable = true ∧ r.base < physAddrLimit ∧ top < r.regionEnd then r.regionEnd else top)
      top ≤ physAddrLimit from h 0 (Nat.zero_le _)
  intro top htop
  induction regions generalizing top with
  | nil => exact htop
  | cons r regions ih =>
    refine ih _ ?_
    dsimp only
    split
    · exact regionEnd_le r
    · exact htop

variable {kernelEnd passes : Nat} {b : Booted}

theorem placeBitmap_end {bytes start start' bitmapEnd : Nat}
    (h : placeBitmap bytes regions passes start = some (start', bitmapEnd)) :
    bitmapEnd = pageAlign (start' + bytes) := by
  induction passes generalizing start with
  | zero => cases h
  | succ n ih =>
    rw [placeBitmap] at h
    split at h
    · exact ih h
    · cases h
      rfl

/-- A bitmap in the boot mapping leaves frame 0 below its end. -/
theorem first_below_bitmap {start bytes : Nat} (hbytes : bytes ≠ 0)
    (hfit : v2p start + bytes ≤ bootMappedPhysLimit) :
    0 < v2p (pageAlign (start + bytes)) / pageSize := by
  simp only [v2p, pageAlign, u32, physAddrLimit, pageSize, bootMappedPhysLimit] at *
  omega

theorem initialBits_free {frameCount bitmapEnd f : Nat} (hcount : frameCount ≤ 1048576) :
    initialBits regions frameCount bitmapEnd f = false ↔
      f < frameCount ∧ ¬ Reserved regions bitmapEnd f := by
  rw [initialBits, markRange]
  split
  next hlow =>
    refine ⟨nofun, fun h => absurd (.inr (.inr ?_)) h.2⟩
    omega
  next hlow =>
    rw [← Bool.not_eq_true, markRegions_eq_iff, not_or, Bool.not_eq_true, markRegions_eq_iff,
      Reserved, not_or, not_or, not_not]
    constructor
    · rintro ⟨husable, htouch⟩
      obtain ⟨r, hr, hkind, hlo, hhi⟩ := husable.resolve_left Bool.noConfusion
      refine ⟨by omega, ⟨r, hr, hkind.1, ?_⟩, ?_, by omega⟩
      · simp only [MemRegion.Covers, pageSize] at *
        omega
      · rintro ⟨r', hr', hkind', htouches⟩
        refine htouch ⟨r', hr', ⟨hkind', ?_⟩, ?_⟩
        all_goals
          simp only [MemRegion.Touches, pageSize, physAddrLimit] at *
          omega
    · rintro ⟨hlt, ⟨r, hr, hkind, hcovers⟩, htouch, -⟩
      refine ⟨.inr ⟨r, hr, ⟨hkind, ?_⟩, ?_⟩, ?_⟩
      · simp only [MemRegion.Covers, pageSize, physAddrLimit] at *
        omega
      · simp only [MemRegion.Covers, pageSize] at *
        omega
      · rintro ⟨r', hr', hkind', hlo, hhi⟩
        refine htouch ⟨r', hr', hkind'.1, ?_⟩
        simp only [MemRegion.Touches, pageSize] at *
        omega

/-- Bits of frames that are not there are set, so all clear bits are counted. -/
theorem Pmm.freeCount_eq {m : Pmm} (hwords : m.frameCount ≤ m.wordCount * bitsPerWord)
    (habsent : ∀ f, m.frameCount ≤ f → m.used f = true)
    (hcount : m.freeCount = (List.range m.frameCount).countP fun f => !m.used f) :
    m.freeCount = m.clearFrames.card := by
  have hclear : m.clearFrames = (Finset.range m.frameCount).filter fun f => m.used f = false := by
    ext f
    rw [mem_clearFrames, Finset.mem_filter, Finset.mem_range]
    refine and_congr_left fun hf => ⟨fun _ => ?_, fun hlt => hlt.trans_le hwords⟩
    exact not_le.mp fun hle => Bool.false_ne_true (hf.symm.trans (habsent f hle))
  rw [hclear, hcount, List.countP_eq_length_filter]
  exact congrArg List.length (List.filter_congr fun f _ => by simp)

theorem pmmInit_eq (h : pmmInit passes regions kernelEnd = some b) :
    ∃ start, placeBitmap (b.pmm.wordCount * 4) regions passes kernelEnd =
        some (start, b.bitmapEnd) ∧
      (b.pmm.wordCount * 4 ≠ 0 → v2p start + b.pmm.wordCount * 4 ≤ bootMappedPhysLimit) ∧
      b.pmm.frameCount = memoryTop regions / pageSize ∧
      b.pmm.wordCount = (b.pmm.frameCount + bitsPerWord - 1) / bitsPerWord ∧
      b.pmm.used = initialBits regions b.pmm.frameCount b.bitmapEnd ∧ b.pmm.searchHint = 0 ∧
      b.pmm.freeCount = (List.range b.pmm.frameCount).countP fun f => !b.pmm.used f := by
  rw [pmmInit] at h
  split at h
  · cases h
  obtain ⟨⟨start, bitmapEnd⟩, hplace, h⟩ := Option.bind_eq_some_iff.mp h
  dsimp only at h
  split at h
  · cases h
  split at h
  · cases h
  next hfit =>
    cases h
    exact ⟨start, hplace, fun hbytes => not_lt.mp fun hlt => hfit ⟨hbytes, hlt⟩,
      rfl, rfl, rfl, rfl, rfl⟩

theorem pmmInit_spec (h : pmmInit passes regions kernelEnd = some b) : b.pmm.Counted ∧
      ∀ f, b.pmm.used f = false ↔ f < b.pmm.frameCount ∧ ¬ Reserved regions b.bitmapEnd f := by
  obtain ⟨start, hplace, hfit, hcount, hwordCount, hused, hhint, hfreeCount⟩ := pmmInit_eq h
  have htop : b.pmm.frameCount ≤ 1048576 := by
    have := memoryTop_le regions
    simp only [physAddrLimit, pageSize] at *
    omega
  have hfree : ∀ f, b.pmm.used f = false ↔
      f < b.pmm.frameCount ∧ ¬ Reserved regions b.bitmapEnd f := fun f => by
    rw [hused, initialBits_free htop]
  have hwords : b.pmm.frameCount ≤ b.pmm.wordCount * bitsPerWord := by
    simp only [bitsPerWord] at *
    omega
  have habsent : ∀ f, b.pmm.frameCount ≤ f → b.pmm.used f = true := fun f hle =>
    Bool.eq_true_of_not_eq_false fun hf => not_lt.mpr hle ((hfree f).mp hf).1
  refine ⟨⟨⟨htop, ?_, habsent⟩, hwords, Pmm.freeCount_eq hwords habsent hfreeCount, ?_⟩, hfree⟩
  · refine Bool.eq_true_of_not_eq_false fun hf => ?_
    obtain ⟨hpos, hres⟩ := (hfree 0).mp hf
    have hbytes : b.pmm.wordCount * 4 ≠ 0 := by
      simp only [bitsPerWord] at *
      omega
    rw [placeBitmap_end hplace] at hres
    exact hres (.inr (.inr (first_below_bitmap hbytes (hfit hbytes))))
  · rw [hhint]
    exact fun _ hi => absurd hi (Nat.not_lt_zero _)

/-! ## Frames handed out -/

/-- The allocator, and the frames that are handed out. -/
structure Lent where
  pmm : Pmm
  lent : Set Nat

/-- A call of `pmm.c`. -/
inductive PmmCall where
  | allocFrame
  | allocContiguous (frames limit boundary : UInt32)
  | freeFrame (phys : Nat)

/-- The `n` frames at the address that a call returned: none if that is 0. -/
def framesAt (phys n : Nat) : Set Nat :=
  { f | phys ≠ 0 ∧ phys / pageSize ≤ f ∧ f < phys / pageSize + n }

/-- A call that returns.  Only frames that are handed out are given back. -/
inductive Lent.Step : PmmCall → Lent → Lent → Prop
  | allocFrame {s : Lent} :
      Step .allocFrame s ⟨s.pmm.allocFrame.2, s.lent ∪ framesAt s.pmm.allocFrame.1 1⟩
  | allocContiguous {s : Lent} {fuel phys : Nat} {frames limit boundary : UInt32} {m : Pmm}
      (h : s.pmm.allocContiguous fuel frames limit boundary = some (phys, m)) :
      Step (.allocContiguous frames limit boundary) s ⟨m, s.lent ∪ framesAt phys frames.toNat⟩
  | freeFrame {s : Lent} {f : Nat} {m : Pmm} (hf : f ∈ s.lent)
      (h : s.pmm.freeFrame (f * pageSize) = some m) :
      Step (.freeFrame (f * pageSize)) s ⟨m, s.lent \ {f}⟩

/-- The frames in use are those that were so at the start, and those handed out. -/
structure Lent.Inv (m0 : Pmm) (s : Lent) : Prop where
  start : m0.Ok
  counted : s.pmm.Counted
  frameCount : s.pmm.frameCount = m0.frameCount
  free : ∀ f ∈ s.lent, m0.used f = false
  used : ∀ f, s.pmm.used f = true ↔ m0.used f = true ∨ f ∈ s.lent

namespace Lent

variable {m0 m : Pmm} {s s' : Lent} {call : PmmCall} {f n phys : Nat}

theorem framesAt_mul (hf : f ≠ 0) : framesAt (f * pageSize) n = { x | f ≤ x ∧ x < f + n } := by
  have hne : f * pageSize ≠ 0 := Nat.mul_ne_zero hf (by decide)
  rw [framesAt, Nat.mul_div_cancel f (by decide)]
  simp only [ne_eq, hne, not_false_eq_true, true_and]

theorem framesAt_zero : framesAt 0 n = ∅ := Set.eq_empty_of_forall_notMem fun _ hx => hx.1 rfl

variable (h : Inv m0 s)
include h

/-- What is taken was neither in use at the start nor handed out. -/
theorem Inv.fresh (ht : s.pmm.Takes f n m) {x : Nat} (hle : f ≤ x)
    (hlt : x < f + n) : m0.used x = false ∧ x ∉ s.lent := by
  have hclear := Bool.eq_false_iff.mp (ht.free x hle hlt)
  rw [ne_eq, h.used, not_or] at hclear
  exact ⟨Bool.eq_false_iff.mpr hclear.1, hclear.2⟩

theorem Inv.takes (ht : s.pmm.Takes f n m) : Inv m0 ⟨m, s.lent ∪ { x | f ≤ x ∧ x < f + n }⟩ where
  start := h.start
  counted := h.counted.takes ht
  frameCount := ht.frameCount.trans h.frameCount
  free x hx := hx.elim (h.free x) fun hx => (h.fresh ht hx.1 hx.2).1
  used x := by
    rw [ht.used_iff, h.used, Set.mem_union, Set.mem_ofPred_eq]
    tauto

theorem Inv.takes_none (ht : s.pmm.Takes 0 0 m) : Inv m0 ⟨m, s.lent ∪ ∅⟩ := by
  have hempty : ({ x | 0 ≤ x ∧ x < 0 + 0 } : Set Nat) = ∅ :=
    Set.eq_empty_of_forall_notMem fun x hx => Nat.not_lt_zero x hx.2
  have := h.takes ht
  rwa [hempty] at this

theorem Inv.freeFrame (hf : f ∈ s.lent) :
    ∃ m, s.pmm.freeFrame (f * pageSize) = some m ∧ Inv m0 ⟨m, s.lent \ {f}⟩ := by
  have hclear := h.free f hf
  have hused := (h.used f).mpr (.inr hf)
  have hpos := h.start.pos_of_clear hclear
  have hlt : f < s.pmm.frameCount := h.frameCount ▸ h.start.lt_of_clear hclear
  obtain ⟨m, hm, hg⟩ := Pmm.freeFrame_gives hused hlt
  refine ⟨m, hm, h.start, h.counted.gives hused hpos hlt hg, hg.frameCount.trans h.frameCount,
    fun x hx => h.free x hx.1, fun x => ?_⟩
  rw [hg.used, Set.mem_sdiff]
  by_cases hx : x = f
  · subst hx
    simp [hclear]
  · rw [Function.update_of_ne hx, h.used]
    simp [hx]

theorem Inv.step (hs : Step call s s') : Inv m0 s' := by
  cases hs with
  | allocFrame =>
    rcases h.counted.alloc with ⟨hzero, ht, -⟩ | ⟨f, hphys, hf, ht⟩
    · rw [hzero, framesAt_zero]
      exact h.takes_none ht
    · rw [hphys, framesAt_mul hf]
      exact h.takes ht
  | allocContiguous hm =>
    rcases h.counted.allocContiguous hm with ⟨rfl, rfl⟩ | ⟨f, rfl, hf, ht⟩
    · rw [framesAt_zero]
      exact h.takes_none (.none _)
    · rw [framesAt_mul hf]
      exact h.takes ht
  | freeFrame hf hm =>
    obtain ⟨m, hm', hinv⟩ := h.freeFrame hf
    cases hm.symm.trans hm'
    exact hinv

omit h

theorem Inv.start_of (h : pmmInit passes regions kernelEnd = some b) :
    Inv b.pmm ⟨b.pmm, ∅⟩ where
  start := (pmmInit_spec h).1.toOk
  counted := (pmmInit_spec h).1
  frameCount := rfl
  free _ hf := hf.elim
  used f := by simp

end Lent

/-- In every run of calls after `pmm_init` the free count is the number of clear bits,
and the words below the search hint are full.  A frame that is returned is neither
reserved nor handed out, `pmm_alloc_frame` returns 0 only if no bit is clear, a frame that
is handed out can be given back, and `pmm_alloc_contiguous` returns if its boundary is a
number of whole pages. -/
theorem frames_run {passes kernelEnd : Nat} {regions : List MemRegion} {b : Booted}
    (hinit : pmmInit passes regions kernelEnd = some b) {s : Lent}
    (h : Reached Lent.Step ⟨b.pmm, ∅⟩ s) : s.pmm.freeCount = s.pmm.clearFrames.card ∧
      (∀ w < s.pmm.searchHint, s.pmm.full w = true) ∧
      (∀ f ∈ framesAt s.pmm.allocFrame.1 1, ¬ Reserved regions b.bitmapEnd f ∧ f ∉ s.lent) ∧
      (∀ fuel frames limit boundary phys m,
        s.pmm.allocContiguous fuel frames limit boundary = some (phys, m) →
        ∀ f ∈ framesAt phys frames.toNat, ¬ Reserved regions b.bitmapEnd f ∧ f ∉ s.lent) ∧
      (s.pmm.allocFrame.1 = 0 → ∀ f, s.pmm.used f = true) ∧
      (∀ f ∈ s.lent, (s.pmm.freeFrame (f * pageSize)).isSome = true) ∧
      ∀ frames limit boundary, pageSize ∣ boundary.toNat →
        ∃ fuel r, s.pmm.allocContiguous fuel frames limit boundary = some r := by
  have hinv : Lent.Inv b.pmm s :=
    h.invariant (.start_of hinit) fun _ _ _ hi hs => hi.step hs
  have hfresh : ∀ {f n m}, s.pmm.Takes f n m → ∀ x, f ≤ x ∧ x < f + n →
      ¬ Reserved regions b.bitmapEnd x ∧ x ∉ s.lent := fun ht x hx =>
    (hinv.fresh ht hx.1 hx.2).imp_left fun hfree => (((pmmInit_spec hinit).2 x).mp hfree).2
  refine ⟨hinv.counted.count, hinv.counted.full, fun f hf => ?_,
    fun fuel frames limit boundary phys m hm f hf => ?_, fun hzero => ?_, fun f hf => ?_,
    fun frames limit boundary hb => ⟨_, Pmm.allocContiguous_returns hinv.counted.limit _ _ _ hb⟩⟩
  · rcases hinv.counted.alloc with ⟨hzero, -⟩ | ⟨g, hphys, hg, ht⟩
    · exact absurd hzero hf.1
    · rw [hphys, Lent.framesAt_mul hg] at hf
      exact hfresh ht f hf
  · rcases hinv.counted.allocContiguous hm with ⟨hzero, -⟩ | ⟨g, rfl, hg, ht⟩
    · exact absurd hzero hf.1
    · rw [Lent.framesAt_mul hg] at hf
      exact hfresh ht f hf
  · rcases hinv.counted.alloc with ⟨-, -, hfull⟩ | ⟨g, hphys, hg, -⟩
    · exact hfull
    · exact absurd (hphys.symm.trans hzero) (Nat.mul_ne_zero hg (by decide))
  · obtain ⟨m, hm, -⟩ := hinv.freeFrame hf
    rw [hm]
    rfl

/-- A machine with 16 frames, one of them reserved, and a kernel of three. -/
def tinyMap : List MemRegion := [⟨0, 0x10000, true⟩, ⟨0x8000, 0x1000, false⟩]

theorem frames_run_tiny :
    ∃ b s, pmmInit 1 tinyMap 0xC0003000 = some b ∧ Reached Lent.Step ⟨b.pmm, ∅⟩ s ∧
      s.pmm.freeCount = 10 ∧ s.pmm.clearFrames.card = 10 := by
  obtain ⟨b, hb⟩ := Option.isSome_iff_exists.mp
    (show (pmmInit 1 tinyMap 0xC0003000).isSome = true by decide)
  have hcount : ((pmmInit 1 tinyMap 0xC0003000).map fun b =>
      b.pmm.allocFrame.2.freeCount) = some 10 := by decide
  rw [hb] at hcount
  have hrun : Reached Lent.Step ⟨b.pmm, ∅⟩ _ := .step _ .start .allocFrame
  have := (frames_run hb hrun).1
  exact ⟨b, _, hb, hrun, Option.some.inj hcount, this.symm.trans (Option.some.inj hcount)⟩

end ManiOS.Mm

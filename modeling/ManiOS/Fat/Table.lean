import ManiOS.Fat.Mount

/-!
# The file allocation table

`fat_entry` decodes an entry from the first copy of the FAT, and
`fat_set_entry` patches it, byte by byte, in every copy.  A FAT16 entry is two
whole bytes.  A FAT12 entry is a byte and a half, so two entries share a byte,
each patch has a mask for the half that is not its own, and an entry may lie
in two sectors.

The low byte of an even FAT12 entry is patched with the mask `0xFF`, which
clears nothing: the new bits are or-ed to the old ones.  `entry_setEntry_even12`
says what the entry decodes to then, and `fatSetEntry_exact_iff` when that is
what was asked for.
-/

namespace ManiOS.Fat

open ManiOS.Lib

/-! ## The code -/

section Code

variable {σ : Type} (g : Geometry)

/-- The sector of copy `k` that holds byte `off`. -/
def fatSector (k off : Nat) : Nat := g.fatStart + k * g.fatSize + off / 512

/-- The loop of `fat_patch_byte`, over the copies from `copy` on. -/
def fatPatchByteFrom (g : Geometry) (offset : Nat) (mask set : UInt8) : Nat → Nat → FatM σ Unit
  | 0, _ => pure ()
  | left + 1, copy => do
      let s ← FatM.readSector (fatSector g copy offset)
      FatM.writeSector (fatSector g copy offset)
        (setByte s (offset % 512) ((s (offset % 512) &&& mask) ||| set))
      fatPatchByteFrom g offset mask set left (copy + 1)

/-- `fat_patch_byte`: `(old & mask) | set` in every copy. -/
def fatPatchByte (offset : Nat) (mask set : UInt8) : FatM σ Unit :=
  fatPatchByteFrom g offset mask set g.fats 0

/-- `fat_byte`.  `none` is `-EIO`. -/
def fatByte (offset : Nat) : FatM σ (Option UInt8) := do
  let s ← Proc.query (SectorOp.read (g.fatStart + offset / 512))
  pure (s.map fun s => s (offset % 512))

def entryOffset (cluster : Nat) : Nat :=
  if g.fat12 then cluster + cluster / 2 else cluster * 2

def decodeEntry (cluster : Nat) (lo hi : UInt8) : Nat :=
  let v := lo.toNat ||| hi.toNat <<< 8
  if g.fat12 then (if cluster % 2 = 1 then v >>> 4 else v &&& 0xFFF) else v

def fatEntry (cluster : Nat) : FatM σ Nat := do
  let offset := entryOffset g cluster
  let lo ← fatByte g offset
  let hi ← fatByte g (offset + 1)
  match lo, hi with
  | some lo, some hi => pure (decodeEntry g cluster lo hi)
  | _, _ => throw (.rc .eio)

def fatSetEntry (cluster value : Nat) : FatM σ Unit := do
  let offset := entryOffset g cluster
  if !g.fat12 then
    fatPatchByte g offset 0x00 (UInt8.ofNat value)
    fatPatchByte g (offset + 1) 0x00 (UInt8.ofNat (value >>> 8))
  else if cluster % 2 = 1 then
    fatPatchByte g offset 0x0F (UInt8.ofNat ((value &&& 0x0F) <<< 4))
    fatPatchByte g (offset + 1) 0x00 (UInt8.ofNat (value >>> 4))
  else
    fatPatchByte g offset 0xFF (UInt8.ofNat (value &&& 0xFF))
    fatPatchByte g (offset + 1) 0xF0 (UInt8.ofNat ((value >>> 8) &&& 0x0F))

def isEndOfChain (v : Nat) : Bool := decide (v ≥ if g.fat12 then 0xFF8 else 0xFFF8)

def validCluster (c : Nat) : Bool := decide (2 ≤ c ∧ c < g.clusterCount + 2)

def endMarker : Nat := if g.fat12 then 0xFFF else 0xFFFF

end Code

/-! ## The bytes of the table -/

variable (g : Geometry)

def Vol.fatByte (v : Vol) (k off : Nat) : UInt8 :=
  v.blocks (fatSector g k off) (off % 512)

def Vol.entry (v : Vol) (k cluster : Nat) : Nat :=
  decodeEntry g cluster (v.fatByte g k (entryOffset g cluster))
    (v.fatByte g k (entryOffset g cluster + 1))

/-- The FAT is large enough to hold an entry for every cluster. -/
def Geometry.HoldsClusters : Prop :=
  entryOffset g (g.clusterCount + 1) + 2 ≤ g.fatSize * 512

/-- One byte patched in the copies from `copy` on, `left` of them. -/
def Vol.patchFrom (v : Vol) (offset : Nat) (mask set : UInt8) (left copy : Nat) : Vol :=
  { v with
    blocks := fun s =>
      if ∃ i < left, s = fatSector g (copy + i) offset then
        setByte (v.blocks s) (offset % 512) ((v.blocks s (offset % 512) &&& mask) ||| set)
      else v.blocks s }

def Vol.patch (v : Vol) (offset : Nat) (mask set : UInt8) : Vol :=
  v.patchFrom g offset mask set g.fats 0

section Bytes

variable {σ : Type} {g : Geometry} {v : Vol} {offset : Nat} {c : Nat} {k off : Nat}

theorem fatSector_inj {k' off' : Nat} (h : off < g.fatSize * 512)
    (h' : off' < g.fatSize * 512) (he : fatSector g k off = fatSector g k' off') :
    k = k' ∧ off / 512 = off' / 512 := by
  unfold fatSector at he
  rcases Nat.lt_trichotomy k k' with hlt | heq | hlt
  · have := Nat.mul_le_mul_right g.fatSize (show k + 1 ≤ k' from hlt)
    rw [Nat.succ_mul] at this
    omega
  · subst heq
    exact ⟨rfl, by omega⟩
  · have := Nat.mul_le_mul_right g.fatSize (show k' + 1 ≤ k from hlt)
    rw [Nat.succ_mul] at this
    omega

theorem fatSector_lt (hg : g.Mounted v.blockCount) (hk : k < g.fats)
    (h : off < g.fatSize * 512) : fatSector g k off < g.rootStart := by
  have := Nat.mul_le_mul_right g.fatSize (show k + 1 ≤ g.fats from hk)
  rw [Nat.succ_mul] at this
  rw [hg.rootStart_eq]
  unfold fatSector
  omega

theorem rootStart_le (hg : g.Mounted v.blockCount) : g.rootStart ≤ v.blockCount := by
  have := hg.fits
  have := hg.dataStart_eq
  omega

section

variable (mask set : UInt8) (hoff : offset < g.fatSize * 512)
include hoff

/-- Patching the first copy and then the others patches them all: the copies do
not share a sector. -/
theorem Vol.patchFrom_succ (left copy : Nat) :
    (v.write (fatSector g copy offset)
        (setByte (v.blocks (fatSector g copy offset)) (offset % 512)
          ((v.blocks (fatSector g copy offset) (offset % 512) &&& mask) ||| set))).patchFrom g
        offset mask set left (copy + 1) =
      v.patchFrom g offset mask set (left + 1) copy := by
  unfold Vol.patchFrom
  congr 1
  funext s
  rw [Vol.blocks_write]
  by_cases hs : s = fatSector g copy offset
  · subst hs
    have hlater : ¬ ∃ i < left, fatSector g copy offset = fatSector g (copy + 1 + i) offset := by
      rintro ⟨i, -, hi⟩
      have := (fatSector_inj hoff hoff hi).1
      omega
    rw [if_neg hlater, if_pos rfl, if_pos ⟨0, by omega, rfl⟩]
  · have hiff : (∃ i < left + 1, s = fatSector g (copy + i) offset) ↔
        ∃ i < left, s = fatSector g (copy + 1 + i) offset := by
      constructor
      · rintro ⟨i, hi, he⟩
        cases i with
        | zero => exact absurd he hs
        | succ i => exact ⟨i, by omega, by rw [he, show copy + (i + 1) = copy + 1 + i by omega]⟩
      · rintro ⟨i, hi, he⟩
        exact ⟨i + 1, by omega, by rw [he, show copy + 1 + i = copy + (i + 1) by omega]⟩
    simp only [hiff, if_neg hs]

theorem onVol_fatPatchByteFrom (n : σ) (left : Nat) :
    ∀ (copy : Nat) (v : Vol), v.readOnly = false →
      (∀ i < left, fatSector g (copy + i) offset < v.blockCount) →
      onVol (fatPatchByteFrom g offset mask set left copy) n v =
        ((.ok (), n), v.patchFrom g offset mask set left copy) := by
  induction left with
  | zero =>
    intro copy v _ _
    rfl
  | succ left ih =>
    intro copy v hro hin
    have hs : fatSector g copy offset < v.blockCount := hin 0 (by omega)
    rw [fatPatchByteFrom, onVol_bind_ok (onVol_readSector n hs),
      onVol_bind_ok (onVol_writeSector n _ hro hs)]
    rw [ih (copy + 1) (v.write _ _) hro, Vol.patchFrom_succ mask set hoff]
    intro i hi
    have := hin (i + 1) (by omega)
    rwa [show copy + (i + 1) = copy + 1 + i by omega] at this

theorem onVol_fatPatchByte (n : σ) (hg : g.Mounted v.blockCount) (hro : v.readOnly = false) :
    onVol (fatPatchByte g offset mask set) n v = ((.ok (), n), v.patch g offset mask set) := by
  refine onVol_fatPatchByteFrom mask set hoff n g.fats 0 v hro fun i hi => ?_
  rw [zero_add]
  exact lt_of_lt_of_le (fatSector_lt hg hi hoff) (rootStart_le hg)

theorem Vol.fatByte_patch (hk : k < g.fats) (h : off < g.fatSize * 512) :
    (v.patch g offset mask set).fatByte g k off =
      if off = offset then (v.fatByte g k off &&& mask) ||| set else v.fatByte g k off := by
  unfold Vol.patch Vol.patchFrom Vol.fatByte
  simp only [zero_add]
  by_cases hd : off / 512 = offset / 512
  · have hsec : fatSector g k off = fatSector g k offset := by
      unfold fatSector
      rw [hd]
    rw [if_pos ⟨k, hk, hsec⟩]
    by_cases he : off = offset
    · subst he
      rw [if_pos rfl, setByte_self]
    · rw [if_neg he, setByte_ne _ (by omega)]
  · have hnot : ¬ ∃ i < g.fats, fatSector g k off = fatSector g i offset := by
      rintro ⟨i, -, hi⟩
      exact hd (fatSector_inj h hoff hi).2
    rw [if_neg hnot, if_neg (by intro he; exact hd (by rw [he]))]

theorem Vol.blocks_patch_outside (hg : g.Mounted v.blockCount) {s : Nat}
    (hs : s < g.fatStart ∨ g.rootStart ≤ s) :
    (v.patch g offset mask set).blocks s = v.blocks s := by
  have hnot : ¬ ∃ i < g.fats, s = fatSector g (0 + i) offset := by
    rintro ⟨i, hi, rfl⟩
    rw [zero_add] at hs
    have := fatSector_lt hg hi hoff
    have : g.fatStart ≤ fatSector g i offset := by unfold fatSector; omega
    omega
  exact if_neg hnot

end

/-! ## Reading an entry -/

theorem entryOffset_lt (hb : g.HoldsClusters) (hc : c < g.clusterCount + 2) :
    entryOffset g c + 1 < g.fatSize * 512 := by
  unfold Geometry.HoldsClusters entryOffset at hb
  unfold entryOffset
  by_cases h : g.fat12 = true
  · rw [if_pos h] at hb ⊢
    omega
  · rw [if_neg h] at hb ⊢
    omega

theorem onVol_fatByte (n : σ) (hg : g.Mounted v.blockCount)
    (h : off < g.fatSize * 512) :
    onVol (fatByte g off) n v = ((.ok (some (v.fatByte g 0 off)), n), v) := by
  have hs : fatSector g 0 off < v.blockCount :=
    lt_of_lt_of_le (fatSector_lt hg (by have := hg.fats_pos; omega) h) (rootStart_le hg)
  have he : fatSector g 0 off = g.fatStart + off / 512 := by
    unfold fatSector
    omega
  unfold fatByte Vol.fatByte
  rw [he] at hs ⊢
  rw [onVol_bind, onVol, Proc.exec_query, Vol.handle_read hs]
  rfl

theorem onVol_fatEntry (n : σ) (hg : g.Mounted v.blockCount) (hb : g.HoldsClusters)
    (hc : c < g.clusterCount + 2) : onVol (fatEntry g c) n v = ((.ok (v.entry g 0 c), n), v) := by
  have hoff := entryOffset_lt hb hc
  unfold fatEntry
  rw [onVol_bind_ok (onVol_fatByte n hg (by omega)), onVol_bind_ok (onVol_fatByte n hg hoff)]
  rfl

/-! ## Setting an entry -/

def Vol.setEntry (g : Geometry) (v : Vol) (c x : Nat) : Vol :=
  let offset := entryOffset g c
  if !g.fat12 then
    (v.patch g offset 0x00 (UInt8.ofNat x)).patch g (offset + 1) 0x00 (UInt8.ofNat (x >>> 8))
  else if c % 2 = 1 then
    (v.patch g offset 0x0F (UInt8.ofNat ((x &&& 0x0F) <<< 4))).patch g (offset + 1) 0x00
      (UInt8.ofNat (x >>> 4))
  else
    (v.patch g offset 0xFF (UInt8.ofNat (x &&& 0xFF))).patch g (offset + 1) 0xF0
      (UInt8.ofNat ((x >>> 8) &&& 0x0F))

theorem onVol_fatSetEntry (n : σ) (hg : g.Mounted v.blockCount) (hb : g.HoldsClusters)
    (hro : v.readOnly = false) (hc : c < g.clusterCount + 2) (x : Nat) :
    onVol (fatSetEntry g c x) n v = ((.ok (), n), v.setEntry g c x) := by
  have hoff := entryOffset_lt hb hc
  have hlow : entryOffset g c < g.fatSize * 512 := by omega
  -- every branch patches the two bytes of the entry, one after the other
  have hpatch : ∀ m1 s1 m2 s2,
      onVol (do fatPatchByte g (entryOffset g c) m1 s1
                fatPatchByte g (entryOffset g c + 1) m2 s2) n v =
        ((.ok (), n), (v.patch g (entryOffset g c) m1 s1).patch g (entryOffset g c + 1) m2 s2) := by
    intro m1 s1 m2 s2
    rw [onVol_bind_ok (onVol_fatPatchByte m1 s1 hlow n hg hro)]
    exact onVol_fatPatchByte (v := v.patch g _ m1 s1) m2 s2 hoff n hg hro
  unfold fatSetEntry Vol.setEntry
  split
  · exact hpatch _ _ _ _
  · split
    · exact hpatch _ _ _ _
    · exact hpatch _ _ _ _

@[simp] theorem Vol.setEntry_blockCount (c x : Nat) :
    (v.setEntry g c x).blockCount = v.blockCount := by
  unfold Vol.setEntry
  split
  · rfl
  · split <;> rfl

@[simp] theorem Vol.setEntry_readOnly (c x : Nat) : (v.setEntry g c x).readOnly = v.readOnly := by
  unfold Vol.setEntry
  split
  · rfl
  · split <;> rfl

@[simp] theorem Vol.setEntry_hint (c x : Nat) : (v.setEntry g c x).hint = v.hint := by
  unfold Vol.setEntry
  split
  · rfl
  · split <;> rfl

theorem Vol.fatByte_patch_patch (m1 s1 m2 s2 : UInt8) (hoff : offset + 1 < g.fatSize * 512)
    (hk : k < g.fats) (h : off < g.fatSize * 512) :
    ((v.patch g offset m1 s1).patch g (offset + 1) m2 s2).fatByte g k off =
      if off = offset then (v.fatByte g k off &&& m1) ||| s1
      else if off = offset + 1 then (v.fatByte g k off &&& m2) ||| s2
      else v.fatByte g k off := by
  rw [Vol.fatByte_patch m2 s2 hoff hk h, Vol.fatByte_patch m1 s1 (by omega) hk h]
  by_cases h1 : off = offset
  · rw [if_neg (by omega), if_pos h1, if_pos h1]
  · rw [if_neg h1, if_neg h1]

theorem Vol.blocks_setEntry_outside (hg : g.Mounted v.blockCount) (hb : g.HoldsClusters)
    (hc : c < g.clusterCount + 2) (x : Nat) {s : Nat}
    (hs : s < g.fatStart ∨ g.rootStart ≤ s) : (v.setEntry g c x).blocks s = v.blocks s := by
  have hoff := entryOffset_lt hb hc
  have hpatch : ∀ m1 s1 m2 s2,
      ((v.patch g (entryOffset g c) m1 s1).patch g (entryOffset g c + 1) m2 s2).blocks s =
        v.blocks s := by
    intro m1 s1 m2 s2
    rw [Vol.blocks_patch_outside (v := v.patch g _ m1 s1) m2 s2 hoff hg hs,
      Vol.blocks_patch_outside m1 s1 (by omega) hg hs]
  unfold Vol.setEntry
  split
  · exact hpatch _ _ _ _
  · split
    · exact hpatch _ _ _ _
    · exact hpatch _ _ _ _

end Bytes

/-! ## Decoding what was patched -/

section Decode

variable {g : Geometry}

theorem decodeEntry_16 (h : g.fat12 = false) (c : Nat) (lo hi : UInt8) :
    decodeEntry g c lo hi = lo.toNat + 256 * hi.toNat := by
  unfold decodeEntry
  simp only [h, Bool.false_eq_true, if_false]
  exact or_shiftLeft_eq_add lo.toNat_lt

theorem decodeEntry_odd (h : g.fat12 = true) {c : Nat} (hc : c % 2 = 1)
    (lo hi : UInt8) : decodeEntry g c lo hi = lo.toNat / 16 + 16 * hi.toNat := by
  unfold decodeEntry
  simp only [h, hc, if_true]
  rw [or_shiftLeft_eq_add lo.toNat_lt]
  omega

theorem decodeEntry_even (h : g.fat12 = true) {c : Nat} (hc : c % 2 = 0)
    (lo hi : UInt8) : decodeEntry g c lo hi = lo.toNat + 256 * (hi.toNat % 16) := by
  unfold decodeEntry
  have hne : ¬ c % 2 = 1 := by omega
  simp only [h, hne, if_true, if_false]
  have := lo.toNat_lt
  rw [or_shiftLeft_eq_add lo.toNat_lt, show 0xFFF = 2 ^ 12 - 1 by decide,
    Nat.and_two_pow_sub_one_eq_mod]
  omega

theorem toNat_and_0F (a : UInt8) : (a &&& 0x0F).toNat = a.toNat % 16 := by
  exact Nat.and_two_pow_sub_one_eq_mod a.toNat 4

theorem toNat_and_F0 (a : UInt8) : (a &&& 0xF0).toNat = 16 * (a.toNat / 16) := by
  have h : ∀ x < 256, x &&& 0xF0 = 16 * (x / 16) := by decide +kernel
  exact h a.toNat a.toNat_lt

/-- The first byte of an odd entry: its own high half, the other's low half. -/
theorem toNat_patch_odd (a : UInt8) (x : Nat) :
    ((a &&& (0x0F : UInt8)) ||| UInt8.ofNat ((x &&& 0x0F) <<< 4)).toNat =
      a.toNat % 16 + 16 * (x % 16) := by
  have hx : x &&& 0x0F = x % 16 := Nat.and_two_pow_sub_one_eq_mod x 4
  have hlt : (x % 16) <<< 4 % 256 = (x % 16) <<< 4 := by
    omega
  rw [UInt8.toNat_or, toNat_and_0F, hx, UInt8.toNat_ofNat', hlt]
  exact or_shiftLeft_eq_add (k := 4) (by omega)

/-- The second byte of an even entry: the other's high half, its own low half. -/
theorem toNat_patch_even (a : UInt8) (x : Nat) :
    ((a &&& (0xF0 : UInt8)) ||| UInt8.ofNat ((x >>> 8) &&& 0x0F)).toNat =
      16 * (a.toNat / 16) + x / 256 % 16 := by
  have hx : (x >>> 8) &&& 0x0F = x / 256 % 16 := by
    rw [Nat.shiftRight_eq_div_pow]
    exact Nat.and_two_pow_sub_one_eq_mod (x / 2 ^ 8) 4
  have hlt : x / 256 % 16 % 256 = x / 256 % 16 := by omega
  rw [UInt8.toNat_or, toNat_and_F0, hx, UInt8.toNat_ofNat', Nat.or_comm,
    mul_comm, ← Nat.shiftLeft_eq _ 4, or_shiftLeft_eq_add (k := 4) (by omega)]
  omega

end Decode

/-! ## The entries after setting one -/

section Entries

variable {g : Geometry} {v : Vol} {c c' k x : Nat}

/-- The low byte of an even FAT12 entry loses no bit it has to lose: in no copy
does it hold one that the new value lacks. -/
def Vol.Clearable (g : Geometry) (v : Vol) (c x : Nat) : Prop :=
  g.fat12 = true → c % 2 = 0 → ∀ k < g.fats,
    v.fatByte g k (entryOffset g c) ||| UInt8.ofNat x = UInt8.ofNat x

/-- The values that fit an entry. -/
def Geometry.EntryFits (g : Geometry) (x : Nat) : Prop := x < if g.fat12 then 4096 else 65536

theorem Vol.entry_even12_low (h12 : g.fat12 = true) (heven : c % 2 = 0) :
    UInt8.ofNat (v.entry g 0 c) = v.fatByte g 0 (entryOffset g c) := by
  unfold Vol.entry
  rw [decodeEntry_even h12 heven]
  refine UInt8.toNat.inj ?_
  have := (v.fatByte g 0 (entryOffset g c)).toNat_lt
  rw [UInt8.toNat_ofNat']
  omega

section

variable (hb : g.HoldsClusters) (hc : c < g.clusterCount + 2) (hc' : c' < g.clusterCount + 2)
  (hk : k < g.fats)
include hb hc hc' hk

theorem Vol.entry_setEntry_16 (h16 : g.fat12 = false) (hx : x < 65536) :
    (v.setEntry g c x).entry g k c' = if c' = c then x else v.entry g k c' := by
  have hoff := entryOffset_lt hb hc
  have hoff' := entryOffset_lt hb hc'
  have e : ∀ d, entryOffset g d = d * 2 := fun d => by simp [entryOffset, h16]
  unfold Vol.setEntry Vol.entry
  simp only [h16, Bool.not_false, if_true]
  rw [Vol.fatByte_patch_patch _ _ _ _ hoff hk (by omega),
    Vol.fatByte_patch_patch _ _ _ _ hoff hk hoff', decodeEntry_16 h16, decodeEntry_16 h16]
  rw [e, e] at *
  by_cases h : c' = c
  · subst h
    simp [Nat.shiftRight_eq_div_pow]
    omega
  · rw [if_neg (by omega), if_neg (by omega), if_neg (by omega), if_neg (by omega), if_neg h]

theorem Vol.entry_setEntry_odd12 (h12 : g.fat12 = true) (hodd : c % 2 = 1) (hx : x < 4096) :
    (v.setEntry g c x).entry g k c' = if c' = c then x else v.entry g k c' := by
  have hoff := entryOffset_lt hb hc
  have hoff' := entryOffset_lt hb hc'
  have e : ∀ d, entryOffset g d = d + d / 2 := fun d => by simp [entryOffset, h12]
  unfold Vol.setEntry Vol.entry
  simp only [h12, hodd, Bool.not_true, Bool.false_eq_true, if_true, if_false]
  rw [Vol.fatByte_patch_patch _ _ _ _ hoff hk (by omega),
    Vol.fatByte_patch_patch _ _ _ _ hoff hk hoff']
  by_cases h : c' = c
  · subst h
    rw [if_pos rfl, decodeEntry_odd h12 hodd, toNat_patch_odd]
    simp [Nat.shiftRight_eq_div_pow]
    omega
  · rw [if_neg h, e, e] at *
    rcases Nat.mod_two_eq_zero_or_one c' with heven | hodd'
    · rw [decodeEntry_even h12 heven, decodeEntry_even h12 heven, if_neg (by omega),
        if_neg (by omega)]
      -- the entry before `c` ends in the low half of the byte `c` starts in
      by_cases hshare : c' + c' / 2 + 1 = c + c / 2
      · rw [if_pos hshare, toNat_patch_odd]
        omega
      · rw [if_neg hshare, if_neg (by omega)]
    · rw [if_neg (by omega), if_neg (by omega), if_neg (by omega), if_neg (by omega)]

/-- An even FAT12 entry gets its high part, keeps every bit its low byte had,
and no other entry changes. -/
theorem Vol.entry_setEntry_even12 (h12 : g.fat12 = true) (heven : c % 2 = 0) :
    (v.setEntry g c x).entry g k c' =
      if c' = c then
        (v.fatByte g k (entryOffset g c) ||| UInt8.ofNat x).toNat + 256 * (x / 256 % 16)
      else v.entry g k c' := by
  have hoff := entryOffset_lt hb hc
  have hoff' := entryOffset_lt hb hc'
  have e : ∀ d, entryOffset g d = d + d / 2 := fun d => by simp [entryOffset, h12]
  have hne : ¬ c % 2 = 1 := by omega
  have hlow : .ofNat (x &&& 0xFF) = UInt8.ofNat x := by
    rw [show 0xFF = 2 ^ 8 - 1 by decide, Nat.and_two_pow_sub_one_eq_mod]
    exact UInt8.toNat.inj (by simp)
  have hkeep : ∀ a : UInt8, a &&& 0xFF = a := fun a => UInt8.toNat.inj (by
    have := a.toNat_lt
    exact (Nat.and_two_pow_sub_one_eq_mod a.toNat 8).trans (Nat.mod_eq_of_lt this))
  unfold Vol.setEntry Vol.entry
  simp only [h12, hne, Bool.not_true, Bool.false_eq_true, if_false]
  rw [Vol.fatByte_patch_patch _ _ _ _ hoff hk (by omega),
    Vol.fatByte_patch_patch _ _ _ _ hoff hk hoff', hlow]
  by_cases h : c' = c
  · subst h
    rw [if_pos rfl, if_neg (by omega), if_pos rfl, if_pos rfl, decodeEntry_even h12 heven,
      toNat_patch_even, hkeep]
    omega
  · rw [if_neg h, e, e] at *
    rcases Nat.mod_two_eq_zero_or_one c' with heven' | hodd
    · rw [if_neg (by omega), if_neg (by omega), if_neg (by omega), if_neg (by omega)]
    · rw [decodeEntry_odd h12 hodd, decodeEntry_odd h12 hodd]
      -- the entry after `c` starts in the high half of the byte `c` ends in
      by_cases hshare : c' + c' / 2 = c + c / 2 + 1
      · rw [if_neg (by omega), if_pos hshare, if_neg (by omega), if_neg (by omega),
          toNat_patch_even]
        omega
      · rw [if_neg (by omega), if_neg hshare, if_neg (by omega), if_neg (by omega)]

/-- Setting an entry never changes another one. -/
theorem Vol.entry_setEntry_ne (hx : g.EntryFits x) (hne : c' ≠ c) :
    (v.setEntry g c x).entry g k c' = v.entry g k c' := by
  unfold Geometry.EntryFits at hx
  by_cases h12 : g.fat12 = true
  · rw [if_pos h12] at hx
    rcases Nat.mod_two_eq_zero_or_one c with heven | hodd
    · rw [Vol.entry_setEntry_even12 hb hc hc' hk h12 heven, if_neg hne]
    · rw [Vol.entry_setEntry_odd12 hb hc hc' hk h12 hodd hx, if_neg hne]
  · rw [if_neg h12] at hx
    rw [Vol.entry_setEntry_16 hb hc hc' hk (by simpa using h12) hx, if_neg hne]

end

/-- Every copy decodes to the new value exactly when the low byte could be
cleared. -/
theorem Vol.entry_setEntry_self_iff (hb : g.HoldsClusters) (hx : g.EntryFits x)
    (hc : c < g.clusterCount + 2) :
    (∀ k < g.fats, (v.setEntry g c x).entry g k c = x) ↔ v.Clearable g c x := by
  unfold Geometry.EntryFits at hx
  by_cases h12 : g.fat12 = true
  · rw [if_pos h12] at hx
    rcases Nat.mod_two_eq_zero_or_one c with heven | hodd
    · have hbyte : ∀ b : UInt8,
          (b ||| .ofNat x).toNat + 256 * (x / 256 % 16) = x ↔
            b ||| .ofNat x = .ofNat x := by
        intro b
        have hofNat : (UInt8.ofNat x).toNat = x % 256 := UInt8.toNat_ofNat'
        constructor
        · intro h
          exact UInt8.toNat.inj (by rw [hofNat]; omega)
        · intro h
          rw [h]
          omega
      constructor
      · intro h _ _ k hk
        have := h k hk
        rw [Vol.entry_setEntry_even12 hb hc hc hk h12 heven, if_pos rfl] at this
        exact (hbyte _).mp this
      · intro h k hk
        rw [Vol.entry_setEntry_even12 hb hc hc hk h12 heven, if_pos rfl]
        exact (hbyte _).mpr (h h12 heven k hk)
    · refine ⟨fun _ _ heven => by omega, fun _ k hk => ?_⟩
      rw [Vol.entry_setEntry_odd12 hb hc hc hk h12 hodd hx, if_pos rfl]
  · rw [if_neg h12] at hx
    refine ⟨fun _ h => absurd h h12, fun _ k hk => ?_⟩
    rw [Vol.entry_setEntry_16 hb hc hc hk (by simpa using h12) hx, if_pos rfl]

end Entries

/-! ## In the code -/

/-- `fat_set_entry` does what it is for: it succeeds, `fat_entry` then returns
the value, every other entry is what it was, and every copy of the FAT holds
the value. -/
def SetsEntry (fs : FatFs) (c x : Nat) : Prop :=
  let out := onFs (fatSetEntry fs.toGeometry c x) () fs
  out.1.1 = .ok () ∧
    (onFs (fatEntry fs.toGeometry c) () out.2).1.1 = .ok x ∧
    (∀ c' < fs.clusterCount + 2, c' ≠ c →
      (onFs (fatEntry fs.toGeometry c') () out.2).1.1 =
        (onFs (fatEntry fs.toGeometry c') () fs).1.1) ∧
    ∀ k < fs.fats, out.2.vol.entry fs.toGeometry k c = x

theorem setsEntry_iff {fs : FatFs} (hg : fs.Mounted fs.dev.blockCount) (hb : fs.HoldsClusters)
    (hs : fs.Sound) (hro : fs.readOnly = false) {c x : Nat} (hc : c < fs.clusterCount + 2)
    (hx : fs.EntryFits x) : SetsEntry fs c x ↔ fs.vol.Clearable fs.toGeometry c x := by
  have hover : fs.Over fs.toGeometry fs.vol := ⟨hs, rfl, rfl⟩
  have hset := onFs_over (fatSetEntry (σ := Unit) fs.toGeometry c x) () hover
  rw [onVol_fatSetEntry () hg hb hro hc x] at hset
  obtain ⟨hres, hover'⟩ := hset
  -- what `fat_entry` returns before and after, and that both are the plain volume's
  have hget : ∀ c' < fs.clusterCount + 2,
      (onFs (fatEntry (σ := Unit) fs.toGeometry c') () fs).1.1 =
        .ok (fs.vol.entry fs.toGeometry 0 c') := by
    intro c' hc'
    rw [(onFs_over (fatEntry fs.toGeometry c') () hover).1, onVol_fatEntry () hg hb hc']
  have hget' : ∀ c' < fs.clusterCount + 2,
      (onFs (fatEntry (σ := Unit) fs.toGeometry c') ()
          (onFs (fatSetEntry (σ := Unit) fs.toGeometry c x) () fs).2).1.1 =
        .ok ((fs.vol.setEntry fs.toGeometry c x).entry fs.toGeometry 0 c') := by
    intro c' hc'
    have hg' : fs.Mounted (fs.vol.setEntry fs.toGeometry c x).blockCount := by
      rw [Vol.setEntry_blockCount]
      exact hg
    rw [(onFs_over (fatEntry fs.toGeometry c') () hover').1, onVol_fatEntry () hg' hb hc']
  have hfats : 0 < fs.fats := hg.fats_pos
  rw [← Vol.entry_setEntry_self_iff hb hx hc]
  unfold SetsEntry
  simp only
  rw [hres, hget' c hc, hover'.2.1]
  constructor
  · rintro ⟨-, -, -, hcopies⟩
    exact hcopies
  · intro hcopies
    refine ⟨rfl, by rw [hcopies 0 hfats], fun c' hc' hne => ?_, hcopies⟩
    rw [hget c' hc', hget' c' hc', Vol.entry_setEntry_ne hb hc hc' hfats hx hne]

/-- On every volume `fat_mount` accepts, whose FAT holds an entry for every
cluster, `fat_set_entry` sets exactly its entry if and only if the entry is not
an even one of a FAT12 volume whose low byte, in some copy, holds a bit the new
value lacks. -/
theorem fatSetEntry_exact_iff {mem : Nat → Bool} {dev : Device} {fs₀ fs : FatFs} {root : FatNode}
    (hm : fatMount mem dev = .ok (fs₀, root)) (hgeo : fs.toGeometry = fs₀.toGeometry)
    (hcount : fs.dev.blockCount = dev.blockCount) (hb : fs.HoldsClusters) (hs : fs.Sound)
    (hro : fs.readOnly = false) {c x : Nat} (hc : validCluster fs.toGeometry c = true)
    (hx : fs.EntryFits x) : SetsEntry fs c x ↔
      (fs.fat12 = true → c % 2 = 0 → ∀ k < fs.fats,
        fs.vol.fatByte fs.toGeometry k (entryOffset fs.toGeometry c) ||| UInt8.ofNat x =
          UInt8.ofNat x) := by
  have hg : fs.Mounted fs.dev.blockCount := by
    rw [hgeo, hcount]
    exact (fatMount_mounted hm).1
  have hc' : c < fs.clusterCount + 2 := (of_decide_eq_true hc).2
  exact setsEntry_iff hg hb hs hro hc' hx

/-! ### A floppy

Fourteen sectors: the boot sector, two copies of a one-sector FAT12, a root
directory of one sector, and ten clusters of one sector each.  Cluster 2 is the
end of a chain. -/

def floppyBlocks : Nat → Buf
  | 0, 12 => 2
  | 0, 13 => 1
  | 0, 14 => 1
  | 0, 16 => 2
  | 0, 17 => 16
  | 0, 19 => 14
  | 0, 21 => 0xF8
  | 0, 22 => 1
  | 0, 510 => 0x55
  | 0, 511 => 0xAA
  | 1, 3 => 0xFF
  | 1, 4 => 0x0F
  | 2, 3 => 0xFF
  | 2, 4 => 0x0F
  | _, _ => 0

/-- The floppy in a drive that never fails. -/
def floppy : Device where
  isBlock := true
  blockSize := 512
  blocks := floppyBlocks
  blockCount := 14
  readFails := fun _ => false
  canWrite := true
  writeFails := fun _ => false

def floppyGeometry : Geometry where
  fat12 := true
  readOnly := false
  fats := 2
  sectorsPerCluster := 1
  bytesPerCluster := 512
  fatStart := 1
  fatSize := 1
  rootStart := 3
  rootBytes := 512
  dataStart := 4
  clusterCount := 10

def floppyFs : FatFs where
  toGeometry := floppyGeometry
  dev := floppy
  hint := 2
  cachedSector := 0
  cacheValid := false
  cache := fun _ => 0

theorem fatMount_floppy : fatMount (fun _ => true) floppy = .ok (floppyFs, dirAt true 0) := by
  have hgeo : (BootSector.parse (floppyBlocks 0)).geometry floppy = .ok floppyGeometry := by
    decide +kernel
  have hread : deviceReadBlocks floppy 0 = some (floppyBlocks 0) := rfl
  unfold fatMount
  rw [hread]
  simp only [hgeo]
  rfl

theorem floppyFs_sound : floppyFs.Sound :=
  ⟨fun h => Bool.noConfusion h, rfl, fun _ => rfl, fun _ => ⟨rfl, fun _ => rfl⟩⟩

/-- Cluster 3 is odd, so its entry is set exactly. -/
theorem fatSetEntry_floppy_odd : SetsEntry floppyFs 3 0x123 :=
  (fatSetEntry_exact_iff fatMount_floppy rfl rfl (by unfold Geometry.HoldsClusters; decide)
    floppyFs_sound rfl (by decide) (by unfold Geometry.EntryFits; decide)).mpr
    (fun _ h => by cases h)

/-- Freeing cluster 2, the end of a chain, leaves its entry at `0x0FF`. -/
theorem fatSetEntry_floppy_even :
    fatMount (fun _ => true) floppy = .ok (floppyFs, dirAt true 0) ∧ floppyFs.HoldsClusters ∧
      floppyFs.Sound ∧ validCluster floppyFs.toGeometry 2 = true ∧ floppyFs.EntryFits 0 ∧
      ¬ SetsEntry floppyFs 2 0 ∧
      (onFs (fatEntry floppyFs.toGeometry 2) ()
        (onFs (fatSetEntry floppyFs.toGeometry 2 0) () floppyFs).2).1.1 = .ok 0x0FF := by
  have hget : (onFs (fatEntry floppyFs.toGeometry 2) ()
      (onFs (fatSetEntry floppyFs.toGeometry 2 0) () floppyFs).2).1.1 = .ok 0x0FF := by
    decide
  refine ⟨fatMount_floppy, by unfold Geometry.HoldsClusters; decide, floppyFs_sound, by decide,
    by unfold Geometry.EntryFits; decide, ?_, hget⟩
  rintro ⟨-, h, -, -⟩
  cases h

end ManiOS.Fat

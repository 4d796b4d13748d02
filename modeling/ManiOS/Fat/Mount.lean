import ManiOS.Fat.Sector

/-!
# Mounting

`fat_mount` reads the geometry off the boot sector and accepts or refuses it.
`fatMount_mounted` collects what an accepted geometry promises: the FAT
copies, the fixed root and the clusters follow one another and end before the
device does.  Nothing after the mount looks at the boot sector again, so every
later proof starts from `Geometry.Mounted`.
-/

namespace ManiOS.Fat

open ManiOS.Lib

/-- `struct fat_node`, with the type and size of its vnode. -/
structure FatNode where
  type : VnodeType
  size : Nat
  /-- The root: a fixed region, and not a chain. -/
  fixedRoot : Bool
  /-- 0 for empty files. -/
  firstCluster : Nat
  /-- The last chain position looked up. -/
  cursorIndex : Nat
  cursorCluster : Nat
  /-- Where this node's own directory entry is.  A root has none. -/
  hasEntry : Bool
  entryDirFixed : Bool
  entryDirCluster : Nat
  entryOff : Nat
deriving DecidableEq, Repr

/-- A directory opened by where it is (`dir_at`). -/
def dirAt (fixed : Bool) (first : Nat) : FatNode where
  type := .dir
  size := 0
  fixedRoot := fixed
  firstCluster := first
  cursorIndex := 0
  cursorCluster := 0
  hasEntry := false
  entryDirFixed := false
  entryDirCluster := 0
  entryOff := 0

/-- The fields of a boot sector that `fat_mount` looks at. -/
structure BootSector where
  bytesPerSector : Nat
  perCluster : Nat
  reserved : Nat
  fats : Nat
  rootEntries : Nat
  /-- Sectors of the volume: the 16-bit field, or the 32-bit one if that is 0. -/
  total : Nat
  /-- 0 on FAT32. -/
  fatSize : Nat
  media : Nat
  signature : Nat

def BootSector.parse (b : Buf) : BootSector where
  bytesPerSector := le16 (shift b 11)
  perCluster := (b 13).toNat
  reserved := le16 (shift b 14)
  fats := (b 16).toNat
  rootEntries := le16 (shift b 17)
  total := if le16 (shift b 19) ≠ 0 then le16 (shift b 19) else le32 (shift b 32)
  fatSize := le16 (shift b 22)
  media := (b 21).toNat
  signature := le16 (shift b 510)

/-- What `fat_mount` refuses before it lays the regions out. -/
def BootSector.Refused (s : BootSector) (blockCount : Nat) : Prop :=
  s.signature ≠ 0xAA55 ∨ s.bytesPerSector ≠ 512 ∨ s.perCluster = 0
    ∨ s.perCluster &&& (s.perCluster - 1) ≠ 0 ∨ s.reserved = 0 ∨ s.fats = 0 ∨ s.fats > 2
    ∨ (s.media ≠ 0xF0 ∧ s.media < 0xF8) ∨ s.rootEntries = 0 ∨ s.fatSize = 0
    ∨ s.total > blockCount

instance (s : BootSector) (blockCount : Nat) : Decidable (s.Refused blockCount) :=
  inferInstanceAs (Decidable (_ ∨ _))

def BootSector.dataStart (s : BootSector) : Nat :=
  s.reserved + s.fats * s.fatSize + (s.rootEntries * 32 + 512 - 1) / 512

def BootSector.clusters (s : BootSector) : Nat := (s.total - s.dataStart) / s.perCluster

/-- The regions of the volume, if it is one this driver takes. -/
def BootSector.geometry (s : BootSector) (dev : Device) : Except Errno Geometry :=
  if s.Refused dev.blockCount then .error .einval
  else if s.dataStart ≥ s.total then .error .einval
  else if s.clusters ≥ 65525 then .error .einval -- FAT32
  else .ok {
    fat12 := decide (s.clusters < 4085)
    readOnly := !dev.canWrite
    fats := s.fats
    sectorsPerCluster := s.perCluster
    bytesPerCluster := s.perCluster * 512
    fatStart := s.reserved
    fatSize := s.fatSize
    rootStart := s.reserved + s.fats * s.fatSize
    rootBytes := s.rootEntries * 32
    dataStart := s.dataStart
    clusterCount := s.clusters }

/-- `fat_mount`: the file system and its root.  `mem i` says whether the
`i`-th `kmalloc` of the call succeeds. -/
def fatMount (mem : Nat → Bool) (dev : Device) : Except Errno (FatFs × FatNode) :=
  if !dev.isBlock || dev.blockSize ≠ 512 then .error .einval
  else if !mem 0 then .error .enomem
  else
    match deviceReadBlocks dev 0 with
    | none => .error .eio
    | some b =>
      match (BootSector.parse b).geometry dev with
      | .error e => .error e
      | .ok g =>
        if !mem 1 || !mem 2 then .error .enomem
        else
          .ok ({ toGeometry := g, dev := dev, hint := 2, cachedSector := 0,
                 cacheValid := false, cache := fun _ => 0 }, dirAt true 0)

/-! ## What an accepted geometry promises -/

/-- The regions of a mounted volume, one after another, on a device of `count`
blocks. -/
structure Geometry.Mounted (g : Geometry) (count : Nat) : Prop where
  fats_pos : 1 ≤ g.fats
  fats_le : g.fats ≤ 2
  spc_pos : 1 ≤ g.sectorsPerCluster
  spc_le : g.sectorsPerCluster ≤ 128
  bpc_eq : g.bytesPerCluster = g.sectorsPerCluster * 512
  rootStart_eq : g.rootStart = g.fatStart + g.fats * g.fatSize
  rootBytes_pos : 32 ≤ g.rootBytes
  rootBytes_mod : g.rootBytes % 32 = 0
  rootBytes_lt : g.rootBytes < 65536 * 32
  dataStart_eq : g.dataStart = g.rootStart + (g.rootBytes + 512 - 1) / 512
  fits : g.dataStart + g.clusterCount * g.sectorsPerCluster ≤ count
  clusters_lt : g.clusterCount < 65525
  fat12_eq : g.fat12 = decide (g.clusterCount < 4085)

theorem le_128_of_and_pred_eq_zero {p : Nat} (hp : p < 256) (h : p &&& (p - 1) = 0) : p ≤ 128 := by
  by_contra hlt
  have hbit : (p &&& (p - 1)).testBit 7 = true := by
    rw [Nat.testBit_and, Nat.testBit_eq_decide_div_mod_eq, Nat.testBit_eq_decide_div_mod_eq,
      Bool.and_eq_true, decide_eq_true_eq, decide_eq_true_eq]
    omega
  rw [h] at hbit
  cases hbit

variable {dev : Device} {mem : Nat → Bool} {fs : FatFs} {root : FatNode}

/-- What `fat_mount` has checked when it takes a boot sector, and the regions it
goes on with. -/
theorem BootSector.geometry_ok {s : BootSector} {g : Geometry} (h : s.geometry dev = .ok g) :
    ¬ s.Refused dev.blockCount ∧ s.dataStart < s.total ∧ s.clusters < 65525 ∧
      g = { fat12 := decide (s.clusters < 4085), readOnly := !dev.canWrite, fats := s.fats,
            sectorsPerCluster := s.perCluster, bytesPerCluster := s.perCluster * 512,
            fatStart := s.reserved, fatSize := s.fatSize,
            rootStart := s.reserved + s.fats * s.fatSize, rootBytes := s.rootEntries * 32,
            dataStart := s.dataStart, clusterCount := s.clusters } := by
  unfold BootSector.geometry at h
  by_cases href : s.Refused dev.blockCount
  · rw [if_pos href] at h
    cases h
  by_cases hds : s.dataStart ≥ s.total
  · rw [if_neg href, if_pos hds] at h
    cases h
  by_cases hcl : s.clusters ≥ 65525
  · rw [if_neg href, if_neg hds, if_pos hcl] at h
    cases h
  rw [if_neg href, if_neg hds, if_neg hcl] at h
  cases h
  exact ⟨href, Nat.lt_of_not_ge hds, Nat.lt_of_not_ge hcl, rfl⟩

theorem geometry_mounted {b : Buf} {g : Geometry} (h : (BootSector.parse b).geometry dev = .ok g) :
    g.Mounted dev.blockCount ∧ g.readOnly = !dev.canWrite := by
  have hre : (BootSector.parse b).rootEntries < 65536 := le16_lt (shift b 17)
  have hpc : (BootSector.parse b).perCluster < 256 := (b 13).toNat_lt
  generalize BootSector.parse b = s at h hre hpc
  obtain ⟨href, hds, hcl, rfl⟩ := BootSector.geometry_ok h
  simp only [BootSector.Refused, not_or, Decidable.not_not] at href
  obtain ⟨-, -, hpc0, hpow, -, hf0, hf2, -, hre0, -, htot⟩ := href
  -- the clusters do not reach past the volume, and the volume not past the device
  have hfit : s.clusters * s.perCluster ≤ s.total - s.dataStart := Nat.div_mul_le_self _ _
  exact ⟨{ fats_pos := Nat.one_le_iff_ne_zero.mpr hf0
           fats_le := Nat.le_of_not_gt hf2
           spc_pos := Nat.one_le_iff_ne_zero.mpr hpc0
           spc_le := le_128_of_and_pred_eq_zero hpc hpow
           bpc_eq := rfl
           rootStart_eq := rfl
           rootBytes_pos := by simp only; omega
           rootBytes_mod := by simp
           rootBytes_lt := by simp only; omega
           dataStart_eq := rfl
           fits := by simp only; omega
           clusters_lt := by simp only; omega
           fat12_eq := rfl }, rfl⟩

variable (h : fatMount mem dev = .ok (fs, root))
include h

theorem fatMount_geometry : ∃ b, (BootSector.parse b).geometry dev = .ok fs.toGeometry := by
  unfold fatMount at h
  split at h
  · cases h
  split at h
  · cases h
  split at h
  · cases h
  next b _ =>
    split at h
    · cases h
    next g hg =>
      split at h
      · cases h
      · cases h
        exact ⟨b, hg⟩

/-- An accepted volume has its regions in place, and is read-only exactly when
its device takes no writes. -/
theorem fatMount_mounted : fs.Mounted dev.blockCount ∧ fs.readOnly = !dev.canWrite := by
  obtain ⟨b, hg⟩ := fatMount_geometry h
  exact geometry_mounted hg

theorem fatMount_fatSize_pos : 0 < fs.fatSize := by
  obtain ⟨b, hg⟩ := fatMount_geometry h
  obtain ⟨href, -, -, he⟩ := BootSector.geometry_ok hg
  simp only [BootSector.Refused, not_or] at href
  rw [he]
  exact Nat.pos_of_ne_zero href.2.2.2.2.2.2.2.2.2.1

omit h

end ManiOS.Fat

import ManiOS.Fat.Operations
import ManiOS.Lib.Chain
import ManiOS.Lib.Logic

/-!
# What a volume holds

Above the sectors, a volume is a table of successors, a root directory and the
contents of each cluster (`Disk`).  `Vol.disk` reads them off the blocks of a
volume, and `Vol.Usable` says which volumes can be seen that way: the geometry
was mounted, the FAT has room for every cluster, its copies agree, and the
device takes writes.  On FAT12 an entry does not always take the value it is
given: `Geometry.stored` is what it has afterwards.

This module proves what the sector-level functions do to a `Disk`.  Everything
above is proved with these and never looks at a sector again.
-/

namespace ManiOS.Fat

open ManiOS.Lib
open Vol (blocks_write)

/-- A volume without its sectors. -/
@[ext] structure Disk where
  /-- The FAT: the entry of each cluster. -/
  next : Nat → Nat
  /-- The bytes of the fixed root region. -/
  root : Buf
  /-- The bytes of each cluster. -/
  data : Nat → Buf
  hint : Nat

def Vol.disk (g : Geometry) (v : Vol) : Disk where
  next c := if validCluster g c then v.entry g 0 c else 0
  root i := if g.rootStart + i / 512 < g.dataStart then v.blocks (g.rootStart + i / 512) (i % 512) else 0
  data c i :=
    if validCluster g c ∧ i < g.bytesPerCluster then
      v.blocks (g.dataStart + (c - 2) * g.sectorsPerCluster + i / 512) (i % 512)
    else 0
  hint := v.hint

def Vol.CopiesEqual (g : Geometry) (v : Vol) : Prop :=
  ∀ k < g.fats, ∀ off < g.fatSize * 512, v.fatByte g k off = v.fatByte g 0 off

/-- A mounted volume that takes writes, with a FAT that holds every cluster.
`agree` says that the copies of the FAT are equal. -/
structure Vol.Usable (g : Geometry) (agree : Prop) (v : Vol) : Prop where
  mounted : g.Mounted v.blockCount
  holds : g.HoldsClusters
  writable : v.readOnly = false
  copies : agree → v.CopiesEqual g

/-- Such a volume that is FAT16, with equal copies. -/
structure Vol.Good (g : Geometry) (v : Vol) : Prop extends Vol.Usable g True v where
  fat16 : g.fat12 = false

/-- Volumes seen as disks. -/
def onDisk (g : Geometry) (agree : Prop) : Abstraction SectorOp SectorOp.Answer Vol Disk where
  handler := Vol.handle
  ok := Vol.Usable g agree
  view := Vol.disk g

/-- What a call does on a volume that stands for `d`. -/
abbrev Does (g : Geometry) (agree : Prop) {σ α : Type} :
    FatM σ α → σ → Disk → (Except Stop α → σ → Disk → Prop) → Prop :=
  Ensures (onDisk g agree)

/-- What `fat_set_entry` leaves in an entry that held `old`: the new value,
except that the low byte of an even FAT12 entry keeps the bits it had. -/
def Geometry.stored (g : Geometry) (c old x : Nat) : Nat :=
  if g.fat12 = true ∧ c % 2 = 0 then
    (UInt8.ofNat old ||| UInt8.ofNat x).toNat + 256 * (x / 256 % 16)
  else x

theorem Geometry.stored_16 {g : Geometry} (h : g.fat12 = false) (c old x : Nat) :
    g.stored c old x = x := if_neg fun h' => by simp [h] at h'

theorem Geometry.stored_free {g : Geometry} {x : Nat} (hx : g.EntryFits x) (c : Nat) :
    g.stored c 0 x = x := by
  unfold Geometry.stored
  split
  next h =>
    unfold Geometry.EntryFits at hx
    rw [if_pos h.1] at hx
    rw [show (UInt8.ofNat 0 ||| UInt8.ofNat x) = UInt8.ofNat x from UInt8.zero_or,
      UInt8.toNat_ofNat']
    omega
  next => rfl

/-! ## Changes of a disk -/

def Disk.setNext (d : Disk) (c x : Nat) : Disk :=
  { d with next := fun c' => if c' = c then x else d.next c' }

def Disk.putRoot (d : Disk) (off : Nat) (buf : Buf) (n : Nat) : Disk :=
  { d with root := memcpy d.root off buf 0 n }

def Disk.putData (d : Disk) (c off : Nat) (buf : Buf) (n : Nat) : Disk :=
  { d with data := fun c' => if c' = c then memcpy (d.data c) off buf 0 n else d.data c' }

def Disk.setHint (d : Disk) (hint : Nat) : Disk := { d with hint := hint }

section Fields

variable (d : Disk) (c x off n hint : Nat) (buf : Buf)

@[simp] theorem Disk.setNext_next (c' : Nat) :
    (d.setNext c x).next c' = if c' = c then x else d.next c' := rfl

@[simp] theorem Disk.setNext_root : (d.setNext c x).root = d.root := rfl

@[simp] theorem Disk.setNext_data : (d.setNext c x).data = d.data := rfl

@[simp] theorem Disk.putRoot_data : (d.putRoot off buf n).data = d.data := rfl

@[simp] theorem Disk.putData_root : (d.putData c off buf n).root = d.root := rfl

@[simp] theorem Disk.putData_data (c' : Nat) : (d.putData c off buf n).data c' =
      if c' = c then memcpy (d.data c) off buf 0 n else d.data c' := rfl

end Fields

/-! ## Valid clusters -/

section Sectors

variable {σ : Type} {g : Geometry} {agree : Prop} {v : Vol} {d : Disk} {n : σ} {c : Nat} {k : Nat}
  {s : Nat} {x : Nat} {post : Except Stop Buf → σ → Disk → Prop}

theorem validCluster_iff : validCluster g c = true ↔ 2 ≤ c ∧ c < g.clusterCount + 2 :=
  decide_eq_true_iff

theorem validCluster_lt (h : validCluster g c = true) : c < g.clusterCount + 2 :=
  (validCluster_iff.mp h).2

theorem validCluster_ne_zero (h : validCluster g c = true) : c ≠ 0 := by
  have := (validCluster_iff.mp h).1
  omega

theorem clusterSector_lt (hg : g.Mounted v.blockCount) (hc : validCluster g c = true)
    (hk : k < g.sectorsPerCluster) :
    g.dataStart + (c - 2) * g.sectorsPerCluster + k < v.blockCount := by
  obtain ⟨h2, hlt⟩ := validCluster_iff.mp hc
  have hfit := hg.fits
  have hmul := Nat.mul_le_mul_right g.sectorsPerCluster (show c - 2 + 1 ≤ g.clusterCount by omega)
  rw [Nat.succ_mul] at hmul
  omega

theorem clusterSector_inj {c' k k' : Nat} (hc : validCluster g c = true)
    (hc' : validCluster g c' = true) (hk : k < g.sectorsPerCluster) (hk' : k' < g.sectorsPerCluster)
    (he : g.dataStart + (c - 2) * g.sectorsPerCluster + k =
      g.dataStart + (c' - 2) * g.sectorsPerCluster + k') : c = c' ∧ k = k' := by
  obtain ⟨h2, -⟩ := validCluster_iff.mp hc
  obtain ⟨h2', -⟩ := validCluster_iff.mp hc'
  rcases Nat.lt_trichotomy c c' with hlt | heq | hlt
  · have := Nat.mul_le_mul_right g.sectorsPerCluster (show c - 2 + 1 ≤ c' - 2 by omega)
    rw [Nat.succ_mul] at this
    omega
  · subst heq
    exact ⟨rfl, by omega⟩
  · have := Nat.mul_le_mul_right g.sectorsPerCluster (show c' - 2 + 1 ≤ c - 2 by omega)
    rw [Nat.succ_mul] at this
    omega

theorem div_512_lt (hg : g.Mounted v.blockCount) {i : Nat} (hi : i < g.bytesPerCluster) :
    i / 512 < g.sectorsPerCluster := by
  rw [hg.bpc_eq] at hi
  exact Nat.div_lt_of_lt_mul (by rw [mul_comm]; exact hi)

section

variable (h : v.Usable g agree) (hs : g.rootStart ≤ s) (b : Buf)
include h hs b

theorem Vol.Usable.write_outside : (v.write s b).Usable g agree := by
  refine ⟨h.mounted, h.holds, h.writable, fun ha k hk off hoff => ?_⟩
  have h0 : 0 < g.fats := by
    omega
  have hlt := fatSector_lt h.mounted hk hoff
  have hlt0 := fatSector_lt h.mounted h0 hoff
  unfold Vol.fatByte
  rw [blocks_write, blocks_write, if_neg (by omega), if_neg (by omega)]
  exact h.copies ha k hk off hoff

theorem Vol.entry_write_outside
    (hc : c < g.clusterCount + 2) : (v.write s b).entry g 0 c = v.entry g 0 c := by
  have hoff := entryOffset_lt h.holds hc
  have h0 : 0 < g.fats := by
    have := h.mounted.fats_pos
    omega
  have hlt := fatSector_lt h.mounted h0 hoff
  have hlt' := fatSector_lt h.mounted h0 (show entryOffset g c < _ by omega)
  unfold Vol.entry Vol.fatByte
  rw [blocks_write, blocks_write, if_neg (by omega), if_neg (by omega)]

theorem Vol.disk_write_next : ((v.write s b).disk g).next = (v.disk g).next := by
  funext c
  unfold Vol.disk
  by_cases hc : validCluster g c = true
  · simp only [hc, if_true]
    exact Vol.entry_write_outside h hs b (validCluster_lt hc)
  · simp only [hc, Bool.false_eq_true, if_false]

end

/-! ## Entries of the FAT -/

theorem yields_fatEntry (hc : validCluster g c = true) :
    Yields (onDisk g agree) (fatEntry (σ := σ) g c) n d (d.next c) n d := by
  intro v hv hd
  have hrun := onVol_fatEntry n hv.mounted hv.holds (validCluster_lt hc)
  have hnext : d.next c = v.entry g 0 c := by
    rw [← hd]
    exact if_pos hc
  rw [onVol] at hrun
  rw [onDisk, hrun, hnext]
  exact ⟨hv, rfl, rfl, hd⟩

theorem Vol.Usable.setEntry (h : v.Usable g agree) (hc : validCluster g c = true) (x : Nat) :
    (v.setEntry g c x).Usable g agree := by
  have hoff := entryOffset_lt h.holds (validCluster_lt hc)
  refine ⟨?_, h.holds, ?_, fun ha k hk off hlt => ?_⟩
  · rw [Vol.setEntry_blockCount]
    exact h.mounted
  · rw [Vol.setEntry_readOnly]
    exact h.writable
  · have h0 : 0 < g.fats := by
      omega
    unfold Vol.setEntry
    split_ifs
    all_goals
      rw [Vol.fatByte_patch_patch _ _ _ _ hoff hk hlt, Vol.fatByte_patch_patch _ _ _ _ hoff h0 hlt,
        h.copies ha k hk off hlt]

theorem Vol.entry_setEntry_self (hb : g.HoldsClusters) (hc : c < g.clusterCount + 2)
    (h0 : 0 < g.fats) (hx : g.EntryFits x) :
    (v.setEntry g c x).entry g 0 c = g.stored c (v.entry g 0 c) x := by
  unfold Geometry.EntryFits at hx
  unfold Geometry.stored
  by_cases h12 : g.fat12 = true
  · rw [if_pos h12] at hx
    rcases Nat.mod_two_eq_zero_or_one c with heven | hodd
    · rw [if_pos ⟨h12, heven⟩, Vol.entry_setEntry_even12 hb hc hc h0 h12 heven, if_pos rfl,
        Vol.entry_even12_low h12 heven]
    · rw [if_neg (fun h => by omega), Vol.entry_setEntry_odd12 hb hc hc h0 h12 hodd hx, if_pos rfl]
  · rw [if_neg h12] at hx
    rw [if_neg (fun h => h12 h.1),
      Vol.entry_setEntry_16 hb hc hc h0 (Bool.eq_false_iff.mpr h12) hx, if_pos rfl]

theorem Vol.disk_setEntry (h : v.Usable g agree) (hc : validCluster g c = true)
    (hx : g.EntryFits x) :
    (v.setEntry g c x).disk g = (v.disk g).setNext c (g.stored c ((v.disk g).next c) x) := by
  have hlt := validCluster_lt hc
  have h0 : 0 < g.fats := by
    have := h.mounted.fats_pos
    omega
  have hdata : g.rootStart ≤ g.dataStart := by
    have := h.mounted.dataStart_eq
    omega
  have hsame : ∀ s, g.rootStart ≤ s → (v.setEntry g c x).blocks s = v.blocks s := fun s hs =>
    Vol.blocks_setEntry_outside h.mounted h.holds hlt x (.inr hs)
  have hold : (v.disk g).next c = v.entry g 0 c := if_pos hc
  ext i
  · show (if validCluster g i = true then (v.setEntry g c x).entry g 0 i else 0) = _
    rw [Disk.setNext_next, hold]
    by_cases hi : i = c
    · rw [hi, if_pos hc, if_pos rfl, Vol.entry_setEntry_self h.holds hlt h0 hx]
    · rw [if_neg hi]
      show _ = if validCluster g i = true then v.entry g 0 i else 0
      by_cases hv : validCluster g i = true
      · rw [if_pos hv, if_pos hv, Vol.entry_setEntry_ne h.holds hlt (validCluster_lt hv) h0 hx hi]
      · rw [if_neg hv, if_neg hv]
  · unfold Vol.disk
    simp only [Disk.setNext_root, hsame _ (Nat.le_add_right _ _)]
  · unfold Vol.disk
    simp only [Disk.setNext_data]
    rw [hsame _ (by omega)]
  · exact Vol.setEntry_hint c x

theorem yields_fatSetEntry (hc : validCluster g c = true) (hx : g.EntryFits x) :
    Yields (onDisk g agree) (fatSetEntry (σ := σ) g c x) n d () n
      (d.setNext c (g.stored c (d.next c) x)) := by
  intro v hv hd
  have hrun := onVol_fatSetEntry n hv.mounted hv.holds hv.writable (validCluster_lt hc) x
  rw [onVol] at hrun
  rw [onDisk, hrun]
  exact ⟨hv.setEntry hc x, rfl, rfl, by rw [← hd]; exact Vol.disk_setEntry hv hc hx⟩

theorem yields_getHint : Yields (onDisk g agree) (FatM.getHint (σ := σ)) n d d.hint n d := by
  intro v hv hd
  exact ⟨hv, by rw [← hd]; rfl, rfl, hd⟩

theorem yields_setHint (hint : Nat) :
    Yields (onDisk g agree) (FatM.setHint (σ := σ) hint) n d () n (d.setHint hint) := by
  intro v hv hd
  exact ⟨{ hv with }, rfl, rfl, by rw [← hd]; rfl⟩

/-! ## Sectors of the root and of clusters -/

/-- A sector read, patched and written back patches the region it belongs to. -/
theorem memcpy_sector {p b : Buf} {k w m : Nat} (buf : Buf)
    (hb : ∀ i < 512, b i = p (512 * k + i)) (hm : w + m ≤ 512) :
    memcpy p (512 * k) (memcpy b w buf 0 m) 0 512 = memcpy p (512 * k + w) buf 0 m := by
  funext i
  by_cases hin : 512 * k ≤ i ∧ i < 512 * k + 512
  · rw [memcpy_inside hin.1 hin.2]
    by_cases hw : 512 * k + w ≤ i ∧ i < 512 * k + w + m
    · rw [memcpy_inside (by omega) (by omega), memcpy_inside hw.1 hw.2]
      congr 1
      omega
    · rw [memcpy_outside (by omega), memcpy_outside (by omega), hb _ (by omega)]
      congr 1
      omega
  · rw [memcpy_outside (by omega), memcpy_outside (by omega)]

theorem ensures_readSector (hs : ∀ v : Vol, v.Usable g agree → s < v.blockCount)
    (h : ∀ v : Vol, v.Usable g agree → v.disk g = d → post (.ok (v.blocks s)) n d) :
    Does g agree (FatM.readSector s) n d post := by
  intro v hv hd
  subst hd
  have hrun := onVol_readSector n (hs v hv)
  rw [onVol] at hrun
  rw [onDisk, hrun]
  exact ⟨hv, h v hv rfl⟩

theorem ensures_readRoot (hk : g.rootStart + k < g.dataStart)
    (h : ∀ b : Buf, (∀ i < 512, b i = d.root (512 * k + i)) → post (.ok b) n d) :
    Does g agree (FatM.readSector (g.rootStart + k)) n d post := by
  refine ensures_readSector (fun v hv => ?_) fun v hv hd => h _ fun i hi => ?_
  · have := hv.mounted.fits
    omega
  · have hdiv : (512 * k + i) / 512 = k := by omega
    have hmod : (512 * k + i) % 512 = i := by omega
    rw [← hd]
    unfold Vol.disk
    simp only [hdiv, hmod, hk, if_true]

theorem ensures_readData (hc : validCluster g c = true) (hk : k < g.sectorsPerCluster)
    (h : ∀ b : Buf, (∀ i < 512, b i = d.data c (512 * k + i)) → post (.ok b) n d) :
    Does g agree (FatM.readSector (g.dataStart + (c - 2) * g.sectorsPerCluster + k)) n d
      post := by
  refine ensures_readSector (fun v hv => clusterSector_lt hv.mounted hc hk)
    fun v hv hd => h _ fun i hi => ?_
  have hdiv : (512 * k + i) / 512 = k := by omega
  have hmod : (512 * k + i) % 512 = i := by omega
  have hin : 512 * k + i < g.bytesPerCluster := by
    rw [hv.mounted.bpc_eq]
    omega
  rw [← hd]
  unfold Vol.disk
  simp only [hdiv, hmod, hc, hin, and_self, if_true]

theorem yields_writeSector {d' : Disk} (b : Buf)
    (hs : ∀ v : Vol, v.Usable g agree → g.rootStart ≤ s ∧ s < v.blockCount)
    (hd : ∀ v : Vol, v.Usable g agree → v.disk g = d → (v.write s b).disk g = d') :
    Yields (onDisk g agree) (FatM.writeSector s b) n d () n d' := by
  intro v hv hvd
  have hrun := onVol_writeSector n b hv.writable (hs v hv).2
  rw [onVol] at hrun
  rw [onDisk, hrun]
  exact ⟨hv.write_outside (hs v hv).1 b, rfl, rfl, hd v hv hvd⟩

theorem yields_writeRoot (b : Buf) (hk : g.rootStart + k < g.dataStart) :
    Yields (onDisk g agree) (FatM.writeSector (g.rootStart + k) b) n d () n
      (d.putRoot (512 * k) b 512) := by
  refine yields_writeSector b (fun v hv => ?_) fun v hv hd => ?_
  · have := hv.mounted.fits
    omega
  · subst hd
    refine Disk.ext (Vol.disk_write_next hv (Nat.le_add_right _ _) b) ?_ ?_ rfl
    · funext i
      unfold Vol.disk Disk.putRoot
      simp only [blocks_write]
      by_cases hi : i / 512 = k
      · rw [memcpy_inside (by omega) (by omega), if_pos (by rw [hi]; exact hk), if_pos (by rw [hi])]
        congr 1
        omega
      · rw [memcpy_outside (by omega), if_neg (show ¬ g.rootStart + i / 512 = g.rootStart + k by omega)]
    · funext c i
      unfold Vol.disk
      simp only [Disk.putRoot_data, blocks_write]
      rw [if_neg (show ¬ g.dataStart + _ + _ = g.rootStart + k by omega)]

theorem yields_writeData (b : Buf) (hc : validCluster g c = true) (hk : k < g.sectorsPerCluster) :
    Yields (onDisk g agree) (FatM.writeSector (g.dataStart + (c - 2) * g.sectorsPerCluster + k) b) n d ()
      n (d.putData c (512 * k) b 512) := by
  refine yields_writeSector b (fun v hv => ?_) fun v hv hd => ?_
  · have := hv.mounted.dataStart_eq
    exact ⟨by omega, clusterSector_lt hv.mounted hc hk⟩
  · subst hd
    have hroot := hv.mounted.dataStart_eq
    refine Disk.ext (Vol.disk_write_next hv (by omega) b) ?_ ?_ rfl
    · funext i
      unfold Vol.disk
      simp only [Disk.putData_root, blocks_write]
      by_cases hi : g.rootStart + i / 512 < g.dataStart
      · rw [if_pos hi, if_pos hi, if_neg (by omega)]
      · rw [if_neg hi, if_neg hi]
    · funext c' i
      unfold Vol.disk
      simp only [Disk.putData_data, blocks_write]
      by_cases hin : validCluster g c' = true ∧ i < g.bytesPerCluster
      · have hi := div_512_lt hv.mounted hin.2
        by_cases hcc : c' = c ∧ i / 512 = k
        · obtain ⟨rfl, rfl⟩ := hcc
          rw [if_pos hin, if_pos rfl, if_pos rfl, memcpy_inside (by omega) (by omega)]
          congr 1
          omega
        · have hne : ¬ g.dataStart + (c' - 2) * g.sectorsPerCluster + i / 512 =
              g.dataStart + (c - 2) * g.sectorsPerCluster + k :=
            fun he => hcc (clusterSector_inj hin.1 hc hi hk he)
          rw [if_neg hne]
          by_cases hc' : c' = c
          · subst hc'
            rw [if_pos rfl, memcpy_outside (by omega), if_pos hin]
          · rw [if_neg hc', if_pos hin]
      · rw [if_neg hin]
        by_cases hc' : c' = c
        · subst hc'
          have hi : ¬ i < g.bytesPerCluster := fun h => hin ⟨hc, h⟩
          have hb := hv.mounted.bpc_eq
          rw [if_pos rfl, memcpy_outside (by omega), if_neg hin]
        · rw [if_neg hc', if_neg hin]

/-- A turn of `node_write` in the root region. -/
theorem ensures_patchRoot {β : Type} {off m : Nat} {buf : Buf} {f : FatM σ β}
    {post : Except Stop β → σ → Disk → Prop} (hk : g.rootStart + off / 512 < g.dataStart)
    (hm : off % 512 + m ≤ 512) (h : Does g agree f n (d.putRoot off buf m) post) : Does g agree (do
      let s ← FatM.readSector (g.rootStart + off / 512)
      FatM.writeSector (g.rootStart + off / 512) (memcpy s (off % 512) buf 0 m)
      f) n d post := by
  refine .bind (ensures_readRoot hk fun b hb => ?_)
  refine (yields_writeRoot _ hk).bind ?_
  rw [Disk.putRoot, memcpy_sector buf hb hm, Nat.div_add_mod]
  exact h

/-- A turn of `node_write` in a cluster. -/
theorem ensures_patchData {β : Type} {off m : Nat} {buf : Buf} {f : FatM σ β}
    {post : Except Stop β → σ → Disk → Prop} (hc : validCluster g c = true)
    (hk : off / 512 < g.sectorsPerCluster) (hm : off % 512 + m ≤ 512)
    (h : Does g agree f n (d.putData c off buf m) post) : Does g agree (do
      let s ← FatM.readSector (g.dataStart + (c - 2) * g.sectorsPerCluster + off / 512)
      FatM.writeSector (g.dataStart + (c - 2) * g.sectorsPerCluster + off / 512)
        (memcpy s (off % 512) buf 0 m)
      f) n d post := by
  refine .bind (ensures_readData hc hk fun b hb => ?_)
  refine (yields_writeData _ hc hk).bind ?_
  rw [Disk.putData, memcpy_sector buf hb hm, Nat.div_add_mod]
  exact h

end Sectors

end ManiOS.Fat

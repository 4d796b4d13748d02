import ManiOS.Base
import ManiOS.Lib.Buffer
import ManiOS.Lib.Prog

/-!
# Sectors, and the cache of one

`fat.c` reaches the disk through `read_sector` and `write_sector`, and keeps
the sector it read last in `fs->cache`.  Everything above them is a program
over four queries: read a sector, write a sector, and look at or move the
allocation hint (`SectorOp`).

A program has two meanings.  `FatFs.handle` is the code: the cache, the device
behind it, and every way the device can refuse.  `Vol.handle` is a volume with
no cache and no device that fails.  `onFs_over` says that on a sound device a
program cannot tell them apart.  So what is proved of a program over a plain
volume holds of the code with its cache.

A sector has 512 bytes (`SECTOR`) and a directory entry 32 (`DIRENT_SIZE`).
Both numbers are written out.
-/

namespace ManiOS.Fat

open ManiOS.Lib

/-! ## The device -/

/-- A block device, with the blocks its driver fails to transfer. -/
structure Device where
  /-- Of class `DEVICE_BLOCK`. -/
  isBlock : Bool
  blockSize : Nat
  blocks : Nat → Buf
  blockCount : Nat
  /-- Blocks the driver cannot read. -/
  readFails : Nat → Bool
  /-- Whether the driver has a write operation. -/
  canWrite : Bool
  /-- Blocks the driver cannot write. -/
  writeFails : Nat → Bool

/-- `device_read_blocks` of one block. -/
def deviceReadBlocks (dev : Device) (lba : Nat) : Option Buf :=
  if !dev.isBlock then none
  else if lba < dev.blockCount then
    if dev.readFails lba then none else some (dev.blocks lba)
  else none

/-- `device_write_blocks` of one block. -/
def deviceWriteBlocks (dev : Device) (lba : Nat) (data : Buf) : Option Device :=
  if !dev.isBlock || !dev.canWrite then none
  else if lba < dev.blockCount then
    if dev.writeFails lba then none
    else some { dev with blocks := fun s => if s = lba then data else dev.blocks s }
  else none

/-! ## The file system's state -/

/-- What `fat_mount` reads off the boot sector.  It does not change after. -/
structure Geometry where
  /-- Twelve-bit entries, and not sixteen. -/
  fat12 : Bool
  readOnly : Bool
  /-- Copies of the FAT on disk, 1 or 2. -/
  fats : Nat
  sectorsPerCluster : Nat
  bytesPerCluster : Nat
  fatStart : Nat
  /-- Sectors in one copy of the FAT. -/
  fatSize : Nat
  /-- The fixed root directory region. -/
  rootStart : Nat
  rootBytes : Nat
  /-- Where cluster 2 is. -/
  dataStart : Nat
  /-- Valid clusters are `2 .. clusterCount + 1`. -/
  clusterCount : Nat
deriving DecidableEq

/-- `struct fat_fs`. -/
structure FatFs extends Geometry where
  dev : Device
  /-- Where the next allocation search resumes. -/
  hint : Nat
  cachedSector : Nat
  cacheValid : Bool
  cache : Buf

/-- `read_sector`.  `none` on an I/O error. -/
def readSector (fs : FatFs) (sector : Nat) : Option Buf × FatFs :=
  if !fs.cacheValid || fs.cachedSector ≠ sector then
    match deviceReadBlocks fs.dev sector with
    | none => (none, { fs with cacheValid := false })
    | some b => (some b, { fs with cache := b, cachedSector := sector, cacheValid := true })
  else (some fs.cache, fs)

/-- `write_sector`.  The data is never the cache itself, so a cached copy of
the sector is always brought up to date. -/
def writeSector (fs : FatFs) (sector : Nat) (data : Buf) : Option Errno × FatFs :=
  if fs.readOnly then (some .erofs, fs)
  else
    match deviceWriteBlocks fs.dev sector data with
    | none => (some .eio, fs)
    | some dev =>
      if fs.cacheValid && fs.cachedSector = sector then
        (none, { fs with dev := dev, cache := data })
      else (none, { fs with dev := dev })

/-! ## Programs over sectors -/

/-- What the code above the cache asks for. -/
inductive SectorOp where
  | read (sector : Nat)
  | write (sector : Nat) (data : Buf)
  | getHint
  | setHint (hint : Nat)

/-- What it is answered: a sector or none, an error or none, the hint, nothing. -/
@[reducible] def SectorOp.Answer : SectorOp → Type
  | .read _ => Option Buf
  | .write _ _ => Option Errno
  | .getHint => Nat
  | .setHint _ => Unit

/-- How a call stops short: with an error, or not at all.  `hang` is a loop
that never ends. -/
inductive Stop where
  | rc (e : Errno)
  | hang
deriving DecidableEq, Repr

/-- A function of `fat.c` that works on a node, or on none (`σ` is `Unit`). -/
abbrev FatM (σ α : Type) := Proc Stop σ SectorOp SectorOp.Answer α

/-- The code: the cache and the device. -/
def FatFs.handle : Prog.Handler SectorOp SectorOp.Answer FatFs
  | .read s, fs => readSector fs s
  | .write s data, fs => writeSector fs s data
  | .getHint, fs => (fs.hint, fs)
  | .setHint hint, fs => ((), { fs with hint := hint })

/-- A volume with no cache: its blocks and the allocation hint. -/
structure Vol where
  blocks : Nat → Buf
  blockCount : Nat
  readOnly : Bool
  hint : Nat

def Vol.write (v : Vol) (sector : Nat) (data : Buf) : Vol :=
  { v with blocks := fun s => if s = sector then data else v.blocks s }

theorem Vol.blocks_write (v : Vol) (sector : Nat) (data : Buf) (s : Nat) :
    (v.write sector data).blocks s = if s = sector then data else v.blocks s := rfl

/-- The plain volume: no cache, and no transfer fails inside it. -/
def Vol.handle : Prog.Handler SectorOp SectorOp.Answer Vol
  | .read s, v => (if s < v.blockCount then some (v.blocks s) else none, v)
  | .write s data, v =>
    if v.readOnly then (some .erofs, v)
    else if s < v.blockCount then (none, v.write s data)
    else (some .eio, v)
  | .getHint, v => (v.hint, v)
  | .setHint hint, v => ((), { v with hint := hint })

variable {v : Vol} {s : Nat} {g : Geometry} {fs : FatFs}

theorem Vol.handle_read (hs : s < v.blockCount) :
    Vol.handle (.read s) v = (some (v.blocks s), v) := by
  simp only [Vol.handle, hs, if_true]

theorem Vol.handle_read_none (hs : ¬ s < v.blockCount) : Vol.handle (.read s) v = (none, v) := by
  simp only [Vol.handle, hs, if_false]

theorem Vol.handle_write (data : Buf) (hro : v.readOnly = false)
    (hs : s < v.blockCount) : Vol.handle (.write s data) v = (none, v.write s data) := by
  simp [Vol.handle, hro, hs]

theorem Vol.handle_write_eio (data : Buf) (hro : v.readOnly = false)
    (hs : ¬ s < v.blockCount) : Vol.handle (.write s data) v = (some .eio, v) := by
  simp [Vol.handle, hro, hs]

theorem Vol.handle_write_erofs (data : Buf) (hro : v.readOnly = true) :
    Vol.handle (.write s data) v = (some .erofs, v) := by
  simp [Vol.handle, hro]

def FatFs.vol (fs : FatFs) : Vol :=
  { blocks := fs.dev.blocks, blockCount := fs.dev.blockCount, readOnly := fs.readOnly,
    hint := fs.hint }

/-! ## The cache is transparent -/

/-- The cache holds what the disk holds. -/
def FatFs.Coherent (fs : FatFs) : Prop :=
  fs.cacheValid = true →
    fs.cachedSector < fs.dev.blockCount ∧ fs.cache = fs.dev.blocks fs.cachedSector

/-- Every block the device has can be read, and written unless it takes no
writes at all: no device error. -/
structure FatFs.Sound (fs : FatFs) : Prop where
  coherent : fs.Coherent
  isBlock : fs.dev.isBlock = true
  reads : ∀ s, fs.dev.readFails s = false
  writes : fs.readOnly = false → fs.dev.canWrite = true ∧ ∀ s, fs.dev.writeFails s = false

/-- The same volume under the same geometry, with the device sound. -/
def FatFs.Over (g : Geometry) (fs : FatFs) (v : Vol) : Prop :=
  fs.Sound ∧ fs.vol = v ∧ fs.toGeometry = g

theorem readSector_over (h : fs.Over g v) (s : Nat) :
    (readSector fs s).1 = (Vol.handle (.read s) v).1 ∧
      (readSector fs s).2.Over g (Vol.handle (.read s) v).2 := by
  obtain ⟨⟨hc, hb, hr, hw⟩, rfl, rfl⟩ := h
  unfold readSector
  by_cases hmiss : (!fs.cacheValid || decide (fs.cachedSector ≠ s)) = true
  · rw [if_pos hmiss]
    by_cases hs : s < fs.dev.blockCount
    · rw [Vol.handle_read (v := fs.vol) hs]
      simp only [deviceReadBlocks, hb, Bool.not_true, Bool.false_eq_true, hs, hr s, if_true, if_false]
      exact ⟨rfl, ⟨fun _ => ⟨hs, rfl⟩, hb, hr, hw⟩, rfl, rfl⟩
    · rw [Vol.handle_read_none (v := fs.vol) hs]
      simp only [deviceReadBlocks, hb, Bool.not_true, Bool.false_eq_true, hs, if_false]
      exact ⟨trivial, ⟨fun hv => Bool.noConfusion hv, hb, hr, hw⟩, rfl, rfl⟩
  · rw [if_neg hmiss]
    have hv : fs.cacheValid = true ∧ fs.cachedSector = s := by simpa using hmiss
    obtain ⟨hs, hcache⟩ := hc hv.1
    rw [hv.2] at hs hcache
    rw [Vol.handle_read (v := fs.vol) hs, hcache]
    exact ⟨rfl, ⟨hc, hb, hr, hw⟩, rfl, rfl⟩

theorem writeSector_over (h : fs.Over g v) (s : Nat) (data : Buf) :
    (writeSector fs s data).1 = (Vol.handle (.write s data) v).1 ∧
      (writeSector fs s data).2.Over g (Vol.handle (.write s data) v).2 := by
  obtain ⟨⟨hc, hb, hr, hw⟩, rfl, rfl⟩ := h
  unfold writeSector
  by_cases hro : fs.readOnly = true
  · rw [if_pos hro, Vol.handle_write_erofs (v := fs.vol) data hro]
    exact ⟨rfl, ⟨hc, hb, hr, hw⟩, rfl, rfl⟩
  · have hrw : fs.readOnly = false := by simpa using hro
    obtain ⟨hcan, hwf⟩ := hw hrw
    rw [if_neg hro]
    by_cases hs : s < fs.dev.blockCount
    · rw [Vol.handle_write (v := fs.vol) data hrw hs]
      simp only [deviceWriteBlocks, hb, hcan, Bool.or_false, hs, hwf s, Bool.not_true, Bool.false_eq_true, if_true,
        if_false]
      by_cases hhit : (fs.cacheValid && decide (fs.cachedSector = s)) = true
      · rw [if_pos hhit]
        have hv : fs.cacheValid = true ∧ fs.cachedSector = s := by simpa using hhit
        refine ⟨rfl, ⟨fun _ => ?_, rfl, hr, fun _ => ⟨rfl, hwf⟩⟩, rfl, rfl⟩
        exact ⟨hv.2 ▸ hs, (if_pos hv.2).symm⟩
      · rw [if_neg hhit]
        refine ⟨rfl, ⟨fun hv => ?_, rfl, hr, fun _ => ⟨rfl, hwf⟩⟩, rfl, rfl⟩
        -- another sector is cached, and this write did not touch it
        have hne : fs.cachedSector ≠ s := fun he => hhit (by simpa [he] using hv)
        obtain ⟨hlt, hcache⟩ := hc hv
        exact ⟨hlt, hcache.trans (if_neg hne).symm⟩
    · rw [Vol.handle_write_eio (v := fs.vol) data hrw hs]
      simp only [deviceWriteBlocks, hb, hcan, Bool.or_false, hs, Bool.not_true, Bool.false_eq_true,
        if_false]
      exact ⟨trivial, ⟨hc, hb, hr, fun _ => ⟨hcan, hwf⟩⟩, rfl, rfl⟩

theorem handle_over (q : SectorOp) (fs : FatFs) (v : Vol) (h : fs.Over g v) :
    (FatFs.handle q fs).1 = (Vol.handle q v).1 ∧
      (FatFs.handle q fs).2.Over g (Vol.handle q v).2 := by
  cases q with
  | read s => exact readSector_over h s
  | write s data => exact writeSector_over h s data
  | getHint | setHint =>
    obtain ⟨⟨hc, hb, hr, hw⟩, rfl, hg⟩ := h
    exact ⟨rfl, ⟨hc, hb, hr, hw⟩, rfl, hg⟩

/-! ## Calls of the sector layer -/

section Calls

variable {σ α β : Type}

/-- A call of `read_sector` whose caller returns `-EIO` on `NULL`. -/
def FatM.readSector (sector : Nat) : FatM σ Buf := do
  match ← Proc.query (SectorOp.read sector) with
  | some b => pure b
  | none => throw (.rc .eio)

/-- A call of `write_sector` whose caller returns its error. -/
def FatM.writeSector (sector : Nat) (data : Buf) : FatM σ Unit := do
  match ← Proc.query (SectorOp.write sector data) with
  | none => pure ()
  | some e => throw (.rc e)

/-- `fs->hint`. -/
def FatM.getHint : FatM σ Nat := Proc.query SectorOp.getHint

/-- An assignment to `fs->hint`. -/
def FatM.setHint (hint : Nat) : FatM σ Unit := Proc.query (SectorOp.setHint hint)

/-- The outcome on a plain volume. -/
def onVol (m : FatM σ α) (n : σ) (v : Vol) : (Except Stop α × σ) × Vol := m.exec Vol.handle n v

/-- The outcome in the code, with the cache. -/
def onFs (m : FatM σ α) (n : σ) (fs : FatFs) : (Except Stop α × σ) × FatFs :=
  m.exec FatFs.handle n fs

theorem onVol_bind (m : FatM σ α) (f : α → FatM σ β) (n : σ) (v : Vol) :
    onVol (m >>= f) n v = match onVol m n v with
      | ((.ok a, n'), v') => onVol (f a) n' v'
      | ((.error e, n'), v') => ((.error e, n'), v') := by
  rw [onVol, onVol, Proc.exec_bind]
  rcases m.exec Vol.handle n v with ⟨⟨r, n'⟩, v'⟩
  cases r with
  | ok a => rfl
  | error e => rfl

theorem onVol_bind_ok {m : FatM σ α} {n n' : σ} {v' : Vol} {a : α}
    (h : onVol m n v = ((.ok a, n'), v')) {f : α → FatM σ β} :
    onVol (m >>= f) n v = onVol (f a) n' v' :=
  Proc.exec_bind_ok _ h f

theorem onVol_readSector (n : σ) (hs : s < v.blockCount) :
    onVol (FatM.readSector s) n v = ((.ok (v.blocks s), n), v) := by
  unfold FatM.readSector
  rw [onVol, Proc.exec_bind, Proc.exec_query, Vol.handle_read hs]
  rfl

theorem onVol_writeSector (n : σ) (data : Buf) (hro : v.readOnly = false)
    (hs : s < v.blockCount) :
    onVol (FatM.writeSector s data) n v = ((.ok (), n), v.write s data) := by
  unfold FatM.writeSector
  rw [onVol, Proc.exec_bind, Proc.exec_query, Vol.handle_write data hro hs]
  rfl

end Calls

/-- On a sound device the code does what it does on the plain volume. -/
theorem onFs_over {σ α : Type} (m : FatM σ α) (n : σ) (h : fs.Over g v) :
    (onFs m n fs).1 = (onVol m n v).1 ∧ (onFs m n fs).2.Over g (onVol m n v).2 :=
  Proc.exec_sim (R := fun fs v => FatFs.Over g fs v) (fun q fs v h => handle_over q fs v h) m n h

end ManiOS.Fat

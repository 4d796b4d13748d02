import ManiOS.Fat.Names
import ManiOS.Fat.Node

/-!
# Directories

A directory is a sequence of 32-byte slots.  A slot whose first byte is 0 ends
it, and one whose first byte is `0xE5` is deleted and may be used again.  The
functions here scan the slots, find a name, choose a name that is not taken,
and place and delete entries.

The scans of the source are loops without a bound: they stop at the end marker
or where the directory has no more bytes.  An offset is a `uint32_t`, so a scan
that has not stopped after `2 ^ 27` slots is back at offset 0 with nothing
changed, and goes on for ever.  That is `Stop.hang`.
-/

namespace ManiOS.Fat

open ManiOS.Lib

/-- `ATTR_VOLUME_ID`, `ATTR_DIRECTORY`, `ATTR_LONG_NAME` and `ATTR_ARCHIVE`. -/
def attrVolumeId : UInt8 := 0x08

@[inherit_doc attrVolumeId] def attrDirectory : UInt8 := 0x10

@[inherit_doc attrVolumeId] def attrLongName : UInt8 := 0x0F

@[inherit_doc attrVolumeId] def attrArchive : UInt8 := 0x20

def fatDateEpoch : Nat := 0x0021

/-- The slots a scan can see before its offset comes back to 0. -/
def slotTurns : Nat := 134217728

def isDirEntry (e : Buf) : Bool := e 11 &&& attrDirectory ≠ 0

def entryCluster (e : Buf) : Nat := le16 (shift e 26)

def entrySize (e : Buf) : Nat := le32 (shift e 28)

/-- An entry that is not deleted, nor part of a long name, nor a volume label. -/
def isListed (e : Buf) : Bool :=
  !(e 0 = entryDeleted || e 11 = attrLongName || e 11 &&& attrVolumeId ≠ 0)

/-- An entry `for_each_entry` shows: listed, and neither `"."` nor `".."`. -/
def isVisible (e : Buf) : Bool := isListed e && e 0 ≠ 46

/-- One of the two entries a directory starts with. -/
def isDot (e : Buf) : Bool := decide (e 0 = 46 ∧ (e 1 = 32 ∨ (e 1 = 46 ∧ e 2 = 32)))

/-! ## Scanning -/

/-- The loop of `for_each_entry` from offset `off` on. -/
def forEachEntryFrom {τ : Type} (g : Geometry) (fn : Buf → CStr → Nat → τ → Bool × τ) :
    Nat → Nat → τ → FatM FatNode τ
  | 0, _, _ => throw .hang
  | left + 1, off, t => do
      let (got, e) ← tryCatch (nodeRead g off (fun _ => 0) 32) fun _ => throw (.rc .eio)
      if got < 32 ∨ e 0 = entryEnd then pure t
      else if !isVisible e then forEachEntryFrom g fn left (u32 (off + 32)) t
      else
        match fn e (shortName e) off t with
        | (true, t) => pure t
        | (false, t) => forEachEntryFrom g fn left (u32 (off + 32)) t

/-- `for_each_entry`: `fn` sees each visible entry, its name and its offset, and
says whether to stop. -/
def forEachEntry {τ : Type} (g : Geometry) (fn : Buf → CStr → Nat → τ → Bool × τ) (t : τ) :
    FatM FatNode τ :=
  forEachEntryFrom g fn slotTurns 0 t

variable (g : Geometry)

/-- `match_name`: the name as the directory holds it, or the alias it was
created under. -/
def matchName (want : CStr) (e : Buf) (name : CStr) (off : Nat) (hit : Option (Nat × Buf)) :
    Bool × Option (Nat × Buf) :=
  let byAlias := match name11Of want with
    | .ok a => name11Equal e a
    | .error _ => false
  if namesEqualNocase name want || byAlias then (true, some (off, e)) else (false, hit)

/-- `entry_find`: the entry named `name`, and its offset. -/
def entryFind (name : CStr) : FatM FatNode (Nat × Buf) := do
  match ← forEachEntry g (matchName name) none with
  | some hit => pure hit
  | none => throw (.rc .enoent)

/-- `match11`: an entry with these eleven bytes, unless it is the one to pass
over. -/
def match11 (want : Buf) (skip : Option Nat) (e : Buf) (_ : CStr) (off : Nat) (taken : Bool) :
    Bool × Bool :=
  if skip = some off then (false, taken)
  else if name11Equal e want then (true, true)
  else (false, taken)

def nameTaken (want : Buf) (skip : Option Nat) : FatM FatNode Bool :=
  forEachEntry g (match11 want skip) false

/-- The aliases of `make_entry_name` from number `n` on. -/
def freeAlias (g : Geometry) (f : FatName) (skip : Option Nat) : Nat → Nat → FatM FatNode Buf
  | 0, _ => throw (.rc .enospc)
  | left + 1, n => do
      let taken ← nameTaken g (alias11 f n) skip
      if taken then freeAlias g f skip left (n + 1) else pure (alias11 f n)

/-- `make_entry_name`: eleven bytes for `name` that the directory does not have
yet, the entry at `skip` passed over. -/
def makeEntryName (name : CStr) (skip : Option Nat) : FatM FatNode Buf := do
  match splitName name with
  | .error e => throw (.rc e)
  | .ok f =>
    if f.fits then
      let taken ← nameTaken g (pack11 f.base f.ext) skip
      if taken then freeAlias g f skip 999 1 else pure (pack11 f.base f.ext)
    else freeAlias g f skip 999 1

/-! ## Slots -/

/-- The loop of `entry_slot` from offset `off` on. -/
def entrySlotFrom (g : Geometry) : Nat → Nat → FatM FatNode (Nat × Bool)
  | 0, _ => throw .hang
  | left + 1, off => do
      let (got, e) ← tryCatch (nodeRead g off (fun _ => 0) 32) fun _ => throw (.rc .eio)
      if got < 32 then
        let d ← Proc.get
        if d.fixedRoot then throw (.rc .enospc) else pure (off, true)
      else if e 0 = entryDeleted then pure (off, false)
      else if e 0 = entryEnd then pure (off, true)
      else entrySlotFrom g left (u32 (off + 32))

/-- `entry_slot`: a deleted entry to use again, or the end of the directory.
The flag says which. -/
def entrySlot : FatM FatNode (Nat × Bool) := entrySlotFrom g slotTurns 0

/-- `entry_place`: an entry in its slot, and a new end marker after one that
took the old marker's place. -/
def entryPlace (off : Nat) (e : Buf) (atEnd : Bool) : FatM FatNode Unit := do
  writeEntry g off e .enospc
  if atEnd then
    let (next, _) ← tryCatch (nodeRead g (u32 (off + 32)) (fun _ => 0) 32) fun _ => throw (.rc .eio)
    if next = 32 then writeEntry g (u32 (off + 32)) (fun _ => 0) .enospc

/-- The loop of `lfn_start`, `left` slots before `start`. -/
def lfnStartFrom (g : Geometry) : Nat → Nat → FatM FatNode Nat
  | 0, start => pure start
  | left + 1, start => do
      let e ← readEntry g (start - 32)
      if e 11 ≠ attrLongName then pure start else lfnStartFrom g left (start - 32)

/-- `lfn_start`: where the long-name slots before an entry start. -/
def lfnStart (off : Nat) : FatM FatNode Nat := lfnStartFrom g (off / 32) off

/-- The loop of `slots_delete`, `left` slots from `at` on. -/
def slotsDeleteFrom (g : Geometry) : Nat → Nat → FatM FatNode Unit
  | 0, _ => pure ()
  | left + 1, off => do
      let e ← readEntry g off
      writeEntry g off (setByte e 0 entryDeleted) .eio
      slotsDeleteFrom g left (u32 (off + 32))

/-- `slots_delete`: the slots from `start` to `off` marked deleted. -/
def slotsDelete (start off : Nat) : FatM FatNode Unit :=
  slotsDeleteFrom g ((off + 32 - start) / 32) start

def entryDelete (off : Nat) : FatM FatNode Unit := do
  let start ← lfnStart g off
  slotsDelete g start off

/-! ## New and empty directories -/

/-- One of the two entries a directory starts with. -/
def dotEntry (dots : Nat) (cluster : Nat) : Buf :=
  let name : Buf := fun i => if i < dots then 46 else if i < 11 then 32 else 0
  putLe16 (putLe16 (putLe16 (setByte name 11 attrDirectory) 16 fatDateEpoch) 24 fatDateEpoch) 26
    cluster

/-- `new_directory`: `"."`, `".."` and an end marker, written at once into the
first cluster of a new directory. -/
def newDirectory (cluster : Nat) : FatM FatNode Unit := do
  let parent ← Proc.get
  let up := if parent.fixedRoot then 0 else parent.firstCluster
  let block : Buf := fun i =>
    if i < 32 then dotEntry 1 cluster i else if i < 64 then dotEntry 2 up (i - 32) else 0
  let put ← Proc.onLocal (dirAt false cluster)
    (tryCatch (nodeWrite g 0 block 96) fun _ => throw (.rc .eio))
  if put ≠ 96 then throw (.rc .eio)

/-- The loop of `dir_is_empty` from offset `off` on. -/
def dirIsEmptyFrom (g : Geometry) : Nat → Nat → FatM FatNode Unit
  | 0, _ => throw .hang
  | left + 1, off => do
      let (got, e) ← tryCatch (nodeRead g off (fun _ => 0) 32) fun _ => throw (.rc .eio)
      if got < 32 ∨ e 0 = entryEnd then pure ()
      else if !isListed e then dirIsEmptyFrom g left (u32 (off + 32))
      else if isDot e then dirIsEmptyFrom g left (u32 (off + 32))
      else throw (.rc .enotempty)

/-- `dir_is_empty`: nothing but `"."` and `".."`. -/
def dirIsEmpty : FatM FatNode Unit := dirIsEmptyFrom g slotTurns 0

end ManiOS.Fat

import ManiOS.Fat.Directory

/-!
# The operations

What the vnode layer calls: `fat_walk`, `fat_create`, `fat_remove`,
`fat_rename`, `fat_truncate`, `fat_read` and `fat_write`.  The local state of a
call is the node it is made through.  `mem` says whether the `kmalloc` of a new
node succeeds.

`fat_read` and `fat_write` return a `long`, which is a count or a negated error.
It has 32 bits here, so a count of `2 ^ 31` or more comes back negative.
-/

namespace ManiOS.Fat

open ManiOS.Lib

section Results

variable {σ : Type}

/-- The `int` a call returns: 0 (`none`) or an error. -/
def rcOf (m : FatM σ Unit) : FatM σ (Option Errno) :=
  tryCatch (do m; pure none) fun
    | .rc e => pure (some e)
    | .hang => throw .hang

/-- The `long` a call returns: a count or a negated error. -/
def longOf (m : FatM σ Nat) : FatM σ Int :=
  tryCatch (do let done ← m; pure (toLong done)) fun
    | .rc e => pure e.negated
    | .hang => throw .hang

/-- A call whose error is not looked at. -/
def ignoring (m : FatM σ Unit) : FatM σ Unit := do
  let _ ← rcOf m
  pure ()

end Results

/-! ## Walking -/

/-- `new_node`: the node of an entry at `off` of directory `dir`. -/
def newNode (dir : FatNode) (e : Buf) (off : Nat) : FatNode where
  type := if isDirEntry e then .dir else .file
  size := if isDirEntry e then 0 else entrySize e
  fixedRoot := false
  firstCluster := entryCluster e
  cursorIndex := 0
  cursorCluster := 0
  hasEntry := true
  entryDirFixed := dir.fixedRoot
  entryDirCluster := dir.firstCluster
  entryOff := off

variable (g : Geometry)

def fatWalk (mem : Bool) (name : CStr) : FatM FatNode FatNode := do
  let (off, e) ← entryFind g name
  if !mem then throw (.rc .enomem)
  let d ← Proc.get
  pure (newNode d e off)

/-! ## Creating -/

/-- The entry `fat_create` writes. -/
def newEntry (name11 : Buf) (type : VnodeType) (first : Nat) : Buf :=
  let e := memcpy (fun _ => 0) 0 name11 0 11
  let e := setByte e 11 (if type = .dir then attrDirectory else attrArchive)
  let e := putLe16 (putLe16 e 16 fatDateEpoch) 24 fatDateEpoch
  if type = .dir then putLe16 e 26 first else e

/-- Fails with `-EEXIST` if the name is there. -/
def refuseExisting (name : CStr) : FatM FatNode Unit :=
  tryCatch (do let _ ← entryFind g name; throw (.rc .eexist))
    fun e => if e = .rc .enoent then pure () else throw e

/-- The first cluster of a new directory, with its entries.  A failure hands it
back. -/
def newFirst (type : VnodeType) : FatM FatNode Nat :=
  if type = .dir then do
    let first ← allocCluster g
    tryCatch (newDirectory g first) fun e => do
      ignoring (freeChain g first)
      throw e
    pure first
  else pure 0

def fatCreate (mem : Bool) (name : CStr) (type : VnodeType) :
    FatM FatNode FatNode := do
  if g.readOnly then throw (.rc .erofs)
  refuseExisting g name
  let name11 ← makeEntryName g name none
  let (off, atEnd) ← entrySlot g
  let first ← newFirst g type
  tryCatch (entryPlace g off (newEntry name11 type first) atEnd) fun e => do
    if type = .dir then ignoring (freeChain g first)
    throw e
  if !mem then
    ignoring (entryDelete g off)
    if type = .dir then ignoring (freeChain g first)
    throw (.rc .enomem)
  let d ← Proc.get
  pure {
    type := type, size := 0, fixedRoot := false, firstCluster := first, cursorIndex := 0,
    cursorCluster := 0, hasEntry := true, entryDirFixed := d.fixedRoot,
    entryDirCluster := d.firstCluster, entryOff := off }

/-! ## Removing and renaming -/

/-- Fails with `-ENOTEMPTY` if the entry is a directory that holds a name. -/
def refuseFull (e : Buf) : FatM FatNode Unit :=
  if isDirEntry e then Proc.onLocal (dirAt false (entryCluster e)) (dirIsEmpty g) else pure ()

def fatRemove (name : CStr) (expect : VnodeType) : FatM FatNode Unit := do
  if g.readOnly then throw (.rc .erofs)
  let (off, e) ← entryFind g name
  if expect = .file ∧ isDirEntry e then throw (.rc .eisdir)
  if expect = .dir ∧ !isDirEntry e then throw (.rc .enotdir)
  refuseFull g e
  freeChain g (entryCluster e)
  entryDelete g off

/-- The long-name slots before an entry, deleted. -/
def dropLongName (off : Nat) : FatM FatNode Unit := do
  let start ← lfnStart g off
  if start < off then slotsDelete g start (off - 32)

/-- `drop_target`: what stands in the way of a rename goes. -/
def dropTarget (src tgt : Buf) (toff : Nat) : FatM FatNode Unit := do
  if isDirEntry src ≠ isDirEntry tgt then
    throw (.rc (if isDirEntry src then .enotdir else .eisdir))
  refuseFull g tgt
  dropLongName g toff
  freeChain g (entryCluster tgt)
  entryDelete g toff

/-- The entry a rename replaces, unless it is the one renamed. -/
def findTarget (dest : CStr) (off : Nat) : FatM FatNode (Option (Nat × Buf)) :=
  tryCatch (do
      let (ooff, other) ← entryFind g dest
      pure (if ooff ≠ off then some (ooff, other) else none))
    fun e => if e = .rc .enoent then pure none else throw e

/-- `fat_rename`, inside one directory. -/
def fatRename (source dest : CStr) : FatM FatNode Unit := do
  if g.readOnly then throw (.rc .erofs)
  let (off, e) ← entryFind g source
  match ← findTarget g dest off with
  | some (ooff, other) => dropTarget g e other ooff
  | none => pure ()
  let name11 ← makeEntryName g dest (some off)
  dropLongName g off
  entryPlace g off (memcpy e 0 name11 0 11) false

/-! ## Contents -/

/-- The walk of `fat_truncate` to the last cluster it keeps, `left` links on. -/
def lastKept {σ : Type} (g : Geometry) : Nat → Nat → FatM σ Nat
  | 0, c => pure c
  | left + 1, c =>
    if validCluster g c then do
      let next ← fatEntry g c
      if isEndOfChain g next then pure c else lastKept g left next
    else pure c

/-- What `fat_truncate` does for a smaller size that is not 0. -/
def cutChain (size : Nat) : FatM FatNode Unit := do
  let n ← Proc.get
  let keep := u32 (size + g.bytesPerCluster - 1) / g.bytesPerCluster
  let c ← lastKept g (keep - 1) n.firstCluster
  if !validCluster g c then throw (.rc .eio)
  let next ← fatEntry g c
  if !isEndOfChain g next then freeChain g next
  fatSetEntry g c (endMarker g)
  Proc.modify fun n => { n with size := size }
  syncEntry g

/-- What `fat_truncate` does for size 0. -/
def dropChain : FatM FatNode Unit := do
  let n ← Proc.get
  let rc ← rcOf (freeChain g n.firstCluster)
  Proc.modify fun n =>
    { n with firstCluster := 0, cursorIndex := 0, cursorCluster := 0, size := 0 }
  match rc with
  | some e => throw (.rc e)
  | none => syncEntry g

def fatTruncate (size : Nat) : FatM FatNode Unit := do
  if g.readOnly then throw (.rc .erofs)
  refreshEntry g
  let n ← Proc.get
  if size = 0 then dropChain g
  else if size > n.size then throw (.rc .einval)
  else if size < n.size then cutChain g size
  else pure ()

/-- What `fat_write` does after a `node_write` that wrote something: the size
the file has now. -/
def growSize (offset : Nat) (done : Int) : FatM FatNode (Option Errno) := do
  let n ← Proc.get
  if 0 < done ∧ u32 (offset + done.toNat) > n.size then
    Proc.modify fun n => { n with size := u32 (offset + done.toNat) }
    rcOf (syncEntry g)
  else pure none

def fatWrite (offset : Nat) (buf : Buf) (len : Nat) : FatM FatNode Int := do
  if g.readOnly then return Errno.erofs.negated
  let n ← Proc.get
  if n.type = .dir then return Errno.eisdir.negated
  match ← rcOf (refreshEntry g) with
  | some e => pure e.negated
  | none =>
    let done ← longOf (nodeWrite g offset buf len)
    let rc ← growSize g offset done
    if 0 < done then pure done
    else
      match rc with
      | some e => pure e.negated
      | none => pure done

/-- `fat_read`: what it returns, and the buffer. -/
def fatRead (offset : Nat) (buf : Buf) (len : Nat) : FatM FatNode (Int × Buf) := do
  let n ← Proc.get
  if offset ≥ n.size then pure (0, buf)
  else
    tryCatch (do
        let (done, buf) ← nodeRead g offset buf (min len (n.size - offset))
        pure (toLong done, buf))
      fun
        | .rc e => pure (e.negated, buf)
        | .hang => throw .hang

end ManiOS.Fat

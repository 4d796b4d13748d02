import ManiOS.Fat.Table

/-!
# Clusters and nodes

The functions of `fat.c` that take and free clusters, follow a node's chain,
and read and write its raw contents.  A loop of the source is a function on
the number of turns it has left.

`cluster_for_write` puts a node's first cluster into its directory entry by
`sync_entry`, which writes the entry by `node_write` on the directory, which
goes through `cluster_for_write` again.  The directory is opened by `dir_at`
and has no entry of its own, so there `sync_entry` returns at once and the
circle closes after one turn.  `clusterForWriteWith` and `nodeWriteWith` take
what they call for `sync_entry`: nothing in a directory (`dirWrite`), and
`syncEntry` in a file (`nodeWrite`).
-/

namespace ManiOS.Fat

open ManiOS.Lib

section Clusters

variable {σ : Type} (g : Geometry)

/-- The search of `alloc_cluster` from turn `i` on. -/
def allocClusterFrom (g : Geometry) (start : Nat) : Nat → Nat → FatM σ Nat
  | 0, _ => throw (.rc .enospc)
  | left + 1, i => do
      let c := 2 + (start - 2 + i) % g.clusterCount
      let v ← fatEntry g c
      if v = 0 then
        fatSetEntry g c (endMarker g)
        FatM.setHint (if c + 1 < g.clusterCount + 2 then c + 1 else 2)
        pure c
      else allocClusterFrom g start left (i + 1)

/-- `alloc_cluster`: a free cluster, marked end-of-chain. -/
def allocCluster : FatM σ Nat := do
  let hint ← FatM.getHint
  allocClusterFrom g (if 2 ≤ hint then hint else 2) g.clusterCount 0

/-- The loop of `free_chain`, which may take `left` more steps. -/
def freeChainFrom (g : Geometry) : Nat → Nat → FatM σ Unit
  | 0, c => if validCluster g c then throw (.rc .eio) else pure ()
  | left + 1, c =>
    if validCluster g c then do
      let next ← fatEntry g c
      fatSetEntry g c 0
      if isEndOfChain g next then pure ()
      else if !validCluster g next then throw (.rc .eio)
      else freeChainFrom g left next
    else pure ()

def freeChain (first : Nat) : FatM σ Unit := do
  if validCluster g first then FatM.setHint first
  freeChainFrom g (g.clusterCount + 1) first

/-- The walk of `cluster_at`: `left` links on from `c`, or `none` past the end
of the chain. -/
def followChain (g : Geometry) : Nat → Nat → FatM σ (Option Nat)
  | 0, c => pure (some c)
  | left + 1, c =>
    if left + 1 > g.clusterCount then throw (.rc .eio)
    else do
      let next ← fatEntry g c
      if isEndOfChain g next then pure none
      else if !validCluster g next then throw (.rc .eio)
      else followChain g left next

/-- Zeroes the sectors of a cluster from sector `s` of it on, and hands it back
if one cannot be written. -/
def zeroCluster (g : Geometry) (c : Nat) : Nat → Nat → FatM σ Unit
  | 0, _ => pure ()
  | left + 1, s => do
      tryCatch (FatM.writeSector (g.dataStart + (c - 2) * g.sectorsPerCluster + s) fun _ => 0)
        fun e => do
          tryCatch (fatSetEntry g c 0) fun _ => pure ()
          throw e
      zeroCluster g c left (s + 1)

end Clusters

variable (g : Geometry)

/-! ## The chain of a node -/

/-- `cluster_at`: the cluster at an index of the node's chain, 0 past its end.
It remembers where it got to. -/
def clusterAt (index : Nat) : FatM FatNode Nat := do
  let n ← Proc.get
  let cursor := n.cursorCluster ≠ 0 ∧ n.cursorIndex ≤ index
  let i := if cursor then n.cursorIndex else 0
  let c := if cursor then n.cursorCluster else n.firstCluster
  if !validCluster g c then
    if c = 0 then pure 0 else throw (.rc .eio)
  else
    match ← followChain g (index - i) c with
    | none => pure 0
    | some c =>
      Proc.modify fun n => { n with cursorIndex := index, cursorCluster := c }
      pure c

/-- What `cluster_for_write` does where the chain ends: a free cluster, cleared
if the node is a directory, linked to the one before or made the first. -/
def growChain (sync : FatM FatNode Unit) (prev : Nat) : FatM FatNode Nat := do
  let c ← allocCluster g
  let n ← Proc.get
  if n.type = .dir then zeroCluster g c g.sectorsPerCluster 0
  if prev ≠ 0 then fatSetEntry g prev c
  else
    Proc.modify fun n => { n with firstCluster := c, cursorIndex := 0, cursorCluster := 0 }
    sync
  pure c

/-- The loop of `cluster_for_write`, at cluster `c` of turn `i` with `prev`
before it. -/
def clusterForWriteFrom (g : Geometry) (sync : FatM FatNode Unit) (index : Nat) :
    Nat → Nat → Nat → Nat → FatM FatNode Nat
  | 0, _, _, _ => throw (.rc .eio)
  | left + 1, i, c, prev => do
      let c ←
        if c = 0 then growChain g sync prev
        else if !validCluster g c then throw (.rc .eio)
        else pure c
      if i = index then pure c
      else
        let next ← fatEntry g c
        if isEndOfChain g next then clusterForWriteFrom g sync index left (i + 1) 0 c
        else if !validCluster g next then throw (.rc .eio)
        else clusterForWriteFrom g sync index left (i + 1) next c

/-- `cluster_for_write`, with what it calls for `sync_entry`. -/
def clusterForWriteWith (sync : FatM FatNode Unit) (index : Nat) :
    FatM FatNode Nat := do
  let n ← Proc.get
  clusterForWriteFrom g sync index (g.clusterCount + 1) 0 n.firstCluster 0

/-! ## Raw contents -/

/-- The sector of cluster `c` that holds byte `offset` of its chain. -/
def clusterSector (c offset : Nat) : Nat :=
  g.dataStart + (c - 2) * g.sectorsPerCluster + offset % g.bytesPerCluster / 512

/-- The sector `node_read` reads at `offset`, or `none` at the end. -/
def readTarget (offset : Nat) : FatM FatNode (Option Nat) := do
  let n ← Proc.get
  if n.fixedRoot then
    if offset ≥ g.rootBytes then pure none else pure (some (g.rootStart + offset / 512))
  else
    let c ← clusterAt g (offset / g.bytesPerCluster)
    if c = 0 then pure none else pure (some (clusterSector g c offset))

/-- One turn of `node_read`: the bytes it copies, or `none` at the end. -/
def readChunk (offset len : Nat) : FatM FatNode (Option (Buf × Nat)) := do
  match ← readTarget g offset with
  | none => pure none
  | some sector =>
    let s ← FatM.readSector sector
    pure (some (shift s (offset % 512), min (512 - offset % 512) len))

/-- The loop of `node_read`.  An error after some bytes ends it with those. -/
def nodeReadFrom (g : Geometry) (len : Nat) : Nat → Nat → Nat → Buf → FatM FatNode (Nat × Buf)
  | 0, _, done, buf => pure (done, buf)
  | left + 1, offset, done, buf =>
    if done < len then do
      let r ← tryCatch (readChunk g offset (len - done))
        fun e => if done ≠ 0 then pure none else throw e
      match r with
      | none => pure (done, buf)
      | some (s, chunk) =>
        nodeReadFrom g len left (u32 (offset + chunk)) (done + chunk) (memcpy buf done s 0 chunk)
    else pure (done, buf)

/-- `node_read`: how many bytes it read, and the buffer with them in it. -/
def nodeRead (offset : Nat) (buf : Buf) (len : Nat) : FatM FatNode (Nat × Buf) :=
  nodeReadFrom g len len offset 0 buf

/-- One turn of `node_write`: how many bytes of `buf` it wrote. -/
def writeChunk (sync : FatM FatNode Unit) (offset : Nat) (buf : Buf) (len : Nat) :
    FatM FatNode Nat := do
  let n ← Proc.get
  let sector ←
    if n.fixedRoot then pure (g.rootStart + offset / 512)
    else do
      let c ← clusterForWriteWith g sync (offset / g.bytesPerCluster)
      pure (clusterSector g c offset)
  let s ← FatM.readSector sector
  let chunk := min (512 - offset % 512) len
  FatM.writeSector sector (memcpy s (offset % 512) buf 0 chunk)
  pure chunk

/-- The loop of `node_write`.  An error after some bytes ends it with those. -/
def nodeWriteFrom (g : Geometry) (sync : FatM FatNode Unit) (buf : Buf) (len : Nat) :
    Nat → Nat → Nat → FatM FatNode Nat
  | 0, _, done => pure done
  | left + 1, offset, done =>
    if done < len then do
      let r ← tryCatch (some <$> writeChunk g sync offset (shift buf done) (len - done))
        fun e => if done ≠ 0 then pure none else throw e
      match r with
      | none => pure done
      | some chunk => nodeWriteFrom g sync buf len left (u32 (offset + chunk)) (done + chunk)
    else pure done

/-- `node_write`, with what it calls for `sync_entry`. -/
def nodeWriteWith (sync : FatM FatNode Unit) (offset : Nat) (buf : Buf)
    (len : Nat) : FatM FatNode Nat := do
  let n ← Proc.get
  if n.fixedRoot then
    if offset ≥ g.rootBytes then throw (.rc .enospc)
    else
      let len := min len (g.rootBytes - offset)
      nodeWriteFrom g sync buf len len offset 0
  else nodeWriteFrom g sync buf len len offset 0

/-! ## A node's own directory entry -/

/-- `node_write` on a directory opened by `dir_at`. -/
def dirWrite (offset : Nat) (buf : Buf) (len : Nat) : FatM FatNode Nat :=
  nodeWriteWith g (pure ()) offset buf len

/-- Reads one whole directory entry, or fails with `-EIO`. -/
def readEntry (off : Nat) : FatM FatNode Buf := do
  let (got, e) ← tryCatch (nodeRead g off (fun _ => 0) 32) fun _ => throw (.rc .eio)
  if got ≠ 32 then throw (.rc .eio)
  pure e

/-- Writes one whole directory entry by `write`, or fails with `e`. -/
def writeEntryWith (write : Nat → Buf → Nat → FatM FatNode Nat) (off : Nat) (entry : Buf)
    (e : Errno) : FatM FatNode Unit := do
  let put ← tryCatch (write off entry 32) fun _ => throw (.rc e)
  if put ≠ 32 then throw (.rc e)

def entryEnd : UInt8 := 0x00

def entryDeleted : UInt8 := 0xE5

/-- `sync_entry`: the node's cluster and size into its own directory entry. -/
def syncEntry : FatM FatNode Unit := do
  let n ← Proc.get
  if !n.hasEntry then pure ()
  else
    Proc.onLocal (dirAt n.entryDirFixed n.entryDirCluster) do
      let e ← readEntry g n.entryOff
      if e 0 = entryDeleted then throw (.rc .enoent)
      writeEntryWith (dirWrite g) n.entryOff
        (putLe32 (putLe16 e 26 n.firstCluster) 28 (if n.type = .dir then 0 else n.size)) .eio

/-- `refresh_entry`: the cluster and size the entry on the disk has now. -/
def refreshEntry : FatM FatNode Unit := do
  let n ← Proc.get
  if !n.hasEntry then pure ()
  else
    let e ← Proc.onLocal (dirAt n.entryDirFixed n.entryDirCluster) (readEntry g n.entryOff)
    if e 0 = entryDeleted then throw (.rc .enoent)
    Proc.modify fun n =>
      { n with
        firstCluster := le16 (shift e 26)
        size := le32 (shift e 28)
        cursorIndex := 0
        cursorCluster := 0 }

def nodeWrite (offset : Nat) (buf : Buf) (len : Nat) : FatM FatNode Nat :=
  nodeWriteWith g (syncEntry g) offset buf len

/-- Writes one whole directory entry of an open directory, or fails with `e`. -/
def writeEntry (off : Nat) (entry : Buf) (e : Errno) : FatM FatNode Unit :=
  writeEntryWith (nodeWrite g) off entry e

end ManiOS.Fat

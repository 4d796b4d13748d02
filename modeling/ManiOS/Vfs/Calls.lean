import ManiOS.Vfs.Namespace

/-!
# Opening, binding and mounting

The code of `vfs.c` that resolves paths and keeps locations.  `i` is the
namespace of the calling thread.  `mode` is what the caller passes to
`vfs_open`, an `int` of 32 bits.
-/

namespace ManiOS.Vfs

open ManiOS.Lib

variable {O : Type}

def oCreat : UInt32 := 0x0200

def oTrunc : UInt32 := 0x0400

def oExcl : UInt32 := 0x0800

def unionMax : Nat := 8

/-- `enum bind_flag`. -/
inductive BindFlag where
  | replace | before | after
deriving DecidableEq, Repr

/-- The last name of a cleaned path. -/
def leafOf (clean : CStr) : CStr := (clean.reverse.takeWhile (· ≠ 47)).reverse

/-- The directory a cleaned path's last name goes in. -/
def dirOf (clean : CStr) : CStr :=
  let dir := clean.take (clean.length - (leafOf clean).length - 1)
  if dir = [] then [47] else dir

/-- `parent_of`: where a path's last name goes, and that name. -/
def parentOf (K : Kinds O) (fs : Fs O) (i : Nat) (path : CStr) :
    Act (State O) (Except Errno (Location × CStr)) :=
  match cleanPath path with
  | .error e => pure (.error e)
  | .ok clean =>
    if leafOf clean = [] then pure (.error .einval)
    else do
      match ← nsResolve K fs i (dirOf clean) with
      | .error e => pure (.error e)
      | .ok (loc, _) => pure (.ok (loc, leafOf clean))

/-- `dir->ops->create`, if there is one. -/
def createIn (K : Kinds O) (fs : Fs O) (dir : Nat) (leaf : CStr) (type : VnodeType) :
    Act (State O) (Except Errno Nat) := do
  let n ← nodeAt dir
  if K.type n.file ≠ .dir then pure (.error .enotdir)
  else if !K.hasCreate n.file then pure (.error .erofs)
  else
    let s ← Act.get
    match fs.create s.node s.brk dir leaf type with
    | .error e => pure (.error e)
    | .ok (w, o) =>
      issue w o
      Act.modify fun s => { s with made := (n.file, leaf) :: s.made }
      pure (.ok w)

/-- `loc->v[0]`. -/
def firstMember (loc : Location) : Act (State O) Nat := Act.gets fun _ => loc.head?

/-- `vfs_create`: a new file or directory, in the first member of its parent. -/
def vfsCreate (K : Kinds O) (fs : Fs O) (i : Nat) (path : CStr) (type : VnodeType) :
    Act (State O) (Except Errno Nat) :=
  if type ≠ .file ∧ type ≠ .dir then pure (.error .einval)
  else do
    match ← parentOf K fs i path with
    | .error e => pure (.error e)
    | .ok (loc, leaf) =>
      let r ← createIn K fs (← firstMember loc) leaf type
      locationRelease K loc
      pure r

/-- The name an open file is known by. -/
def fileName (canon : CStr) : CStr := if leafOf canon = [] then [47] else leafOf canon

/-- The checks of `vfs_open` on what a path came to, and the truncation. -/
def openCheck (K : Kinds O) (fs : Fs O) (access flags : UInt32) (existed : Bool) (v : Nat) :
    Act (State O) (Option Errno) := do
  let n ← nodeAt v
  if flags &&& (oCreat ||| oExcl) = oCreat ||| oExcl ∧ existed then pure (some .eexist)
  else if access ≠ 0 ∧ K.type n.file = .dir then pure (some .eisdir)
  else if flags &&& oTrunc ≠ 0 ∧ access ≠ 0 ∧ K.type n.file = .file then
    if !K.hasTruncate n.file then pure (some .erofs)
    else do
      let s ← Act.get
      pure (fs.truncate s.node v 0)
  else if access ≠ 0 ∧ !K.hasWrite n.file then pure (some .erofs)
  else pure none

/-- What a path comes to for `vfs_open`: a location and the cleaned path, and
whether it was there before. -/
def openLocation (K : Kinds O) (fs : Fs O) (i : Nat) (path : CStr) (flags : UInt32) :
    Act (State O) (Except Errno (Location × CStr × Bool)) := do
  match ← nsResolve K fs i path with
  | .ok (loc, canon) => pure (.ok (loc, canon, true))
  | .error e =>
    if e = .enoent ∧ flags &&& oCreat ≠ 0 then
      match ← vfsCreate K fs i path .file with
      | .error e => pure (.error e)
      | .ok v =>
        match cleanPath path with
        | .error e => pure (.error e)
        | .ok canon => pure (.ok ([v], canon, false))
    else pure (.error e)

/-- A store to an open file.  `none` frees it. -/
def setFile (f : Nat) (x : Option File) : Act (State O) Unit :=
  Act.modify fun s => { s with file := Function.update s.file f x }

def vfsOpen (K : Kinds O) (fs : Fs O) (i : Nat) (path : CStr) (mode : UInt32) :
    Act (State O) (Except Errno Nat) :=
  let access := mode &&& 3
  let flags := mode &&& ~~~3
  if (access ≠ 0 ∧ access ≠ 1 ∧ access ≠ 2) ∨ flags &&& ~~~(oCreat ||| oTrunc ||| oExcl) ≠ 0 then
    pure (.error .einval)
  else do
    match ← kmalloc with
    | none => pure (.error .enomem)
    | some f =>
      match ← openLocation K fs i path flags with
      | .error e => pure (.error e)
      | .ok (loc, canon, existed) =>
        match ← openCheck K fs access flags existed (← firstMember loc) with
        | some e =>
          locationRelease K loc
          pure (.error e)
        | none =>
          setFile f (some {
            refs := 1, mode := access, name := fileName canon, loc := loc, offset := 0,
            member := 0, index := 0, entry := 0 })
          pure (.ok f)

def fileAt (f : Nat) : Act (State O) File := Act.gets fun s => s.file f

def vfsDup (f : Nat) : Act (State O) Unit := do
  let x ← fileAt f
  setFile f (some { x with refs := x.refs + 1 })

def vfsClose (K : Kinds O) (f : Nat) : Act (State O) Unit := do
  let x ← fileAt f
  if x.refs = 0 then Act.wrong
  else if x.refs = 1 then
    locationRelease K x.loc
    setFile f none
  else setFile f (some { x with refs := x.refs - 1 })

/-- The union that a bind makes, or why it makes none. -/
def composed (fromDir ontoDir : Bool) (source onto : Location) (flag : BindFlag) :
    Except Errno Location :=
  if fromDir ≠ ontoDir then .error (if ontoDir then .enotdir else .eisdir)
  else if flag ≠ .replace ∧ !ontoDir then .error .enotdir
  else
    let result := match flag with
      | .replace => source
      | .before => source ++ onto
      | .after => onto ++ source
    if result.length > unionMax then .error .einval else .ok result

/-- `bind_locations`: consumes both locations' references. -/
def bindLocations (K : Kinds O) (i : Nat) (source onto : Location) (canon : CStr)
    (flag : BindFlag) : Act (State O) (Option Errno) := do
  let n ← nodeAt (← firstMember source)
  let m ← nodeAt (← firstMember onto)
  let rc ← match composed (K.type n.file = .dir) (K.type m.file = .dir) source onto flag with
    | .error e => pure (some e)
    | .ok result => do
        locationRef result
        nsSetMount K i canon result
  locationRelease K source
  locationRelease K onto
  pure rc

def vfsBind (K : Kinds O) (fs : Fs O) (i : Nat) (newPath oldPath : CStr) (flag : BindFlag) :
    Act (State O) (Option Errno) := do
  match ← nsResolve K fs i newPath with
  | .error e => pure (some e)
  | .ok (source, _) =>
    match ← nsResolve K fs i oldPath with
    | .error e =>
      locationRelease K source
      pure (some e)
    | .ok (onto, canon) => bindLocations K i source onto canon flag

def vfsMount (K : Kinds O) (fs : Fs O) (i : Nat) (root : Nat) (oldPath : CStr) (flag : BindFlag) :
    Act (State O) (Option Errno) := do
  match ← nsResolve K fs i oldPath with
  | .error e => pure (some e)
  | .ok (onto, canon) =>
    vnodeRef root
    bindLocations K i [root] onto canon flag

def vfsUnbind (K : Kinds O) (i : Nat) (oldPath : CStr) : Act (State O) (Option Errno) :=
  match cleanPath oldPath with
  | .error e => pure (some e)
  | .ok canon => nsRemoveMount K i canon

end ManiOS.Vfs

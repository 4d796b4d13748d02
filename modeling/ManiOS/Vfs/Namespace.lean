import ManiOS.Lib.Act
import ManiOS.Vfs.Paths

/-!
# Namespaces

The code of `namespace.c`.  A vnode is known by its address, and so is what
`kmalloc` gives out: a namespace, an entry of a mount table, an open file.
A program goes wrong where it uses an address that nothing is at: a vnode that
was released, a mount that was freed.

`O` is the type of the files that vnodes stand for.  What a file system does is
not modelled here.  `Kinds` says what never changes about a file: its type, and
which operations of its vnode are not `NULL`.  `Fs` is what the operations
answer, and all that is known of them is what `vfs.h` asks for: `walk` and
`create` hand out one new reference, to a vnode that is there already for the
same file or to a new one, at an address where nothing was yet.

A session of the ZRP client has a reference on its channel, a vnode.  It gives it
back with `zrp_release` of its last vnode, inside of whatever call that is in.

The tables are singly linked lists of mounts.  A loop over one has a budget of
turns, and goes wrong when it is used up: that is a loop that never ends.
-/

namespace ManiOS.Vfs

open ManiOS.Lib

/-- `struct vnode`: the file it stands for, its references, and how many of them
sessions have. -/
structure Vnode (O : Type) where
  file : O
  refs : Nat
  lent : Nat
deriving DecidableEq

abbrev Nodes (O : Type) := Nat → Option (Vnode O)

/-- What does not change about a file, and which vnodes are the last of a session. -/
structure Kinds (O : Type) where
  type : O → VnodeType
  hasWalk : O → Bool
  hasWrite : O → Bool
  hasCreate : O → Bool
  hasTruncate : O → Bool
  hasRelease : O → Bool
  /-- The channel of the session that ends with the vnode at an address. -/
  channel : Nat → Option Nat

/-- The operations of the file systems.  `walk` and `create` are told an address
that nothing is at, and answer with a vnode and its file, or an error. -/
structure Fs (O : Type) where
  walk : Nodes O → Nat → Nat → CStr → Except Errno (Nat × O)
  create : Nodes O → Nat → Nat → CStr → VnodeType → Except Errno (Nat × O)
  truncate : Nodes O → Nat → Nat → Option Errno
  walk_issues : ∀ t a v name w o, walk t a v name = .ok (w, o) →
    w = a ∨ ∃ n, t w = some n ∧ n.file = o
  create_issues : ∀ t a v name type w o, create t a v name type = .ok (w, o) →
    w = a ∨ ∃ n, t w = some n ∧ n.file = o

/-- `struct location`, without the labels: the members of a union in search
order. -/
abbrev Location := List Nat

/-- `struct mount`. -/
structure Mount where
  path : CStr
  loc : Location
  next : Option Nat
deriving DecidableEq

/-- `struct namespace`. -/
structure Namespace where
  refs : Nat
  root : Nat
  mounts : Option Nat
deriving DecidableEq

/-- `struct file`. -/
structure File where
  refs : Nat
  mode : UInt32
  name : CStr
  loc : Location
  offset : Nat
  /-- The union member being listed. -/
  member : Nat
  index : Nat
  /-- The number of that entry in the whole listing. -/
  entry : Nat
deriving DecidableEq

/-- The vnodes, what has been allocated, and what `kmalloc` will say. -/
structure State (O : Type) where
  node : Nodes O
  space : Nat → Option Namespace
  mount : Nat → Option Mount
  file : Nat → Option File
  brk : Nat
  /-- Whether the `kmalloc` at an address succeeds. -/
  mem : Nat → Bool
  /-- References held by other code: file systems, callers. -/
  own : Nat → Nat
  /-- History: the directories and names that `create` was called with and
  succeeded. -/
  made : List (O × CStr)

variable {O : Type}

def kmalloc : Act (State O) (Option Nat) := do
  let s ← Act.get
  Act.modify fun s => { s with brk := s.brk + 1 }
  pure (if s.mem s.brk then some s.brk else none)

/-! ## Vnodes -/

def nodeAt (v : Nat) : Act (State O) (Vnode O) := Act.gets fun s => s.node v

/-- A store to a vnode.  `none` frees it. -/
def setNode (v : Nat) (n : Option (Vnode O)) : Act (State O) Unit :=
  Act.modify fun s => { s with node := Function.update s.node v n }

def vnodeRef (v : Nat) : Act (State O) Unit := do
  let n ← nodeAt v
  setNode v (some { n with refs := n.refs + 1 })

variable (K : Kinds O)

/-- One reference less, with `lent` of those left to sessions.  The vnode is released with
the last one. -/
def lower (v : Nat) (n : Vnode O) (lent : Nat) : Act (State O) Unit :=
  setNode v (if n.refs = 1 ∧ K.hasRelease n.file then none
    else some { n with refs := n.refs - 1, lent })

/-- A session takes its reference on a channel. -/
def sessionRef (w : Nat) : Act (State O) Unit := do
  let n ← nodeAt w
  setNode w (some { n with refs := n.refs + 1, lent := n.lent + 1 })

/-- The channel of the session that ends with `v`, if it has a reference on one. -/
def channelAt (t : Nodes O) (v : Nat) : Option (Nat × Vnode O) := do
  let w ← K.channel v
  let n ← t w
  if n.lent = 0 then none else some (w, n)

/-- `session_unref`.  The channel is the end of a pipe, so that its release gives
nothing back. -/
def sessionUnref (v : Nat) : Act (State O) Unit := do
  match ← Act.gets fun s => some (channelAt K s.node v) with
  | none => pure ()
  | some (w, n) => lower K w n (n.lent - 1)

/-- `vnode_unref`.  A count below 0 is wrong. -/
def vnodeUnref (v : Nat) : Act (State O) Unit := do
  let n ← nodeAt v
  if n.refs = 0 then Act.wrong
  else
    lower K v n n.lent
    if n.refs = 1 ∧ K.hasRelease n.file then sessionUnref K v else pure ()

/-- A new reference to a vnode, as a file system hands it out. -/
def issue (w : Nat) (o : O) : Act (State O) Unit := do
  let s ← Act.get
  Act.modify fun s => { s with brk := s.brk + 1 }
  setNode w (some ⟨o, (s.node w).elim 0 Vnode.refs + 1, (s.node w).elim 0 Vnode.lent⟩)

def walk (fs : Fs O) (v : Nat) (name : CStr) : Act (State O) (Except Errno Nat) := do
  let s ← Act.get
  match fs.walk s.node s.brk v name with
  | .error e => pure (.error e)
  | .ok (w, o) =>
    issue w o
    pure (.ok w)

/-! ## Locations -/

/-- A reference for each member. -/
def locationRef : Location → Act (State O) Unit
  | [] => pure ()
  | v :: loc => do
      vnodeRef v
      locationRef loc

def locationCopy (src : Location) : Act (State O) Location := do
  locationRef src
  pure src

def locationRelease (K : Kinds O) : Location → Act (State O) Unit
  | [] => pure ()
  | v :: loc => do
      vnodeUnref K v
      locationRelease K loc

/-- The loop of `walk_location`, with the last error in `rc`. -/
def walkFrom (K : Kinds O) (fs : Fs O) (name : CStr) :
    Errno → Location → Act (State O) (Except Errno Nat)
  | rc, [] => pure (.error rc)
  | rc, v :: loc => do
      let n ← nodeAt v
      if K.type n.file ≠ .dir || !K.hasWalk n.file then walkFrom K fs name rc loc
      else
        match ← walk fs v name with
        | .ok w => pure (.ok w)
        | .error e => walkFrom K fs name e loc

def walkLocation (fs : Fs O) (loc : Location) (name : CStr) : Act (State O) (Except Errno Nat) :=
  walkFrom K fs name .enotdir loc

/-! ## Mount tables -/

variable (i : Nat)

def spaceAt : Act (State O) Namespace := Act.gets fun s => s.space i

def mountAt (p : Nat) : Act (State O) Mount := Act.gets fun s => s.mount p

def setSpace (n : Option Namespace) : Act (State O) Unit :=
  Act.modify fun s => { s with space := Function.update s.space i n }

def setMount (p : Nat) (m : Option Mount) : Act (State O) Unit :=
  Act.modify fun s => { s with mount := Function.update s.mount p m }

/-- The walk along the table from `cur` on, to the first mount that `stop`
holds of.  The mount before it comes with it: none at the head of the table. -/
def seekMount (stop : Mount → Bool) :
    Nat → Option Nat → Option Nat → Act (State O) (Option Nat × Option Nat)
  | _, prev, none => pure (prev, none)
  | 0, _, some _ => Act.wrong
  | left + 1, prev, some p => do
      let m ← mountAt p
      if stop m then pure (prev, some p) else seekMount stop left (some p) m.next

/-- The turns a walk along a table may take. -/
def budget : Act (State O) Nat := Act.gets fun s => some s.brk

def findMount (n : Namespace) (canon : CStr) : Act (State O) (Option Nat) := do
  let r ← seekMount (·.path = canon) (← budget) none n.mounts
  pure r.2

/-- A store to the link after `prev`: the head of the table, or the `next` of a
mount. -/
def storeLink (prev link : Option Nat) : Act (State O) Unit :=
  match prev with
  | none => do
      let n ← spaceAt i
      setSpace i (some { n with mounts := link })
  | some q => do
      let m ← mountAt q
      setMount q (some { m with next := link })

/-- `apply_mount`: what is mounted at `canon`, or else `loc`. -/
def applyMount (canon : CStr) (loc : Location) :
    Act (State O) Location := do
  let n ← spaceAt i
  match ← findMount n canon with
  | none => pure loc
  | some p =>
    let m ← mountAt p
    let new ← locationCopy m.loc
    locationRelease K loc
    pure new

def nsCreate (root : Nat) : Act (State O) (Option Nat) := do
  match ← kmalloc with
  | none => pure none
  | some i =>
    setSpace i (some ⟨1, root, none⟩)
    vnodeRef root
    pure (some i)

def nsRef : Act (State O) Unit := do
  let n ← spaceAt i
  setSpace i (some { n with refs := n.refs + 1 })

/-- The loop of `ns_unref` that frees the table. -/
def freeTable (K : Kinds O) (i : Nat) : Nat → Act (State O) Unit
  | 0 => do
      let n ← spaceAt i
      if n.mounts = none then pure () else Act.wrong
  | left + 1 => do
      let n ← spaceAt i
      match n.mounts with
      | none => pure ()
      | some p =>
        let m ← mountAt p
        setSpace i (some { n with mounts := m.next })
        locationRelease K m.loc
        setMount p none
        freeTable K i left

def nsUnref : Act (State O) Unit := do
  let n ← spaceAt i
  if n.refs = 0 then Act.wrong
  else
    setSpace i (some { n with refs := n.refs - 1 })
    if n.refs = 1 then
      freeTable K i (← budget)
      vnodeUnref K n.root
      setSpace i none
    else pure ()

/-- The loop of `ns_fork`: copies of the mounts from `cur` on, linked after
`tail` into the namespace `i`.  The answer is whether there was memory. -/
def copyTable (i : Nat) : Nat → Option Nat → Option Nat → Act (State O) Bool
  | _, _, none => pure true
  | 0, _, some _ => Act.wrong
  | left + 1, tail, some p => do
      let m ← mountAt p
      match ← kmalloc with
      | none => pure false
      | some c =>
        setMount c (some { m with next := none })
        let _ ← locationCopy m.loc
        storeLink i tail (some c)
        copyTable i left (some c) m.next

def nsFork (src : Nat) : Act (State O) (Option Nat) := do
  let n ← spaceAt src
  match ← nsCreate n.root with
  | none => pure none
  | some i =>
    let done ← copyTable i (← budget) none n.mounts
    if done then pure (some i)
    else
      nsUnref K i
      pure none

/-- `ns_set_mount`: takes over the references of `loc`. -/
def nsSetMount (canon : CStr) (loc : Location) :
    Act (State O) (Option Errno) := do
  let n ← spaceAt i
  match ← findMount n canon with
  | some p =>
    let m ← mountAt p
    setMount p (some { m with loc := loc })
    locationRelease K m.loc
    pure none
  | none =>
    match ← kmalloc with
    | none =>
      locationRelease K loc
      pure (some .enomem)
    | some p =>
      let r ← seekMount (fun _ => false) (← budget) none n.mounts
      setMount p (some ⟨canon, loc, none⟩)
      storeLink i r.1 (some p)
      pure none

def nsRemoveMount (canon : CStr) : Act (State O) (Option Errno) := do
  let n ← spaceAt i
  let r ← seekMount (·.path = canon) (← budget) none n.mounts
  match r.2 with
  | none => pure (some .enoent)
  | some p =>
    let m ← mountAt p
    storeLink i r.1 m.next
    locationRelease K m.loc
    setMount p none
    pure none

/-! ## Resolution -/

/-- The loop of `ns_resolve`, with `p` of the cleaned path left and `pre` of it
walked. -/
def resolveFrom (K : Kinds O) (fs : Fs O) (i : Nat) :
    Nat → CStr → CStr → Location → Act (State O) (Except Errno Location)
  | 0, p, _, loc => if p = [] then pure (.ok loc) else Act.wrong
  | left + 1, p, pre, loc =>
    if p = [] then pure (.ok loc)
    else do
      let name := p.takeWhile (· ≠ 47)
      let r ← walkLocation K fs loc name
      locationRelease K loc
      match r with
      | .error e => pure (.error e)
      | .ok next =>
        let loc ← applyMount K i (pre ++ 47 :: name) [next]
        resolveFrom K fs i left ((p.dropWhile (· ≠ 47)).drop 1) (pre ++ 47 :: name) loc

/-- `ns_resolve`: the location, and the cleaned path. -/
def nsResolve (fs : Fs O) (i : Nat) (path : CStr) :
    Act (State O) (Except Errno (Location × CStr)) := do
  match cleanPath path with
  | .error e => pure (.error e)
  | .ok clean =>
    let n ← spaceAt i
    vnodeRef n.root
    let loc ← applyMount K i [47] [n.root]
    match ← resolveFrom K fs i clean.length (clean.drop 1) [] loc with
    | .error e => pure (.error e)
    | .ok loc => pure (.ok (loc, clean))

end ManiOS.Vfs

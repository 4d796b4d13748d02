import ManiOS.Dos.Services

/-!
# DOS programs and EXEC

A DOS program can start another one (`AH=4Bh`), which ends and gives the processor back
to it.  `dosrun` keeps what belongs to the program that waits in a `struct dos_parent`.

A state of the machine is the guest's memory, the program that runs and the programs that
wait, the last one first.  The steps are the services that matter for the memory blocks
and for the tables of a program.  Everything else that a program does is a byte that it
writes (`poke`) or a change of what is its own (`own`).  The bytes that EXEC itself puts
in the two new blocks are such writes too.
-/

namespace ManiOS.Dos

open Function (update)

/-! ## Programs -/

/-- The registers of `struct cpu`, in the order of its arrays: `AX`, `CX`, `DX`, `BX`, `SP`, …
and `ES`, `CS`, `SS`, `DS`. -/
structure Cpu where
  r : List Nat
  rHi : List Nat
  sreg : List Nat
  ip : Nat
  flags : Nat
  flagsHi : Nat
  exitCode : Nat
deriving DecidableEq, Repr

namespace Cpu

def ax (c : Cpu) : Nat := c.r.getD 0 0

def cx (c : Cpu) : Nat := c.r.getD 1 0

def bx (c : Cpu) : Nat := c.r.getD 3 0

def sp (c : Cpu) : Nat := c.r.getD 4 0

def es (c : Cpu) : Nat := c.sreg.getD 0 0

def cs (c : Cpu) : Nat := c.sreg.getD 1 0

def ss (c : Cpu) : Nat := c.sreg.getD 2 0

def setAx (v : Nat) (c : Cpu) : Cpu := { c with r := c.r.set 0 v }

def setBx (v : Nat) (c : Cpu) : Cpu := { c with r := c.r.set 3 v }

/-- `set_cf`; the carry is bit 0 of the flags. -/
def setCf (on : Bool) (c : Cpu) : Cpu := { c with flags := c.flags / 2 * 2 + on.toNat }

end Cpu

/-- `struct dos_find`: a search that is under way.  `dir` is 0 for `NULL`. -/
structure Find where
  dir : Nat
  seg : Nat
  off : Nat
  attr : Nat
  root : String
  pattern : String
deriving DecidableEq, Repr

/-- An unused entry of the table of searches. -/
def Find.unused : Find := ⟨0, 0, 0, 0, "", ""⟩

/-- What belongs to one program: the fields of `struct dos_parent`. -/
structure Process where
  cpu : Cpu
  psp : Nat
  prog : Nat
  dtaSeg : Nat
  dta : Nat
  handles : List Int
  privateHandles : List Nat
  handleDrive : List Nat
  fcb : List Int
  find : List Find
deriving DecidableEq, Repr

/-- `HANDLES`. -/
def handleCount : Nat := 20

def pspDta : Nat := 0x80

def pspInt22 : Nat := 0x0A

/-- The guest and the programs that `dosrun` has in it; `drive` is the current drive. -/
structure Machine where
  mem : Mem
  arenaSeg : Nat
  proc : Process
  parents : List Process
  childStatus : Nat
  drive : Nat

namespace Machine

def arena (s : Machine) : Arena := ⟨s.mem, s.arenaSeg, s.proc.psp⟩

def regs (s : Machine) : Regs :=
  ⟨s.proc.cpu.ax, s.proc.cpu.bx, s.proc.cpu.es, s.proc.cpu.flags % 2 = 1⟩

/-- A service leaves an error number in `AX`, and the carry. -/
def fail (error : Nat) (s : Machine) : Machine :=
  { s with proc := { s.proc with cpu := (s.proc.cpu.setAx error).setCf true } }

def memory (ah : Nat) (s : Machine) : Option Machine :=
  (dosMemory ah s.regs s.arena).map fun (r, mem) =>
    { s with
      mem
      proc := { s.proc with cpu := ((s.proc.cpu.setAx r.ax).setBx r.bx).setCf r.cf } }

/-! ## EXEC -/

/-- What EXEC finds outside of the arena. -/
structure Request where
  /-- The error of the checks before anything is allocated, or 0. -/
  error : Nat
  /-- What `dup` gives for each handle. -/
  dups : List Int
  /-- The size of the environment, in paragraphs. -/
  envParas : Nat
  /-- What the program's header asks for, in paragraphs. -/
  minimum : Nat
  maximum : Nat
  /-- The error of `load_program_at`, or 0. -/
  loadError : Nat
  /-- The registers that the new program starts with. -/
  entry : Cpu

/-- The handles of the new program: copies of those that are open and not private. -/
def inherited (dups : List Int) (p : Process) : Option (List Int) :=
  (List.range handleCount).mapM fun i =>
    if p.handles.getD i (-1) < 0 ∨ p.privateHandles.getD i 0 ≠ 0 then some (-1)
    else if dups.getD i (-1) < 0 then none
    else some (dups.getD i (-1))

/-- The end of EXEC after an error. -/
def rollback (error : Nat) (mem : Mem) (s : Machine) : Option (Bool × Machine) :=
  (execRelease 0xFFFF { s.arena with mem }).map fun mem => (false, fail error { s with mem })

/-- The new program takes its blocks, and the old one waits. -/
def enter (entry : Cpu) (handles : List Int) (childEnv child : Nat) (mem : Mem) (s : Machine) :
    Machine :=
  { s with
    mem := wr16 (childEnv - 1) 1 child (wr16 (child - 1) 1 child mem)
    parents := s.proc :: s.parents
    proc := {
      cpu := entry
      psp := child
      prog := u16 (child + 0x10)
      dtaSeg := child
      dta := pspDta
      handles
      privateHandles := List.replicate handleCount 0
      handleDrive := s.proc.handleDrive
      fcb := List.replicate 16 (-1)
      find := List.replicate 8 Find.unused } }

/-- EXEC up to the frame, and whether there is a new program. -/
def launch (q : Request) (s : Machine) : Option (Bool × Machine) :=
  if q.error ≠ 0 then some (false, s.fail q.error)
  else
    match inherited q.dups s.proc with
    | none => s.rollback 4 s.mem
    | some handles =>
      (execAlloc q.envParas q.envParas s.arena).bind fun (childEnv, mem) =>
        if childEnv = 0 then s.rollback 8 mem
        else
          (execAlloc q.minimum q.maximum { s.arena with mem }).bind fun (child, mem) =>
            if child = 0 then s.rollback 8 mem
            else if q.loadError ≠ 0 then s.rollback q.loadError mem
            else some (true, s.enter q.entry handles childEnv child mem)

def push16 (v : Nat) (s : Machine) : Machine :=
  let sp := u16 (s.proc.cpu.sp + 65534)
  { s with
    mem := wr16 s.proc.cpu.ss sp v s.mem
    proc := { s.proc with cpu := { s.proc.cpu with r := s.proc.cpu.r.set 4 sp } } }

/-- The frame on the new program's stack that the service returns with. -/
def pushFrame (s : Machine) : Machine :=
  ((s.push16 s.proc.cpu.flags).push16 s.proc.cpu.cs).push16 s.proc.cpu.ip

def exec (q : Request) (s : Machine) : Option Machine :=
  (s.launch q).map fun (ok, s) => if ok then s.pushFrame else s

/-- The vectors 22h to 24h, from the copies in a PSP. -/
def restoreVectors (psp : Nat) (mem : Mem) : Mem :=
  [0, 1, 2].foldl (fun mem i =>
    let mem := wr16 0 ((0x22 + i) * 4) (rd16 psp (pspInt22 + i * 4) mem) mem
    wr16 0 ((0x22 + i) * 4 + 2) (rd16 psp (pspInt22 + i * 4 + 2) mem) mem) mem

/-- `exec_return`: the program that waits goes on.  The drives of the handles are not among
the fields that it gets back. -/
def execReturn (s : Machine) : Option Machine :=
  match s.parents with
  | [] => none
  | p :: parents =>
    let mem := restoreVectors s.proc.psp s.mem
    (execRelease s.proc.psp { s.arena with mem }).map fun mem =>
      { s with
        mem
        parents
        childStatus := s.proc.cpu.exitCode
        proc := { p with
          handleDrive := s.proc.handleDrive
          cpu := { p.cpu with exitCode := 0 }.setCf false } }

/-! ## Handles -/

/-- The drive of the path at `seg:off`: its letter, or the current drive. -/
def pathDrive (seg off : Nat) (s : Machine) : Nat :=
  let ch := (rd8 seg off s.mem).toNat
  let letter := if 0x61 ≤ ch then ch - 0x61 else ch - 0x41
  if (0x41 ≤ ch ∧ ch ≤ 0x5A ∨ 0x61 ≤ ch ∧ ch ≤ 0x7A) ∧ rd8 seg (u16 (off + 1)) s.mem = 0x3a then
    letter
  else s.drive % 256

def freeHandle (p : Process) : Option Nat := p.handles.findIdx? (· < 0)

def handleAlloc (fd : Int) (seg off : Nat) (s : Machine) : Machine :=
  match freeHandle s.proc with
  | none => s
  | some i =>
    { s with proc := { s.proc with
      handles := s.proc.handles.set i fd
      privateHandles := s.proc.privateHandles.set i 0
      handleDrive := s.proc.handleDrive.set i (pathDrive seg off s) } }

/-- The handle that `AH=45h` or `AH=46h` makes a copy. -/
def dupTarget (ah : Nat) (p : Process) : Nat :=
  if ah = 0x46 then p.cpu.cx else (freeHandle p).getD handleCount

/-- `AH=45h` and `AH=46h`; `fd` is what `dup` gives. -/
def dupHandle (ah : Nat) (fd : Int) (s : Machine) : Machine :=
  let p := s.proc
  let bx := p.cpu.bx
  let target := dupTarget ah p
  if handleCount ≤ bx ∨ p.handles.getD bx (-1) < 0 then s.fail 6
  else if handleCount ≤ target then s.fail (if ah = 0x46 then 6 else 4)
  else if target = bx then { s with proc := { p with cpu := (p.cpu.setAx target).setCf false } }
  else if fd < 0 then s.fail 4
  else
    { s with proc := { p with
      handles := p.handles.set target fd
      privateHandles := p.privateHandles.set target (p.privateHandles.getD bx 0)
      handleDrive := p.handleDrive.set target (p.handleDrive.getD bx 0)
      cpu := (p.cpu.setAx target).setCf false } }

/-! ## Steps -/

inductive Action where
  | memory (ah : Nat)
  | exec (q : Request)
  | ret
  | handleAlloc (fd : Int) (seg off : Nat)
  | dupHandle (ah : Nat) (fd : Int)
  | poke (x : Nat) (v : UInt8)
  /-- The program changes its registers, its handles (but by the two services above), its
  searches, its FCBs or its transfer area. -/
  | own (p : Process)
  | setDrive (drive : Nat)
  /-- `AH=4Dh`. -/
  | status

def step (s : Machine) : Action → Option Machine
  | .memory ah => s.memory ah
  | .exec q => s.exec q
  | .ret => s.execReturn
  | .handleAlloc fd seg off => some (s.handleAlloc fd seg off)
  | .dupHandle ah fd => some (s.dupHandle ah fd)
  | .poke x v => some { s with mem := update s.mem x v }
  | .own p => some { s with proc := { p with
      psp := s.proc.psp
      prog := s.proc.prog
      handleDrive := s.proc.handleDrive } }
  | .setDrive drive => some { s with drive }
  | .status => some { s with
      childStatus := 0
      proc := { s.proc with cpu := s.proc.cpu.setAx s.childStatus } }

end Machine

end ManiOS.Dos

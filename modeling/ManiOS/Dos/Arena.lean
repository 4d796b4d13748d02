import Mathlib.Logic.Function.Basic
import ManiOS.Base

/-!
# The memory blocks of DOS

`dosrun` gives DOS programs the memory below segment A000h as a chain of blocks.  Each
block has a header of one paragraph before its data: a letter, `'M'` or `'Z'` for the
last block, the owner, which is 0 if the block is free, and the size in paragraphs
without the header.

The functions here work on the bytes of the guest's memory.  Loops have a bound on the
number of their rounds; `none` is a loop that does not end within it.
-/

namespace ManiOS.Dos

open Function (update)

/-! ## Guest memory -/

/-- The bytes of the guest's memory, by linear address. -/
abbrev Mem := Nat → UInt8

def memSize : Nat := 1048576

def u16 (x : Nat) : Nat := x % 65536

/-- `lin`, and the wrap-around of `mem_r8`. -/
def lin (seg off : Nat) : Nat := (seg * 16 + off) % memSize

def rd8 (seg off : Nat) (mem : Mem) : UInt8 := mem (lin seg off)

def rd16 (seg off : Nat) (mem : Mem) : Nat :=
  (mem (lin seg off)).toNat + 256 * (mem ((lin seg off + 1) % memSize)).toNat

def wr8 (seg off : Nat) (v : UInt8) (mem : Mem) : Mem := update mem (lin seg off) v

def wr16 (seg off v : Nat) (mem : Mem) : Mem :=
  update (update mem (lin seg off) (UInt8.ofNat v)) ((lin seg off + 1) % memSize)
    (UInt8.ofNat (v / 256))

/-! ## Block headers -/

/-- `'M'`. -/
def moreBlocks : UInt8 := 0x4d

/-- `'Z'`. -/
def lastBlock : UInt8 := 0x5a

/-- The segment where the arena ends. -/
def arenaEnd : Nat := 0xA000

def mcbValid (m : Nat) (mem : Mem) : Bool :=
  let type := rd8 m 0 mem
  let limit := m + 1 + rd16 m 3 mem
  decide ((type = moreBlocks ∨ type = lastBlock) ∧ limit ≤ arenaEnd ∧
    (type ≠ lastBlock ∨ limit = arenaEnd))

/-- `mcb_join`: the free blocks behind a block become part of it. -/
def mcbJoin : Nat → Nat → Mem → Option Mem
  | 0, _, _ => none
  | n + 1, m, mem =>
    if rd8 m 0 mem = moreBlocks then
      let next := u16 (m + 1 + rd16 m 3 mem)
      if mcbValid next mem = false ∨ rd16 next 1 mem ≠ 0 then some mem
      else
        let mem := wr16 m 3 (u16 (rd16 m 3 mem + 1 + rd16 next 3 mem)) mem
        mcbJoin n m (wr8 m 0 (rd8 next 0 mem) mem)
    else some mem

/-- `mcb_split`: a block becomes smaller, and what it loses a free block. -/
def mcbSplit (m wanted : Nat) (mem : Mem) : Option Mem :=
  let size := rd16 m 3 mem
  if size ≤ wanted then some mem
  else
    let next := u16 (m + 1 + wanted)
    let mem := wr8 next 0 (rd8 m 0 mem) mem
    let mem := wr16 next 1 0 mem
    let mem := wr16 next 3 (size - wanted - 1) mem
    let mem := wr8 m 0 moreBlocks mem
    let mem := wr16 m 3 wanted mem
    mcbJoin arenaEnd next mem

/-! ## The services -/

/-- The loop over the blocks that the services have in common.  At each block the body
gives the result of the service, or lets it go on. -/
def eachBlock {ρ σ : Type} (invalid : ρ) (done : σ → ρ)
    (body : Nat → σ → Mem → Option ((ρ ⊕ σ) × Mem)) : Nat → Nat → σ → Mem → Option (ρ × Mem)
  | 0, _, _, _ => none
  | n + 1, m, acc, mem =>
    if arenaEnd ≤ m then some (done acc, mem)
    else if mcbValid m mem = false then some (invalid, mem)
    else
      (body m acc mem).bind fun
        | (.inl r, mem) => some (r, mem)
        | (.inr acc, mem) =>
          if rd8 m 0 mem = lastBlock then some (done acc, mem)
          else eachBlock invalid done body n (m + 1 + rd16 m 3 mem) acc mem

/-- The registers that the memory services use. -/
structure Regs where
  ax : Nat
  bx : Nat
  es : Nat
  cf : Bool
deriving DecidableEq, Repr

/-- The variables of `struct dos_state` that say where the arena is and whose it is. -/
structure Arena where
  mem : Mem
  arenaSeg : Nat
  psp : Nat

/-- What `dos_memory` does at a block; `largest` is its variable of that name. -/
def memoryAt (ah : Nat) (r : Regs) (psp m largest : Nat) (mem : Mem) :
    Option ((Regs ⊕ Nat) × Mem) :=
  if ah = 0x48 ∧ rd16 m 1 mem = 0 then
    (mcbJoin arenaEnd m mem).bind fun mem =>
      let size := rd16 m 3 mem
      let largest := if largest < size then size else largest
      if r.bx ≠ 0 ∧ r.bx ≤ size then
        (mcbSplit m r.bx mem).map fun mem =>
          (.inl { r with ax := u16 (m + 1), cf := false }, wr16 m 1 psp mem)
      else some (.inr largest, mem)
  else if ah ≠ 0x48 ∧ m + 1 = r.es ∧ rd16 m 1 mem ≠ 0 then
    if ah = 0x49 then
      (mcbJoin arenaEnd m (wr16 m 1 0 mem)).map fun mem => (.inl { r with cf := false }, mem)
    else
      (mcbJoin arenaEnd m mem).bind fun mem =>
        let size := rd16 m 3 mem
        if size < r.bx then some (.inl { r with ax := 8, bx := size, cf := true }, mem)
        else
          (mcbSplit m r.bx mem).map fun mem =>
            (.inl { r with cf := false },
              -- the new end of the program, at `PSP_MEMSIZE`
              if m + 1 = psp then wr16 psp 2 (u16 (m + 1 + r.bx)) mem else mem)
  else some (.inr largest, mem)

/-- `dos_memory`: `INT 21h` with 48h, 49h or 4Ah in `AH`. -/
def dosMemory (ah : Nat) (r : Regs) (a : Arena) : Option (Regs × Mem) :=
  eachBlock { r with ax := 7, cf := true }
    (fun largest => { r with
      ax := if ah = 0x48 then 8 else 9
      bx := if ah = 0x48 then largest else r.bx
      cf := true })
    (memoryAt ah r a.psp) arenaEnd a.arenaSeg 0 a.mem

/-- `exec_alloc`: the segment of the new block, or 0. -/
def execAlloc (min max : Nat) (a : Arena) : Option (Nat × Mem) :=
  eachBlock 0 (fun _ => 0)
    (fun m (_ : Unit) mem =>
      if rd16 m 1 mem = 0 then
        (mcbJoin arenaEnd m mem).bind fun mem =>
          let size := rd16 m 3 mem
          if min ≤ size then
            (mcbSplit m (if size < max then size else max) mem).map fun mem =>
              (.inl (u16 (m + 1)), wr16 m 1 0xFFFF mem)
          else some (.inr (), mem)
      else some (.inr (), mem))
    arenaEnd a.arenaSeg () a.mem

/-- The first loop of `exec_release`: the blocks of an owner become free. -/
def releaseBlocks (owner : Nat) (a : Arena) : Option (Unit × Mem) :=
  eachBlock () (fun _ => ())
    (fun m (_ : Unit) mem =>
      some (.inr (), if rd16 m 1 mem = owner then wr16 m 1 0 mem else mem))
    arenaEnd a.arenaSeg () a.mem

/-- The second loop of `exec_release`: free blocks that are neighbours become one. -/
def joinBlocks (a : Arena) : Option (Unit × Mem) :=
  eachBlock () (fun _ => ())
    (fun m (_ : Unit) mem =>
      if rd16 m 1 mem = 0 then (mcbJoin arenaEnd m mem).map (.inr (), ·)
      else some (.inr (), mem))
    arenaEnd a.arenaSeg () a.mem

def execRelease (owner : Nat) (a : Arena) : Option Mem :=
  (releaseBlocks owner a).bind fun (_, mem) =>
    (joinBlocks { a with mem }).map fun (_, mem) => mem

/-- The part of `dos_build_psp` that makes the arena, for a program that ends at `limit`. -/
def buildArena (psp limit : Nat) (mem : Mem) : Mem :=
  let mem := wr8 (psp - 1) 0 (if limit < arenaEnd then moreBlocks else lastBlock) mem
  let mem := wr16 (psp - 1) 1 psp mem
  let mem := wr16 (psp - 1) 3 (limit - psp) mem
  if limit < arenaEnd then
    let mem := wr8 limit 0 lastBlock mem
    let mem := wr16 limit 1 0 mem
    wr16 limit 3 (arenaEnd - limit - 1) mem
  else mem

end ManiOS.Dos

import Mathlib.Data.BitVec

/-!
# The processor of `dosrun`

`src/userland/dosrun/cpu.c` interprets programs for real mode.  Here are its
registers, its megabyte of memory, its stack and its flags, and of the instructions
`ENTER`, which sets up a frame on the stack.

The manual's `ENTER` pushes the frame's own address for a level above 0 only, after one
enclosing frame less than the level.  The interpreter pushes it always, after as many as
the level.  So it never leaves the stack pointer where it should be (`enter_wrong`), but
the frame pointer is right and `LEAVE` takes the frame back (`leave_enter`).
-/

namespace ManiOS.Interp

open BitVec
open Function (update_of_ne update_self)

/-- What the instructions here read and write of `struct cpu`. -/
structure Cpu where
  r : Fin 8 → BitVec 16
  rHi : Fin 8 → BitVec 16
  sreg : Fin 4 → BitVec 16
  ip : BitVec 16
  flags : BitVec 16
  mem : BitVec 20 → BitVec 8

abbrev AL : Fin 8 := 0
abbrev AX : Fin 8 := 0
abbrev CX : Fin 8 := 1
abbrev SP : Fin 8 := 4
abbrev BP : Fin 8 := 5
abbrev SI : Fin 8 := 6
abbrev DI : Fin 8 := 7

abbrev ES : Fin 4 := 0
abbrev CS : Fin 4 := 1
abbrev SS : Fin 4 := 2
abbrev DS : Fin 4 := 3

/-! ## Memory and registers -/

variable (seg off : BitVec 16)

/-- The address that a segment and an offset name.  Memory has the low 20 bits of it. -/
def lin : BitVec 32 := seg.setWidth 32 <<< 4 + off.setWidth 32

namespace Cpu

variable (c : Cpu)

def memR8 (addr : BitVec 32) : BitVec 8 := c.mem (addr.setWidth 20)

def memR16 (addr : BitVec 32) : BitVec 16 :=
  let addr := addr.setWidth 20
  c.mem (addr + 1) ++ c.mem addr

def memW8 (addr : BitVec 32) (v : BitVec 8) : Cpu :=
  { c with mem := Function.update c.mem (addr.setWidth 20) v }

def memW16 (addr : BitVec 32) (v : BitVec 16) : Cpu :=
  let addr := addr.setWidth 20
  let mem := Function.update c.mem addr (v.setWidth 8)
  { c with mem := Function.update mem (addr + 1) ((v >>> 8).setWidth 8) }

def rd8 : BitVec 8 := c.memR8 (lin seg off)
def rd16 : BitVec 16 := c.memR16 (lin seg off)
def wr8 : BitVec 8 → Cpu := c.memW8 (lin seg off)
def wr16 : BitVec 16 → Cpu := c.memW16 (lin seg off)

def setReg (i : Fin 8) (v : BitVec 16) : Cpu := { c with r := Function.update c.r i v }

/-- The register that holds a half, and whether it is the upper one. -/
def get8 (reg : Fin 8) : BitVec 8 :=
  let v := c.r (reg &&& 3)
  if reg &&& 4 ≠ 0 then (v >>> 8).setWidth 8 else v.setWidth 8

def put8 (reg : Fin 8) (v : BitVec 8) : Cpu :=
  let r := c.r (reg &&& 3)
  c.setReg (reg &&& 3) (if reg &&& 4 ≠ 0 then r &&& 0x00FF ||| v.setWidth 16 <<< 8
    else r &&& 0xFF00 ||| v.setWidth 16)

@[simp] theorem setReg_self (i : Fin 8) (v : BitVec 16) : (c.setReg i v).r i = v :=
  update_self ..

theorem setReg_of_ne {i j : Fin 8} (h : j ≠ i) (v : BitVec 16) : (c.setReg i v).r j = c.r j :=
  update_of_ne h ..

def push16 (v : BitVec 16) : Cpu :=
  let c := c.setReg SP (c.r SP - 2)
  c.wr16 (c.sreg SS) (c.r SP) v

def pop16 : BitVec 16 × Cpu := (c.rd16 (c.sreg SS) (c.r SP), c.setReg SP (c.r SP + 2))

end Cpu

/-! ## Frames -/

/-- The body of the loop of `ENTER`: the next enclosing frame's address is pushed. -/
def Cpu.copyFrame (c : Cpu) : Cpu :=
  let c := c.setReg BP (c.r BP - 2)
  c.push16 (c.rd16 (c.sreg SS) (c.r BP))

/-- Opcode C8.  The size and the level are in the code behind it. -/
def enter (c : Cpu) : Cpu :=
  let size := c.rd16 (c.sreg CS) c.ip
  let level := c.rd8 (c.sreg CS) (c.ip + 2)
  let c := { c with ip := c.ip + 3 }
  let c := c.push16 (c.r BP)
  let frame := c.r SP
  let c := Cpu.copyFrame^[level.toNat] c
  let c := c.push16 frame
  let c := c.setReg BP frame
  c.setReg SP (c.r SP - size)

/-- `ENTER` as the manual has it. -/
def manualEnter (c : Cpu) : Cpu :=
  let size := c.rd16 (c.sreg CS) c.ip
  let level := (c.rd8 (c.sreg CS) (c.ip + 2)).toNat % 32
  let c := { c with ip := c.ip + 3 }
  let c := c.push16 (c.r BP)
  let frame := c.r SP
  let c := if 0 < level then (Cpu.copyFrame^[level - 1] c).push16 frame else c
  let c := c.setReg BP frame
  c.setReg SP (c.r SP - size)

/-- Opcode C9. -/
def leave (c : Cpu) : Cpu :=
  let c := c.setReg SP (c.r BP)
  let (v, c) := c.pop16
  c.setReg BP v

section Frames

variable (c : Cpu)

@[simp] theorem push16_sp (v : BitVec 16) : (c.push16 v).r SP = c.r SP - 2 :=
  c.setReg_self SP _

theorem copyFrames_sp (n : Nat) : (Cpu.copyFrame^[n] c).r SP = c.r SP - .ofNat 16 (2 * n) := by
  induction n with
  | zero => simp
  | succ n ih =>
    rw [Function.iterate_succ_apply', Cpu.copyFrame, push16_sp, Cpu.setReg_of_ne _ (by decide)]
    bv_omega

/-- After `ENTER` the stack pointer is never where it should be. -/
theorem enter_wrong : (enter c).r SP ≠ (manualEnter c).r SP := by
  simp only [enter, manualEnter, Cpu.setReg_self, Cpu.setReg_of_ne _ (show SP ≠ BP by decide)]
  split
  all_goals
    simp only [push16_sp, copyFrames_sp]
    bv_omega

/-- `ENTER 0, 0` on an empty stack: the manual's has pushed one word. -/
theorem enter_two_words : let c : Cpu := ⟨fun _ => 0, fun _ => 0, fun _ => 0, 0, 0, fun _ => 0⟩
    (enter c).r SP = 0xFFFC ∧ (manualEnter c).r SP = 0xFFFE := by
  decide

theorem push16_top (v : BitVec 16) : (c.push16 v).rd16 (c.sreg SS) (c.r SP - 2) = v := by
  simp only [Cpu.push16, Cpu.setReg, Cpu.wr16, Cpu.memW16, Cpu.rd16, Cpu.memR16,
    update_self]
  rw [update_of_ne (by bv_omega)]
  refine eq_of_getLsbD_eq fun i hi => ?_
  grind

/-- The words up to 512 bytes above the stack pointer stay. -/
theorem push16_above {off : BitVec 16} (v : BitVec 16) (h : off - c.r SP ≤ 512) :
    (c.push16 v).rd16 (c.sreg SS) off = c.rd16 (c.sreg SS) off := by
  simp only [Cpu.push16, Cpu.setReg, Cpu.wr16, Cpu.memW16, Cpu.rd16, Cpu.memR16, lin,
    update_self]
  rw [update_of_ne (by bv_omega), update_of_ne (by bv_omega),
    update_of_ne (by bv_omega), update_of_ne (by bv_omega)]

theorem copyFrames_above (n : Nat) (hn : n ≤ 255) : (Cpu.copyFrame^[n] c).sreg = c.sreg ∧
      (Cpu.copyFrame^[n] c).rd16 (c.sreg SS) (c.r SP) = c.rd16 (c.sreg SS) (c.r SP) := by
  induction n with
  | zero => exact ⟨rfl, rfl⟩
  | succ n ih =>
    obtain ⟨hs, hw⟩ := ih (by omega)
    have hsp := copyFrames_sp c n
    rw [Function.iterate_succ_apply']
    generalize .copyFrame^[n] c = c' at *
    have habove : c.r SP - (c'.setReg BP (c'.r BP - 2)).r SP ≤ 512 := by
      rw [Cpu.setReg_of_ne _ (by decide)]
      bv_omega
    refine ⟨hs, ?_⟩
    rw [← hs] at hw ⊢
    exact (push16_above _ _ habove).trans hw

theorem leave_sp : (leave c).r SP = c.r BP + 2 := by
  simp only [leave, Cpu.pop16, Cpu.setReg_of_ne _ (show SP ≠ BP by decide), Cpu.setReg_self]

/-- `LEAVE` takes back the frame that `ENTER` set up. -/
theorem leave_enter : (leave (enter c)).r SP = c.r SP ∧ (leave (enter c)).r BP = c.r BP := by
  rw [leave_sp]
  simp only [enter, Cpu.setReg_of_ne _ (show BP ≠ SP by decide), Cpu.setReg_self]
  generalize c.rd8 _ _ = level, c.rd16 _ _ = size
  have hsp := push16_sp { c with ip := c.ip + 3 } (c.r BP)
  have htop := push16_top { c with ip := c.ip + 3 } (c.r BP)
  rw [← hsp] at htop
  -- the frames copied lie below the old frame pointer
  have hss : (Cpu.push16 { c with ip := c.ip + 3 } (c.r BP)).sreg = c.sreg := rfl
  generalize Cpu.push16 { c with ip := c.ip + 3 } (c.r BP) = c1 at *
  obtain ⟨hs, hw⟩ := copyFrames_above c1 level.toNat (by omega)
  have hsp' := copyFrames_sp c1 level.toNat
  generalize .copyFrame^[level.toNat] c1 = c2 at *
  have hw' := push16_above c2 (c1.r SP) (show c1.r SP - c2.r SP ≤ 512 by rw [hsp']; bv_omega)
  rw [hs, hw, hss] at hw'
  refine ⟨by rw [hsp]; bv_omega, ?_⟩
  rw [← htop, ← hw', ← hss, ← hs]
  rfl

end Frames

end ManiOS.Interp

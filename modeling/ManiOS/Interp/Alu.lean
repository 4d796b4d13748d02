import ManiOS.Interp.Cpu

/-!
# The flags and the arithmetic unit

`alu8`, `alu16` and `alu32` are the arithmetic of the interpreter, with the flags that
it leaves.  `NEG` goes its own way for bytes and words and computes the carry and the
overflow without them.  It forgets the auxiliary carry, and so it is a subtraction from
zero only where that flag is already as the subtraction would leave it (`neg_eq_sub_iff`).
-/

namespace ManiOS.Interp

open BitVec

/-! ## The flags -/

inductive Flag
  | CF | PF | AF | ZF | SF | TF | IF | DF | OF
deriving DecidableEq

def Flag.bit : Flag → Nat
  | .CF => 0
  | .PF => 2
  | .AF => 4
  | .ZF => 6
  | .SF => 7
  | .TF => 8
  | .IF => 9
  | .DF => 10
  | .OF => 11

def Flag.mask (f : Flag) : BitVec 16 := twoPow 16 f.bit

theorem Flag.getLsbD_mask (f g : Flag) : f.mask.getLsbD g.bit = decide (g = f) := by
  cases f <;> cases g <;> rfl

theorem Flag.bit_lt (f : Flag) : f.bit < 16 := by cases f <;> decide

theorem test_bit {w : Nat} (x : BitVec w) (i : Nat) : (x &&& twoPow w i != 0) = x.getLsbD i := by
  rw [and_twoPow]
  by_cases h : i < w
  · have hne : twoPow w i ≠ 0#w := fun h0 => by simpa [h] using congrArg (getLsbD · i) h0
    cases hi : x.getLsbD i <;> simp [hne]
  · simp [getLsbD_of_ge x i (by omega)]

def parity (v : BitVec 8) : BitVec 16 :=
  let v := v ^^^ v >>> 4
  let v := v ^^^ v >>> 2
  let v := v ^^^ v >>> 1
  if v &&& 1 != 0 then 0 else Flag.PF.mask

/-- `cpu_set_flags`, on the flags alone. -/
def implied (value : BitVec 32) (bits : Nat) (flags : BitVec 16) : BitVec 16 :=
  let mask : BitVec 32 := if bits = 8 then 0xFF else if bits = 16 then 0xFFFF else 0xFFFFFFFF
  let sign : BitVec 32 := if bits = 8 then 0x80 else if bits = 16 then 0x8000 else 0x80000000
  let value := value &&& mask
  let flags := flags &&& ~~~(Flag.SF.mask ||| Flag.ZF.mask ||| Flag.PF.mask)
  let flags := if value = 0 then flags ||| Flag.ZF.mask else flags
  let flags := if value &&& sign != 0 then flags ||| Flag.SF.mask else flags
  flags ||| parity (value.setWidth 8)

/-- The flags that a value implies are set anew, and the others stay. -/
theorem getLsbD_implied (value : BitVec 32) (bits : Nat) (flags : BitVec 16) (f : Flag) :
    (implied value bits flags).getLsbD f.bit =
      if f = .SF ∨ f = .ZF ∨ f = .PF then (implied value bits 0).getLsbD f.bit
      else flags.getLsbD f.bit := by
  simp only [implied]
  generalize (if bits = 8 then 0x80 else _ : BitVec 32) = sign, value &&& _ = value
  have hparity : (parity (value.setWidth 8)).getLsbD f.bit = true → f = .PF := by
    simp only [parity]
    split
    · simp
    · simp [Flag.getLsbD_mask]
  split <;> split <;>
    simp only [getLsbD_or, getLsbD_and, getLsbD_not, f.bit_lt, Flag.getLsbD_mask] <;> grind

namespace Cpu

def flag (c : Cpu) (f : Flag) : Bool := c.flags &&& f.mask != 0

def setFlag (f : Flag) (c : Cpu) (on : Bool) : Cpu :=
  { c with flags := if on then c.flags ||| f.mask else c.flags &&& ~~~f.mask }

def setCf : Cpu → Bool → Cpu := setFlag .CF
def setOf : Cpu → Bool → Cpu := setFlag .OF
def setAf : Cpu → Bool → Cpu := setFlag .AF

def setFlags (c : Cpu) (value : BitVec 32) (bits : Nat) : Cpu :=
  { c with flags := implied value bits c.flags }

variable (c : Cpu) (f g : Flag)

theorem flag_eq : c.flag f = c.flags.getLsbD f.bit := test_bit _ _

@[simp] theorem flag_setFlag (on : Bool) :
    (setFlag f c on).flag g = if g = f then on else c.flag g := by
  simp only [flag_eq, setFlag]
  cases on with
  | false =>
    simp only [Bool.false_eq_true, if_false, getLsbD_and, getLsbD_not, g.bit_lt, f.getLsbD_mask]
    grind
  | true =>
    simp only [if_true, getLsbD_or, f.getLsbD_mask]
    grind

@[simp] theorem flag_setFlags (v : BitVec 32) (bits : Nat) : (c.setFlags v bits).flag f =
      if f = .SF ∨ f = .ZF ∨ f = .PF then (implied v bits 0).getLsbD f.bit else c.flag f := by
  simp only [flag_eq, setFlags]
  exact getLsbD_implied ..

end Cpu

/-! ## The arithmetic unit -/

inductive AluOp
  | ADD | OR | ADC | SBB | AND | SUB | XOR | CMP
deriving DecidableEq

/-- The widths of an operand. -/
inductive Width
  | byte | word | dword
deriving DecidableEq

def Width.bits : Width → Nat
  | .byte => 8
  | .word => 16
  | .dword => 32

/-- The flags of `alu16` and `alu8` for a sum `r`. -/
def added (most sign : BitVec 32) (c : Cpu) (a b r : BitVec 32) : Cpu :=
  ((c.setCf (most.ult r)).setOf ((a ^^^ r) &&& (b ^^^ r) &&& sign != 0)).setAf
    ((a ^^^ b ^^^ r) &&& 0x10 != 0)

/-- The flags for a difference. -/
def taken (sign : BitVec 32) (c : Cpu) (a b r : BitVec 32) : Cpu :=
  ((c.setCf (r.slt 0)).setOf ((a ^^^ b) &&& (a ^^^ r) &&& sign != 0)).setAf
    ((a ^^^ b ^^^ r) &&& 0x10 != 0)

/-- `alu16` and `alu8`, which differ in the largest value and in the sign bit. -/
def aluNarrow (most sign : BitVec 32) (w : Nat) (c : Cpu) (op : AluOp) (a b : BitVec w) :
    BitVec w × Cpu :=
  let a := a.setWidth 32
  let b := b.setWidth 32
  let cf : BitVec 32 := if c.flag .CF then 1 else 0
  let cleared := ((c.setCf false).setOf false).setAf false
  let (r, c) := match op with
    | .ADD => (a + b, added most sign c a b (a + b))
    | .OR => (a ||| b, cleared)
    | .ADC => (a + b + cf, added most sign c a b (a + b + cf))
    | .SBB => (a - b - cf, taken sign c a b (a - b - cf))
    | .AND => (a &&& b, cleared)
    | .SUB | .CMP => (a - b, taken sign c a b (a - b))
    | .XOR => (a ^^^ b, cleared)
  (r.setWidth w, c.setFlags r w)

def alu16 : Cpu → AluOp → BitVec 16 → BitVec 16 → BitVec 16 × Cpu := aluNarrow 0xFFFF 0x8000 16
def alu8 : Cpu → AluOp → BitVec 8 → BitVec 8 → BitVec 8 × Cpu := aluNarrow 0xFF 0x80 8

def alu32 (c : Cpu) (op : AluOp) (a b : BitVec 32) : BitVec 32 × Cpu :=
  let carry : BitVec 64 := if c.flag .CF then 1 else 0
  let (r, c) :=
    if op = .ADD ∨ op = .ADC then
      let wide : BitVec 64 := a.setWidth 64 + b.setWidth 64 + if op = .ADC then carry else 0
      let r := wide.setWidth 32
      (r, ((c.setCf ((0xFFFFFFFF : BitVec 64).ult wide)).setOf
        (~~~(a ^^^ b) &&& (a ^^^ r) &&& 0x80000000 != 0)).setAf ((a ^^^ b ^^^ r) &&& 0x10 != 0))
    else if op = .SUB ∨ op = .SBB ∨ op = .CMP then
      let wide : BitVec 64 := b.setWidth 64 + if op = .SBB then carry else 0
      let r := a - wide.setWidth 32
      (r, ((c.setCf ((a.setWidth 64).ult wide)).setOf
        ((a ^^^ b) &&& (a ^^^ r) &&& 0x80000000 != 0)).setAf ((a ^^^ b ^^^ r) &&& 0x10 != 0))
    else
      let r := if op = .AND then a &&& b else if op = .OR then a ||| b else a ^^^ b
      (r, ((c.setCf false).setOf false).setAf false)
  (r, c.setFlags r 32)

def alu : (w : Width) → Cpu → AluOp → BitVec w.bits → BitVec w.bits → BitVec w.bits × Cpu
  | .byte => alu8
  | .word => alu16
  | .dword => alu32

/-! ## NEG -/

/-- `NEG` of `cpu_step`, for bytes and words: the value stored, and the flags. -/
def negNarrow (least : BitVec w) (c : Cpu) (v : BitVec w) : BitVec w × Cpu :=
  let c := c.setCf (v != 0)
  let c := c.setOf (v == least)
  (0 - v, c.setFlags ((0 - v).setWidth 32) w)

/-- `NEG`: opcodes F6 and F7, the latter also in `op32`. -/
def neg : (w : Width) → Cpu → BitVec w.bits → BitVec w.bits × Cpu
  | .byte => negNarrow (0x80 : BitVec 8)
  | .word => negNarrow (0x8000 : BitVec 16)
  | .dword => fun c v => alu32 c .SUB 0 v

section Neg

variable {w : Nat} (hw : w = 8 ∨ w = 16)
include hw

theorem setFlags_congr {v v' : BitVec 32} (h : v.setWidth w = v'.setWidth w) (c : Cpu) :
    c.setFlags v w = c.setFlags v' w := by
  have hmask (v : BitVec 32) : v &&& .ofNat 32 (2 ^ w - 1) = (v.setWidth w).setWidth 32 := by
    apply eq_of_getLsbD_eq
    intro i hi
    simp only [getLsbD_and, getLsbD_ofNat, Nat.testBit_two_pow_sub_one, getLsbD_setWidth, hi,
      decide_true, Bool.true_and]
    exact Bool.and_comm ..
  rcases hw with rfl | rfl
  · simp_all [Cpu.setFlags, implied]
  · simp_all [Cpu.setFlags, implied]

theorem sub_zero_flags (x : BitVec w) : let r := (0#w).setWidth 32 - x.setWidth 32
    r.setWidth w = 0 - x ∧ r.slt 0 = (x != 0) ∧
      (((0#w).setWidth 32 ^^^ x.setWidth 32) &&& ((0#w).setWidth 32 ^^^ r) &&& twoPow 32 (w - 1) != 0) =
        (x == .ofNat w (2 ^ (w - 1))) ∧
      (((0#w).setWidth 32 ^^^ x.setWidth 32 ^^^ r) &&& 0x10 != 0) = (x.setWidth 4 != 0) := by
  have h10 : (0x10 : BitVec 32) = twoPow 32 4 := rfl
  have hbit (v : BitVec 32) (i : Nat) : v.getLsbD i = decide (v.toNat / 2 ^ i % 2 = 1) :=
    Nat.testBit_eq_decide_div_mod_eq
  refine ⟨?_, (slt_zero_eq_msb).trans ?_, ?_, ?_⟩
  · rcases hw with rfl | rfl <;> bv_omega
  · rw [msb_eq_decide, Bool.eq_iff_iff]
    rcases hw with rfl | rfl <;> simp <;> bv_omega
  · rw [test_bit, getLsbD_and, Bool.eq_iff_iff]
    simp only [hbit]
    rcases hw with rfl | rfl <;> simp <;> bv_omega
  · rw [h10, test_bit, getLsbD_xor, Bool.eq_iff_iff]
    simp only [hbit]
    rcases hw with rfl | rfl <;> simp <;> bv_omega

/-- For bytes and words only the auxiliary carry can differ. -/
theorem negNarrow_eq_iff (most : BitVec 32) (c : Cpu) (x : BitVec w) :
    let sub := aluNarrow most (twoPow 32 (w - 1)) w c .SUB 0#w x
    let neg := negNarrow (.ofNat w (2 ^ (w - 1))) c x
    (neg.1 = sub.1 ∧ ∀ f, neg.2.flag f = sub.2.flag f) ↔ c.flag .AF = (x.setWidth 4 != 0) := by
  obtain ⟨hr, hcf, hof, haf⟩ := sub_zero_flags hw x
  have hwide : ((0 - x).setWidth 32).setWidth w = 0 - x := by
    rcases hw with rfl | rfl <;> simp
  simp only [negNarrow, aluNarrow, taken, setFlags_congr hw (hwide.trans hr.symm), hr, hcf, hof,
    haf, true_and]
  have hkeep : ((c.setCf (x != 0)).setOf (x == .ofNat w (2 ^ (w - 1)))).flag .AF = c.flag .AF := by
    simp [Cpu.setCf, Cpu.setOf]
  rw [← hkeep]
  constructor
  · intro h
    simpa [Cpu.setAf] using h .AF
  · intro h f
    by_cases hf : f = .AF
    · subst hf
      simpa [Cpu.setAf] using h
    · simp [Cpu.setAf, hf]

end Neg

/-- `NEG` is a subtraction from zero exactly where a byte's or word's auxiliary carry is
already as that leaves it. -/
theorem neg_eq_sub_iff (w : Width) (c : Cpu) (x : BitVec w.bits) :
    ((neg w c x).1 = (alu w c .SUB 0 x).1 ∧
        ∀ f, (neg w c x).2.flag f = (alu w c .SUB 0 x).2.flag f) ↔
      w = .dword ∨ c.flag .AF = (x.setWidth 4 != 0) := by
  cases w with
  | byte =>
    simp only [reduceCtorEq, false_or]
    exact negNarrow_eq_iff (.inl rfl) 0xFF c x
  | word =>
    simp only [reduceCtorEq, false_or]
    exact negNarrow_eq_iff (.inr rfl) 0xFFFF c x
  | dword => exact ⟨fun _ => .inl rfl, fun _ => ⟨rfl, fun _ => rfl⟩⟩

/-- `NEG` of the byte 1, with the auxiliary carry clear, leaves it clear. -/
theorem neg_one_byte : let c : Cpu := ⟨fun _ => 0, fun _ => 0, fun _ => 0, 0, 0, fun _ => 0⟩
    (neg .byte c 1).2.flag .AF = false ∧ (alu .byte c .SUB 0 1).2.flag .AF = true := by
  decide

end ManiOS.Interp

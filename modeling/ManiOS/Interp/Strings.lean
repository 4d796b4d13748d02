import ManiOS.Interp.Alu

/-!
# String instructions

`do_string` and `string32` run a string instruction, with a loop if there is a repeat
prefix.  The loop steps by what the direction flag was at its start and counts in `CX`.

A repeated instruction is the single one and a decrement of `CX`, over and over, until
`CX` is 0 or the zero flag ends it (`string_repeats`): an element leaves `CX` and the
direction flag alone.
-/

namespace ManiOS.Interp

open BitVec

inductive StringOp
  | MOVS | CMPS | STOS | LODS | SCAS
deriving DecidableEq

/-- The prefixes F2 and F3. -/
inductive Rep
  | REPNE | REPE
deriving DecidableEq

variable (op : StringOp)

def StringOp.compares : Bool := op = .CMPS ∨ op = .SCAS

namespace Cpu

variable (c : Cpu)

def read32 (seg off : BitVec 16) : BitVec 32 :=
  (c.memR16 (lin seg off)).setWidth 32 ||| (c.memR16 (lin seg off + 2)).setWidth 32 <<< 16

def write32 (seg off : BitVec 16) (v : BitVec 32) : Cpu :=
  (c.memW16 (lin seg off) (v.setWidth 16)).memW16 (lin seg off + 2) ((v >>> 16).setWidth 16)

def reg32 (reg : Fin 8) : BitVec 32 := (c.r reg).setWidth 32 ||| (c.rHi reg).setWidth 32 <<< 16

def putReg32 (reg : Fin 8) (value : BitVec 32) : Cpu :=
  let c := c.setReg reg (value.setWidth 16)
  { c with rHi := Function.update c.rHi reg ((value >>> 16).setWidth 16) }

/-- `SI` or `DI` moved to the next element. -/
def advance (i : Fin 8) (delta : BitVec 16) : Cpu := c.setReg i (c.r i + delta)

/-- The body of the loop of `do_string`, for bytes or words. -/
def stringElem (wide : Bool) (delta source : BitVec 16) : Cpu :=
  match op with
  | .MOVS =>
    let c := if wide then c.wr16 (c.sreg ES) (c.r DI) (c.rd16 source (c.r SI))
      else c.wr8 (c.sreg ES) (c.r DI) (c.rd8 source (c.r SI))
    (c.advance SI delta).advance DI delta
  | .CMPS =>
    let c := if wide then (alu16 c .CMP (c.rd16 source (c.r SI)) (c.rd16 (c.sreg ES) (c.r DI))).2
      else (alu8 c .CMP (c.rd8 source (c.r SI)) (c.rd8 (c.sreg ES) (c.r DI))).2
    (c.advance SI delta).advance DI delta
  | .STOS =>
    let c := if wide then c.wr16 (c.sreg ES) (c.r DI) (c.r AX)
      else c.wr8 (c.sreg ES) (c.r DI) (c.get8 AL)
    c.advance DI delta
  | .LODS =>
    let c := if wide then c.setReg AX (c.rd16 source (c.r SI)) else c.put8 AL (c.rd8 source (c.r SI))
    c.advance SI delta
  | .SCAS =>
    let c := if wide then (alu16 c .CMP (c.r AX) (c.rd16 (c.sreg ES) (c.r DI))).2
      else (alu8 c .CMP (c.get8 AL) (c.rd8 (c.sreg ES) (c.r DI))).2
    c.advance DI delta

/-- The body of the loop of `string32`, where it does not fault. -/
def stringElem32 (delta : BitVec 16) (override : Option (BitVec 16)) : Cpu :=
  let value := if op = .STOS then c.reg32 AX else c.read32 (override.getD (c.sreg DS)) (c.r SI)
  let c := if op = .LODS then c.putReg32 AX value else c.write32 (c.sreg ES) (c.r DI) value
  let c := if op ≠ .STOS then c.advance SI delta else c
  if op ≠ .LODS then c.advance DI delta else c

/-- An element of `string32` that reaches over the end of its segment. -/
def faults32 : Bool :=
  (op = .MOVS ∨ op = .LODS) ∧ 0xFFFC < c.r SI ∨ (op = .MOVS ∨ op = .STOS) ∧ 0xFFFC < c.r DI

def countDown : Cpu := c.setReg CX (c.r CX - 1)

/-- The zero flag ends a comparison that is repeated. -/
def stops (rep : Rep) : Bool := op.compares && c.flag .ZF != (rep == .REPE)

/-- What an element leaves as it is. -/
structure Keeps (c d : Cpu) : Prop where
  cx : d.r CX = c.r CX
  df : d.flag .DF = c.flag .DF

variable {c d : Cpu} {op : StringOp}

theorem Keeps.refl : c.Keeps c := ⟨rfl, rfl⟩

theorem Keeps.mem (h : c.Keeps d) (m : BitVec 20 → BitVec 8) : c.Keeps { d with mem := m } :=
  ⟨h.cx, h.df⟩

theorem Keeps.setReg (h : c.Keeps d) {i : Fin 8} (hi : CX ≠ i) (v : BitVec 16) :
    c.Keeps (d.setReg i v) :=
  ⟨(d.setReg_of_ne hi _).trans h.cx, h.df⟩

theorem keeps_alu8 (a b : BitVec 8) : c.Keeps (alu8 c .CMP a b).2 :=
  ⟨rfl, by simp [alu8, aluNarrow, taken, setCf, setOf, setAf]⟩

theorem keeps_alu16 (a b : BitVec 16) : c.Keeps (alu16 c .CMP a b).2 :=
  ⟨rfl, by simp [alu16, aluNarrow, taken, setCf, setOf, setAf]⟩

theorem keeps_stringElem (wide : Bool) (delta source : BitVec 16) :
    c.Keeps (c.stringElem op wide delta source) := by
  have hax : CX ≠ AX := by decide
  have hsi : CX ≠ SI := by decide
  have hdi : CX ≠ DI := by decide
  cases op with
  | MOVS => cases wide <;> exact ((Keeps.refl.mem _).setReg hsi _).setReg hdi _
  | CMPS =>
    cases wide
    · exact ((keeps_alu8 ..).setReg hsi _).setReg hdi _
    · exact ((keeps_alu16 ..).setReg hsi _).setReg hdi _
  | STOS => cases wide <;> exact (Keeps.refl.mem _).setReg hdi _
  | LODS => cases wide <;> exact (Keeps.refl.setReg hax _).setReg hsi _
  | SCAS =>
    cases wide
    · exact (keeps_alu8 ..).setReg hdi _
    · exact (keeps_alu16 ..).setReg hdi _

theorem keeps_stringElem32 (delta : BitVec 16) (override : Option (BitVec 16)) :
    c.Keeps (c.stringElem32 op delta override) := by
  have hax : CX ≠ AX := by decide
  have hsi : CX ≠ SI := by decide
  have hdi : CX ≠ DI := by decide
  cases op with
  | STOS => exact ((Keeps.refl.mem _).mem _).setReg hdi _
  | LODS =>
    have h (v : BitVec 32) : c.Keeps (c.putReg32 AX v) := ⟨c.setReg_of_ne hax (v.setWidth 16), rfl⟩
    exact (h _).setReg hsi _
  | _ => exact (((Keeps.refl.mem _).mem _).setReg hsi _).setReg hdi _

theorem Keeps.countDown_lt (h : c.Keeps d) (hne : d.countDown.r CX ≠ 0) :
    (d.countDown.r CX - 1).toNat < (c.r CX - 1).toNat := by
  rw [countDown, setReg_self, h.cx] at *
  bv_omega

end Cpu

/-- The loop of `do_string` with a prefix. -/
def stringLoop (op : StringOp) (wide : Bool) (delta source : BitVec 16) (rep : Rep) (c : Cpu) :
    Cpu :=
  let d := (c.stringElem op wide delta source).countDown
  if _h : d.r CX = 0 then d
  else if d.stops op rep then d
  else stringLoop op wide delta source rep d
termination_by (c.r CX - 1).toNat
decreasing_by exact (Cpu.keeps_stringElem ..).countDown_lt _h

def doString (c : Cpu) (op : StringOp) (wide : Bool) (rep : Option Rep) (source : BitVec 16) : Cpu :=
  let df : BitVec 16 := if c.flag .DF then -1 else 1
  let w : BitVec 16 := if wide then 2 else 1
  match rep with
  | none => c.stringElem op wide (df * w) source
  | some rep => if c.r CX = 0 then c else stringLoop op wide (df * w) source rep c

/-- The loop of `string32` with a prefix: whether it came to its end. -/
def stringLoop32 (op : StringOp) (delta : BitVec 16) (override : Option (BitVec 16)) (c : Cpu) :
    Bool × Cpu :=
  if c.faults32 op then (false, c)
  else
    let d := (c.stringElem32 op delta override).countDown
    if _h : d.r CX = 0 then (true, d) else stringLoop32 op delta override d
termination_by (c.r CX - 1).toNat
decreasing_by exact (Cpu.keeps_stringElem32 ..).countDown_lt _h

def string32 (c : Cpu) (op : StringOp) (rep : Option Rep) (override : Option (BitVec 16)) :
    Bool × Cpu :=
  let delta : BitVec 16 := if c.flag .DF then -4 else 4
  match rep with
  | none => if c.faults32 op then (false, c) else (true, c.stringElem32 op delta override)
  | some _ => if c.r CX = 0 then (true, c) else stringLoop32 op delta override c

/-! ## Repetition -/

/-- The single instruction and a decrement of `CX`, until `CX` is 0 or the flags end it. -/
inductive Repeats (single : Cpu → Cpu → Prop) (stops : Cpu → Bool) : Cpu → Cpu → Prop
  | none {c : Cpu} : c.r CX = 0 → Repeats single stops c c
  | last {c d : Cpu} : c.r CX ≠ 0 → single c d → stops d.countDown = true →
      Repeats single stops c d.countDown
  | more {c d e : Cpu} : c.r CX ≠ 0 → single c d → stops d.countDown = false →
      Repeats single stops d.countDown e → Repeats single stops c e

variable {op : StringOp} {c : Cpu}

theorem Repeats.finish {single : Cpu → Cpu → Prop} {stops : Cpu → Bool} {d : Cpu}
    (hc : c.r CX ≠ 0) (h : single c d) (hd : d.countDown.r CX = 0) :
    Repeats single stops c d.countDown := by
  cases hs : stops d.countDown with
  | false => exact .more hc h hs (.none hd)
  | true => exact .last hc h hs

theorem repeats_stringLoop {wide : Bool} {delta source : BitVec 16} {rep : Rep}
    (hdelta : (if c.flag .DF then -1 else 1) * (if wide then 2 else 1) = delta) (hc : c.r CX ≠ 0) :
    Repeats (doString · op wide none source = ·) (·.stops op rep) c
      (stringLoop op wide delta source rep c) := by
  have single {c : Cpu} (h : (if c.flag .DF then -1 else 1) * (if wide then 2 else 1) = delta) :
      doString c op wide none source = c.stringElem op wide delta source :=
    congrArg (c.stringElem op wide · source) h
  fun_induction stringLoop op wide delta source rep c with
  | case1 c d hzero => exact .finish hc (single hdelta) hzero
  | case2 c d hne hstops => exact .last hc (single hdelta) hstops
  | case3 c d hne hstops ih =>
    have hdf : d.flag .DF = c.flag .DF := (Cpu.keeps_stringElem ..).df
    exact .more hc (single hdelta) (Bool.eq_false_iff.mpr hstops) (ih (hdf ▸ hdelta) hne)

theorem repeats_stringLoop32 {delta : BitVec 16} {override : Option (BitVec 16)}
    (hdelta : (if c.flag .DF then -4 else 4) = delta) (hc : c.r CX ≠ 0)
    (h : (stringLoop32 op delta override c).1 = true) :
    Repeats (fun c d => string32 c op none override = (true, d)) (fun _ => false) c
      (stringLoop32 op delta override c).2 := by
  have single {c : Cpu} (h : (if c.flag .DF then -4 else 4) = delta) (hok : ¬c.faults32 op = true) :
      string32 c op none override = (true, c.stringElem32 op delta override) := by
    rw [← h]
    exact if_neg hok
  fun_induction stringLoop32 op delta override c with
  | case1 c hfault => cases h
  | case2 c hok d hzero => exact .finish hc (single hdelta hok) hzero
  | case3 c hok d hne ih =>
    have hdf : d.flag .DF = c.flag .DF := (Cpu.keeps_stringElem32 ..).df
    exact .more hc (single hdelta hok) rfl (ih (hdf ▸ hdelta) hne h)

/-- A string instruction with a repeat prefix is the single one repeated, for doublewords
if no element faults. -/
theorem string_repeats (c : Cpu) (op : StringOp) (rep : Rep) :
    (∀ wide source, Repeats (doString · op wide none source = ·) (·.stops op rep) c
      (doString c op wide (some rep) source)) ∧
    ∀ override, (string32 c op (some rep) override).1 = true →
      Repeats (fun c d => string32 c op none override = (true, d)) (fun _ => false) c
        (string32 c op (some rep) override).2 := by
  refine ⟨fun wide source => ?_, fun override h => ?_⟩
  · rw [doString]
    split
    next hc => exact .none hc
    next hc => exact repeats_stringLoop rfl hc
  · by_cases hc : c.r CX = 0
    · rw [string32, if_pos hc]
      exact .none hc
    · rw [string32, if_neg hc] at h ⊢
      exact repeats_stringLoop32 rfl hc h

end ManiOS.Interp

import Mathlib.Data.List.Range
import ManiOS.Dos.Arena
import ManiOS.Lib.Runs

/-!
# Extended memory

A DOS program can have blocks of memory outside of the first megabyte.  They are parts of
one pool, and the program has a number for each of them.  `xms_handle` has the place of a
block plus one, or 0 if the number is free, and `xms_len` its length.

New blocks go behind all others, so no two share a byte.  But a block that gets longer
stays where it is, whatever is behind it, and a move does not look at the length of a
block at all.
-/

namespace ManiOS.Dos

open Function (update update_self update_of_ne)

def xmsHandles : Nat := 32

def xmsBytes : Nat := 8 * 1024 * 1024

/-- The pool, by the variables that describe it. -/
structure Xms where
  handle : Nat → Nat
  len : Nat → Nat
  size : Nat

namespace Xms

/-- A block's number is in use. -/
def Live (x : Xms) (h : Nat) : Prop := h < xmsHandles ∧ x.handle h ≠ 0

instance (x : Xms) (h : Nat) : Decidable (x.Live h) := inferInstanceAs (Decidable (_ ∧ _))

/-- A byte of the pool is in a block. -/
def Has (x : Xms) (h a : Nat) : Prop := x.handle h - 1 ≤ a ∧ a < x.handle h - 1 + x.len h

instance (x : Xms) (h a : Nat) : Decidable (x.Has h a) := inferInstanceAs (Decidable (_ ∧ _))

/-! ## The services -/

/-- The numbers that the loops go through. -/
def numbers : List Nat := List.range' 1 31

/-- Both variables of a number are set. -/
def put (i handle len : Nat) (x : Xms) : Xms :=
  { x with handle := update x.handle i handle, len := update x.len i len }

def used (x : Xms) : Nat :=
  numbers.foldl (fun used j =>
    if x.handle j ≠ 0 ∧ used < u32 (x.handle j + x.len j) then u32 (x.handle j + x.len j)
    else used) 0

/-- `AH=09h`: `AX`, `DX` and the pool afterwards. -/
def allocate (dx : Nat) (x : Xms) : (Nat × Nat) × Xms :=
  let bytes := u16 dx * 1024
  match numbers.find? fun i => x.handle i = 0 with
  | none => ((0, 0), x)
  | some i =>
    if bytes = 0 ∨ x.size < u32 (x.used + bytes) then ((0, 0), x)
    else ((1, i), x.put i (u32 (x.used + 1)) bytes)

/-- `AH=0Ah`. -/
def free (dx : Nat) (x : Xms) : Nat × Xms :=
  if x.Live (u16 dx) then (1, x.put (u16 dx) 0 0) else (0, x)

/-- `AH=0Fh`. -/
def reallocate (dx bx : Nat) (x : Xms) : Nat × Xms :=
  let kb := u16 bx
  if x.Live (u16 dx) ∧ kb * 1024 ≤ x.size then
    (1, { x with len := update x.len (u16 dx) (kb * 1024) })
  else (0, x)

inductive Call where
  | allocate (dx : Nat)
  | free (dx : Nat)
  | reallocate (dx bx : Nat)

def run (x : Xms) : Call → Xms
  | .allocate dx => (x.allocate dx).2
  | .free dx => (x.free dx).2
  | .reallocate dx bx => (x.reallocate dx bx).2

/-- The pool at the start; `size` is 0 if there was no memory for it. -/
def Start (x : Xms) : Prop :=
  (∀ h, x.handle h = 0 ∧ x.len h = 0) ∧ (x.size = 0 ∨ x.size = xmsBytes)

/-! ## Blocks do not meet -/

/-- A block that gets longer gets no byte of another block, and none behind the pool. -/
def Grows (x : Xms) : Call → Prop
  | .reallocate dx bx => x.Live (u16 dx) → u16 bx * 1024 ≤ x.size →
      ∀ a, x.handle (u16 dx) - 1 + x.len (u16 dx) ≤ a →
        a < x.handle (u16 dx) - 1 + u16 bx * 1024 →
        a < x.size ∧ ∀ h, x.Live h → h ≠ u16 dx → ¬ x.Has h a
  | _ => True

def CallStep (c : Call) (x x' : Xms) : Prop := x.Grows c ∧ x' = x.run c

/-- What holds in a run. -/
structure Inv (x : Xms) : Prop where
  size : x.size ≤ xmsBytes
  zero : x.handle 0 = 0
  place : ∀ h, x.handle h ≤ x.size + 1
  len : ∀ h, x.len h ≤ x.size
  inside : ∀ h, x.Live h → ∀ a, x.Has h a → a < x.size
  apart : ∀ h k, x.Live h → x.Live k → h ≠ k → ∀ a, x.Has h a → ¬ x.Has k a

variable {x : Xms}

theorem Start.inv (h : Start x) : Inv x := by
  obtain ⟨hfree, hsize⟩ := h
  have hdead : ∀ h, ¬ x.Live h := fun h hl => hl.2 (hfree h).1
  refine ⟨?_, (hfree 0).1, fun h => ?_, fun h => ?_, fun h hl => absurd hl (hdead h),
    fun h _ hl => absurd hl (hdead h)⟩
  · rcases hsize with hsize | hsize
    · rw [hsize]
      exact Nat.zero_le _
    · exact le_of_eq hsize
  · rw [(hfree h).1]
    exact Nat.zero_le _
  · rw [(hfree h).2]
    exact Nat.zero_le _

theorem mem_numbers {i : Nat} : i ∈ numbers ↔ 1 ≤ i ∧ i < xmsHandles := by
  rw [numbers, List.mem_range'_1, xmsHandles]

theorem foldl_used_le (f : Nat → Nat) (p : Nat → Prop) [DecidablePred p] (l : List Nat)
    (acc b : Nat) : l.foldl (fun used j => if p j ∧ used < f j then f j else used) acc ≤ b ↔
      acc ≤ b ∧ ∀ j ∈ l, p j → f j ≤ b := by
  induction l generalizing acc with
  | nil => simp
  | cons i l ih =>
    rw [List.foldl_cons, ih, List.forall_mem_cons, ← and_assoc]
    refine and_congr_left fun _ => ?_
    split
    next hlt => exact ⟨fun h => ⟨le_trans (le_of_lt hlt.2) h, fun _ => h⟩, fun h => h.2 hlt.1⟩
    next hge =>
      exact ⟨fun h => ⟨h, fun hp => le_trans (not_lt.mp fun hlt => hge ⟨hp, hlt⟩) h⟩, And.left⟩

theorem Inv.sum (h : Inv x) (j : Nat) : u32 (x.handle j + x.len j) = x.handle j + x.len j ∧
      x.handle j + x.len j ≤ 2 * x.size + 1 := by
  have hsize := h.size
  have hplace := h.place j
  have hlen := h.len j
  rw [xmsBytes] at hsize
  exact ⟨u32_of_lt (by omega), by omega⟩

/-- New blocks are behind all others. -/
theorem Inv.le_used (h : Inv x) {j : Nat} (hj : x.Live j) : x.handle j + x.len j ≤ x.used := by
  have hne : j ≠ 0 := by
    rintro rfl
    exact hj.2 h.zero
  have hmem : j ∈ numbers := mem_numbers.mpr ⟨by omega, hj.1⟩
  have := ((foldl_used_le (fun j => u32 (x.handle j + x.len j)) (fun j => x.handle j ≠ 0) numbers
    0 x.used).mp le_rfl).2 j hmem hj.2
  rwa [(h.sum j).1] at this

theorem Inv.used_le (h : Inv x) : x.used ≤ 2 * x.size + 1 := by
  refine (foldl_used_le (fun j => u32 (x.handle j + x.len j)) (fun j => x.handle j ≠ 0) numbers
    0 _).mpr ⟨Nat.zero_le _, fun j _ _ => ?_⟩
  rw [(h.sum j).1]
  exact (h.sum j).2

@[simp] theorem put_handle (i handle len : Nat) : (x.put i handle len).handle i = handle :=
  update_self ..

@[simp] theorem put_len (i handle len : Nat) : (x.put i handle len).len i = len :=
  update_self ..

theorem put_handle_ne {i k : Nat} (hk : k ≠ i) (handle len : Nat) :
    (x.put i handle len).handle k = x.handle k :=
  update_of_ne hk ..

theorem put_len_ne {i k : Nat} (hk : k ≠ i) (handle len : Nat) :
    (x.put i handle len).len k = x.len k :=
  update_of_ne hk ..

theorem Inv.put (h : Inv x) {i handle len : Nat} (hzero : i = 0 → handle = 0)
    (hplace : handle ≤ x.size + 1) (hlen : len ≤ x.size)
    (hnew : handle ≠ 0 → ∀ a, handle - 1 ≤ a → a < handle - 1 + len →
      a < x.size ∧ ∀ k, x.Live k → k ≠ i → ¬ x.Has k a) : Inv (x.put i handle len) := by
  have hself : ∀ a, (x.put i handle len).Has i a ↔ handle - 1 ≤ a ∧ a < handle - 1 + len := by
    intro a
    simp only [Has, put_handle, put_len]
  have hlive : (x.put i handle len).Live i → handle ≠ 0 := by
    intro hl
    simpa only [put_handle] using hl.2
  have hother : ∀ k, k ≠ i → ((x.put i handle len).Live k ↔ x.Live k) ∧
      ∀ a, (x.put i handle len).Has k a ↔ x.Has k a := by
    intro k hk
    simp only [Live, Has, put_handle_ne hk, put_len_ne hk, true_and, implies_true]
  refine ⟨h.size, ?_, fun k => ?_, fun k => ?_, fun k hk a ha => ?_,
    fun j k hj hk hjk a ha hb => ?_⟩
  · by_cases hi : i = 0
    · rw [hi]
      exact hzero hi
    · rw [put_handle_ne (Ne.symm hi)]
      exact h.zero
  · by_cases hk : k = i
    · rw [hk, put_handle]
      exact hplace
    · rw [put_handle_ne hk]
      exact h.place k
  · by_cases hk : k = i
    · rw [hk, put_len]
      exact hlen
    · rw [put_len_ne hk]
      exact h.len k
  · by_cases hki : k = i
    · rw [hki] at hk ha
      obtain ⟨hlo, hhi⟩ := (hself a).mp ha
      exact (hnew (hlive hk) a hlo hhi).1
    · exact h.inside k ((hother k hki).1.mp hk) a (((hother k hki).2 a).mp ha)
  · by_cases hji : j = i
    · rw [hji] at hj ha hjk
      obtain ⟨hlo, hhi⟩ := (hself a).mp ha
      have hki := Ne.symm hjk
      exact (hnew (hlive hj) a hlo hhi).2 k ((hother k hki).1.mp hk) hki
        (((hother k hki).2 a).mp hb)
    · have hja := ((hother j hji).2 a).mp ha
      have hjl := (hother j hji).1.mp hj
      by_cases hki : k = i
      · rw [hki] at hk hb
        obtain ⟨hlo, hhi⟩ := (hself a).mp hb
        exact (hnew (hlive hk) a hlo hhi).2 j hjl hji hja
      · exact h.apart j k hjl ((hother k hki).1.mp hk) hjk a hja (((hother k hki).2 a).mp hb)

theorem Inv.allocate (h : Inv x) (dx : Nat) : Inv (x.allocate dx).2 := by
  have hsize := h.size
  have hused := h.used_le
  have hdx : u16 dx < 65536 := Nat.mod_lt _ (by decide)
  rw [xmsBytes] at hsize
  rw [Xms.allocate]
  split
  next => exact h
  next i hi =>
    split
    next => exact h
    next hfit =>
      rw [not_or, u32_of_lt (by omega)] at hfit
      obtain ⟨hi1, -⟩ := mem_numbers.mp (List.mem_of_find?_eq_some hi)
      rw [u32_of_lt (by omega)]
      refine h.put (fun h0 => by omega) (by omega) (by omega) fun _ a hlo hhi => ?_
      refine ⟨by omega, fun k hk _ hka => ?_⟩
      have hend := h.le_used hk
      have := hka.2
      omega

theorem Inv.free (h : Inv x) (dx : Nat) : Inv (x.free dx).2 := by
  rw [Xms.free]
  split
  next => exact h.put (fun _ => rfl) (Nat.zero_le _) (Nat.zero_le _) fun h0 => absurd rfl h0
  next => exact h

theorem Inv.reallocate (h : Inv x) {dx bx : Nat} (hg : x.Grows (.reallocate dx bx)) :
    Inv (x.reallocate dx bx).2 := by
  rw [Xms.reallocate]
  split
  next hok =>
    have hput : { x with len := update x.len (u16 dx) (u16 bx * 1024) } =
        x.put (u16 dx) (x.handle (u16 dx)) (u16 bx * 1024) := by
      rw [Xms.put, Function.update_eq_self]
    rw [hput]
    refine h.put (fun h0 => ?_) (h.place _) hok.2 fun _ a hlo hhi => ?_
    · rw [h0]
      exact h.zero
    · by_cases hin : a < x.handle (u16 dx) - 1 + x.len (u16 dx)
      · have hhas : x.Has (u16 dx) a := ⟨hlo, hin⟩
        exact ⟨h.inside _ hok.1 a hhas, fun k hk hne => h.apart _ k hok.1 hk hne.symm a hhas⟩
      · exact hg hok.1 hok.2 a (not_lt.mp hin) hhi
  next => exact h

/-- In every run in which no block grows into another, the blocks share no byte and are in
the pool. -/
theorem xms_run {x₀ x : Xms} (h₀ : Start x₀) (h : Lib.Reached CallStep x₀ x) :
    (∀ h k, x.Live h → x.Live k → h ≠ k → ∀ a, x.Has h a → ¬ x.Has k a) ∧
      ∀ h, x.Live h → ∀ a, x.Has h a → a < x.size := by
  have hinv : Inv x := by
    refine h.invariant h₀.inv ?_
    rintro c x x' hinv ⟨hg, rfl⟩
    cases c with
    | allocate dx => exact hinv.allocate dx
    | free dx => exact hinv.free dx
    | reallocate dx bx => exact hinv.reallocate hg
  exact ⟨hinv.apart, hinv.inside⟩

def boot : Xms := ⟨fun _ => 0, fun _ => 0, xmsBytes⟩

theorem boot_start : Start boot := ⟨fun _ => ⟨rfl, rfl⟩, .inr rfl⟩

/-- Two blocks of 64 KiB. -/
def twoBlocks : Xms := (boot.run (.allocate 64)).run (.allocate 64)

theorem xms_run_two :
    twoBlocks.Live 1 ∧ twoBlocks.Live 2 ∧ ∀ a, twoBlocks.Has 1 a → ¬ twoBlocks.Has 2 a := by
  have h : Lib.Reached CallStep boot twoBlocks :=
    (Lib.Reached.start.step (.allocate 64) ⟨trivial, rfl⟩).step (.allocate 64) ⟨trivial, rfl⟩
  refine ⟨by decide, by decide, (xms_run boot_start h).1 1 2 ?_ ?_ (by decide)⟩
  · decide
  · decide

/-- The first of two blocks gets twice as long, and both have the byte 70000. -/
theorem reallocate_overlaps :
    Start boot ∧ ∃ x, x = twoBlocks.run (.reallocate 1 128) ∧ (twoBlocks.reallocate 1 128).1 = 1 ∧
      x.Live 1 ∧ x.Live 2 ∧ x.Has 1 70000 ∧ x.Has 2 70000 := by
  refine ⟨boot_start, _, rfl, ?_⟩
  decide

/-! ## Moving -/

/-- The address space of `dosrun` itself. -/
structure Host where
  bytes : Int → UInt8
  /-- `c->mem`. -/
  guest : Int
  /-- `d->xms`. -/
  pool : Int
  /-- The words behind the table `xms_handle`. -/
  behind : Nat → Nat

/-- The fields of a move descriptor that the code reads, and `DX`. -/
structure Move where
  srcH : Nat
  srcOff : Nat
  srcSeg : Nat
  dstH : Nat
  dstOff : Nat
  dstSeg : Nat
  dx : Nat

def descriptor (ds si dx : Nat) (mem : Mem) : Move where
  srcH := rd16 ds (u16 (si + 4)) mem
  srcOff := rd16 ds (u16 (si + 6)) mem
  srcSeg := rd16 ds (u16 (si + 8)) mem
  dstH := rd16 ds (u16 (si + 10)) mem
  dstOff := rd16 ds (u16 (si + 12)) mem
  dstSeg := rd16 ds (u16 (si + 14)) mem
  dx := u16 dx

/-- The guest's memory, as a part of the address space. -/
def Host.mem (t : Host) : Mem := fun a => t.bytes (t.guest + a)

/-- `xms_handle[h]`, for any `h`. -/
def handleAt (t : Host) (x : Xms) (h : Nat) : Nat :=
  if h < xmsHandles then x.handle h else t.behind h

/-- The address that a handle, an offset and a segment stand for. -/
def pointer (t : Host) (x : Xms) (h off seg : Nat) : Int :=
  if h = 0 then t.guest + (seg * 16 + off : Nat) else t.pool + handleAt t x h - 1 + off

def memmove (dst src : Int) (n : Nat) (bytes : Int → UInt8) (a : Int) : UInt8 :=
  if dst ≤ a ∧ a < dst + n then bytes (src + (a - dst)) else bytes a

/-- The number of bytes that a move copies. -/
def Move.count (m : Move) : Nat := if 0x10000 < m.dx then 0x10000 else m.dx

/-- `AH=0Bh`: `AX`, `DX` and the address space afterwards. -/
def move (ds si dx : Nat) (x : Xms) (t : Host) : (Nat × Nat) × Host :=
  let m := descriptor ds si dx t.mem
  let src := pointer t x m.srcH m.srcOff m.srcSeg
  let dst := pointer t x m.dstH m.dstOff m.dstSeg
  ((1, m.count), { t with bytes := memmove dst src m.count t.bytes })

/-- The bytes that a handle names: those of a block that the pool has, or the guest's
memory. -/
def Names (t : Host) (x : Xms) (h : Nat) (a : Int) : Prop :=
  if h = 0 then t.guest ≤ a ∧ a < t.guest + memSize
  else x.Live h ∧ t.pool + x.handle h - 1 ≤ a ∧ a < t.pool + x.handle h - 1 + x.len h ∧
    a < t.pool + x.size

/-- The move looks at the table only for the numbers it has, reads only bytes that the source
names and writes only bytes that the destination names. -/
def Confined (t : Host) (x : Xms) (m : Move) : Prop :=
  (m.srcH < xmsHandles ∧ ∀ i < m.count, Names t x m.srcH (pointer t x m.srcH m.srcOff m.srcSeg + i)) ∧
    m.dstH < xmsHandles ∧ ∀ i < m.count, Names t x m.dstH (pointer t x m.dstH m.dstOff m.dstSeg + i)

/-- What a descriptor asks for is in the block that it names, and in the pool. -/
def InBlock (x : Xms) (h off seg n : Nat) : Prop :=
  h < xmsHandles ∧ (n = 0 ∨
    if h = 0 then seg * 16 + off + n ≤ memSize
    else x.handle h ≠ 0 ∧ off + n ≤ x.len h ∧ x.handle h - 1 + off + n ≤ x.size)

theorem inBlock_iff {t : Host} {h off seg n : Nat} : x.InBlock h off seg n ↔
    h < xmsHandles ∧ ∀ i < n, Names t x h (pointer t x h off seg + i) := by
  refine and_congr_right fun hlt => ?_
  rw [pointer, handleAt, if_pos hlt]
  unfold Names Live
  constructor
  · rintro (rfl | hb) i hi
    · omega
    · split <;> simp_all <;> omega
  · intro hall
    refine or_iff_not_imp_left.mpr fun hn => ?_
    -- the last byte
    have hlast := hall (n - 1) (by omega)
    split <;> simp_all <;> omega

/-- A move copies as many bytes as its descriptor says and reports success.  So it stays in the
blocks that the descriptor names, or fails and changes nothing, if and only if what the
descriptor asks for is in them. -/
theorem move_in_blocks (ds si dx : Nat) (x : Xms) (t : Host) :
    let m := descriptor ds si dx t.mem
    let src := pointer t x m.srcH m.srcOff m.srcSeg
    let dst := pointer t x m.dstH m.dstOff m.dstSeg
    (Confined t x m ∨ (move ds si dx x t).1.1 = 0 ∧ (move ds si dx x t).2 = t ↔
      x.InBlock m.srcH m.srcOff m.srcSeg m.count ∧ x.InBlock m.dstH m.dstOff m.dstSeg m.count) ∧
    (∀ i < m.count, (move ds si dx x t).2.bytes (dst + i) = t.bytes (src + i)) ∧
    ∀ a, (∀ i < m.count, a ≠ dst + i) → (move ds si dx x t).2.bytes a = t.bytes a := by
  intro m src dst
  have hbytes : (move ds si dx x t).2.bytes = memmove dst src m.count t.bytes := rfl
  refine ⟨?_, fun i hi => ?_, fun a ha => ?_⟩
  · rw [inBlock_iff (t := t), inBlock_iff (t := t)]
    exact or_iff_left fun hfail => absurd hfail.1 Nat.one_ne_zero
  · rw [hbytes, memmove, if_pos (by omega)]
    exact congrArg t.bytes (by omega)
  · rw [hbytes, memmove, if_neg]
    rintro ⟨hlo, hhi⟩
    exact ha (a - dst).toNat (by omega) (by omega)

/-- The pool is at 16 MiB and the guest's memory at 32 MiB.  There is a descriptor at 0:0,
from the start of the guest's memory to the start of block 1. -/
def bootHost : Host :=
  ⟨fun a => if a = 0x2000000 ∨ a = 0x200000A then 1 else 0, 0x2000000, 0x1000000, fun _ => 0⟩

/-- A byte is moved to a block that does not exist: it is written before the pool, and the
move reports success. -/
theorem move_before_pool : (move 0 0 1 boot bootHost).1 = (1, 1) ∧
      (∀ h, ¬ Names bootHost boot h (bootHost.pool - 1)) ∧
      (move 0 0 1 boot bootHost).2.bytes (bootHost.pool - 1) ≠
        bootHost.bytes (bootHost.pool - 1) := by
  refine ⟨rfl, fun h hn => ?_, by decide⟩
  rw [Names] at hn
  split at hn
  next => exact absurd hn.1 (by decide)
  next => exact hn.1.2 rfl

end Xms

end ManiOS.Dos

import Mathlib.Data.Nat.Bitwise

/-!
# Buffers of bytes

A buffer is what a C pointer to bytes shows: a byte at every offset.  How many
of them count is said beside it, as in C.  `memcpy` copies a range.  The
little-endian readers and writers come with the round trips that the on-disk
formats need.
-/

namespace ManiOS.Lib

/-- The bytes a pointer shows, by offset. -/
abbrev Buf := Nat → UInt8

/-- Copy `n` bytes of `src` from `srcAt` to `dst` at `dstAt`. -/
def memcpy (dst : Buf) (dstAt : Nat) (src : Buf) (srcAt n : Nat) : Buf := fun i =>
  if dstAt ≤ i ∧ i < dstAt + n then src (srcAt + (i - dstAt)) else dst i

variable (p : Buf)

/-- The buffer `p + k`. -/
def shift (k : Nat) : Buf := fun i => p (k + i)

theorem memcpy_inside {dst src : Buf} {dstAt srcAt n i : Nat} (h : dstAt ≤ i)
    (h' : i < dstAt + n) : memcpy dst dstAt src srcAt n i = src (srcAt + (i - dstAt)) :=
  if_pos ⟨h, h'⟩

theorem memcpy_outside {dst src : Buf} {dstAt srcAt n i : Nat}
    (h : i < dstAt ∨ dstAt + n ≤ i) : memcpy dst dstAt src srcAt n i = dst i :=
  if_neg (by omega)

def setByte (k : Nat) (b : UInt8) : Buf := fun i => if i = k then b else p i

@[simp] theorem setByte_self (k : Nat) (b : UInt8) : setByte p k b k = b := if_pos rfl

variable {k v : Nat}

theorem setByte_ne {p : Buf} {i : Nat} (b : UInt8) (h : i ≠ k) : setByte p k b i = p i := if_neg h

/-! ## Little-endian numbers -/

def le16 : Nat := (p 0).toNat ||| (p 1).toNat <<< 8

def le32 : Nat :=
  (p 0).toNat ||| (p 1).toNat <<< 8 ||| (p 2).toNat <<< 16 ||| (p 3).toNat <<< 24

def putLe16 (k v : Nat) : Buf :=
  setByte (setByte p k (UInt8.ofNat v)) (k + 1) (UInt8.ofNat (v >>> 8))

def putLe32 (k v : Nat) : Buf :=
  setByte (setByte (setByte (setByte p k (UInt8.ofNat v)) (k + 1) (UInt8.ofNat (v >>> 8)))
    (k + 2) (UInt8.ofNat (v >>> 16))) (k + 3) (UInt8.ofNat (v >>> 24))

theorem or_shiftLeft_eq_add {a b : Nat} (h : a < 2 ^ k) : a ||| b <<< k = a + 2 ^ k * b := by
  rw [Nat.or_comm, ← Nat.shiftLeft_add_eq_or_of_lt h, Nat.shiftLeft_eq, add_comm, mul_comm]

theorem le16_eq : le16 p = (p 0).toNat + 256 * (p 1).toNat :=
  or_shiftLeft_eq_add (p 0).toNat_lt

theorem le16_lt : le16 p < 65536 := by
  have h0 := (p 0).toNat_lt
  have h1 := (p 1).toNat_lt
  rw [le16_eq]
  omega

theorem le32_eq :
    le32 p = (p 0).toNat + 256 * (p 1).toNat + 65536 * (p 2).toNat + 16777216 * (p 3).toNat := by
  have h0 := (p 0).toNat_lt
  have h1 := (p 1).toNat_lt
  have h2 := (p 2).toNat_lt
  have e1 : (p 0).toNat ||| (p 1).toNat <<< 8 = (p 0).toNat + 2 ^ 8 * (p 1).toNat :=
    or_shiftLeft_eq_add h0
  unfold le32
  rw [or_shiftLeft_eq_add (k := 16) (by omega), or_shiftLeft_eq_add (k := 24) (by omega)]
  omega

theorem le32_lt : le32 p < 4294967296 := by
  have h0 := (p 0).toNat_lt
  have h1 := (p 1).toNat_lt
  have h2 := (p 2).toNat_lt
  have h3 := (p 3).toNat_lt
  rw [le32_eq]
  omega

theorem putLe16_outside {p : Buf} {i : Nat} (h : i < k ∨ k + 2 ≤ i) : putLe16 p k v i = p i := by
  unfold putLe16
  rw [setByte_ne _ (by omega), setByte_ne _ (by omega)]

theorem putLe32_outside {p : Buf} {i : Nat} (h : i < k ∨ k + 4 ≤ i) : putLe32 p k v i = p i := by
  unfold putLe32
  rw [setByte_ne _ (by omega), setByte_ne _ (by omega), setByte_ne _ (by omega),
    setByte_ne _ (by omega)]

theorem le16_putLe16 (k : Nat) (h : v < 65536) : le16 (shift (putLe16 p k v) k) = v := by
  rw [le16_eq]
  simp [shift, putLe16, setByte, Nat.shiftRight_eq_div_pow]
  omega

theorem le32_putLe32 (k : Nat) (h : v < 4294967296) : le32 (shift (putLe32 p k v) k) = v := by
  rw [le32_eq]
  simp [shift, putLe32, setByte, Nat.shiftRight_eq_div_pow]
  omega

theorem le16_congr {p q : Buf} (h : ∀ i, i < 2 → p i = q i) : le16 p = le16 q := by
  unfold le16
  rw [h 0 (by omega), h 1 (by omega)]

theorem le32_congr {p q : Buf} (h : ∀ i, i < 4 → p i = q i) : le32 p = le32 q := by
  unfold le32
  rw [h 0 (by omega), h 1 (by omega), h 2 (by omega), h 3 (by omega)]

theorem setByte_same (k : Nat) : setByte p k (p k) = p := by
  funext i
  unfold setByte
  split
  next h => rw [h]
  next => rfl

theorem putLe16_le16 (k : Nat) : putLe16 p k (le16 (shift p k)) = p := by
  have h0 := (p k).toNat_lt
  have h1 := (p (k + 1)).toNat_lt
  have heq : le16 (shift p k) = (p k).toNat + 256 * (p (k + 1)).toNat := le16_eq _
  have hlo : .ofNat (le16 (shift p k)) = p k := UInt8.toNat_inj.mp (by simp [heq])
  have hhi : .ofNat (le16 (shift p k) >>> 8) = p (k + 1) := UInt8.toNat_inj.mp (by
    simp [heq, Nat.shiftRight_eq_div_pow]
    omega)
  rw [putLe16, hlo, hhi, setByte_same, setByte_same]

theorem putLe32_le32 (k : Nat) : putLe32 p k (le32 (shift p k)) = p := by
  have h0 := (p k).toNat_lt
  have h1 := (p (k + 1)).toNat_lt
  have h2 := (p (k + 2)).toNat_lt
  have h3 := (p (k + 3)).toNat_lt
  have heq : le32 (shift p k) = (p k).toNat + 256 * (p (k + 1)).toNat +
      65536 * (p (k + 2)).toNat + 16777216 * (p (k + 3)).toNat := le32_eq _
  have hbyte : ∀ s j, (le32 (shift p k) / 2 ^ s) % 2 ^ 8 = (p (k + j)).toNat →
      .ofNat (le32 (shift p k) >>> s) = p (k + j) := by
    intro s j h
    refine UInt8.toNat_inj.mp ?_
    rw [UInt8.toNat_ofNat', Nat.shiftRight_eq_div_pow, h]
  have hb0 : .ofNat (le32 (shift p k)) = p k := hbyte 0 0 (by
    show _ = (p k).toNat
    omega)
  rw [putLe32, hb0, hbyte 8 1 (by omega), hbyte 16 2 (by omega), hbyte 24 3 (by omega),
    setByte_same, setByte_same, setByte_same, setByte_same]

end ManiOS.Lib

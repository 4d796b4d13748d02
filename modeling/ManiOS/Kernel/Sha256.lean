import Mathlib

/-!
# SHA-256 and HMAC of the kernel

`sha256_update` keeps a partial block and a bit count between calls.  `Fips` has the hash as FIPS
180-4 states it, with its constants as the roots of primes that they are, and RFC 2104's HMAC.
`Fed` says which message a context has seen; every update keeps it, whatever the pieces.
-/

open List hiding Vector

namespace ManiOS.Sha256

abbrev Byte := BitVec 8
abbrev Word := BitVec 32
abbrev State := Vector Word 8

/-- What a pointer and a `size_t`, 32 bits here, can hand over. -/
abbrev Data := { p : List Byte // p.length < 2 ^ 32 }

/-! ## The specification -/

namespace Fips

/-- The first 64 primes; a composite number below 324 has a divisor below 18. -/
def primes : List Nat := (range' 2 310).filter fun p => ∀ d ∈ range 18, d ∣ p → d = 1 ∨ d = p

/-- The first 32 bits of the fractional part of the `n`th root of `p`. -/
def fraction (n p : Nat) : Word := .ofNat 32 (Nat.nthRoot n (p * 2 ^ (32 * n)))

def ch (x y z : Word) : Word := (x &&& y) ^^^ (~~~x &&& z)

def maj (x y z : Word) : Word := (x &&& y) ^^^ (x &&& z) ^^^ (y &&& z)

def bigSigma (i j k : Nat) (x : Word) : Word :=
  x.rotateRight i ^^^ x.rotateRight j ^^^ x.rotateRight k

def smallSigma (i j k : Nat) (x : Word) : Word := x.rotateRight i ^^^ x.rotateRight j ^^^ x >>> k

/-- `M_t`, of four bytes with the first on top. -/
def message (m : List Byte) (t : Nat) : Word :=
  m.getD (4 * t) 0 ++ m.getD (4 * t + 1) 0 ++ m.getD (4 * t + 2) 0 ++ m.getD (4 * t + 3) 0

/-- The message schedule `W_t`. -/
def schedule (m : List Byte) (t : Nat) : Word :=
  if t < 16 then message m t
  else smallSigma 17 19 10 (schedule m (t - 2)) + schedule m (t - 7) +
    smallSigma 7 18 3 (schedule m (t - 15)) + schedule m (t - 16)

def round (m : List Byte) (s : State) (t : Nat) : State :=
  let t1 := s[7] + bigSigma 6 11 25 s[4] + ch s[4] s[5] s[6] +
    (primes.map (fraction 3)).getD t 0 + schedule m t
  let t2 := bigSigma 2 13 22 s[0] + maj s[0] s[1] s[2]
  #v[t1 + t2, s[0], s[1], s[2], s[3] + t1, s[4], s[5], s[6]]

def block (h : State) (m : List Byte) : State :=
  h.zipWith (· + ·) ((range 64).foldl (round m) h)

def initial : State := .ofFn fun i => fraction 2 (primes.getD i 0)

def blocks (m : List Byte) : List (List Byte) :=
  if m.length < 64 then [] else m.take 64 :: blocks (m.drop 64)
termination_by m.length

/-- The `n` bytes of `x`, the highest first. -/
def bytes (n x : Nat) : List Byte := (range n).map fun i => .ofNat 8 (x / 2 ^ (8 * (n - 1 - i)))

/-- A one bit, zeros up to 448 modulo 512 and the length in bits. -/
def padded (m : List Byte) : List Byte :=
  m ++ 0x80 :: replicate ((119 - m.length % 64) % 64) 0 ++ bytes 8 (8 * m.length)

def sha256 (m : List Byte) : List Byte :=
  ((blocks (padded m)).foldl block initial).toList.flatMap fun w => bytes 4 w.toNat

/-- HMAC of RFC 2104 with a block of 64 bytes. -/
def hmac (key m : List Byte) : List Byte :=
  let k := if 64 < key.length then sha256 key else key
  let k := k ++ replicate (64 - k.length) 0
  sha256 (k.map (· ^^^ 0x5c) ++ sha256 (k.map (· ^^^ 0x36) ++ m))

end Fips

/-! ## The code -/

def K : List Word := [
  0x428a2f98, 0x71374491, 0xb5c0fbcf, 0xe9b5dba5, 0x3956c25b, 0x59f111f1, 0x923f82a4, 0xab1c5ed5,
  0xd807aa98, 0x12835b01, 0x243185be, 0x550c7dc3, 0x72be5d74, 0x80deb1fe, 0x9bdc06a7, 0xc19bf174,
  0xe49b69c1, 0xefbe4786, 0x0fc19dc6, 0x240ca1cc, 0x2de92c6f, 0x4a7484aa, 0x5cb0a9dc, 0x76f988da,
  0x983e5152, 0xa831c66d, 0xb00327c8, 0xbf597fc7, 0xc6e00bf3, 0xd5a79147, 0x06ca6351, 0x14292967,
  0x27b70a85, 0x2e1b2138, 0x4d2c6dfc, 0x53380d13, 0x650a7354, 0x766a0abb, 0x81c2c92e, 0x92722c85,
  0xa2bfe8a1, 0xa81a664b, 0xc24b8b70, 0xc76c51a3, 0xd192e819, 0xd6990624, 0xf40e3585, 0x106aa070,
  0x19a4c116, 0x1e376c08, 0x2748774c, 0x34b0bcb5, 0x391c0cb3, 0x4ed8aa4a, 0x5b9cca4f, 0x682e6ff3,
  0x748f82ee, 0x78a5636f, 0x84c87814, 0x8cc70208, 0x90befffa, 0xa4506ceb, 0xbef9a3f7, 0xc67178f2]

def ror (x : Word) (n : Nat) : Word := x >>> n ||| x <<< (32 - n)

/-- Word `t` of the block; the first loop of `compress` fills `w[0..15]` with these. -/
def load (p : List Byte) (t : Nat) : Word :=
  (p.getD (4 * t) 0).setWidth 32 <<< 24 ||| (p.getD (4 * t + 1) 0).setWidth 32 <<< 16 |||
    (p.getD (4 * t + 2) 0).setWidth 32 <<< 8 ||| (p.getD (4 * t + 3) 0).setWidth 32

/-- One turn of the loop that fills `w[16..63]`. -/
def extend (w : Nat → Word) (t : Nat) : Nat → Word :=
  let s0 := ror (w (t - 15)) 7 ^^^ ror (w (t - 15)) 18 ^^^ w (t - 15) >>> 3
  let s1 := ror (w (t - 2)) 17 ^^^ ror (w (t - 2)) 19 ^^^ w (t - 2) >>> 10
  Function.update w t (w (t - 16) + s0 + w (t - 7) + s1)

def mix (w : Nat → Word) (s : State) (t : Nat) : State :=
  let t1 := s[7] + (ror s[4] 6 ^^^ ror s[4] 11 ^^^ ror s[4] 25) +
    ((s[4] &&& s[5]) ^^^ (~~~s[4] &&& s[6])) + K.getD t 0 + w t
  let t2 := (ror s[0] 2 ^^^ ror s[0] 13 ^^^ ror s[0] 22) +
    ((s[0] &&& s[1]) ^^^ (s[0] &&& s[2]) ^^^ (s[1] &&& s[2]))
  #v[t1 + t2, s[0], s[1], s[2], s[3] + t1, s[4], s[5], s[6]]

def compress (h : State) (p : List Byte) : State :=
  let w := (range' 16 48).foldl extend (load p)
  h.zipWith (· + ·) ((range 64).foldl (mix w) h)

/-- `struct sha256`. -/
structure Context where
  h : State
  block : List Byte
  used : Nat
  bitsLo : Word
  bitsHi : Word
  length_block : block.length = 64
  used_lt : used < 64

def cleared : Context := ⟨.replicate 8 0, replicate 64 0, 0, 0, 0, rfl, by decide⟩

def init : Context :=
  { cleared with
    h := #v[0x6a09e667, 0xbb67ae85, 0x3c6ef372, 0xa54ff53a, 0x510e527f, 0x9b05688c, 0x1f83d9ab,
      0x5be0cd19] }

/-- One turn of the loop of `sha256_update`: `n` bytes go into the block, a full one is hashed. -/
def fill (c : Context) (p : List Byte) (n : Nat) (hn : c.used + n ≤ 64) (hp : n ≤ p.length) :
    Context :=
  have hc := c.length_block
  let b := c.block.take c.used ++ p.take n ++ c.block.drop (c.used + n)
  have hb : b.length = 64 := by simp [b]; omega
  if h : c.used + n = 64 then
    { c with h := compress c.h b, block := b, used := 0, length_block := hb, used_lt := by decide }
  else { c with block := b, used := c.used + n, length_block := hb, used_lt := by omega }

def updateLoop (c : Context) (p : List Byte) : Context :=
  if h : p = [] then c
  else
    let n := min (64 - c.used) p.length
    updateLoop (fill c p n (by have := c.used_lt; omega) (by omega)) (p.drop n)
termination_by p.length
decreasing_by
  have := c.used_lt
  have := length_pos_iff.2 h
  simp; omega

/-- The bit count that `sha256_update` starts with, in two words. -/
def count (c : Context) (length : Nat) : Context :=
  let len := BitVec.ofNat 32 length
  let add := len <<< 3
  let carry := if c.bitsLo + add < c.bitsLo then 1 else 0
  { c with bitsHi := c.bitsHi + (len >>> 29 + carry), bitsLo := c.bitsLo + add }

def update (c : Context) (p : List Byte) : Context := updateLoop (count c p.length) p

@[simp] theorem fill_used : (fill c p n hn hp).used = (c.used + n) % 64 := by
  dsimp only [fill]
  split
  next h => simp [h]
  next => exact (Nat.mod_eq_of_lt (lt_of_le_of_ne hn ‹_›)).symm

theorem updateLoop_used (c : Context) (p : List Byte) :
    (updateLoop c p).used = (c.used + p.length) % 64 := by
  fun_induction updateLoop c p with
  | case1 c => simp [Nat.mod_eq_of_lt c.used_lt]
  | case2 c p hp n ih =>
    rw [ih, fill_used, length_drop]
    omega

theorem update_used (c : Context) (p : List Byte) : (update c p).used = (c.used + p.length) % 64 :=
  updateLoop_used _ p

/-- The loop of `sha256_final` that feeds zeros. -/
def pad (c : Context) : Context := if c.used = 56 then c else pad (update c [0])
termination_by (120 - c.used) % 64
decreasing_by
  have := c.used_lt
  rw [update_used, length_singleton]
  omega

def put32 (w : Word) : List Byte := (range 4).map fun k => (w >>> (24 - 8 * k)).setWidth 8

def final (c : Context) : List Byte × Context :=
  let length := put32 c.bitsHi ++ put32 c.bitsLo
  let c := update (pad (update c [0x80])) length
  (c.h.toList.flatMap put32, cleared)

def sha256 (p : List Byte) : List Byte := (final (update init p)).1

/-- `struct hmac_sha256`. -/
structure Hmac where
  inner : Context
  outerKey : List Byte

def hmacInit (key : List Byte) : Hmac :=
  let k := if 64 < key.length then sha256 key else key
  let k := k ++ replicate (64 - k.length) 0
  ⟨update init (k.map (· ^^^ 0x36)), k.map (· ^^^ 0x5c)⟩

def hmacUpdate (h : Hmac) (p : List Byte) : Hmac := { h with inner := update h.inner p }

def hmacFinal (h : Hmac) : List Byte × Hmac :=
  let inner := (final h.inner).1
  let outer := update (update init h.outerKey) inner
  ((final outer).1, ⟨cleared, replicate 64 0⟩)

/-! ## Compression -/

theorem ror_eq (x : Word) {n : Nat} (h : n < 32) : ror x n = x.rotateRight n := by
  rw [BitVec.rotateRight_def, Nat.mod_eq_of_lt h, ror]

theorem load_eq (p : List Byte) (t : Nat) : load p t = Fips.message p t := by
  unfold load Fips.message
  grind

theorem extend_eq (p : List Byte) (k : Nat) : ∀ t < 16 + k,
    (range' 16 k).foldl extend (load p) t = Fips.schedule p t := by
  induction k with
  | zero =>
    intro t ht
    rw [Fips.schedule, if_pos (by omega)]
    exact load_eq p t
  | succ k ih =>
    intro t ht
    rw [range'_1_concat, foldl_append, foldl_cons, foldl_nil, extend]
    rcases eq_or_ne t (16 + k) with rfl | ht'
    · rw [Function.update_self, Fips.schedule]
      simp (disch := omega) only [ih, ror_eq, Fips.smallSigma]
      ac_rfl
    · rw [Function.update_of_ne ht', ih t (by omega)]

theorem K_eq : K = Fips.primes.map (Fips.fraction 3) := by decide +kernel

theorem init_h : init.h = Fips.initial := by decide +kernel

theorem mix_eq (p : List Byte) (s : State) (ht : t < 64) :
    mix ((range' 16 48).foldl extend (load p)) s t = Fips.round p s t := by
  rw [mix, Fips.round, extend_eq p 48 t ht, K_eq]
  unfold Fips.bigSigma Fips.ch Fips.maj
  simp (disch := decide) only [ror_eq]

theorem compress_eq (h : State) (p : List Byte) : compress h p = Fips.block h p := by
  rw [compress, foldl_ext _ (Fips.round p) h fun s t ht => mix_eq p s (mem_range.1 ht), Fips.block]

/-! ## Streaming -/

/-- The bits counted so far, modulo `2 ^ 64`. -/
def bits (c : Context) : Nat := c.bitsHi.toNat * 2 ^ 32 + c.bitsLo.toNat

@[simp] theorem bits_fill : bits (fill c p n hn hp) = bits c := by
  dsimp only [fill]
  split <;> rfl

/-- The context has hashed the whole blocks of `m` and keeps the rest of it. -/
def Parsed (c : Context) (m : List Byte) : Prop :=
  ∃ bs : List (List Byte), m = bs.flatten ++ c.block.take c.used ∧ (∀ b ∈ bs, b.length = 64) ∧
    c.h = bs.foldl Fips.block Fips.initial

theorem Parsed.fill (h : Parsed c m) : Parsed (fill c p n hn hp) (m ++ p.take n) := by
  obtain ⟨bs, rfl, hbs, hh⟩ := h
  have hc := c.length_block
  have hlen : (c.block.take c.used ++ p.take n).length = c.used + n := by simp; omega
  dsimp only [Sha256.fill]
  split
  next hfull =>
    refine ⟨bs ++ [c.block.take c.used ++ p.take n], by simp, ?_, ?_⟩
    · simpa [or_imp, forall_and, hlen, hfull] using hbs
    · simp [hfull, drop_of_length_le hc.le, compress_eq, hh]
  next => exact ⟨bs, by rw [take_left' hlen, append_assoc], hbs, hh⟩

theorem Parsed.updateLoop (h : Parsed c m) : Parsed (updateLoop c p) (m ++ p) ∧
    bits (Sha256.updateLoop c p) = bits c := by
  fun_induction Sha256.updateLoop c p generalizing m with
  | case1 c => simpa using h
  | case2 =>
    rename_i ih
    simpa using ih h.fill

theorem bits_count (c : Context) (h : n < 2 ^ 32) : bits (count c n) = (bits c + 8 * n) % 2 ^ 64 := by
  simp only [bits, count, BitVec.lt_def, BitVec.toNat_add, BitVec.toNat_shiftLeft, BitVec.toNat_ofNat,
    Nat.mod_eq_of_lt h, BitVec.toNat_ushiftRight, Nat.shiftLeft_eq, Nat.shiftRight_eq_div_pow]
  split
  · simp; omega
  · simp; omega

/-- The context after the bytes `m`, in whatever pieces they came. -/
structure Fed (c : Context) (m : List Byte) : Prop where
  parsed : Parsed c m
  counted : bits c = 8 * m.length % 2 ^ 64

namespace Fed

theorem init : Fed init [] := ⟨⟨[], rfl, forall_mem_nil _, init_h⟩, rfl⟩

theorem update (h : Fed c m) (hp : p.length < 2 ^ 32) : Fed (update c p) (m ++ p) := by
  obtain ⟨hparsed, hbits⟩ := Parsed.updateLoop (c := count c p.length) (p := p) h.parsed
  refine ⟨hparsed, hbits.trans ?_⟩
  rw [bits_count c hp, h.counted, length_append]
  omega

theorem updates (h : Fed c m) (pieces : List Data) :
    Fed (pieces.foldl (fun c p => Sha256.update c p.1) c) (m ++ pieces.flatMap Subtype.val) := by
  induction pieces generalizing c m with
  | nil => simpa using h
  | cons p pieces ih => simpa using ih (h.update p.2)

theorem pad (h : Fed c m) :
    Fed (pad c) (m ++ replicate ((120 - c.used) % 64) 0) ∧ (Sha256.pad c).used = 56 := by
  fun_induction Sha256.pad c generalizing m with
  | case1 c hc => simpa [hc] using h
  | case2 c hc ih =>
    have hlt := c.used_lt
    have hmore : (120 - c.used) % 64 = (120 - (c.used + 1) % 64) % 64 + 1 := by omega
    have := ih (h.update (p := [0]) (by simp))
    rwa [update_used, append_assoc, singleton_append, ← replicate_succ, length_singleton,
      ← hmore] at this

theorem used (h : Fed c m) : c.used = m.length % 64 := by
  obtain ⟨⟨bs, rfl, hbs, -⟩, -⟩ := h
  have := c.length_block
  have := c.used_lt
  rw [length_append, length_flatten, map_congr_left hbs, map_const']
  simp; omega

end Fed

theorem put32_eq : put32 = fun w => Fips.bytes 4 w.toNat := by
  refine funext fun w => map_congr_left fun k hk => BitVec.eq_of_toNat_eq ?_
  rw [BitVec.toNat_setWidth, BitVec.toNat_ushiftRight, Nat.shiftRight_eq_div_pow, BitVec.toNat_ofNat,
    Nat.mul_sub]

theorem bytes_append (hi lo : Word) (h : x % 2 ^ 64 = hi.toNat * 2 ^ 32 + lo.toNat) :
    Fips.bytes 8 x = Fips.bytes 4 hi.toNat ++ Fips.bytes 4 lo.toNat := by
  have h8 : range 8 = [0, 1, 2, 3, 4, 5, 6, 7] := rfl
  have h4 : range 4 = [0, 1, 2, 3] := rfl
  simp only [Fips.bytes, h8, h4, map_cons, map_nil, cons_append, nil_append, cons.injEq, and_true]
  refine ⟨?_, ?_, ?_, ?_, ?_, ?_, ?_, ?_⟩ <;> apply BitVec.eq_of_toNat_eq <;>
    simp only [BitVec.toNat_ofNat] <;> omega

theorem blocks_flatten {bs : List (List Byte)} (h : ∀ b ∈ bs, b.length = 64) :
    Fips.blocks bs.flatten = bs := by
  induction bs with
  | nil => simp [Fips.blocks]
  | cons b bs ih =>
    obtain ⟨hb, h⟩ := forall_mem_cons.1 h
    rw [Fips.blocks, if_neg (by simp [hb]), flatten_cons, take_left' hb, drop_left' hb, ih h]

/-- What was fed and is finished has the digest of the specification. -/
theorem Fed.final (h : Fed c m) : (final c).1 = Fips.sha256 m := by
  have hlength : put32 c.bitsHi ++ put32 c.bitsLo = Fips.bytes 8 (8 * m.length) := by
    rw [put32_eq, bytes_append _ _ h.counted.symm]
  obtain ⟨hpad, hused⟩ := (h.update (p := [0x80]) (by simp)).pad
  have hall := hpad.update (p := Fips.bytes 8 (8 * m.length)) (by simp [Fips.bytes])
  have hzeros : (120 - (m.length % 64 + 1) % 64) % 64 = (119 - m.length % 64) % 64 := by omega
  rw [update_used, h.used, length_singleton, hzeros] at hall
  obtain ⟨bs, heq, hbs, hh⟩ := hall.parsed
  rw [update_used, hused] at heq
  have hpadded : Fips.padded m = bs.flatten := by simpa [Fips.padded, Fips.bytes] using heq
  rw [Sha256.final, hlength, hh, Fips.sha256, hpadded, blocks_flatten hbs, put32_eq]

theorem length_sha256 (m : List Byte) : (Fips.sha256 m).length = 32 := by
  simp [Fips.sha256, Fips.bytes]

theorem foldl_hmacUpdate (pieces : List Data) (h : Hmac) :
    pieces.foldl (fun h p => hmacUpdate h p.1) h =
      ⟨pieces.foldl (fun c p => update c p.1) h.inner, h.outerKey⟩ := by
  induction pieces generalizing h with
  | nil => rfl
  | cons p pieces ih => rw [foldl_cons, ih, foldl_cons, hmacUpdate]

/-- However a message is cut, the digest is that of FIPS 180-4 and the code that of RFC 2104. -/
theorem sha256_hmac_streamed (key : Data) (pieces : List Data) :
    (final (pieces.foldl (fun c p => update c p.1) init)).1 = Fips.sha256 (pieces.flatMap (·.1)) ∧
    (hmacFinal (pieces.foldl (fun h p => hmacUpdate h p.1) (hmacInit key.1))).1 =
      Fips.hmac key.1 (pieces.flatMap (·.1)) := by
  refine ⟨(Fed.init.updates pieces).final, ?_⟩
  have hkey : sha256 key.1 = Fips.sha256 key.1 := (Fed.init.update key.2).final
  rw [foldl_hmacUpdate, hmacFinal, hmacInit, Fips.hmac, hkey]
  generalize hk : (if 64 < key.1.length then Fips.sha256 key.1 else key.1) = k
  have hlen : k.length ≤ 64 := by
    rw [← hk]
    split
    · simp [length_sha256]
    · omega
  rw [((Fed.init.update (by simp; omega)).updates pieces).final,
    ((Fed.init.update (by simp; omega)).update (by simp [length_sha256])).final]
  rfl

end ManiOS.Sha256

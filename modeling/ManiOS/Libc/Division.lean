import Mathlib.Data.BitVec
import Mathlib.Tactic.Positivity

/-!
# Division of 64-bit numbers

`src/libc/divdi3.c` divides with the machine's `DIV` where the divisor has 32 bits, in two
steps, and bit by bit where it has more.

Every quotient and remainder is right (`divisions_exact`).  The first step leaves a
remainder below the divisor, so the quotient of the second fits its register.
-/

namespace ManiOS.Division

open BitVec

def join (hi lo : BitVec 32) : BitVec 64 := hi.setWidth 64 <<< 32 ||| lo.setWidth 64

theorem toNat_join (hi lo : BitVec 32) : (join hi lo).toNat = hi.toNat * 2 ^ 32 + lo.toNat := by
  have := hi.isLt
  have := lo.isLt
  rw [join, toNat_or, toNat_shiftLeft, toNat_setWidth, toNat_setWidth, Nat.shiftLeft_eq,
    Nat.mod_eq_of_lt (by omega), Nat.mod_eq_of_lt (by omega), Nat.mod_eq_of_lt (by omega),
    ← Nat.shiftLeft_eq, Nat.shiftLeft_add_eq_or_of_lt lo.isLt]

/-- `DIV`: the quotient and the remainder of `hi:lo`.  It faults where the quotient does not
fit. -/
def divl (hi lo d : BitVec 32) : Option (BitVec 32 × BitVec 32) :=
  let n := (join hi lo).toNat
  if d = 0 ∨ 2 ^ 32 ≤ n / d.toNat then none
  else some (.ofNat 32 (n / d.toNat), .ofNat 32 (n % d.toNat))

variable {d n q : BitVec 64}

theorem shift_eq_zero {k : Nat} (h : d >>> k = 0) : d.toNat < 2 ^ k := by
  have h : d.toNat >>> k = 0 := congrArg BitVec.toNat h
  rw [Nat.shiftRight_eq_div_pow] at h
  exact Nat.lt_of_div_eq_zero (by positivity) h

theorem double_of_msb (h : d >>> 63 = 0) : (d <<< 1).toNat = 2 * d.toNat := by
  have := shift_eq_zero h
  rw [toNat_shiftLeft, Nat.shiftLeft_eq]
  omega

/-- The loop that aligns the divisor, with the count of its shifts. -/
def align (n d : BitVec 64) (shift : Nat) (hd : d ≠ 0) : BitVec 64 × Nat :=
  if h : d >>> 63 = 0 ∧ d <<< 1 ≤ n then
    align n (d <<< 1) (shift + 1) fun h0 => hd (eq_of_toNat_eq (by
      have := double_of_msb h.1
      rw [h0] at this
      simpa using this.symm))
  else (d, shift)
termination_by n.toNat - d.toNat
decreasing_by
  have := double_of_msb h.1
  have : d.toNat ≠ 0 := fun h0 => hd (eq_of_toNat_eq h0)
  have := h.2
  bv_omega

/-- One bit of the quotient, and what is left of the number. -/
def nextBit (q n d : BitVec 64) : BitVec 64 × BitVec 64 :=
  if d ≤ n then (q <<< 1 ||| 1, n - d) else (q <<< 1, n)

/-- The loop that subtracts, with `shift` shifts of the divisor to go. -/
def subtract (q n d : BitVec 64) : Nat → BitVec 64 × BitVec 64
  | 0 => nextBit q n d
  | shift + 1 => subtract (nextBit q n d).1 (nextBit q n d).2 (d >>> 1) shift

/-- `__udivmoddi4`: the quotient and the remainder. -/
def udivmoddi4 (n d : BitVec 64) : Option (BitVec 64 × BitVec 64) :=
  if h : d >>> 32 = 0 then do
    let dl := d.setWidth 32
    let (qh, r) ← divl 0 ((n >>> 32).setWidth 32) dl
    let (ql, r) ← divl r (n.setWidth 32) dl
    some (join qh ql, r.setWidth 64)
  else
    let (d, shift) := align n d 0 fun h0 => h (by rw [h0]; rfl)
    some (subtract 0 n d shift)

/-- The absolute value, as `__divdi3` and `__moddi3` take it. -/
def magnitude (n : BitVec 64) : BitVec 64 := if n.slt 0#64 then 0 - n else n

def divdi3 (n d : BitVec 64) : Option (BitVec 64) := do
  let (q, _) ← udivmoddi4 (magnitude n) (magnitude d)
  if n.slt 0#64 ≠ d.slt 0#64 then some (0 - q) else some q

def moddi3 (n d : BitVec 64) : Option (BitVec 64) := do
  let (_, r) ← udivmoddi4 (magnitude n) (magnitude d)
  if n.slt 0#64 then some (0 - r) else some r

/-! ## Small divisors -/

theorem divl_spec {hi d : BitVec 32} (h : hi < d) (lo : BitVec 32) :
    ∃ q r, divl hi lo d = some (q, r) ∧ r < d ∧
      hi.toNat * 2 ^ 32 + lo.toNat = q.toNat * d.toNat + r.toNat := by
  have hpos : 0 < d.toNat := by bv_omega
  have hq : (hi.toNat * 2 ^ 32 + lo.toNat) / d.toNat < 2 ^ 32 := by
    rw [Nat.div_lt_iff_lt_mul hpos]
    have := lo.isLt
    have : (hi.toNat + 1) * 2 ^ 32 ≤ d.toNat * 2 ^ 32 := Nat.mul_le_mul_right _ h
    omega
  have hr := Nat.mod_lt (hi.toNat * 2 ^ 32 + lo.toNat) hpos
  have hne : ¬(d = 0 ∨ 2 ^ 32 ≤ (hi.toNat * 2 ^ 32 + lo.toNat) / d.toNat) := by
    rintro (rfl | h0)
    · cases hpos
    · omega
  refine ⟨_, _, by rw [divl, toNat_join, if_neg hne], ?_, ?_⟩
  · rw [BitVec.lt_def, toNat_ofNat, Nat.mod_eq_of_lt (hr.trans d.isLt)]
    exact hr
  · rw [toNat_ofNat, toNat_ofNat, Nat.mod_eq_of_lt hq, Nat.mod_eq_of_lt (hr.trans d.isLt),
      Nat.mul_comm _ d.toNat, Nat.div_add_mod]

theorem eq_of_divides {r : BitVec 64} (h : n.toNat = q.toNat * d.toNat + r.toNat)
    (hr : r.toNat < d.toNat) : (q, r) = (n / d, n % d) := by
  rw [Nat.mul_comm] at h
  refine Prod.ext (eq_of_toNat_eq ?_) (eq_of_toNat_eq ?_)
  · rw [toNat_udiv, h, Nat.mul_add_div (by omega), Nat.div_eq_of_lt hr, Nat.add_zero]
  · rw [toNat_umod, h, Nat.mul_add_mod, Nat.mod_eq_of_lt hr]

theorem udivmoddi4_small (hd : d ≠ 0) (h : d >>> 32 = 0) :
    udivmoddi4 n d = some (n / d, n % d) := by
  have hdl : (d.setWidth 32).toNat = d.toNat := Nat.mod_eq_of_lt (shift_eq_zero h)
  obtain ⟨qh, r1, h1, hr1, hn1⟩ := divl_spec (show 0 < d.setWidth 32 by bv_omega)
    ((n >>> 32).setWidth 32)
  obtain ⟨ql, r, h2, hr, hn2⟩ := divl_spec hr1 (n.setWidth 32)
  rw [udivmoddi4, dif_pos h]
  simp only [h1, h2, Option.bind_eq_bind, Option.bind_some]
  refine congrArg some (eq_of_divides ?_ (by bv_omega))
  have hhi : ((n >>> 32).setWidth 32).toNat = n.toNat / 2 ^ 32 := by
    rw [toNat_setWidth, toNat_ushiftRight, Nat.shiftRight_eq_div_pow]
    omega
  have hlo : (n.setWidth 32).toNat = n.toNat % 2 ^ 32 := toNat_setWidth ..
  have hr' : (r.setWidth 64).toNat = r.toNat := by bv_omega
  have hzero : (0 : BitVec 32).toNat = 0 := rfl
  rw [hhi, hdl, hzero] at hn1
  rw [hlo, hdl] at hn2
  rw [toNat_join, hr', ← Nat.div_add_mod n.toNat (2 ^ 32)]
  grind

/-! ## Large divisors -/

theorem align_spec {shift D : Nat} (hd : d ≠ 0) (h : d.toNat = D * 2 ^ shift) :
    (align n d shift hd).1.toNat = D * 2 ^ (align n d shift hd).2 ∧
      n.toNat < 2 * (align n d shift hd).1.toNat := by
  fun_induction align n d shift hd with
  | case1 d shift hd hloop ih =>
    refine ih ?_
    rw [double_of_msb hloop.1, h, Nat.pow_succ]
    grind
  | case2 d shift hd hloop =>
    refine ⟨h, ?_⟩
    by_cases hmsb : d >>> 63 = 0
    · have hlt : ¬d <<< 1 ≤ n := fun hle => hloop ⟨hmsb, hle⟩
      have := double_of_msb hmsb
      bv_omega
    · have : ¬d.toNat / 2 ^ 63 = 0 := fun h0 => hmsb (eq_of_toNat_eq (by
        rw [toNat_ushiftRight, Nat.shiftRight_eq_div_pow]
        exact h0))
      dsimp only
      omega

/-- What the loop keeps: `q` is the quotient of `N` by twice the divisor. -/
theorem nextBit_spec {N : Nat} (hN : N < 2 ^ 64) (hd : 0 < d.toNat)
    (hn : N = q.toNat * (2 * d.toNat) + n.toNat) (hlt : n.toNat < 2 * d.toNat) :
    N = (nextBit q n d).1.toNat * d.toNat + (nextBit q n d).2.toNat ∧
      (nextBit q n d).2.toNat < d.toNat := by
  have hq : (q <<< 1).toNat = q.toNat * 2 := by
    have := Nat.le_mul_of_pos_right (q.toNat * 2) hd
    rw [toNat_shiftLeft, Nat.shiftLeft_eq]
    refine Nat.mod_eq_of_lt ?_
    grind
  rw [← Nat.mul_assoc, ← hq] at hn
  unfold nextBit
  split
  next hle =>
    have hor : (q <<< 1 ||| 1).toNat = (q <<< 1).toNat + 1 := by
      rw [toNat_or, hq, ← Nat.pow_one 2, ← Nat.shiftLeft_eq]
      exact (Nat.shiftLeft_add_eq_or_of_lt (by decide) _).symm
    have hsub : (n - d).toNat = n.toNat - d.toNat := toNat_sub_of_le hle
    have hle : d.toNat ≤ n.toNat := hle
    rw [hor, hsub, Nat.add_mul]
    omega
  next hle =>
    exact ⟨hn, by bv_omega⟩

theorem subtract_spec {shift N D : Nat} (hN : N < 2 ^ 64) (hD : 0 < D)
    (hd : d.toNat = D * 2 ^ shift) (hn : N = q.toNat * (2 * d.toNat) + n.toNat)
    (hlt : n.toNat < 2 * d.toNat) :
    N = (subtract q n d shift).1.toNat * D + (subtract q n d shift).2.toNat ∧
      (subtract q n d shift).2.toNat < D := by
  have hpos (shift : Nat) : 0 < D * 2 ^ shift := Nat.mul_pos hD (by positivity)
  induction shift generalizing q n d with
  | zero =>
    rw [← Nat.mul_one D, ← Nat.pow_zero 2, ← hd]
    exact nextBit_spec hN (hd ▸ hpos _) hn hlt
  | succ shift ih =>
    obtain ⟨hn, hlt⟩ := nextBit_spec hN (hd ▸ hpos _) hn hlt
    have hhalf : (d >>> 1).toNat = D * 2 ^ shift := by
      rw [toNat_ushiftRight, hd, Nat.pow_succ, ← Nat.mul_assoc, Nat.shiftRight_one]
      omega
    have hdouble : d.toNat = 2 * (d >>> 1).toNat := by
      rw [hd, hhalf, Nat.pow_succ]
      grind
    rw [hdouble] at hn hlt
    exact ih hhalf hn hlt

theorem udivmoddi4_eq (hd : d ≠ 0) : udivmoddi4 n d = some (n / d, n % d) := by
  by_cases h : d >>> 32 = 0
  · exact udivmoddi4_small hd h
  · have hpos : 0 < d.toNat := Nat.pos_of_ne_zero fun h0 => hd (eq_of_toNat_eq h0)
    obtain ⟨ha, hlt⟩ := align_spec (n := n) hd (show d.toNat = d.toNat * 2 ^ 0 by simp)
    obtain ⟨hn, hr⟩ := subtract_spec (q := 0) n.isLt hpos ha (by simp) hlt
    rw [udivmoddi4, dif_neg h]
    exact congrArg some (eq_of_divides hn hr)

theorem magnitude_eq (n : BitVec 64) : magnitude n = if n.msb then -n else n := by
  simp [magnitude, slt_zero_eq_msb]

theorem magnitude_ne_zero (hd : d ≠ 0) : magnitude d ≠ 0 := by
  rw [magnitude_eq]
  split
  · exact neg_ne_zero.mpr hd
  · exact hd

theorem divdi3_eq (hd : d ≠ 0) : divdi3 n d = some (n.sdiv d) := by
  rw [divdi3, udivmoddi4_eq (magnitude_ne_zero hd)]
  simp only [magnitude_eq, slt_zero_eq_msb, sdiv_eq]
  cases n.msb <;> cases d.msb <;> simp

theorem moddi3_eq (hd : d ≠ 0) : moddi3 n d = some (n.srem d) := by
  rw [moddi3, udivmoddi4_eq (magnitude_ne_zero hd)]
  simp only [magnitude_eq, slt_zero_eq_msb, srem_eq]
  cases n.msb <;> cases d.msb <;> simp

/-- Every quotient and remainder is right. -/
theorem divisions_exact (n d : BitVec 64) (hd : d ≠ 0) :
    (∃ q r, udivmoddi4 n d = some (q, r) ∧ n.toNat = q.toNat * d.toNat + r.toNat ∧
      r.toNat < d.toNat) ∧ (n ≠ intMin 64 ∨ d ≠ -1 →
      (∃ q, divdi3 n d = some q ∧ q.toInt = n.toInt.tdiv d.toInt) ∧
        ∃ r, moddi3 n d = some r ∧ r.toInt = n.toInt.tmod d.toInt) := by
  refine ⟨⟨_, _, udivmoddi4_eq hd, ?_, Nat.mod_lt _ ?_⟩, fun hne =>
    ⟨⟨_, divdi3_eq hd, toInt_sdiv_of_ne_or_ne n d hne⟩, _, moddi3_eq hd, toInt_srem ..⟩⟩
  · rw [toNat_udiv, toNat_umod, Nat.mul_comm, Nat.div_add_mod]
  · exact Nat.pos_of_ne_zero fun h0 => hd (eq_of_toNat_eq h0)

/-- The least number divided by 3. -/
theorem divisions_exact_least :
    ∃ q, divdi3 (intMin 64) 3 = some q ∧ q.toInt = (intMin 64).toInt.tdiv 3 :=
  ((divisions_exact (intMin 64) 3 (by decide)).2 (.inr (by decide))).1

end ManiOS.Division

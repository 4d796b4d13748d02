import ManiOS.Base
import Mathlib.Tactic.IntervalCases

/-!
# The calendar

`days_from_civil` of `src/zkt/drivers/rtc.c` numbers the days from 1970 on, and `civil` of
`src/userland/dos/commands.c` turns such a number into a date.  Both count years from
March and in eras of 400.

They are inverse to each other (`calendar_inverse`), since both agree with the number of
days that went by since 1970 began (`Date.number`).
-/

namespace ManiOS.Calendar

/-! ## Dates -/

def leap (year : Nat) : Prop := year % 4 = 0 ∧ (year % 100 ≠ 0 ∨ year % 400 = 0)

instance (year : Nat) : Decidable (leap year) := inferInstanceAs (Decidable (_ ∧ _))

def monthDays (year : Nat) : Nat → Nat
  | 2 => if leap year then 29 else 28
  | 4 | 6 | 9 | 11 => 30
  | _ => 31

theorem one_le_monthDays (year month : Nat) : 1 ≤ monthDays year month := by
  unfold monthDays
  split <;> (try split) <;> decide

structure Date where
  year : Nat
  month : Nat
  day : Nat
  month_mem : 1 ≤ month ∧ month ≤ 12
  day_mem : 1 ≤ day ∧ day ≤ monthDays year month

namespace Date

variable (x : Date)

def next : Date :=
  if hd : x.day < monthDays x.year x.month then
    { x with day := x.day + 1, day_mem := ⟨Nat.le_add_left .., hd⟩ }
  else if hm : x.month < 12 then
    ⟨x.year, x.month + 1, 1, ⟨Nat.le_add_left .., hm⟩, le_rfl, one_le_monthDays ..⟩
  else ⟨x.year + 1, 1, 1, by decide, le_rfl, one_le_monthDays ..⟩

/-- The days of the first `n` months. -/
def monthsDays (year : Nat) : Nat → Nat
  | 0 => 0
  | n + 1 => monthsDays year n + monthDays year (n + 1)

/-- The days of the `n` years from 1970 on. -/
def yearsDays : Nat → Nat
  | 0 => 0
  | n + 1 => yearsDays n + monthsDays (1970 + n) 12

/-- The days from the first of 1970 to a date. -/
def number : Nat :=
  yearsDays (x.year - 1970) + monthsDays x.year (x.month - 1) + (x.day - 1)

end Date

/-! ## The code -/

/-- A number kept in an `int32_t`. -/
def i32 (x : Int) : Int := (x + 2147483648) % 4294967296 - 2147483648

def daysFromCivil (y : Int) (m d : Nat) : Int :=
  let y := i32 (y - if m ≤ 2 then 1 else 0)
  let era := (if 0 ≤ y then y else i32 (y - 399)).tdiv 400
  let yoe := (y - era * 400).toNat
  let doy := u32 (u32 (153 * u32 (m + if m > 2 then 4294967293 else 9) + 2) / 5 + d + 4294967295)
  let doe := u32 (yoe * 365 + yoe / 4 - yoe / 100 + doy)
  i32 (i32 (era * 146097) + toLong doe - 719468)

def civil (days : Int) : Int × Int × Int :=
  let z := i32 (days + 719468)
  let era := z.tdiv 146097
  let doe := z - era * 146097
  let yoe := (doe - doe.tdiv 1460 + doe.tdiv 36524 - doe.tdiv 146096).tdiv 365
  let doy := doe - (365 * yoe + yoe.tdiv 4 - yoe.tdiv 100)
  let mp := (5 * doy + 2).tdiv 153
  let day := doy - (153 * mp + 2).tdiv 5 + 1
  let month := if mp < 10 then mp + 3 else mp - 9
  (yoe + era * 400 + if month ≤ 2 then 1 else 0, month, day)

theorem i32_of_lt {a : Int} (h0 : -2147483648 ≤ a) (h : a < 2147483648) : i32 a = a := by
  unfold i32
  omega

theorem tdiv_eq {a k q : Int} (ha : 0 ≤ a) (h : 0 ≤ a - k * q ∧ a - k * q < k) : a.tdiv k = q := by
  rw [Int.tdiv_eq_ediv_of_nonneg ha]
  exact (Int.ediv_eq_iff_of_pos (by omega)).mpr (by grind)

/-! ## Years from March -/

/-- The year of an era, 100 `a` + 4 `b` + `c`, from the day of the era. -/
theorem year_of_era {a b c doy : Nat} (doe : Int) (ha : a ≤ 3) (hb : b ≤ 24) (hc : c ≤ 3)
    (h : doy < 365 ∨ doy = 365 ∧ c = 3 ∧ (b < 24 ∨ a = 3))
    (hdoe : doe = 36524 * a + (1461 * b + 365 * c + doy)) :
    (doe - doe.tdiv 1460 + doe.tdiv 36524 - doe.tdiv 146096).tdiv 365 = 100 * a + 4 * b + c := by
  -- only the last day of the era is beyond the days of its centuries
  have hcentury : doe / 36524 = a + doe / 146096 := by
    by_cases h' : 1461 * b + 365 * c + doy < 36524
    · rw [Int.ediv_eq_zero_of_lt (by omega) (show doe < 146096 by omega)]
      omega
    · rw [show doe = 146096 by omega]
      omega
  -- 1460 goes into a century 25 times, and 24 days are left
  have hfour : doe / 1460 = 25 * a + b + (24 * a + b + 365 * c + doy) / 1460 := by
    clear h hcentury
    omega
  simp only [Int.tdiv_eq_ediv_of_nonneg (show 0 ≤ doe by omega), hcentury, hfour]
  clear hcentury hfour
  exact tdiv_eq (by omega) (by omega)

/-- The leap years from year 1 to a year. -/
def leaps (year : Nat) : Nat := year / 4 + year / 400 - year / 100

theorem leaps_succ (year : Nat) :
    leaps (year + 1) = leaps year + if leap (year + 1) then 1 else 0 := by
  simp only [leaps, leap, Nat.succ_div, Nat.dvd_iff_mod_eq_zero]
  grind

theorem monthsDays_twelve (year : Nat) :
    Date.monthsDays year 12 = if leap year then 366 else 365 := by
  simp only [Date.monthsDays, monthDays]
  split <;> rfl

theorem yearsDays_eq (n : Nat) :
    Date.yearsDays n + 719162 = 365 * (1969 + n) + leaps (1969 + n) := by
  induction n with
  | zero => rfl
  | succ n ih =>
    rw [Date.yearsDays, monthsDays_twelve, ← Nat.add_assoc 1969, leaps_succ,
      Nat.add_right_comm 1969]
    split <;> omega

namespace Date

variable (x : Date)

/-- The year and the month, counted from March. -/
def marchYear : Nat := if x.month ≤ 2 then x.year - 1 else x.year
def marchMonth : Nat := if x.month ≤ 2 then x.month + 9 else x.month - 3

/-- The day of the year, from the first of March. -/
def marchDay : Nat := (153 * x.marchMonth + 2) / 5 + x.day - 1

variable (h : 1970 ≤ x.year)
include h

theorem march_cases : x.month ≤ 2 ∧ x.year = x.marchYear + 1 ∧ x.marchMonth = x.month + 9 ∨
      2 < x.month ∧ x.year = x.marchYear ∧ x.month = x.marchMonth + 3 := by
  unfold marchYear marchMonth
  split <;> omega

theorem marchDay_le : (x.marchDay < 365 ∨ x.marchDay = 365 ∧ leap (x.marchYear + 1)) ∧
      (5 * x.marchDay + 2) / 153 = x.marchMonth := by
  obtain ⟨year, month, day, ⟨h1, h12⟩, hd⟩ := x
  simp only [marchDay, marchYear, marchMonth]
  interval_cases month <;> simp [monthDays] at hd ⊢ <;> grind

theorem of_march : (5 * x.marchDay + 2 : Int).tdiv 153 = x.marchMonth ∧
    x.marchDay - (153 * x.marchMonth + 2 : Int).tdiv 5 + 1 = x.day ∧
    (if (x.marchMonth : Int) < 10 then x.marchMonth + 3 else x.marchMonth - 9 : Int) = x.month ∧
    (x.marchYear + if (x.month : Int) ≤ 2 then 1 else 0 : Int) = x.year := by
  have hmonth := x.month_mem
  have hcases := x.march_cases h
  have hmp := (x.marchDay_le h).2
  refine ⟨tdiv_eq (by omega) (by omega), ?_, by split <;> omega, by split <;> omega⟩
  have := x.day_mem.1
  rw [Int.tdiv_eq_ediv_of_nonneg (by omega)]
  unfold marchDay
  omega

theorem number_eq : x.number + 719468 = 365 * x.marchYear + leaps x.marchYear + x.marchDay := by
  obtain ⟨year, month, day, ⟨h1, h12⟩, hd⟩ := x
  obtain ⟨n, rfl⟩ := Nat.exists_eq_add_of_le h
  have hy := yearsDays_eq n
  have hy' := leaps_succ (1969 + n)
  rw [Nat.add_right_comm] at hy'
  simp only [number, marchDay, marchYear, marchMonth, Nat.add_sub_cancel_left,
    show 1970 + n - 1 = 1969 + n by omega]
  by_cases hl : leap (1970 + n)
  all_goals
    interval_cases month <;> simp [monthsDays, monthDays, hl] at hd hy' ⊢ <;> omega

/-- The number of a date by its year, which is 100 `a` + 4 `b` + `c` in its era. -/
theorem number_parts : ∃ era a b c doe, a ≤ 3 ∧ b ≤ 24 ∧ c ≤ 3 ∧
    (x.marchDay < 365 ∨ x.marchDay = 365 ∧ c = 3 ∧ (b < 24 ∨ a = 3)) ∧
    x.marchYear = 400 * era + (100 * a + 4 * b + c) ∧
    doe = 36524 * a + (1461 * b + 365 * c + x.marchDay) ∧ doe < 146097 ∧
    x.number + 719468 = 146097 * era + doe := by
  have hnum := x.number_eq h
  obtain ⟨hdays, -⟩ := x.marchDay_le h
  unfold leap leaps at *
  generalize x.marchYear = y at *
  have hq : y / 4 = 100 * (y / 400) + 25 * (y % 400 / 100) + y % 100 / 4 := by omega
  have hc : y / 100 = 4 * (y / 400) + y % 400 / 100 := by omega
  have hdoe : 36524 * (y % 400 / 100) + (1461 * (y % 100 / 4) + 365 * (y % 4) + x.marchDay) <
      146097 := by
    omega
  exact ⟨y / 400, y % 400 / 100, y % 100 / 4, y % 4, _, by omega, by omega, by omega, by omega,
    by omega, rfl, hdoe, by omega⟩

theorem number_next : x.next.number = x.number + 1 := by
  have := x.month_mem
  have := x.day_mem
  unfold next number
  split
  · dsimp only
    omega
  split
  · obtain ⟨m, hm⟩ : ∃ m, x.month = m + 1 := ⟨x.month - 1, by omega⟩
    simp only [hm, Nat.add_sub_cancel, monthsDays] at *
    omega
  · obtain ⟨n, hn⟩ : ∃ n, x.year = 1970 + n := ⟨x.year - 1970, by omega⟩
    have hm : x.month = 11 + 1 := by omega
    simp only [hn, hm, Nat.add_assoc, Nat.add_sub_cancel_left, Nat.add_sub_cancel, yearsDays,
      monthsDays.eq_2 _ 11, Nat.sub_self, monthsDays.eq_1] at *
    omega

theorem year_next : 1970 ≤ x.next.year := by
  unfold next
  split
  · exact h
  split
  · exact h
  · exact Nat.le_succ_of_le h

end Date

/-! ## The code agrees with the calendar -/

section

variable {x : Date} (h : 1970 ≤ x.year) (hn : x.number + 719468 < 2147483648)
include h hn

theorem daysFromCivil_eq : daysFromCivil x.year x.month x.day = x.number := by
  obtain ⟨era, a, b, c, doe, ha, hb, hc, hdays, hyear, hdoe, hlt, hnum⟩ := x.number_parts h
  have hcases := x.march_cases h
  have hmonth := x.month_mem
  have hy : i32 (x.year - if x.month ≤ 2 then 1 else 0) = x.marchYear := by
    rw [i32_of_lt (by omega) (by omega)]
    omega
  have hm : u32 (x.month + if x.month > 2 then 4294967293 else 9) = x.marchMonth := by
    unfold u32
    split <;> omega
  have hd : u32 (u32 (153 * x.marchMonth + 2) / 5 + x.day + 4294967295) = x.marchDay := by
    have := x.day_mem.1
    rw [u32_of_lt (show 153 * x.marchMonth + 2 < _ by omega)]
    clear hyear hnum hdoe
    unfold Date.marchDay u32 at *
    omega
  have hera : (x.marchYear : Int).tdiv 400 = era := tdiv_eq (by omega) (by omega)
  have hyoe : (x.marchYear - era * 400 : Int).toNat = 100 * a + 4 * b + c := by omega
  have h4 : (100 * a + 4 * b + c) / 4 = 25 * a + b := by omega
  have h100 : (100 * a + 4 * b + c) / 100 = a := by omega
  simp only [daysFromCivil, hy, hm, hd, if_pos (Int.natCast_nonneg _), hera, hyoe, h4, h100]
  rw [u32_of_lt (by omega), toLong_of_lt (by omega),
    i32_of_lt (show -2147483648 ≤ (era * 146097 : Int) by omega) (by omega),
    i32_of_lt (by omega) (by omega)]
  omega

theorem civil_eq : civil x.number = (↑x.year, ↑x.month, ↑x.day) := by
  obtain ⟨era, a, b, c, doe, ha, hb, hc, hdays, hyear, hdoe, hlt, hnum⟩ := x.number_parts h
  have hz : i32 (x.number + 719468) = x.number + 719468 := i32_of_lt (by omega) (by omega)
  have hd : (x.number + 719468 - era * 146097 : Int) = doe := by omega
  have hdoy : doe - (365 * (100 * a + 4 * b + c) + (25 * a + b) - a) = (x.marchDay : Int) := by
    omega
  have hy : (100 * a + 4 * b + c + era * 400 : Int) = x.marchYear := by omega
  have hera : (x.number + 719468 : Int).tdiv 146097 = era := tdiv_eq (by omega) (by omega)
  have h4 : (100 * a + 4 * b + c : Int).tdiv 4 = 25 * a + b := tdiv_eq (by omega) (by omega)
  have h100 : (100 * a + 4 * b + c : Int).tdiv 100 = a := tdiv_eq (by omega) (by omega)
  have hyoe := year_of_era doe ha hb hc hdays (by simp [hdoe])
  simp only [civil, hz, hera, hd, hyoe, h4, h100, hdoy, hy, x.of_march h]

end

/-- The two are inverse to each other, and number the days one by one from 1970 on. -/
theorem calendar_inverse (x : Date) (h : 1970 ≤ x.year) (hn : x.number + 719468 < 2 ^ 31) :
    civil (daysFromCivil x.year x.month x.day) = (↑x.year, ↑x.month, ↑x.day) ∧
      (x.next.number + 719468 < 2 ^ 31 → daysFromCivil x.next.year x.next.month x.next.day =
        daysFromCivil x.year x.month x.day + 1) ∧
      daysFromCivil 1970 1 1 = 0 := by
  rw [daysFromCivil_eq h hn, civil_eq h hn]
  refine ⟨rfl, fun hnext => ?_, by decide⟩
  rw [daysFromCivil_eq (x.year_next h) hnext, x.number_next h]
  rfl

/-- The last day of February 2000. -/
theorem calendar_inverse_leap : civil (daysFromCivil 2000 2 29) = (2000, 2, 29) ∧
      daysFromCivil 2000 3 1 = daysFromCivil 2000 2 29 + 1 := by
  have h := calendar_inverse ⟨2000, 2, 29, by decide, by decide⟩ (by decide) (by decide)
  exact ⟨h.1, h.2.1 (by decide)⟩

end ManiOS.Calendar

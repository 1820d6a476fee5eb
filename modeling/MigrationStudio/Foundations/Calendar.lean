import Mathlib.Data.Nat.Notation
import Mathlib.Tactic.Common

/-!
# The proleptic Gregorian calendar

The days are numbered from the first of January of the year 1, which has the ordinal 1.  A date is
its year, month and day.

* `IsDate`, `toOrdinal`, `ofOrdinal`: the dates, and the numbers of their days.
* `ofOrdinal_spec`: every number is that of its date.
* `toOrdinal_lt`: the numbers go up with the dates, compared year first.
-/

namespace MigrationStudio
namespace Foundations

def isLeap (year : ℕ) : Bool := year % 4 = 0 && (year % 100 ≠ 0 || year % 400 = 0)

/-- The days in front of a year. -/
def daysBeforeYear (year : ℕ) : ℕ :=
  (year - 1) * 365 + (year - 1) / 4 - (year - 1) / 100 + (year - 1) / 400

def daysInMonth (leap : Bool) (month : ℕ) : ℕ :=
  [0, 31, if leap then 29 else 28, 31, 30, 31, 30, 31, 31, 30, 31, 30, 31].getD month 0

/-- The days of the year in front of a month. -/
def daysBeforeMonth (leap : Bool) (month : ℕ) : ℕ :=
  [0, 0, 31, 59, 90, 120, 151, 181, 212, 243, 273, 304, 334].getD month 0 +
    if 2 < month ∧ leap then 1 else 0

/-- The fields name a day. -/
def IsDate (year month day : ℕ) : Prop :=
  1 ≤ year ∧ (1 ≤ month ∧ month ≤ 12) ∧ 1 ≤ day ∧ day ≤ daysInMonth (isLeap year) month

instance (year month day : ℕ) : Decidable (IsDate year month day) :=
  inferInstanceAs (Decidable (_ ∧ _))

/-- The number of a day. -/
def toOrdinal (year month day : ℕ) : ℕ :=
  daysBeforeYear year + daysBeforeMonth (isLeap year) month + day

/-- The month and the day with a number in their year, counted from 0. -/
def monthDay (leap : Bool) (n : ℕ) : ℕ × ℕ :=
  let month := (n + 50) / 32
  let month := if n < daysBeforeMonth leap month then month - 1 else month
  (month, n - daysBeforeMonth leap month + 1)

/-- The date with a number. -/
def ofOrdinal (n : ℕ) : ℕ × ℕ × ℕ :=
  let n := n - 1
  let n400 := n / 146097
  let n := n % 146097
  let n100 := n / 36524
  let n := n % 36524
  let n4 := n / 1461
  let n := n % 1461
  let n1 := n / 365
  let n := n % 365
  let year := n400 * 400 + 1 + (n100 * 100 + n4 * 4 + n1)
  if n1 = 4 ∨ n100 = 4 then (year - 1, 12, 31)
  else (year, monthDay (n1 = 3 && (n4 ≠ 24 || n100 = 3)) n)

/-! ## The days of a year -/

/-- **A day of a year** is a day of one of its months. -/
theorem monthDay_spec (leap : Bool) {n : ℕ} (h : n < 365 + leap.toNat) :
    (1 ≤ (monthDay leap n).1 ∧ (monthDay leap n).1 ≤ 12) ∧
      (1 ≤ (monthDay leap n).2 ∧ (monthDay leap n).2 ≤ daysInMonth leap (monthDay leap n).1) ∧
      daysBeforeMonth leap (monthDay leap n).1 + (monthDay leap n).2 = n + 1 := by
  have hall : ∀ leap : Bool, ∀ n < 365 + leap.toNat,
      (1 ≤ (monthDay leap n).1 ∧ (monthDay leap n).1 ≤ 12) ∧
      (1 ≤ (monthDay leap n).2 ∧ (monthDay leap n).2 ≤ daysInMonth leap (monthDay leap n).1) ∧
      daysBeforeMonth leap (monthDay leap n).1 + (monthDay leap n).2 = n + 1 := by
    decide +kernel
  exact hall leap n h

/-- The months follow each other. -/
theorem daysBeforeMonth_add_le (leap : Bool) {month month' : ℕ} (h : month < month')
    (hle : month' ≤ 12) :
    daysBeforeMonth leap month + daysInMonth leap month ≤ daysBeforeMonth leap month' := by
  have hall : ∀ leap : Bool, ∀ m' ≤ 12, ∀ m < m',
      daysBeforeMonth leap m + daysInMonth leap m ≤ daysBeforeMonth leap m' := by
    decide +kernel
  exact hall leap month' hle month h

theorem daysBeforeMonth_add_daysInMonth_le (leap : Bool) {month : ℕ} (h : month ≤ 12) :
    daysBeforeMonth leap month + daysInMonth leap month ≤ 365 + leap.toNat := by
  have hall : ∀ leap : Bool, ∀ m ≤ 12,
      daysBeforeMonth leap m + daysInMonth leap m ≤ 365 + leap.toNat := by
    decide +kernel
  exact hall leap month h

/-! ## The years -/

theorem toNat_isLeap (year : ℕ) :
    (isLeap year).toNat = if year % 4 = 0 ∧ (year % 100 ≠ 0 ∨ year % 400 = 0) then 1 else 0 := by
  have hiff : isLeap year = true ↔ year % 4 = 0 ∧ (year % 100 ≠ 0 ∨ year % 400 = 0) := by
    simp [isLeap]
  split_ifs with hyear
  · rw [hiff.mpr hyear, Bool.toNat_true]
  · rw [Bool.eq_false_iff.mpr (mt hiff.mp hyear), Bool.toNat_false]

theorem daysBeforeYear_succ {year : ℕ} (h : 1 ≤ year) :
    daysBeforeYear (year + 1) = daysBeforeYear year + 365 + (isLeap year).toNat := by
  obtain ⟨k, rfl⟩ : ∃ k, year = k + 1 := ⟨year - 1, by omega⟩
  rw [toNat_isLeap]
  unfold daysBeforeYear
  simp only [Nat.add_sub_cancel]
  have h4 : (k + 1) / 4 = k / 4 + if (k + 1) % 4 = 0 then 1 else 0 := by
    split_ifs <;> omega
  have h100 : (k + 1) / 100 = k / 100 + if (k + 1) % 100 = 0 then 1 else 0 := by
    split_ifs <;> omega
  have h400 : (k + 1) / 400 = k / 400 + if (k + 1) % 400 = 0 then 1 else 0 := by
    split_ifs <;> omega
  have hsub : k / 100 ≤ k * 365 + k / 4 := by omega
  have hdvd : (k + 1) % 400 = 0 → (k + 1) % 100 = 0 := by omega
  have hdvd' : (k + 1) % 100 = 0 → (k + 1) % 4 = 0 := by omega
  rw [h4, h100, h400]
  generalize k / 100 = c at hsub
  generalize k / 4 = q at hsub
  by_cases h4 : (k + 1) % 4 = 0
  · by_cases h100 : (k + 1) % 100 = 0
    · by_cases h400 : (k + 1) % 400 = 0
      · simp only [h4, h100, h400, if_true, true_and, or_true]
        omega
      · simp only [h4, h100, h400, if_true, if_false, true_and, ne_eq, not_true, or_self]
        omega
    · simp only [h4, h100, mt hdvd h100, if_true, if_false, ne_eq, not_false_iff, true_or,
        true_and]
      omega
  · simp only [h4, mt hdvd' h4, mt (hdvd' ∘ hdvd) h4, if_false, false_and]
    omega

/-- The years follow each other. -/
theorem daysBeforeYear_le {year year' : ℕ} (hpos : 1 ≤ year) (h : year < year') :
    daysBeforeYear year + 365 + (isLeap year).toNat ≤ daysBeforeYear year' := by
  induction h with
  | refl => exact Nat.le_of_eq (daysBeforeYear_succ hpos).symm
  | @step year' hle ih =>
      have hnext := daysBeforeYear_succ (Nat.le_trans hpos (Nat.le_of_succ_le hle))
      show daysBeforeYear year + 365 + (isLeap year).toNat ≤ daysBeforeYear (year' + 1)
      omega

/-! ## The numbers of the dates -/

/-- **The numbers go up with the dates.** -/
theorem toOrdinal_lt {y m d y' m' d' : ℕ} (h : IsDate y m d) (h' : IsDate y' m' d')
    (hlt : y < y' ∨ y = y' ∧ (m < m' ∨ m = m' ∧ d < d')) :
    toOrdinal y m d < toOrdinal y' m' d' := by
  obtain ⟨hy, ⟨-, hm⟩, -, hd⟩ := h
  obtain ⟨-, ⟨-, hm'⟩, hd', -⟩ := h'
  unfold toOrdinal
  rcases hlt with hlt | ⟨rfl, hlt | ⟨rfl, hlt⟩⟩
  · have hyear := daysBeforeYear_le hy hlt
    have hmonth := daysBeforeMonth_add_daysInMonth_le (isLeap y) hm
    omega
  · have hmonth := daysBeforeMonth_add_le (isLeap y) hlt hm'
    omega
  · omega

/-- The parts of a number: whole periods of 400, 100, 4 years and one year, and a day. -/
theorem daysBeforeYear_parts {a b c d : ℕ} (hb : b ≤ 3) (hc : c ≤ 24) (hd : d ≤ 3) :
    daysBeforeYear (a * 400 + 1 + (b * 100 + c * 4 + d)) =
        146097 * a + 36524 * b + 1461 * c + 365 * d ∧
      isLeap (a * 400 + 1 + (b * 100 + c * 4 + d)) = (d = 3 && (c ≠ 24 || b = 3)) := by
  constructor
  · unfold daysBeforeYear
    omega
  · unfold isLeap
    rw [Bool.eq_iff_iff]
    simp only [ne_eq, decide_not, Bool.and_eq_true, decide_eq_true_eq, Bool.or_eq_true,
      Bool.not_eq_true', decide_eq_false_iff_not]
    omega

/-- **A number is that of its date.** -/
theorem ofOrdinal_spec {n : ℕ} (h : 1 ≤ n) :
    IsDate (ofOrdinal n).1 (ofOrdinal n).2.1 (ofOrdinal n).2.2 ∧
      toOrdinal (ofOrdinal n).1 (ofOrdinal n).2.1 (ofOrdinal n).2.2 = n := by
  obtain ⟨k, rfl⟩ : ∃ k, n = k + 1 := ⟨n - 1, by omega⟩
  unfold ofOrdinal
  simp only [Nat.add_sub_cancel]
  generalize ha : k / 146097 = a
  generalize hb : k % 146097 / 36524 = b
  generalize hc : k % 146097 % 36524 / 1461 = c
  generalize hd : k % 146097 % 36524 % 1461 / 365 = d
  generalize hr : k % 146097 % 36524 % 1461 % 365 = r
  have hk : k = 146097 * a + 36524 * b + 1461 * c + 365 * d + r := by omega
  split_ifs with hlast
  · -- the last day of a leap year
    have hparts : ∃ a' b' c', b' ≤ 3 ∧ c' ≤ 24 ∧ (c' ≠ 24 ∨ b' = 3) ∧
        a * 400 + 1 + (b * 100 + c * 4 + d) - 1 = a' * 400 + 1 + (b' * 100 + c' * 4 + 3) ∧
        k = 146097 * a' + 36524 * b' + 1461 * c' + 1460 := by
      rcases hlast with rfl | rfl
      · exact ⟨a, b, c, by omega, by omega, by omega, by omega, by omega⟩
      · exact ⟨a, 3, 24, by omega, by omega, by omega, by omega, by omega⟩
    obtain ⟨a', b', c', hb', hc', hleap, hyear, hk'⟩ := hparts
    obtain ⟨hbefore, hisLeap⟩ := daysBeforeYear_parts (a := a') hb' hc' (Nat.le_refl 3)
    have htrue : isLeap (a' * 400 + 1 + (b' * 100 + c' * 4 + 3)) = true := by
      rw [hisLeap]
      rcases hleap with hleap | hleap <;> simp [hleap]
    rw [hyear]
    refine ⟨⟨Nat.le_trans (Nat.le_add_left _ _) (Nat.le_add_right _ _), ?_⟩, ?_⟩
    · show (1 ≤ 12 ∧ 12 ≤ 12) ∧ 1 ≤ 31 ∧ 31 ≤ daysInMonth _ 12
      rw [htrue]
      decide
    · have hmonth : daysBeforeMonth true 12 = 335 := by decide
      show daysBeforeYear _ + daysBeforeMonth _ 12 + 31 = k + 1
      rw [hbefore, htrue, hmonth]
      omega
  · obtain ⟨hbefore, hisLeap⟩ := daysBeforeYear_parts (a := a) (b := b) (c := c) (d := d)
      (by omega) (by omega) (by omega)
    have hday : r < 365 + (isLeap (a * 400 + 1 + (b * 100 + c * 4 + d))).toNat := by omega
    obtain ⟨hmonth, hdays, hsum⟩ := monthDay_spec _ hday
    rw [hisLeap] at hmonth hdays hsum
    refine ⟨⟨by omega, hmonth, ?_⟩, ?_⟩
    · rw [hisLeap]
      exact hdays
    · show daysBeforeYear _ + daysBeforeMonth _ (monthDay _ r).1 + (monthDay _ r).2 = k + 1
      rw [hbefore, hisLeap]
      omega

end Foundations
end MigrationStudio

import Mathlib.Algebra.Order.Field.Power
import Mathlib.Algebra.Order.Round
import Mathlib.Data.Int.Log
import Mathlib.Data.Rat.Floor
import Mathlib.Tactic.FieldSimp
import Mathlib.Tactic.Linarith
import Mathlib.Tactic.Positivity

/-!
# Rounding to double precision

A finite double is a multiple of a power of two with at most 53 binary digits.  A rational number is
rounded to a nearest one, and of two to the one whose last digit is even.  What is too large for a
double is not treated here: the rounded number is then not smaller than `overflowBound`.

* `roundHalfEven`: a nearest integer, of two the even one.
* `lastExponent`, `roundDouble`: the place of the last binary digit, and the rounding.
* `roundDouble_mono`: rounding keeps the order.
* `roundMagnitude_eq_of_near`: what is near a double is rounded to it.
* `Double`, `Float64`: the finite doubles, and all of them.
-/

namespace MigrationStudio
namespace Foundations

/-- A nearest integer, of two the even one. -/
def roundHalfEven (q : ℚ) : ℤ :=
  if q - ⌊q⌋ < 1 / 2 then ⌊q⌋
  else if 1 / 2 < q - ⌊q⌋ then ⌊q⌋ + 1
  else if ⌊q⌋ % 2 = 0 then ⌊q⌋ else ⌊q⌋ + 1

/-- The exponent of the last binary digit of a double of this magnitude. -/
def lastExponent (q : ℚ) : ℤ := max (Int.log 2 q - 52) (-1074)

def roundMagnitude (q : ℚ) : ℚ := roundHalfEven (q / 2 ^ lastExponent q) * 2 ^ lastExponent q

/-- The double that a number is rounded to. -/
def roundDouble (q : ℚ) : ℚ := if q < 0 then -roundMagnitude (-q) else roundMagnitude q

/-- A number that is rounded to this or more in magnitude is infinite as a double. -/
def overflowBound : ℚ := 2 ^ 1024

/-! ## To an integer -/

variable {q r : ℚ} {n : ℤ}

/-- The rounded number is one of the two integers around the number. -/
theorem floor_le_roundHalfEven (q : ℚ) : ⌊q⌋ ≤ roundHalfEven q ∧ roundHalfEven q ≤ ⌊q⌋ + 1 := by
  unfold roundHalfEven
  split_ifs
  · omega
  · omega
  · omega
  · omega

@[simp] theorem roundHalfEven_intCast (n : ℤ) : roundHalfEven n = n := by
  unfold roundHalfEven
  rw [Int.floor_intCast, sub_self, if_pos (by norm_num)]

/-- **Rounding to an integer keeps the order.** -/
theorem roundHalfEven_mono (h : q ≤ r) : roundHalfEven q ≤ roundHalfEven r := by
  rcases (Int.floor_mono h).lt_or_eq with hlt | heq
  · have hq := (floor_le_roundHalfEven q).2
    have hr := (floor_le_roundHalfEven r).1
    omega
  · unfold roundHalfEven
    rw [heq]
    split_ifs
    all_goals first | omega | linarith

theorem le_roundHalfEven (h : (n : ℚ) ≤ q) : n ≤ roundHalfEven q := by
  have hmono := roundHalfEven_mono h
  rwa [roundHalfEven_intCast] at hmono

theorem roundHalfEven_le (h : q ≤ n) : roundHalfEven q ≤ n := by
  have hmono := roundHalfEven_mono h
  rwa [roundHalfEven_intCast] at hmono

/-- The rounded number is at most one half away. -/
theorem abs_roundHalfEven_sub_le (q : ℚ) : |(roundHalfEven q : ℚ) - q| ≤ 1 / 2 := by
  have hle := Int.floor_le q
  have hlt := Int.lt_floor_add_one q
  unfold roundHalfEven
  split_ifs
  all_goals
    rw [abs_le]
    push_cast
    constructor
  all_goals linarith

/-- What is less than one half away from an integer is rounded to it. -/
theorem roundHalfEven_eq_of_abs_lt (h : |q - n| < 1 / 2) : roundHalfEven q = n := by
  have hround := abs_roundHalfEven_sub_le q
  rw [abs_le] at hround
  rw [abs_lt] at h
  have hlow : ((roundHalfEven q : ℤ) : ℚ) < (n : ℚ) + 1 := by linarith
  have hhigh : (n : ℚ) < (roundHalfEven q : ℚ) + 1 := by linarith
  have hlow' : roundHalfEven q < n + 1 := by exact_mod_cast hlow
  have hhigh' : n < roundHalfEven q + 1 := by exact_mod_cast hhigh
  omega

/-! ## To a double -/

theorem two_zpow_pos (e : ℤ) : (0 : ℚ) < 2 ^ e := zpow_pos (by norm_num) e

theorem lastExponent_mono (hq : 0 < q) (h : q ≤ r) : lastExponent q ≤ lastExponent r := by
  have hlog := Int.log_mono_right (b := 2) hq h
  unfold lastExponent
  omega

@[simp] theorem roundMagnitude_zero : roundMagnitude 0 = 0 := by
  have hint := roundHalfEven_intCast 0
  rw [Int.cast_zero] at hint
  rw [roundMagnitude, zero_div, hint, Int.cast_zero, zero_mul]

theorem roundMagnitude_nonneg (h : 0 ≤ q) : 0 ≤ roundMagnitude q := by
  have hint : (0 : ℤ) ≤ roundHalfEven (q / 2 ^ lastExponent q) :=
    le_roundHalfEven (by simpa using div_nonneg h (two_zpow_pos _).le)
  exact mul_nonneg (by exact_mod_cast hint) (two_zpow_pos _).le

theorem zpow_eq_mul_zpow {e e' : ℤ} (h : e' ≤ e) :
    (2 : ℚ) ^ e = ((2 ^ (e - e').toNat : ℤ) : ℚ) * 2 ^ e' := by
  have hexp : e = ((e - e').toNat : ℤ) + e' := by omega
  conv_lhs => rw [hexp, zpow_add₀ (by norm_num), zpow_natCast]
  push_cast
  rfl

/-- A power of two that is not below the last digit bounds the rounded number as the number. -/
theorem roundMagnitude_le_zpow {e : ℤ} (he : lastExponent q ≤ e) (h : q ≤ 2 ^ e) :
    roundMagnitude q ≤ 2 ^ e := by
  rw [zpow_eq_mul_zpow he] at h ⊢
  have hint := roundHalfEven_le ((div_le_iff₀ (two_zpow_pos _)).mpr h)
  exact mul_le_mul_of_nonneg_right (by exact_mod_cast hint) (two_zpow_pos _).le

theorem zpow_le_roundMagnitude {e : ℤ} (he : lastExponent q ≤ e) (h : 2 ^ e ≤ q) :
    2 ^ e ≤ roundMagnitude q := by
  rw [zpow_eq_mul_zpow he] at h ⊢
  have hint := le_roundHalfEven ((le_div_iff₀ (two_zpow_pos _)).mpr h)
  exact mul_le_mul_of_nonneg_right (by exact_mod_cast hint) (two_zpow_pos _).le

/-- **Rounding keeps the order** of magnitudes: numbers of one last digit are rounded as integers,
and a power of two stands between the others. -/
theorem roundMagnitude_mono (hq : 0 ≤ q) (h : q ≤ r) : roundMagnitude q ≤ roundMagnitude r := by
  rcases hq.eq_or_lt with rfl | hq
  · rw [roundMagnitude_zero]
    exact roundMagnitude_nonneg h
  · rcases (lastExponent_mono hq h).lt_or_eq with hlt | heq
    · have hlog : Int.log 2 q < Int.log 2 r := by
        unfold lastExponent at hlt
        omega
      have hexp : lastExponent r = Int.log 2 r - 52 := by
        unfold lastExponent at hlt ⊢
        omega
      have hr : (2 : ℚ) ^ Int.log 2 r ≤ r := Int.zpow_log_le_self (by norm_num) (hq.trans_le h)
      have hqr : q ≤ 2 ^ Int.log 2 r := by
        refine (Int.lt_zpow_succ_log_self (b := 2) (by norm_num) q).le.trans ?_
        exact zpow_le_zpow_right₀ (by norm_num) (by omega)
      exact (roundMagnitude_le_zpow (by omega) hqr).trans
        (zpow_le_roundMagnitude (by omega) hr)
    · have hint : roundHalfEven (q / 2 ^ lastExponent q) ≤
          roundHalfEven (r / 2 ^ lastExponent r) := by
        rw [heq]
        exact roundHalfEven_mono (div_le_div_of_nonneg_right h (two_zpow_pos _).le)
      rw [roundMagnitude, roundMagnitude, heq]
      rw [heq] at hint
      exact mul_le_mul_of_nonneg_right (by exact_mod_cast hint) (two_zpow_pos _).le

theorem roundDouble_nonneg (h : 0 ≤ q) : 0 ≤ roundDouble q := by
  rw [roundDouble, if_neg (not_lt.mpr h)]
  exact roundMagnitude_nonneg h

theorem roundDouble_nonpos (h : q ≤ 0) : roundDouble q ≤ 0 := by
  rcases h.eq_or_lt with rfl | hlt
  · rw [roundDouble, if_neg (lt_irrefl 0), roundMagnitude_zero]
  · rw [roundDouble, if_pos hlt]
    exact neg_nonpos.mpr (roundMagnitude_nonneg (neg_nonneg.mpr h))

/-- **Rounding keeps the order.** -/
theorem roundDouble_mono (h : q ≤ r) : roundDouble q ≤ roundDouble r := by
  rcases lt_or_ge q 0 with hq | hq
  · rcases lt_or_ge r 0 with hr | hr
    · rw [roundDouble, roundDouble, if_pos hq, if_pos hr]
      exact neg_le_neg (roundMagnitude_mono (neg_nonneg.mpr hr.le) (neg_le_neg h))
    · exact (roundDouble_nonpos hq.le).trans (roundDouble_nonneg hr)
  · rw [roundDouble, roundDouble, if_neg (not_lt.mpr hq), if_neg (not_lt.mpr (hq.trans h))]
    exact roundMagnitude_mono hq h

/-- **What is close to a double** is rounded to it: to a multiple of the last digit that is less
than one half of it away. -/
theorem roundMagnitude_eq_of_close {n : ℤ} (h : |q - n * 2 ^ lastExponent q| <
    2 ^ lastExponent q / 2) : roundMagnitude q = n * 2 ^ lastExponent q := by
  have hpos := two_zpow_pos (lastExponent q)
  have hint : roundHalfEven (q / 2 ^ lastExponent q) = n := by
    refine roundHalfEven_eq_of_abs_lt ?_
    have hsub : q / 2 ^ lastExponent q - n =
        (q - n * 2 ^ lastExponent q) / 2 ^ lastExponent q := by
      field_simp
    rw [hsub, abs_div, abs_of_pos hpos, div_lt_iff₀ hpos]
    linarith
  rw [roundMagnitude, hint]

theorem roundMagnitude_eq_self {n : ℤ} (h : q = n * 2 ^ lastExponent q) : roundMagnitude q = q := by
  rw [roundMagnitude_eq_of_close (n := n), ← h]
  rw [← h, sub_self, abs_zero]
  exact half_pos (two_zpow_pos _)

/-- A number near a double has the same last digit, or the next one where the double is a power of
two. -/
theorem lastExponent_of_near {x : ℚ} {m e : ℤ} (he : lastExponent x = e) (hm : x = m * 2 ^ e)
    (hpos : 0 < x) (h : |q - x| < 2 ^ e / 4) : e - 1 ≤ lastExponent q ∧ lastExponent q ≤ e := by
  obtain ⟨hlow, hhigh⟩ := abs_lt.mp h
  have hunit := two_zpow_pos e
  have hlog : Int.log 2 x ≤ e + 52 ∧ -1074 ≤ e := by
    unfold lastExponent at he
    omega
  have hone : (1 : ℚ) ≤ m := by
    have hprod : 0 < (m : ℚ) * 2 ^ e := by linarith
    exact_mod_cast pos_of_mul_pos_left hprod hunit.le
  have hq : 0 < q := by
    have hle := mul_le_mul_of_nonneg_right hone hunit.le
    linarith
  constructor
  · rcases le_or_gt e (-1074) with hsmall | hlarge
    · have hge : -1074 ≤ lastExponent q := le_max_right _ _
      omega
    · have hx : (2 : ℚ) ^ (e + 52) ≤ x := by
        have hexp : Int.log 2 x = e + 52 := by
          unfold lastExponent at he
          omega
        rw [← hexp]
        exact Int.zpow_log_le_self (by norm_num) hpos
      have hle : (2 : ℚ) ^ (e + 51) ≤ q := by
        rw [zpow_add₀ (by norm_num)] at hx ⊢
        norm_num at hx ⊢
        linarith
      have hlogq := (Int.zpow_le_iff_le_log (b := 2) (by norm_num) hq).mp hle
      have hge : Int.log 2 q - 52 ≤ lastExponent q := le_max_left _ _
      omega
  · have hx : x + 2 ^ e ≤ 2 ^ (e + 53) := by
      have hlt : x < 2 ^ (e + 53) :=
        (Int.lt_zpow_iff_log_lt (b := 2) (by norm_num) hpos).mpr (by omega)
      have hpow : (2 : ℚ) ^ (e + 53) = ((2 ^ (e + 53 - e).toNat : ℤ) : ℚ) * 2 ^ e :=
        zpow_eq_mul_zpow (by omega)
      rw [hpow, hm] at hlt
      have hnext : (m : ℚ) + 1 ≤ ((2 ^ (e + 53 - e).toNat : ℤ) : ℚ) := by
        exact_mod_cast lt_of_mul_lt_mul_right hlt hunit.le
      have hmul := mul_le_mul_of_nonneg_right hnext hunit.le
      linarith
    have hlt : q < 2 ^ (e + 53) := by linarith
    have hlogq := (Int.lt_zpow_iff_log_lt (b := 2) (by norm_num) hq).mp hlt
    unfold lastExponent
    omega

/-- **What is near a double** is rounded to it: what is less than a quarter of its last digit
away. -/
theorem roundMagnitude_eq_of_near {x : ℚ} (hx : roundMagnitude x = x) (hpos : 0 < x)
    (h : |q - x| < 2 ^ lastExponent x / 4) : roundMagnitude q = x := by
  obtain ⟨m, hm⟩ : ∃ m : ℤ, x = m * 2 ^ lastExponent x := ⟨_, hx.symm⟩
  obtain ⟨hge, hle⟩ := lastExponent_of_near rfl hm hpos h
  have hlast : x = ((m * 2 ^ (lastExponent x - lastExponent q).toNat : ℤ) : ℚ) *
      2 ^ lastExponent q := by
    have hpow := zpow_eq_mul_zpow hle
    calc x = m * 2 ^ lastExponent x := hm
      _ = _ := by rw [hpow, ← mul_assoc, Int.cast_mul]
  have hunit : (2 : ℚ) ^ lastExponent x / 4 ≤ 2 ^ lastExponent q / 2 := by
    have hpow : (2 : ℚ) ^ lastExponent x ≤ 2 ^ (lastExponent q + 1) :=
      zpow_le_zpow_right₀ (by norm_num) (by omega)
    rw [zpow_add_one₀ (by norm_num)] at hpow
    linarith
  rw [roundMagnitude_eq_of_close (n := m * 2 ^ (lastExponent x - lastExponent q).toNat), ← hlast]
  rw [← hlast]
  exact h.trans_le hunit

/-- **A rounded number is a double**: a multiple of its own last digit. -/
theorem exists_roundMagnitude_eq (h : 0 ≤ q) :
    ∃ n : ℤ, roundMagnitude q = n * 2 ^ lastExponent (roundMagnitude q) := by
  rcases (roundMagnitude_nonneg h).eq_or_lt with hzero | hpos
  · exact ⟨0, by rw [← hzero, Int.cast_zero, zero_mul]⟩
  rcases le_or_gt (lastExponent (roundMagnitude q)) (lastExponent q) with hle | hgt
  · have hround : roundMagnitude q =
        roundHalfEven (q / 2 ^ lastExponent q) * 2 ^ lastExponent q := rfl
    generalize roundHalfEven (q / 2 ^ lastExponent q) = m at hround
    refine ⟨m * 2 ^ (lastExponent q - lastExponent (roundMagnitude q)).toNat, ?_⟩
    rw [zpow_eq_mul_zpow hle, ← mul_assoc] at hround
    exact_mod_cast hround
  · -- the number was rounded up to a power of two
    have hlog : Int.log 2 (roundMagnitude q) - 52 > lastExponent q ∧
        lastExponent (roundMagnitude q) = Int.log 2 (roundMagnitude q) - 52 := by
      unfold lastExponent at hgt ⊢
      omega
    have hqlog : Int.log 2 q - 52 ≤ lastExponent q := le_max_left _ _
    have hupper : roundMagnitude q ≤ 2 ^ Int.log 2 (roundMagnitude q) := by
      refine roundMagnitude_le_zpow (by omega) ?_
      refine (Int.lt_zpow_succ_log_self (b := 2) (by norm_num) q).le.trans ?_
      exact zpow_le_zpow_right₀ (by norm_num) (by omega)
    have hlower : (2 : ℚ) ^ Int.log 2 (roundMagnitude q) ≤ roundMagnitude q :=
      Int.zpow_log_le_self (by norm_num) hpos
    refine ⟨2 ^ 52, ?_⟩
    rw [hlog.2, zpow_sub₀ (by norm_num)]
    have heq := le_antisymm hupper hlower
    push_cast
    rw [mul_div_cancel₀]
    · exact heq
    · norm_num

/-- **Rounding is over after once.** -/
theorem roundDouble_roundDouble (q : ℚ) : roundDouble (roundDouble q) = roundDouble q := by
  have hmagnitude : ∀ q : ℚ, 0 ≤ q → roundMagnitude (roundMagnitude q) = roundMagnitude q := by
    intro q hq
    obtain ⟨n, hn⟩ := exists_roundMagnitude_eq hq
    exact roundMagnitude_eq_self hn
  unfold roundDouble
  by_cases hq : q < 0
  · have hnonneg := roundMagnitude_nonneg (neg_nonneg.mpr hq.le)
    rw [if_pos hq]
    split_ifs with hneg
    · rw [neg_neg, hmagnitude _ (neg_nonneg.mpr hq.le)]
    · have hzero : roundMagnitude (-q) = 0 := by linarith
      rw [hzero, neg_zero, roundMagnitude_zero]
  · rw [if_neg hq, if_neg (not_lt.mpr (roundMagnitude_nonneg (not_lt.mp hq))),
      hmagnitude _ (not_lt.mp hq)]

/-! ## The doubles -/

/-- A finite double. -/
structure Double where
  value : ℚ
  rounded : roundDouble value = value
  deriving DecidableEq

/-- A double. -/
inductive Float64 where
  | nan
  | inf (negative : Bool)
  | finite (d : Double)
  deriving DecidableEq

/-- The double that a number is rounded to, which may be infinite. -/
def Float64.ofRat (q : ℚ) : Float64 :=
  if overflowBound ≤ |roundDouble q| then .inf (q < 0)
  else .finite ⟨roundDouble q, roundDouble_roundDouble q⟩

theorem Float64.ofRat_of_rounded {d : Double} (h : |d.value| < overflowBound)
    (hq : roundDouble q = d.value) : Float64.ofRat q = .finite d := by
  obtain ⟨value, rounded⟩ := d
  obtain rfl : roundDouble q = value := hq
  exact if_neg (not_le.mpr h)

end Foundations
end MigrationStudio

import Mathlib.Algebra.Order.Field.Power
import Mathlib.Data.Int.Log
import Mathlib.Data.Rat.Floor
import Mathlib.Tactic.Positivity

/-!
# Machinery/Binary64 — rounding to 53 bits

Rational numbers take the place of floating-point numbers, and every operation rounds its exact result to 53
significant bits, to nearest and ties to even.  The range of exponents is left out: what is rounded here is
neither huge nor tiny.
-/

namespace MLton.Binary64

/-- The nearest integer, and the even one of two. -/
def roundEven (x : ℚ) : ℤ :=
  let r := x - ⌊x⌋
  if r < 1 / 2 then ⌊x⌋ else if 1 / 2 < r then ⌊x⌋ + 1 else if ⌊x⌋ % 2 = 0 then ⌊x⌋ else ⌊x⌋ + 1

/-- Round to 53 significant bits. -/
def round (x : ℚ) : ℚ :=
  let ulp : ℚ := 2 ^ (Int.log 2 |x| - 52)
  roundEven (x / ulp) * ulp

def ofNat (n : ℕ) : ℚ := round n

def mul (x y : ℚ) : ℚ := round (x * y)

def div (x y : ℚ) : ℚ := round (x / y)

def sub (x y : ℚ) : ℚ := round (x - y)

/-! ## The error -/

theorem abs_roundEven_sub_le (x : ℚ) : |(roundEven x : ℚ) - x| ≤ 1 / 2 := by
  have hle := Int.floor_le x
  have hlt := Int.lt_floor_add_one x
  rw [roundEven]
  split_ifs with h h' h''
  all_goals
    push_cast
    rw [abs_le]
    constructor <;> linarith

/-- Half a unit in the last place. -/
theorem abs_round_sub_le_log (x : ℚ) : |round x - x| ≤ 2 ^ (Int.log 2 |x| - 53) := by
  have hulp : (0 : ℚ) < 2 ^ (Int.log 2 |x| - 52) := by positivity
  have hx : round x - x = (roundEven (x / 2 ^ (Int.log 2 |x| - 52)) - x / 2 ^ (Int.log 2 |x| - 52)) *
      2 ^ (Int.log 2 |x| - 52) := by
    rw [round]
    field_simp
  have hhalf : (2 : ℚ) ^ (Int.log 2 |x| - 53) = 1 / 2 * 2 ^ (Int.log 2 |x| - 52) := by
    rw [show Int.log 2 |x| - 53 = -1 + (Int.log 2 |x| - 52) by ring, zpow_add₀ (by norm_num)]
    norm_num
  rw [hx, hhalf, abs_mul, abs_of_pos hulp]
  exact mul_le_mul_of_nonneg_right (abs_roundEven_sub_le _) hulp.le

@[simp] theorem round_zero : round 0 = 0 := by
  simp [round, roundEven]

/-- **The error below a power of two.** -/
theorem abs_round_sub_le {x : ℚ} {e : ℤ} (h : |x| < 2 ^ e) : |round x - x| ≤ 2 ^ (e - 54) := by
  obtain rfl | hne := eq_or_ne x 0
  · rw [round_zero, sub_zero, abs_zero]
    positivity
  · have hlog : Int.log 2 |x| < e := by
      have := Int.zpow_log_le_self (b := 2) (by norm_num) (abs_pos.mpr hne)
      push_cast at this
      exact (zpow_lt_zpow_iff_right₀ (by norm_num)).mp (this.trans_lt h)
    refine (abs_round_sub_le_log x).trans ((zpow_le_zpow_iff_right₀ (by norm_num)).mpr ?_)
    omega

/-- **The relative error.** -/
theorem abs_round_sub_le_mul (x : ℚ) : |round x - x| ≤ 2 ^ (-53 : ℤ) * |x| := by
  obtain rfl | hne := eq_or_ne x 0
  · rw [round_zero, sub_zero, abs_zero, mul_zero]
  · refine (abs_round_sub_le_log x).trans ?_
    have hle := Int.zpow_log_le_self (b := 2) (by norm_num) (abs_pos.mpr hne)
    push_cast at hle
    rw [show Int.log 2 |x| - 53 = -53 + Int.log 2 |x| by ring, zpow_add₀ (by norm_num)]
    exact mul_le_mul_of_nonneg_left hle (by positivity)

/-- The relative error of what is not negative. -/
theorem abs_round_sub_le_div {x : ℚ} (h : 0 ≤ x) : |round x - x| ≤ x / 2 ^ 53 := by
  refine (abs_round_sub_le_mul x).trans_eq ?_
  rw [abs_of_nonneg h, div_eq_inv_mul, zpow_neg]
  norm_num

/-- The error of what is not negative, below a power of two that is large. -/
theorem abs_round_sub_le_pow {x : ℚ} (n : ℕ) (h : 0 ≤ x) (hlt : x < 2 ^ n * 2 ^ 54) :
    |round x - x| ≤ 2 ^ n := by
  have hlt' : |x| < 2 ^ ((n : ℤ) + 54) := by
    rw [abs_of_nonneg h, zpow_add₀ (by norm_num), zpow_natCast]
    exact hlt
  refine (abs_round_sub_le hlt').trans_eq ?_
  rw [add_sub_cancel_right, zpow_natCast]

theorem round_nonneg {x : ℚ} (h : 0 ≤ x) : 0 ≤ round x := by
  have hle := (abs_le.mp (abs_round_sub_le_div h)).1
  have hdiv : x / 2 ^ 53 ≤ x := div_le_self h (by norm_num)
  linarith

@[simp] theorem roundEven_intCast (n : ℤ) : roundEven n = n := by
  simp [roundEven]

/-- **A number of at most 53 bits is kept.** -/
theorem ofNat_eq {n : ℕ} (h : n < 2 ^ 53) : ofNat n = n := by
  have hlog : Nat.log 2 n ≤ 52 := by
    obtain rfl | hne := Nat.eq_zero_or_pos n
    · simp
    · have := (Nat.log_lt_iff_lt_pow (by norm_num) hne.ne').mpr h
      omega
  have hpow : (n : ℚ) / 2 ^ ((Nat.log 2 n : ℤ) - 52) = ((n * 2 ^ (52 - Nat.log 2 n) : ℕ) : ℤ) := by
    rw [show ((Nat.log 2 n : ℤ) - 52) = -((52 - Nat.log 2 n : ℕ) : ℤ) by omega, zpow_neg, zpow_natCast]
    push_cast
    field_simp
  rw [ofNat, round, Nat.abs_cast, Int.log_natCast]
  rw [hpow, roundEven_intCast, ← hpow]
  field_simp

end MLton.Binary64

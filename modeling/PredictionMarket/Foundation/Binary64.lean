import Mathlib.Data.Rat.Floor
import Mathlib.Data.Int.Log
import Mathlib.Algebra.Order.Field.Basic
import Mathlib.Tactic.Linarith
import Mathlib.Tactic.FieldSimp
import Mathlib.Tactic.Ring

/-! Rounding to nearest, ties to even: to integers, and to numbers whose significand has so many
bits. The exponent has no limits. -/
namespace PredictionMarket.Foundation

/-- The nearest integer; a tie goes to the even one. -/
def nearest (x : ℚ) : Int :=
  let below := ⌊x⌋
  if x - below < 1 / 2 ∨ x - below = 1 / 2 ∧ below % 2 = 0 then below else below + 1

private theorem abs_nearest_sub_le (x : ℚ) : |nearest x - x| ≤ 1 / 2 := by
  have hlow := Int.floor_le x
  have hhigh := Int.lt_floor_add_one x
  rw [nearest, abs_le]
  split_ifs with h
  · have hhalf : x - ⌊x⌋ ≤ 1 / 2 := h.elim le_of_lt fun h => h.1.le
    constructor <;> linarith
  · have hhalf := not_lt.mp (not_or.mp h).1
    push_cast
    constructor <;> linarith

/-- An integer closer than a half is the nearest one. -/
theorem nearest_of_close {x : ℚ} {n : Int} (h : |x - n| < 1 / 2) : nearest x = n := by
  have herror := abs_nearest_sub_le x
  rw [abs_lt] at h
  rw [abs_le] at herror
  have hlow : ((n - 1 : Int) : ℚ) < nearest x := by
    push_cast
    linarith
  have hhigh : (nearest x : ℚ) < ((n + 1 : Int) : ℚ) := by
    push_cast
    linarith
  have := Int.cast_lt.mp hlow
  have := Int.cast_lt.mp hhigh
  omega

/-- The nearest number whose significand has so many bits. -/
def roundTo (precision : Nat) (x : ℚ) : ℚ :=
  let ulp := (2 : ℚ) ^ (Int.log 2 |x| + 1 - precision)
  nearest (x / ulp) * ulp

private theorem roundTo_error (precision : Nat) (x : ℚ) : |roundTo precision x - x| ≤ |x| / 2 ^ precision := by
  rcases eq_or_ne x 0 with rfl | hx
  · have hzero : nearest 0 = 0 := nearest_of_close (by norm_num)
    norm_num [roundTo, hzero]
  have hlog : (2 : ℚ) ^ Int.log 2 |x| ≤ |x| := Int.zpow_log_le_self one_lt_two (abs_pos.mpr hx)
  have hulp : (2 : ℚ) ^ (Int.log 2 |x| + 1 - precision) = 2 * 2 ^ Int.log 2 |x| / 2 ^ precision := by
    rw [zpow_sub₀ two_ne_zero, zpow_add_one₀ two_ne_zero, zpow_natCast, mul_comm]
  have hpos : (0 : ℚ) < 2 ^ (Int.log 2 |x| + 1 - precision) := zpow_pos two_pos _
  have hsplit (u : ℚ) (hu : 0 < u) : nearest (x / u) * u - x = (nearest (x / u) - x / u) * u := by
    field_simp
  rw [roundTo, hsplit _ hpos, abs_mul, abs_of_pos hpos]
  calc |(nearest (x / 2 ^ (Int.log 2 |x| + 1 - precision)) : ℚ) - x / 2 ^ (Int.log 2 |x| + 1 - precision)| *
        2 ^ (Int.log 2 |x| + 1 - precision)
      ≤ 1 / 2 * 2 ^ (Int.log 2 |x| + 1 - precision) := mul_le_mul_of_nonneg_right (abs_nearest_sub_le _) hpos.le
    _ = 2 ^ Int.log 2 |x| / 2 ^ precision := by
        rw [hulp]
        ring
    _ ≤ |x| / 2 ^ precision := div_le_div_of_nonneg_right hlog (by positivity)

/-- The nearest number of the format binary64. -/
def binary64 : ℚ → ℚ := roundTo 53

/-- Up to one the error is below a fixed bound. -/
theorem binary64_error {x : ℚ} (h : |x| ≤ 1) : |binary64 x - x| ≤ 1 / 2 ^ 53 :=
  (roundTo_error 53 x).trans (div_le_div_of_nonneg_right h (by positivity))

end PredictionMarket.Foundation

import Mathlib.Algebra.Order.Floor.Semifield
import Mathlib.Data.Rat.Floor
import Mathlib.Tactic.FieldSimp
import Mathlib.Tactic.LinearCombination
import Mathlib.Tactic.Linarith
import Mathlib.Tactic.Ring

/-! Decimal numerals as byte strings and the numbers they denote. Truncating or
rounding a denoted number only looks at a prefix of the padded fraction. -/
namespace PredictionMarket.Foundation.Decimal

/-- The ASCII digits. -/
def isDigit (b : UInt8) : Bool := 48 ≤ b && b ≤ 57

def digit (b : UInt8) : Nat := b.toNat - 48

/-- The byte of the digit zero. -/
def zeroByte : UInt8 := 48

def value (digits : List UInt8) : Nat := digits.foldl (fun n b => 10 * n + digit b) 0

def AllDigits (bytes : List UInt8) : Prop := ∀ b ∈ bytes, isDigit b = true

instance (bytes : List UInt8) : Decidable (AllDigits bytes) :=
  List.decidableBAll _ bytes

/-- Digits are the bytes from `0` to `9`. -/
theorem isDigit_iff {b : UInt8} : isDigit b = true ↔ 48 ≤ b.toNat ∧ b.toNat ≤ 57 := by
  simp [isDigit, UInt8.le_iff_toNat_le]

/-- A digit is at most nine. -/
theorem digit_le {b : UInt8} (h : isDigit b = true) : digit b ≤ 9 := by
  have := isDigit_iff.mp h
  unfold digit
  omega

@[simp] theorem digit_zeroByte : digit zeroByte = 0 := rfl

/-- The byte of zero is a digit. -/
theorem isDigit_zeroByte : isDigit zeroByte = true := rfl

@[simp] theorem value_nil : value [] = 0 := rfl

private theorem foldl_value (bytes : List UInt8) (n : Nat) :
    bytes.foldl (fun n b => 10 * n + digit b) n = n * 10^bytes.length + value bytes := by
  induction bytes generalizing n with
  | nil => simp
  | cons b bytes ih =>
    have hb : value (b :: bytes) = (10 * 0 + digit b) * 10^bytes.length + value bytes := ih _
    rw [List.foldl_cons, ih, hb, List.length_cons, pow_succ]
    ring

private theorem value_append (xs ys : List UInt8) : value (xs ++ ys) = value xs * 10^ys.length + value ys := by
  rw [value, List.foldl_append, foldl_value]
  rfl

/-- The first digit counts with the power of its place. -/
theorem value_cons (b : UInt8) (bytes : List UInt8) :
    value (b :: bytes) = digit b * 10^bytes.length + value bytes := by
  rw [← List.singleton_append, value_append]
  simp [value]

private theorem value_zeros (k : Nat) : value (List.replicate k zeroByte) = 0 := by
  induction k with
  | zero => rfl
  | succ k ih => rw [List.replicate_succ, value_cons, ih, digit_zeroByte]; simp

/-- Digits behind digits are digits. -/
theorem AllDigits.append {xs ys : List UInt8} (hx : AllDigits xs) (hy : AllDigits ys) :
    AllDigits (xs ++ ys) := by
  intro b hb
  exact (List.mem_append.mp hb).elim (hx b) (hy b)

/-- Zeros are digits. -/
theorem AllDigits.zeros (k : Nat) : AllDigits (List.replicate k zeroByte) := by
  intro b hb
  rw [List.eq_of_mem_replicate hb]
  exact isDigit_zeroByte

/-- A numeral is less than the power that it has digits for. -/
theorem value_lt {bytes : List UInt8} (h : AllDigits bytes) : value bytes < 10^bytes.length := by
  induction bytes with
  | nil => simp
  | cons b bytes ih =>
    have hb := digit_le (h b List.mem_cons_self)
    have ht := ih fun c hc => h c (List.mem_cons_of_mem b hc)
    have hm := Nat.mul_le_mul_right (10^bytes.length) hb
    rw [value_cons, List.length_cons, pow_succ]
    omega

/-- Digits before and after the point; a missing part is empty. -/
@[ext] structure Numeral where
  whole : List UInt8
  fraction : List UInt8
  wholeDigits : AllDigits whole
  fractionDigits : AllDigits fraction

namespace Numeral

/-- The number a numeral denotes. -/
def number (n : Numeral) : ℚ := value n.whole + value n.fraction / 10^n.fraction.length

/-- The first `k` fractional digits, a missing digit being zero. -/
def leading (n : Numeral) (k : Nat) : List UInt8 := (n.fraction ++ List.replicate k zeroByte).take k

/-- Digits that are there first, then zeros. -/
theorem value_leading (n : Numeral) (k : Nat) :
    value (n.leading k) = value (n.fraction.take k) * 10^(k - n.fraction.length) := by
  rw [leading, List.take_append, List.take_replicate, Nat.min_eq_left (Nat.sub_le _ _), value_append,
    value_zeros, List.length_replicate, Nat.add_zero]

/-- Everything after the first `k` digits of the padded fraction. -/
private def trailing (n : Numeral) (k : Nat) : List UInt8 :=
  (n.fraction ++ List.replicate k zeroByte).drop k

private theorem split (n : Numeral) (k : Nat) :
    n.leading k ++ n.trailing k = n.fraction ++ List.replicate k zeroByte :=
  List.take_append_drop _ _

private theorem trailing_digits (n : Numeral) (k : Nat) : AllDigits (n.trailing k) := by
  intro b hb
  apply n.fractionDigits.append (.zeros k)
  exact List.mem_of_mem_drop hb

private theorem trailing_length (n : Numeral) (k : Nat) :
    (n.trailing k).length = n.fraction.length := by
  simp [trailing]

private theorem shifted (n : Numeral) (k : Nat) :
    10^k * n.number = ((value n.whole * 10^k + value (n.leading k) : Nat) : ℚ) +
      value (n.trailing k) / 10^n.fraction.length := by
  have hs := congrArg value (n.split k)
  rw [value_append, value_append, value_zeros, List.length_replicate, trailing_length,
    Nat.add_zero] at hs
  have hq : (value (n.leading k) : ℚ) * 10^n.fraction.length + value (n.trailing k) =
      value n.fraction * 10^k := by exact_mod_cast hs
  have hne : (10 : ℚ)^n.fraction.length ≠ 0 := by positivity
  rw [number]
  push_cast
  field_simp
  linear_combination -hq

/-- Truncation at `k` decimals reads `k` digits. -/
theorem floor_shift (n : Numeral) (k : Nat) :
    ⌊10^k * n.number⌋₊ = value n.whole * 10^k + value (n.leading k) := by
  have hlt := value_lt (n.trailing_digits k)
  rw [trailing_length] at hlt
  have hpos : (0 : ℚ) < 10^n.fraction.length := by positivity
  have hfrac : (value (n.trailing k) : ℚ) / 10^n.fraction.length < 1 := by
    rw [div_lt_one hpos]
    exact_mod_cast hlt
  rw [shifted, Nat.floor_eq_iff (by positivity)]
  constructor
  · have : (0 : ℚ) ≤ value (n.trailing k) / 10^n.fraction.length := by positivity
    linarith
  · linarith

/-- A numeral denotes an integer exactly if all digits of its fraction are zero. -/
theorem den_eq_one_iff (n : Numeral) : n.number.den = 1 ↔ value n.fraction = 0 := by
  have hpos : (0 : ℚ) < 10^n.fraction.length := by positivity
  constructor
  · intro h
    have hnum : (n.number.num : ℚ) = n.number := (Rat.den_eq_one_iff _).mp h
    have hlt : (value n.fraction : ℚ) / 10^n.fraction.length < 1 := by
      rw [div_lt_one hpos]
      exact_mod_cast value_lt n.fractionDigits
    have hnn : (0 : ℚ) ≤ value n.fraction / 10^n.fraction.length := by positivity
    have hdiff : ((n.number.num - value n.whole : Int) : ℚ) = value n.fraction / 10^n.fraction.length := by
      push_cast
      rw [hnum, number]
      ring
    rw [← hdiff] at hlt hnn
    have hzero : n.number.num - value n.whole = 0 := by
      have h1 : n.number.num - value n.whole < 1 := by exact_mod_cast hlt
      have h2 : 0 ≤ n.number.num - value n.whole := by exact_mod_cast hnn
      omega
    rw [hzero, Int.cast_zero, eq_comm, div_eq_zero_iff] at hdiff
    exact_mod_cast hdiff.resolve_right hpos.ne'
  · intro h
    rw [number, h, Nat.cast_zero, zero_div, add_zero]
    exact Rat.den_natCast _

/-- A numeral has no sign. -/
theorem number_nonneg (n : Numeral) : 0 ≤ n.number := by
  unfold number
  positivity

/-- Rounding half up at `k` decimals reads one digit more. -/
theorem round_shift (n : Numeral) (k : Nat) :
    ⌊10^k * n.number + 1/2⌋₊ =
      (value n.whole * 10^(k + 1) + value (n.leading (k + 1)) + 5) / 10 := by
  have hx : 10^k * n.number + 1/2 = (10^(k + 1) * n.number + (5 : Nat)) / (10 : Nat) := by
    push_cast
    ring
  have hnn : 0 ≤ 10^(k + 1) * n.number := mul_nonneg (by positivity) n.number_nonneg
  rw [hx, Nat.floor_div_natCast, Nat.floor_add_natCast hnn, floor_shift]

end Numeral
end PredictionMarket.Foundation.Decimal

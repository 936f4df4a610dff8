import Mathlib.Data.Int.Basic
import Mathlib.Algebra.Order.Ring.Int

/-! Signed machine integers whose overflow is undefined: an operation that leaves
the range has no result. The range is a field, so every value is representable. -/
namespace PredictionMarket.Foundation

/-- A two's-complement integer of the given width. -/
@[ext] structure CheckedInt (bits : Nat) where
  val : Int
  lower : -2^(bits - 1) ≤ val
  upper : val < 2^(bits - 1)
  deriving DecidableEq

namespace CheckedInt
variable {bits : Nat}

private theorem zero_lower (bits : Nat) : -2^(bits - 1) ≤ (0 : Int) := neg_nonpos.mpr (Int.pow_nonneg (by decide))

private theorem zero_upper (bits : Nat) : (0 : Int) < 2^(bits - 1) := Int.pow_pos (by decide)

def zero (bits : Nat) : CheckedInt bits := ⟨0,zero_lower bits,zero_upper bits⟩

def ofInt? (n : Int) : Option (CheckedInt bits) :=
  if h : -2^(bits - 1) ≤ n ∧ n < 2^(bits - 1) then some ⟨n,h.1,h.2⟩ else none

/-- A result exists exactly when the mathematical value is representable. -/
theorem ofInt?_eq_some_iff {n : Int} {a : CheckedInt bits} : ofInt? n = some a ↔ a.val = n := by
  unfold ofInt?
  split
  · rw [Option.some_inj, CheckedInt.ext_iff, eq_comm]
  · rename_i h
    refine ⟨(nomatch ·),fun he => absurd ?_ h⟩
    rw [← he]
    exact ⟨a.lower,a.upper⟩

variable (bits) in
/-- An integer within the range is a value of the type. -/
theorem ofInt?_of_range {n : Int} (lower : -2^(bits - 1) ≤ n) (upper : n < 2^(bits - 1)) :
    ∃ a : CheckedInt bits, ofInt? n = some a ∧ a.val = n :=
  ⟨⟨n,lower,upper⟩,ofInt?_eq_some_iff.mpr rfl,rfl⟩

def add? (a b : CheckedInt bits) : Option (CheckedInt bits) := ofInt? (a.val + b.val)

def neg? (a : CheckedInt bits) : Option (CheckedInt bits) := ofInt? (-a.val)

/-- The conditional `a >= 0 ? a : -a`. -/
def abs? (a : CheckedInt bits) : Option (CheckedInt bits) := if 0 ≤ a.val then some a else a.neg?

/-- A sum has a result exactly if it is in range. -/
theorem add?_eq_some_iff {a b c : CheckedInt bits} : a.add? b = some c ↔ c.val = a.val + b.val :=
  ofInt?_eq_some_iff

/-- An absolute value has a result exactly if it is in range. -/
theorem abs?_eq_some_iff {a c : CheckedInt bits} : a.abs? = some c ↔ c.val = |a.val| := by
  unfold abs? neg?
  split
  · rename_i h
    rw [Option.some_inj, CheckedInt.ext_iff, abs_of_nonneg h, eq_comm]
  · rename_i h
    rw [ofInt?_eq_some_iff, abs_of_neg (Int.not_le.mp h)]

end CheckedInt
end PredictionMarket.Foundation

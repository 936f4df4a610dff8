import Mathlib.Algebra.Order.Field.Basic
import Mathlib.Tactic.FieldSimp
import Mathlib.Tactic.Linarith
import Mathlib.Tactic.Ring

/-! The mean of two values under two weights of one sign. It lies between them, and
taking one value in twice is taking it in once under the sum of its weights. -/
namespace PredictionMarket.Foundation.WeightedMean
variable {K : Type}

/-- Two weights of one sign. -/
def SameSign [Zero K] [LT K] (x y : K) : Prop := (0 < x ∧ 0 < y) ∨ (x < 0 ∧ y < 0)

instance [Zero K] [LT K] [DecidableLT K] (x y : K) : Decidable (SameSign x y) :=
  inferInstanceAs (Decidable (_ ∨ _))

/-- Having one sign is symmetric. -/
theorem SameSign.symm [Zero K] [LT K] {x y : K} (h : SameSign x y) : SameSign y x :=
  h.imp And.symm And.symm

/-- Having one sign is transitive. -/
theorem SameSign.trans [Zero K] [Preorder K] {x y z : K} (h : SameSign x y) (h' : SameSign y z) :
    SameSign x z := by
  rcases h with ⟨hx,hy⟩ | ⟨hx,hy⟩ <;> rcases h' with ⟨hy',hz⟩ | ⟨hy',hz⟩
  · exact .inl ⟨hx,hz⟩
  · exact absurd hy' hy.not_gt
  · exact absurd hy' hy.not_gt
  · exact .inr ⟨hx,hz⟩

/-- Nothing has the sign of zero. -/
theorem not_sameSign_zero [Zero K] [Preorder K] {x : K} : ¬ SameSign 0 x := by
  rintro (⟨hz,_⟩ | ⟨hz,_⟩) <;> exact lt_irrefl 0 hz

section Mean
variable [Field K]

/-- The value `a` under the weight `x`, and `b` under `y`. -/
def mean (a x b y : K) : K := (a * x + b * y) / (x + y)

/-- Opposite weights have the same mean. -/
theorem mean_neg (a x b y : K) : mean a (-x) b (-y) = mean a x b y := by
  rw [mean, mean, ← neg_div_neg_eq]
  congr 1 <;> ring

private theorem neg_mean (a x b y : K) : mean (-a) x (-b) y = -mean a x b y := by
  rw [mean, mean, ← neg_div]
  congr 1
  ring

/-- The mean of a value with itself is that value. -/
theorem mean_self {x y : K} (h : x + y ≠ 0) (a : K) : mean a x a y = a := by
  rw [mean, ← mul_add, mul_div_cancel_right₀ _ h]

/-- Without a weight the first value does not count. -/
theorem mean_zero_left {y : K} (h : y ≠ 0) (a b : K) : mean a 0 b y = b := by
  rw [mean, mul_zero, zero_add, zero_add, mul_div_cancel_right₀ _ h]

/-- Means can be taken one after the other, if the weights in between do not vanish. -/
theorem mean_mean {x y : K} (h : x + y ≠ 0) (a b z : K) :
    mean (mean a x b y) (x + y) b z = mean a x b (y + z) := by
  rw [mean, mean, mean, div_mul_cancel₀ _ h, add_assoc x y z]
  ring

end Mean

section Order
variable [Field K] [LinearOrder K] [IsStrictOrderedRing K] {a b x y bound : K}

/-- A sum of two numbers of one sign has that sign. -/
theorem SameSign.add (h : SameSign a x) (h' : SameSign a y) : SameSign a (x + y) := by
  rcases h with ⟨ha,hx⟩ | ⟨ha,hx⟩ <;> rcases h' with ⟨ha',hy⟩ | ⟨ha',hy⟩
  · exact .inl ⟨ha,add_pos hx hy⟩
  · exact absurd ha' ha.not_gt
  · exact absurd ha' ha.not_gt
  · exact .inr ⟨ha,add_neg hx hy⟩

/-- A mean is at least as large as any lower bound of its values. -/
theorem le_mean (h : SameSign x y) (ha : bound ≤ a) (hb : bound ≤ b) : bound ≤ mean a x b y := by
  have hpos (x y : K) (hx : 0 < x) (hy : 0 < y) : bound ≤ mean a x b y := by
    rw [mean, le_div_iff₀ (add_pos hx hy), mul_add]
    exact add_le_add (mul_le_mul_of_nonneg_right ha hx.le) (mul_le_mul_of_nonneg_right hb hy.le)
  rcases h with ⟨hx,hy⟩ | ⟨hx,hy⟩
  · exact hpos x y hx hy
  · rw [← mean_neg]
    exact hpos (-x) (-y) (neg_pos.mpr hx) (neg_pos.mpr hy)

/-- A mean is at most as large as any upper bound of its values. -/
theorem mean_le (h : SameSign x y) (ha : a ≤ bound) (hb : b ≤ bound) : mean a x b y ≤ bound := by
  have hn := le_mean h (neg_le_neg ha) (neg_le_neg hb)
  rw [neg_mean] at hn
  exact neg_le_neg_iff.mp hn

end Order
end PredictionMarket.Foundation.WeightedMean

import PredictionMarket.Foundation.CheckedInt
import PredictionMarket.Foundation.CashLedger
import PredictionMarket.Foundation.Transition
import Mathlib.Data.Rat.Defs
import Mathlib.Algebra.Order.Ring.Rat
import Mathlib.Tactic.FieldSimp
import Mathlib.Tactic.Linarith

/-! Position accounting of `position_manager.hpp`. An `int` operation that leaves
its range has no result; a `double` is read as the rational number it stands for. -/
namespace PredictionMarket.Strategy
open Foundation

/-- The `int` of the engine's targets. -/
abbrev CInt := CheckedInt 32

structure PositionManager where
  positionSize : CInt
  realizedPnl : ℚ
  averageEntryPrice : ℚ
  deriving DecidableEq

namespace PositionManager

def fresh : PositionManager := ⟨⟨0,by decide,by decide⟩,0,0⟩

/-- `(a > 0 && b > 0) || (a < 0 && b < 0)` -/
def sameDirection (a b : Int) : Bool := (decide (a > 0) && decide (b > 0)) || (decide (a < 0) && decide (b < 0))

def addFill (pm : PositionManager) (fillSize : CInt) (fillPrice : ℚ) : Option PositionManager :=
  if fillSize.val = 0 then some pm
  else if pm.positionSize.val = 0 then
    some { pm with positionSize := fillSize, averageEntryPrice := fillPrice }
  else if sameDirection pm.positionSize.val fillSize.val then do
    let oldAbs ← pm.positionSize.abs?
    let addAbs ← fillSize.abs?
    let newAbs ← oldAbs.add? addAbs
    let weighted := pm.averageEntryPrice * oldAbs.val + fillPrice * addAbs.val
    let positionSize ← pm.positionSize.add? fillSize
    return { pm with positionSize, averageEntryPrice := weighted / newAbs.val }
  else do
    let posAbs ← pm.positionSize.abs?
    let fillAbs ← fillSize.abs?
    let closingAbs := if fillAbs.val < posAbs.val then fillAbs else posAbs
    let realizedPnl :=
      if pm.positionSize.val > 0 then
        pm.realizedPnl + closingAbs.val * (fillPrice - pm.averageEntryPrice)
      else pm.realizedPnl + closingAbs.val * (pm.averageEntryPrice - fillPrice)
    let positionSize ← pm.positionSize.add? fillSize
    if positionSize.val = 0 then return ⟨positionSize,realizedPnl,0⟩
    else if sameDirection positionSize.val fillSize.val then
      return ⟨positionSize,realizedPnl,fillPrice⟩
    else return ⟨positionSize,realizedPnl,pm.averageEntryPrice⟩

def getUnrealizedPnl (pm : PositionManager) (currentMidPrice : ℚ) : ℚ :=
  pm.positionSize.val * (currentMidPrice - pm.averageEntryPrice)

/-- What a fill does to the three fields, with the signs worked out. -/
inductive Booked (pm : PositionManager) (q : CInt) (p : ℚ) : PositionManager → Prop where
  | ignored (none : q.val = 0) : Booked pm q p pm
  | opened (some : q.val ≠ 0) (flat : pm.positionSize.val = 0) :
    Booked pm q p ⟨q,pm.realizedPnl,p⟩
  | increased (size : CInt) (total : size.val = pm.positionSize.val + q.val)
    (same : (0 < pm.positionSize.val ∧ 0 < q.val) ∨ (pm.positionSize.val < 0 ∧ q.val < 0)) :
    Booked pm q p ⟨size,pm.realizedPnl,
      (pm.averageEntryPrice * pm.positionSize.val + p * q.val) / (pm.positionSize.val + q.val)⟩
  | reduced (size : CInt) (total : size.val = pm.positionSize.val + q.val)
    (kept : (0 < size.val ∧ q.val < 0) ∨ (size.val < 0 ∧ 0 < q.val)) :
    Booked pm q p ⟨size,pm.realizedPnl - q.val * (p - pm.averageEntryPrice),pm.averageEntryPrice⟩
  | closed (size : CInt) (total : size.val = pm.positionSize.val + q.val)
    (held : pm.positionSize.val ≠ 0) (flat : size.val = 0) :
    Booked pm q p ⟨size,pm.realizedPnl + pm.positionSize.val * (p - pm.averageEntryPrice),0⟩
  | flipped (size : CInt) (total : size.val = pm.positionSize.val + q.val)
    (crossed : (0 < pm.positionSize.val ∧ size.val < 0) ∨ (pm.positionSize.val < 0 ∧ 0 < size.val)) :
    Booked pm q p ⟨size,pm.realizedPnl + pm.positionSize.val * (p - pm.averageEntryPrice),p⟩

/-- The `int` operations of a fill stay in range. -/
def Fits (pos q : Int) : Prop :=
  q ≠ 0 → pos ≠ 0 → |pos| < 2^31 ∧ |q| < 2^31 ∧ |pos + q| < 2^31

section Branches
variable {pm r : PositionManager} {q : CInt} {p : ℚ}

private theorem sameDirection_iff (a b : Int) :
    sameDirection a b = true ↔ (0 < a ∧ 0 < b) ∨ (a < 0 ∧ b < 0) := by
  simp [sameDirection]

private theorem addFill_same (hq : q.val ≠ 0) (hp : pm.positionSize.val ≠ 0)
    (same : sameDirection pm.positionSize.val q.val = true) :
    pm.addFill q p = some r ↔ ∃ oldAbs addAbs newAbs size : CInt,
      oldAbs.val = |pm.positionSize.val| ∧ addAbs.val = |q.val| ∧
      newAbs.val = oldAbs.val + addAbs.val ∧ size.val = pm.positionSize.val + q.val ∧
      ⟨size,pm.realizedPnl,
        (pm.averageEntryPrice * oldAbs.val + p * addAbs.val) / newAbs.val⟩ = r := by
  simp only [addFill, if_neg hq, if_neg hp, if_pos same, Option.bind_eq_bind,
    Option.bind_eq_some_iff, CheckedInt.abs?_eq_some_iff, CheckedInt.add?_eq_some_iff,
    Option.pure_def, Option.some_inj, exists_and_left]

private theorem addFill_opposite (hq : q.val ≠ 0) (hp : pm.positionSize.val ≠ 0)
    (opposite : ¬ sameDirection pm.positionSize.val q.val = true) :
    pm.addFill q p = some r ↔ ∃ posAbs fillAbs size : CInt,
      posAbs.val = |pm.positionSize.val| ∧ fillAbs.val = |q.val| ∧
      size.val = pm.positionSize.val + q.val ∧
      ⟨size,
        if pm.positionSize.val > 0 then
          pm.realizedPnl + (if fillAbs.val < posAbs.val then fillAbs else posAbs).val *
            (p - pm.averageEntryPrice)
        else pm.realizedPnl + (if fillAbs.val < posAbs.val then fillAbs else posAbs).val *
            (pm.averageEntryPrice - p),
        if size.val = 0 then 0
        else if sameDirection size.val q.val then p else pm.averageEntryPrice⟩ = r := by
  have hret (size : CInt) (realized : ℚ) :
      (if size.val = 0 then some (⟨size,realized,0⟩ : PositionManager)
        else if sameDirection size.val q.val = true then some ⟨size,realized,p⟩
        else some ⟨size,realized,pm.averageEntryPrice⟩) =
      some ⟨size,realized,if size.val = 0 then 0
        else if sameDirection size.val q.val then p else pm.averageEntryPrice⟩ := by
    split_ifs <;> rfl
  simp only [addFill, if_neg hq, if_neg hp, if_neg opposite, Option.bind_eq_bind,
    Option.bind_eq_some_iff, CheckedInt.abs?_eq_some_iff, CheckedInt.add?_eq_some_iff,
    Option.pure_def, hret, Option.some_inj, exists_and_left]

private theorem opposite_signs {a b : Int} (ha : a ≠ 0) (hb : b ≠ 0)
    (opposite : ¬ sameDirection a b = true) : (0 < a ∧ b < 0) ∨ (a < 0 ∧ 0 < b) := by
  rw [sameDirection_iff] at opposite
  omega

private theorem abs_lt_iff {pos fill : Int} (signs : (0 < pos ∧ fill < 0) ∨ (pos < 0 ∧ 0 < fill)) :
    |fill| < |pos| ↔ (0 < pos ∧ 0 < pos + fill) ∨ (pos < 0 ∧ pos + fill < 0) := by
  rcases signs with ⟨hpos,hfill⟩ | ⟨hpos,hfill⟩
  · rw [abs_of_pos hpos, abs_of_neg hfill]
    omega
  · rw [abs_of_neg hpos, abs_of_pos hfill]
    omega

private theorem closing_signed {pos fill closing : Int} (realized p avg : ℚ)
    (signs : (0 < pos ∧ fill < 0) ∨ (pos < 0 ∧ 0 < fill))
    (hc : closing = if |fill| < |pos| then |fill| else |pos|) :
    (if pos > 0 then realized + closing * (p - avg) else realized + closing * (avg - p)) =
      realized + ((if |fill| < |pos| then -fill else pos : Int) : ℚ) * (p - avg) := by
  -- The closing portion, signed: a reduction closes the whole fill, anything larger closes the whole
  -- position.
  rcases signs with ⟨hpos,hfill⟩ | ⟨hpos,hfill⟩
  · rw [if_pos hpos, hc, abs_of_pos hpos, abs_of_neg hfill]
  · rw [if_neg (by omega), hc, abs_of_neg hpos, abs_of_pos hfill]
    split <;> push_cast <;> ring

private theorem weighted_signed {pos fill : Int} (p avg : ℚ)
    (same : (0 < pos ∧ 0 < fill) ∨ (pos < 0 ∧ fill < 0)) :
    (avg * ((|pos| : Int) : ℚ) + p * ((|fill| : Int) : ℚ)) / ((|pos| + |fill| : Int) : ℚ) =
      (avg * pos + p * fill) / (pos + fill) := by
  -- Equal signs: the average over absolute sizes is the average over signed ones.
  rcases same with ⟨hpos,hfill⟩ | ⟨hpos,hfill⟩
  · rw [abs_of_pos hpos, abs_of_pos hfill, Int.cast_add]
  · rw [abs_of_neg hpos, abs_of_neg hfill, ← neg_div_neg_eq]
    push_cast
    congr 1 <;> ring

/-- A fill that meets no overflow does exactly what its case of `Booked` says. -/
theorem addFill_booked (h : pm.addFill q p = some r) :
    Booked pm q p r ∧ Fits pm.positionSize.val q.val := by
  by_cases hq : q.val = 0
  · rw [addFill, if_pos hq] at h
    cases h
    exact ⟨.ignored hq,fun hne => absurd hq hne⟩
  by_cases hp : pm.positionSize.val = 0
  · rw [addFill, if_neg hq, if_pos hp] at h
    cases h
    exact ⟨.opened hq hp,fun _ hne => absurd hp hne⟩
  by_cases same : sameDirection pm.positionSize.val q.val = true
  · obtain ⟨oldAbs,addAbs,newAbs,size,hold,hadd,hnew,hsize,rfl⟩ := (addFill_same hq hp same).mp h
    rw [sameDirection_iff] at same
    have hu := newAbs.upper
    have hu1 := oldAbs.upper
    have hu2 := addAbs.upper
    rw [hnew, hold, hadd] at hu
    rw [hold] at hu1
    rw [hadd] at hu2
    refine ⟨?_,fun _ _ => ⟨hu1,hu2,(abs_add_le _ _).trans_lt hu⟩⟩
    rw [hnew, hold, hadd, weighted_signed p _ same]
    exact .increased size hsize same
  · obtain ⟨posAbs,fillAbs,size,hpos,hfill,hsize,rfl⟩ := (addFill_opposite hq hp same).mp h
    have signs := opposite_signs hp hq same
    have hu1 := posAbs.upper
    have hu2 := fillAbs.upper
    rw [hpos] at hu1
    rw [hfill] at hu2
    have hu : |pm.positionSize.val + q.val| < 2^31 := by
      rw [abs_lt] at hu1 hu2 ⊢
      omega
    refine ⟨?_,fun _ _ => ⟨hu1,hu2,hu⟩⟩
    rw [closing_signed pm.realizedPnl p pm.averageEntryPrice signs
      (by rw [← hpos, ← hfill]; split <;> rfl)]
    by_cases flat : size.val = 0
    · have hlt : ¬ |q.val| < |pm.positionSize.val| := by
        rw [show q.val = -pm.positionSize.val by omega, abs_neg]
        exact lt_irrefl _
      rw [if_pos flat, if_neg hlt]
      exact .closed size hsize hp flat
    by_cases crossed : sameDirection size.val q.val = true
    · rw [sameDirection_iff] at crossed
      have hlt : ¬ |q.val| < |pm.positionSize.val| := by
        rw [abs_lt_iff signs]
        omega
      rw [if_neg flat, if_pos ((sameDirection_iff _ _).mpr crossed), if_neg hlt]
      exact .flipped size hsize (by omega)
    · have kept := opposite_signs flat hq crossed
      have hlt : |q.val| < |pm.positionSize.val| := by
        rw [abs_lt_iff signs]
        omega
      rw [if_neg flat, if_neg crossed, if_pos hlt]
      have hneg : pm.realizedPnl + ((-q.val : Int) : ℚ) * (p - pm.averageEntryPrice) =
          pm.realizedPnl - q.val * (p - pm.averageEntryPrice) := by
        push_cast
        ring
      rw [hneg]
      exact .reduced size hsize kept

/-- The only way for a fill to have no result is an `int` operation out of range. -/
theorem addFill_of_fits (h : Fits pm.positionSize.val q.val) : ∃ r, pm.addFill q p = some r := by
  by_cases hq : q.val = 0
  · exact ⟨_,by rw [addFill, if_pos hq]⟩
  by_cases hp : pm.positionSize.val = 0
  · exact ⟨_,by rw [addFill, if_neg hq, if_pos hp]⟩
  obtain ⟨hpos,hfill,htotal⟩ := h hq hp
  have lower {n : Int} (hn : |n| < 2^31) : -2^(32 - 1) ≤ n := (abs_lt.mp hn).1.le
  obtain ⟨posAbs,_,hposAbs⟩ := CheckedInt.ofInt?_of_range 32
    (lower (by rwa [abs_abs])) hpos
  obtain ⟨fillAbs,_,hfillAbs⟩ := CheckedInt.ofInt?_of_range 32
    (lower (by rwa [abs_abs])) hfill
  obtain ⟨size,_,hsize⟩ := CheckedInt.ofInt?_of_range 32
    (lower htotal) ((le_abs_self _).trans_lt htotal)
  by_cases same : sameDirection pm.positionSize.val q.val = true
  · have hsum : |pm.positionSize.val| + |q.val| = |pm.positionSize.val + q.val| := by
      rcases (sameDirection_iff _ _).mp same with ⟨ha,hb⟩ | ⟨ha,hb⟩
      · exact (abs_add_eq_add_abs_iff _ _).mpr (.inl ⟨ha.le,hb.le⟩) |>.symm
      · exact (abs_add_eq_add_abs_iff _ _).mpr (.inr ⟨ha.le,hb.le⟩) |>.symm
    obtain ⟨newAbs,_,hnewAbs⟩ := CheckedInt.ofInt?_of_range 32
      (lower (by rwa [hsum, abs_abs])) (hsum ▸ htotal)
    exact ⟨_,(addFill_same hq hp same).mpr ⟨posAbs,fillAbs,newAbs,size,hposAbs,hfillAbs,
      by rw [hnewAbs, hposAbs, hfillAbs],hsize,rfl⟩⟩
  · exact ⟨_,(addFill_opposite hq hp same).mpr ⟨posAbs,fillAbs,size,hposAbs,hfillAbs,hsize,rfl⟩⟩

end Branches

end PositionManager
end PredictionMarket.Strategy

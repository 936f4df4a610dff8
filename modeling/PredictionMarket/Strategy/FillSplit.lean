import PredictionMarket.Foundation.AverageCost
import PredictionMarket.Strategy.Accounting

/-! The position manager refines average-cost accounting, so how an execution is chopped
into partial fills does not show in its position, its entry price or its profit. -/
namespace PredictionMarket.Strategy.PositionManager
open Foundation Foundation.WeightedMean Foundation.AverageCost Foundation.Transition

/-- The account with the entry price beside it. -/
def position (pm : PositionManager) : Position ℚ := ⟨pm.account,pm.averageEntryPrice⟩

/-- A fresh position is flat. -/
theorem position_fresh : fresh.position = Position.flat := by
  rw [position, account_fresh]
  rfl

/-- No field is lost: the profit is what the cash and the units at their entry price leave. -/
theorem position_injective {pm r : PositionManager} (h : pm.position = r.position) : pm = r := by
  obtain ⟨size,realized,entry⟩ := pm
  obtain ⟨size',realized',entry'⟩ := r
  have haccount := congrArg Position.account h
  obtain rfl : entry = entry' := congrArg Position.entry h
  have hsize : (size.val : ℚ) = size'.val := congrArg CashLedger.Account.holding haccount
  obtain rfl : size = size' := CheckedInt.ext (Int.cast_injective hsize)
  have hcash := congrArg CashLedger.Account.cash haccount
  obtain rfl : realized = realized' := sub_left_injective hcash
  rfl

/-- Integers have one sign exactly if they have it as rationals. -/
theorem sameSign_cast {a b : Int} : SameSign (a : ℚ) (b : ℚ) ↔ SameSign a b := by
  simp only [SameSign, Int.cast_pos, Int.cast_lt_zero]

private theorem nextEntry_units (units q : Int) (entry p : ℚ) :
    nextEntry (units : ℚ) entry q p =
      if q = 0 then entry
      else if SameSign (units + q) q then
        if SameSign units q then mean entry units p q else p
      else if units + q = 0 then 0
      else entry := by
  simp only [nextEntry, carried, ← Int.cast_add, Int.cast_eq_zero, sameSign_cast]
  split_ifs with hq hends hcarried
  · rfl
  · rw [Int.cast_add, add_sub_cancel_left]
  · rw [sub_zero, mean_zero_left]
    unfold SameSign at hends
    exact_mod_cast (by omega : units + q ≠ 0)
  · rfl
  · rfl

/-- Each branch of a fill sets the average of its kind of trade. -/
theorem Booked.nextEntry {pm r : PositionManager} {q : CInt} {p : ℚ} (h : Booked pm q p r) :
    r.averageEntryPrice = nextEntry (pm.positionSize.val : ℚ) pm.averageEntryPrice q.val p := by
  rw [nextEntry_units]
  cases h with
  | ignored none => rw [if_pos none]
  | opened some flat =>
    have hends : SameSign (pm.positionSize.val + q.val) q.val := by unfold SameSign; omega
    have hfresh : ¬ SameSign pm.positionSize.val q.val := by unfold SameSign; omega
    rw [if_neg some, if_pos hends, if_neg hfresh]
  | increased size total same =>
    have hends : SameSign (pm.positionSize.val + q.val) q.val := by unfold SameSign; omega
    have hsame : SameSign pm.positionSize.val q.val := same
    rw [if_neg (by omega), if_pos hends, if_pos hsame]
    rfl
  | reduced size total kept =>
    have hends : ¬ SameSign (pm.positionSize.val + q.val) q.val := by unfold SameSign; omega
    rw [if_neg (by omega), if_neg hends, if_neg (by omega)]
  | closed size total held flat =>
    have hends : ¬ SameSign (pm.positionSize.val + q.val) q.val := by unfold SameSign; omega
    rw [if_neg (by omega), if_neg hends, if_pos (by omega)]
  | flipped size total crossed =>
    have hends : SameSign (pm.positionSize.val + q.val) q.val := by unfold SameSign; omega
    have hfresh : ¬ SameSign pm.positionSize.val q.val := by unfold SameSign; omega
    rw [if_neg (by omega), if_pos hends, if_neg hfresh]

private theorem position_addFill {pm r : PositionManager} {q : CInt} {p : ℚ} (h : pm.addFill q p = some r) :
    r.position = pm.position.trade q.val p := by
  have hb := (addFill_booked h).1
  exact Position.ext hb.account hb.nextEntry

/-- Fills as sizes and prices without a width. -/
def sized (fills : List (CInt × ℚ)) : List (ℚ × ℚ) := fills.map fun fill => ((fill.1.val : ℚ),fill.2)

/-- Fills move the position like trades of their sizes. -/
theorem position_addFills {pm r : PositionManager} {fills : List (CInt × ℚ)}
    (h : pm.addFills fills = some r) : r.position = pm.position.trades (sized fills) := by
  rw [sized, Position.trades, List.foldl_map]
  apply exec_foldl _ h
  intro s fill t hs
  exact position_addFill hs

/-- One fill or two of its direction at its price, and any two ways to chop the same
executions, lead to the same position, entry price and profit. -/
theorem chopping_irrelevant (pm : PositionManager) :
    (∀ (whole q1 q2 : CInt) p one mid two, SameSign q1.val q2.val → whole.val = q1.val + q2.val →
      pm.addFill whole p = some one → pm.addFill q1 p = some mid → mid.addFill q2 p = some two →
      two = one) ∧
    ∀ executions fills fills' r r', Position.Chopped (sized fills) executions →
      Position.Chopped (sized fills') executions →
      pm.addFills fills = some r → pm.addFills fills' = some r' → r = r' := by
  constructor
  · intro whole q1 q2 p one mid two same total hone hmid htwo
    apply position_injective
    rw [position_addFill htwo, position_addFill hmid, position_addFill hone,
      Position.trade_split (sameSign_cast.mpr same), total, Int.cast_add]
  · intro executions fills fills' r r' hc hc' hr hr'
    apply position_injective
    rw [position_addFills hr, position_addFills hr', Position.trades_chopped hc, Position.trades_chopped hc']

private theorem byte_lots (n : UInt8) : -2^(32 - 1) ≤ (n.toNat : Int) ∧ (n.toNat : Int) < 2^(32 - 1) ∧
    -2^(32 - 1) ≤ -(n.toNat : Int) ∧ -(n.toNat : Int) < 2^(32 - 1) := by
  have := n.toNat_lt
  omega

/-- Fills of a few units. -/
def bought (n : UInt8) : CInt := ⟨n.toNat,(byte_lots n).1,(byte_lots n).2.1⟩

def sold (n : UInt8) : CInt := ⟨-n.toNat,(byte_lots n).2.2.1,(byte_lots n).2.2.2⟩

/-- Five long at a half. -/
def fiveLong : PositionManager := ⟨bought 5,0,1/2⟩

/-- Twelve sold at once, or as an exact close and a new short. -/
def soldAtOnce : List (CInt × ℚ) := [(sold 12,2/5)]

def soldInParts : List (CInt × ℚ) := [(sold 5,2/5), (sold 7,2/5)]

/-- Flat again, a half lost. -/
def closedOut : PositionManager := ⟨sold 0,-1/2,0⟩

theorem sale_chopped : (∃ one two, fiveLong.addFill (sold 12) (2/5) = some one ∧
      closedOut.addFill (sold 7) (2/5) = some two ∧ two = one) ∧
    fiveLong.addFills soldAtOnce = fiveLong.addFills soldInParts := by
  have hone : (fiveLong.addFill (sold 12) (2/5)).isSome = true := by decide +kernel
  have hmid : fiveLong.addFill (sold 5) (2/5) = some closedOut := by decide +kernel
  have htwo : (closedOut.addFill (sold 7) (2/5)).isSome = true := by decide +kernel
  have hr : (fiveLong.addFills soldAtOnce).isSome = true := by decide +kernel
  have hr' : (fiveLong.addFills soldInParts).isSome = true := by decide +kernel
  have hc : Position.Chopped (sized soldAtOnce) [([-12].sum,2/5)] :=
    .cons [-12] (-1) (2/5) (by decide +kernel) .nil
  have hc' : Position.Chopped (sized soldInParts) [([-5,-7].sum,2/5)] :=
    .cons [-5,-7] (-1) (2/5) (by decide +kernel) .nil
  have hsum : [-12].sum = ([-5,-7] : List ℚ).sum := by decide +kernel
  constructor
  · exact ⟨_,_,(Option.some_get hone).symm,(Option.some_get htwo).symm,
      (chopping_irrelevant fiveLong).1 _ _ _ _ _ _ _ (by decide) (by decide) (Option.some_get hone).symm hmid
        (Option.some_get htwo).symm⟩
  · have heq := (chopping_irrelevant fiveLong).2 _ _ _ _ _ (hsum ▸ hc) hc' (Option.some_get hr).symm
      (Option.some_get hr').symm
    rw [← Option.some_get hr, ← Option.some_get hr', heq]

end PredictionMarket.Strategy.PositionManager

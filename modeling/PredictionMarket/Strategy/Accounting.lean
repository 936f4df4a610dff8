import PredictionMarket.Strategy.PositionManager
import Mathlib.Algebra.BigOperators.Ring.Finset

/-! The position manager refines the cash ledger: its three fields are one way to
write down units held and cash spent, so its total profit is the ledger's worth. -/
namespace PredictionMarket.Strategy.PositionManager
open Foundation Foundation.CashLedger Foundation.Transition

/-- Units held, and the cash that the realized profit and the entry price encode. -/
def account (pm : PositionManager) : Account ℚ :=
  ⟨pm.positionSize.val,pm.realizedPnl - pm.positionSize.val * pm.averageEntryPrice⟩

/-- What an account is worth is the realized and the unrealized profit. -/
theorem worth_account (pm : PositionManager) (m : ℚ) :
    pm.account.worth m = pm.realizedPnl + pm.getUnrealizedPnl m := by
  simp only [Account.worth, account, getUnrealizedPnl]
  ring

/-- A fresh position has an account without anything on it. -/
theorem account_fresh : fresh.account = Account.opening := by
  simp [account, fresh, Account.opening]

/-- Every branch of a fill is the same trade of the ledger. -/
theorem Booked.account {pm r : PositionManager} {q : CInt} {p : ℚ} (h : Booked pm q p r) :
    r.account = pm.account.trade q.val p := by
  apply Account.ext
  · cases h with
    | ignored none => simp [PositionManager.account, Account.trade, none]
    | opened _ flat => simp [PositionManager.account, Account.trade, flat]
    | increased size total same => simp [PositionManager.account, Account.trade, total]
    | reduced size total kept => simp [PositionManager.account, Account.trade, total]
    | closed size total held flat =>
      have ht : ((size.val : Int) : ℚ) = pm.positionSize.val + q.val := by exact_mod_cast total
      simpa [PositionManager.account, Account.trade] using ht
    | flipped size total crossed => simp [PositionManager.account, Account.trade, total]
  · cases h with
    | ignored none => simp [PositionManager.account, Account.trade, none]
    | opened _ flat => simp [PositionManager.account, Account.trade, flat]
    | increased size total same =>
      have hne : (pm.positionSize.val : ℚ) + q.val ≠ 0 := by
        have : pm.positionSize.val + q.val ≠ 0 := by omega
        exact_mod_cast this
      simp only [PositionManager.account, Account.trade, total, Int.cast_add]
      rw [mul_div_cancel₀ _ hne]
      ring
    | reduced size total kept =>
      simp only [PositionManager.account, Account.trade, total, Int.cast_add]
      ring
    | closed size total held flat =>
      have hq : (q.val : ℚ) = -pm.positionSize.val := by
        have : q.val = -pm.positionSize.val := by omega
        exact_mod_cast this
      simp only [PositionManager.account, Account.trade, hq]
      ring
    | flipped size total crossed =>
      simp only [PositionManager.account, Account.trade, total, Int.cast_add]
      ring

/-- A run of fills; it has no result once an `int` operation overflows. -/
def addFills : PositionManager → List (CInt × ℚ) → Option PositionManager :=
  exec fun pm fill => pm.addFill fill.1 fill.2

private theorem account_addFills {pm r : PositionManager} {fills : List (CInt × ℚ)}
    (h : pm.addFills fills = some r) :
    r.account = pm.account.trades (fills.map fun fill => ((fill.1.val : ℚ), fill.2)) := by
  rw [Account.trades, List.foldl_map]
  apply exec_foldl _ h
  intro s fill t hs
  exact (addFill_booked hs).1.account

/-- The accounting identity: after any fills the position is their sum, and profit
realized and unrealized at any mid price is what the fills gained against it. -/
theorem accounting_identity (fills : List (CInt × ℚ)) (pm : PositionManager)
    (h : fresh.addFills fills = some pm) :
    pm.positionSize.val = (fills.map fun fill => fill.1.val).sum ∧
      ∀ m, pm.realizedPnl + pm.getUnrealizedPnl m =
        (fills.map fun fill => fill.1.val * (m - fill.2)).sum := by
  have ha := account_addFills h
  rw [account_fresh] at ha
  constructor
  · have hh := congrArg Account.holding ha
    rw [Account.holding_trades, List.map_map] at hh
    simp only [account, Account.opening, zero_add, Function.comp_def] at hh
    have hc : ((fills.map fun fill => (fill.1.val : ℚ)).sum) =
        ((fills.map fun fill => fill.1.val).sum : Int) := by
      rw [Int.cast_list_sum, List.map_map]
      rfl
    rw [hc] at hh
    exact_mod_cast hh
  · intro m
    rw [← worth_account, ha, Account.worth_trades, List.map_map]
    simp [Account.opening, Account.worth, Function.comp_def]

/-- Opening, increasing, reducing, closing exactly, going short and flipping back. -/
def everyBranch : List (CInt × ℚ) :=
  [(⟨12,by decide,by decide⟩,1/2), (⟨5,by decide,by decide⟩,3/5), (⟨-4,by decide,by decide⟩,7/10),
    (⟨-13,by decide,by decide⟩,2/5), (⟨-3,by decide,by decide⟩,1/2), (⟨8,by decide,by decide⟩,9/20)]

theorem everyBranch_accounting : ∃ pm, fresh.addFills everyBranch = some pm ∧
    pm.positionSize.val = 5 ∧ ∀ m, pm.realizedPnl + pm.getUnrealizedPnl m =
      (everyBranch.map fun fill => fill.1.val * (m - fill.2)).sum := by
  have hs : (fresh.addFills everyBranch).isSome = true := by decide +kernel
  have h := accounting_identity everyBranch _ (Option.some_get hs).symm
  exact ⟨_,(Option.some_get hs).symm,h.1,h.2⟩

end PredictionMarket.Strategy.PositionManager

import Mathlib.Algebra.BigOperators.Group.List.Basic
import Mathlib.Tactic.Ring

/-! What a trading account is worth: units held and cash paid or received. The
value at any mark is a sum over the trades, whatever bookkeeping an
implementation keeps beside it. -/
namespace PredictionMarket.Foundation.CashLedger
variable {R : Type} [CommRing R]

/-- Units held and money spent (negative) or received (positive) so far. -/
@[ext] structure Account (R : Type) where
  holding : R
  cash : R

namespace Account

def opening : Account R := ⟨0,0⟩

/-- Trade `quantity` units at `price`; a sale has a negative quantity. -/
def trade (a : Account R) (quantity price : R) : Account R :=
  ⟨a.holding + quantity,a.cash - quantity * price⟩

/-- Liquidation value at a mark. -/
def worth (a : Account R) (mark : R) : R := a.cash + a.holding * mark

def trades (a : Account R) (fills : List (R × R)) : Account R :=
  fills.foldl (fun a fill => a.trade fill.1 fill.2) a

private theorem worth_trade (a : Account R) (quantity price mark : R) :
    (a.trade quantity price).worth mark = a.worth mark + quantity * (mark - price) := by
  simp only [worth, trade]
  ring

/-- What is held grows by the sum of the quantities. -/
theorem holding_trades (a : Account R) (fills : List (R × R)) :
    (a.trades fills).holding = a.holding + (fills.map Prod.fst).sum := by
  induction fills generalizing a with
  | nil => simp [trades]
  | cons fill fills ih =>
    change ((a.trade fill.1 fill.2).trades fills).holding = _
    rw [ih, trade, List.map_cons, List.sum_cons, add_assoc]

/-- The worth of an account is what its trades gained against the mark. -/
theorem worth_trades (a : Account R) (fills : List (R × R)) (mark : R) :
    (a.trades fills).worth mark =
      a.worth mark + (fills.map fun fill => fill.1 * (mark - fill.2)).sum := by
  induction fills generalizing a with
  | nil => simp [trades]
  | cons fill fills ih =>
    change ((a.trade fill.1 fill.2).trades fills).worth mark = _
    rw [ih, worth_trade, List.map_cons, List.sum_cons, add_assoc]

end Account
end PredictionMarket.Foundation.CashLedger

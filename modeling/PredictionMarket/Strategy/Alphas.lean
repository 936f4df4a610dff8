import PredictionMarket.Market.OrderBook
import Mathlib.Data.Rat.Defs
import Mathlib.Algebra.Order.Ring.Rat

/-! The two signals of `momentum_alpha.hpp` and `ofi_alpha.hpp`. Doubles are read as
rationals; sizes are added as 32-bit words before they are converted. -/
namespace PredictionMarket.Strategy
open Market

/-- `static_cast<double>` of a price in cents. -/
def cents (price : UInt8) : ℚ := price.toNat

/-- `static_cast<double>` of a size. -/
def lots (size : UInt32) : ℚ := size.toNat

/-- `std::clamp` -/
def clamp (x lo hi : ℚ) : ℚ := if x < lo then lo else if hi < x then hi else x

/-- The size-weighted price between the best bid and the best ask. -/
def microprice (bestBid bestAsk : UInt8) (bestBidSize bestAskSize : UInt32) : ℚ :=
  (cents bestBid * lots bestAskSize + cents bestAsk * lots bestBidSize) /
    lots (bestBidSize + bestAskSize)

structure MomentumAlpha where
  hasPrev : Bool
  prevMicropriceCents : ℚ

namespace MomentumAlpha

def fresh : MomentumAlpha := ⟨false,0⟩

/-- Full confidence when the microprice moves by more than a cent. -/
def update (alpha : MomentumAlpha) (book : LimitOrderBook) (_tick : MarketTick) : ℚ × MomentumAlpha :=
  let bestBid := book.getBestBid
  let bestAsk := book.getBestAsk
  if bestBid = LimitOrderBook.kNoBid ∨ bestAsk = LimitOrderBook.kNoAsk then (0, alpha)
  else
    let bestBidSize := book.getBidSize bestBid
    let bestAskSize := book.getAskSize bestAsk
    if bestBidSize + bestAskSize = 0 then (0, alpha)
    else
      let micropriceCents := microprice bestBid bestAsk bestBidSize bestAskSize
      if alpha.hasPrev = false then (0, ⟨true,micropriceCents⟩)
      else
        let delta := micropriceCents - alpha.prevMicropriceCents
        let next := { alpha with prevMicropriceCents := micropriceCents }
        if delta > 1 then (1, next)
        else if delta < -1 then (-1, next)
        else (0, next)

end MomentumAlpha

structure OFIAlpha where
  initialized : Bool
  prevBestBid : UInt8
  prevBestAsk : UInt8
  prevBestBidSize : UInt32
  prevBestAskSize : UInt32

namespace OFIAlpha

def fresh : OFIAlpha := ⟨false,LimitOrderBook.kNoBid,LimitOrderBook.kNoAsk,0,0⟩

/-- Signed difference of two sizes, taken in 64 bits. -/
def sizeDelta (size prev : UInt32) : ℚ := ((size.toNat - prev.toNat : Int) : ℚ)

/-- Order flow on the bid side: an improved bid counts in full, a lost one against. -/
def bidFlow (alpha : OFIAlpha) (bestBid : UInt8) (bestBidSize : UInt32) : ℚ :=
  if bestBid > alpha.prevBestBid then lots bestBidSize
  else if bestBid = alpha.prevBestBid then sizeDelta bestBidSize alpha.prevBestBidSize
  else -lots alpha.prevBestBidSize

/-- What order flow on the ask side takes away; a lower ask improves. -/
def askFlow (alpha : OFIAlpha) (bestAsk : UInt8) (bestAskSize : UInt32) : ℚ :=
  if bestAsk < alpha.prevBestAsk then lots bestAskSize
  else if bestAsk = alpha.prevBestAsk then sizeDelta bestAskSize alpha.prevBestAskSize
  else -lots alpha.prevBestAskSize

def update (alpha : OFIAlpha) (book : LimitOrderBook) (_tick : MarketTick) : ℚ × OFIAlpha :=
  let bestBid := book.getBestBid
  let bestAsk := book.getBestAsk
  if bestBid = LimitOrderBook.kNoBid ∨ bestAsk = LimitOrderBook.kNoAsk then
    (0, { alpha with initialized := false })
  else
    let bestBidSize := book.getBidSize bestBid
    let bestAskSize := book.getAskSize bestAsk
    let next : OFIAlpha := ⟨true,bestBid,bestAsk,bestBidSize,bestAskSize⟩
    if alpha.initialized = false then (0, next)
    else
      let ofi := 0 + alpha.bidFlow bestBid bestBidSize - alpha.askFlow bestAsk bestAskSize
      let denomSizes := bestBidSize + bestAskSize
      let midCents := (cents bestBid + cents bestAsk) * (1 / 2)
      let micropriceCents :=
        if denomSizes = 0 then midCents else microprice bestBid bestAsk bestBidSize bestAskSize
      let spreadCents := max 1 (((bestAsk.toNat - bestBid.toNat : Int) : ℚ))
      let bookPressure := clamp ((micropriceCents - midCents) / spreadCents) (-1) 1
      let normDenom := max 1 (lots denomSizes)
      let ofiNorm := clamp (ofi / normDenom) (-1) 1
      (clamp (65 / 100 * ofiNorm + 35 / 100 * bookPressure) (-1) 1, next)

end OFIAlpha

/-- A signal of the engine behind the interface `IAlphaSignal`. -/
inductive Signal where
  | momentum (alpha : MomentumAlpha)
  | ofi (alpha : OFIAlpha)

def Signal.update (book : LimitOrderBook) (tick : MarketTick) : Signal → ℚ × Signal
  | momentum alpha => ((alpha.update book tick).1, momentum (alpha.update book tick).2)
  | ofi alpha => ((alpha.update book tick).1, ofi (alpha.update book tick).2)

end PredictionMarket.Strategy

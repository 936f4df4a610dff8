import PredictionMarket.Foundation.LastWrite
import Mathlib.Data.List.FinRange
import Mathlib.Data.Fin.Rev

/-! The price-level book of `order_book.hpp`. One size per side and cent; a size of
zero is a deleted level. The book refines a last-write-wins store. -/
namespace PredictionMarket.Market
open Foundation.LastWrite

structure MarketTick where
  price : UInt8
  size : UInt32
  isBid : Bool
  deriving DecidableEq

namespace LimitOrderBook

def kMinPrice : UInt8 := 0
def kMaxPrice : UInt8 := 100
def kLevels : Nat := 101
def kNoBid : UInt8 := 255
def kNoAsk : UInt8 := 255

end LimitOrderBook

structure LimitOrderBook where
  bids : Vector UInt32 LimitOrderBook.kLevels
  asks : Vector UInt32 LimitOrderBook.kLevels

namespace LimitOrderBook

def empty : LimitOrderBook := ⟨.replicate kLevels 0,.replicate kLevels 0⟩

/-- `price < kMinPrice || price > kMaxPrice` -/
abbrev OutOfRange (price : UInt8) : Prop := price < kMinPrice ∨ price > kMaxPrice

/-- A price is off the book when it is more than a hundred cents. -/
theorem outOfRange_iff {price : UInt8} : OutOfRange price ↔ 100 < price.toNat := by
  rw [OutOfRange, gt_iff_lt, UInt8.lt_iff_toNat_lt, UInt8.lt_iff_toNat_lt]
  change _ < 0 ∨ 100 < _ ↔ _
  omega

/-- A price that passes the range test indexes both arrays. -/
theorem index_lt {price : UInt8} (h : ¬ OutOfRange price) : price.toNat < kLevels := by
  rw [outOfRange_iff, Nat.not_lt] at h
  exact Nat.lt_succ_of_le h

/-- A price of the book is at most a hundred cents. -/
theorem price_le (p : Fin kLevels) : p.val ≤ 100 := Nat.le_of_lt_succ p.isLt

def applyTick (book : LimitOrderBook) (tick : MarketTick) : LimitOrderBook :=
  if h : OutOfRange tick.price then book
  else
    if tick.isBid then { book with bids := book.bids.set tick.price.toNat tick.size (index_lt h) }
    else { book with asks := book.asks.set tick.price.toNat tick.size (index_lt h) }

def prices : List (Fin kLevels) := List.finRange kLevels

/-- The loop from `kMaxPrice` down to `kMinPrice`. -/
def getBestBid (book : LimitOrderBook) : UInt8 :=
  match prices.reverse.find? fun p => book.bids[p] != 0 with
  | some p => UInt8.ofNat p.val
  | none => kNoBid

/-- The loop from `kMinPrice` up to `kMaxPrice`. -/
def getBestAsk (book : LimitOrderBook) : UInt8 :=
  match prices.find? fun p => book.asks[p] != 0 with
  | some p => UInt8.ofNat p.val
  | none => kNoAsk

def getBidSize (book : LimitOrderBook) (price : UInt8) : UInt32 :=
  if h : OutOfRange price then 0 else book.bids.get ⟨price.toNat,index_lt h⟩

def getAskSize (book : LimitOrderBook) (price : UInt8) : UInt32 :=
  if h : OutOfRange price then 0 else book.asks.get ⟨price.toNat,index_lt h⟩

def applyTicks (book : LimitOrderBook) (ticks : List MarketTick) : LimitOrderBook :=
  ticks.foldl applyTick book

end LimitOrderBook

/-- A side of the book and a price on it. -/
abbrev Level := Bool × Fin LimitOrderBook.kLevels

/-- The level a tick assigns, unless its price is off the book. -/
def MarketTick.level? (tick : MarketTick) : Option Level :=
  if h : LimitOrderBook.OutOfRange tick.price then none
  else some (tick.isBid,⟨tick.price.toNat,LimitOrderBook.index_lt h⟩)

/-- A tick as an assignment. -/
def MarketTick.write? (tick : MarketTick) : Option (Level × UInt32) :=
  tick.level?.map fun level => (level,tick.size)

namespace LimitOrderBook

/-- The store that a book is. -/
def sizeAt (book : LimitOrderBook) : Level → UInt32
  | (true, p) => book.bids[p]
  | (false, p) => book.asks[p]

/-- A book is the sizes of its levels. -/
@[ext] theorem ext_sizeAt {a b : LimitOrderBook} (h : a.sizeAt = b.sizeAt) : a = b := by
  cases a with
  | mk bids asks =>
    cases b with
    | mk bids' asks' =>
      congr 1
      · exact Vector.ext fun i hi => congrFun h (true,⟨i,hi⟩)
      · exact Vector.ext fun i hi => congrFun h (false,⟨i,hi⟩)

@[simp] theorem sizeAt_empty (level : Level) : empty.sizeAt level = 0 := by
  rcases level with ⟨_ | _,p⟩ <;> simp [sizeAt, empty]

/-- Applying a tick is one assignment of the store, or none. -/
theorem sizeAt_applyTick (book : LimitOrderBook) (tick : MarketTick) :
    (book.applyTick tick).sizeAt = writes book.sizeAt tick.write?.toList := by
  unfold applyTick MarketTick.write? MarketTick.level?
  split
  · rfl
  · rename_i h
    simp only [Option.map_some, Option.toList_some, writes_cons, writes_nil]
    funext ⟨side,p⟩
    cases hside : tick.isBid <;> cases side <;>
      simp [sizeAt, Function.update_apply, Vector.getElem_set, Fin.ext_iff, eq_comm]

/-- Ticks are writes to the sizes of the levels. -/
theorem sizeAt_applyTicks (book : LimitOrderBook) (ticks : List MarketTick) :
    (book.applyTicks ticks).sizeAt = writes book.sizeAt (ticks.filterMap MarketTick.write?) := by
  induction ticks generalizing book with
  | nil => rfl
  | cons tick ticks ih =>
    change ((book.applyTick tick).applyTicks ticks).sizeAt = _
    rw [ih, sizeAt_applyTick, ← writes_append, List.filterMap_cons]
    cases tick.write? <;> rfl

/-- Ticks are applied one after the other. -/
theorem applyTicks_append (book : LimitOrderBook) (xs ys : List MarketTick) :
    book.applyTicks (xs ++ ys) = (book.applyTicks xs).applyTicks ys := List.foldl_append

end LimitOrderBook
end PredictionMarket.Market

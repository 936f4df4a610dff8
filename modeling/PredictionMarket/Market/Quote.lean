import PredictionMarket.Market.OrderBook

/-! The top of the book, and the mirror that swaps its sides and reverses its prices.
The two scans of a book are each other's mirror image. -/
namespace PredictionMarket.Market

/-- Best prices with their sizes. -/
structure Quote where
  bid : Fin LimitOrderBook.kLevels
  ask : Fin LimitOrderBook.kLevels
  bidSize : UInt32
  askSize : UInt32
  deriving DecidableEq

def Quote.mirror (q : Quote) : Quote := ⟨q.ask.rev,q.bid.rev,q.askSize,q.bidSize⟩

/-- Both sizes add up to the same sum in the mirror. -/
theorem Quote.mirror_sizes (q : Quote) : q.mirror.bidSize + q.mirror.askSize = q.bidSize + q.askSize :=
  UInt32.add_comm _ _

/-- The byte of a price on the book. -/
def priceByte (p : Fin LimitOrderBook.kLevels) : UInt8 := UInt8.ofNat p.val

/-- A price as a byte keeps its value. -/
theorem priceByte_toNat (p : Fin LimitOrderBook.kLevels) : (priceByte p).toNat = p.val := by
  apply UInt8.toNat_ofNat_of_lt'
  exact (LimitOrderBook.price_le p).trans_lt (by decide)

/-- Prices as bytes keep their order. -/
theorem priceByte_lt {p q : Fin LimitOrderBook.kLevels} : priceByte p < priceByte q ↔ p < q := by
  rw [UInt8.lt_iff_toNat_lt, priceByte_toNat, priceByte_toNat]
  rfl

/-- Different prices are different bytes. -/
theorem priceByte_inj {p q : Fin LimitOrderBook.kLevels} : priceByte p = priceByte q ↔ p = q := by
  rw [← UInt8.toNat_inj, priceByte_toNat, priceByte_toNat, Fin.ext_iff]

/-- No price is the sentinel. -/
theorem priceByte_ne_none (p : Fin LimitOrderBook.kLevels) : priceByte p ≠ LimitOrderBook.kNoBid := by
  intro h
  have hle := LimitOrderBook.price_le p
  rw [← priceByte_toNat, h] at hle
  exact absurd hle (by decide)

private theorem priceByte_inRange (p : Fin LimitOrderBook.kLevels) :
    ¬ LimitOrderBook.OutOfRange (priceByte p) := by
  rw [LimitOrderBook.outOfRange_iff, priceByte_toNat, Nat.not_lt]
  exact LimitOrderBook.price_le p

namespace LimitOrderBook
variable (book : LimitOrderBook)

def bestBid? : Option (Fin kLevels) := prices.reverse.find? fun p => book.sizeAt (true,p) != 0

def bestAsk? : Option (Fin kLevels) := prices.find? fun p => book.sizeAt (false,p) != 0

/-- The quote of a book with both sides. -/
def quote? : Option Quote := book.bestBid?.bind fun bid => book.bestAsk?.map fun ask =>
  ⟨bid,ask,book.sizeAt (true,bid),book.sizeAt (false,ask)⟩

/-- The best bid is returned as a byte, with a sentinel for none. -/
theorem getBestBid_eq : book.getBestBid = book.bestBid?.elim kNoBid priceByte := by
  have hscan : prices.reverse.find? (fun p => book.bids[p] != 0) = book.bestBid? := rfl
  rw [getBestBid, hscan]
  cases book.bestBid? <;> rfl

/-- The best ask is returned as a byte, with a sentinel for none. -/
theorem getBestAsk_eq : book.getBestAsk = book.bestAsk?.elim kNoAsk priceByte := by
  have hscan : prices.find? (fun p => book.asks[p] != 0) = book.bestAsk? := rfl
  rw [getBestAsk, hscan]
  cases book.bestAsk? <;> rfl

private theorem getBidSize_priceByte (p : Fin kLevels) :
    book.getBidSize (priceByte p) = book.sizeAt (true,p) := by
  rw [getBidSize, dif_neg (priceByte_inRange p)]
  exact congrArg book.bids.get (Fin.ext (priceByte_toNat p))

private theorem getAskSize_priceByte (p : Fin kLevels) :
    book.getAskSize (priceByte p) = book.sizeAt (false,p) := by
  rw [getAskSize, dif_neg (priceByte_inRange p)]
  exact congrArg book.asks.get (Fin.ext (priceByte_toNat p))

/-- The test with which the engine and the signals skip a one-sided book. -/
theorem oneSided_iff : (book.getBestBid = kNoBid ∨ book.getBestAsk = kNoAsk) ↔ book.quote? = none := by
  rw [getBestBid_eq, getBestAsk_eq, quote?]
  cases book.bestBid? with
  | none => simp
  | some bid =>
    cases book.bestAsk? with
    | none => simp
    | some ask => simpa using ⟨priceByte_ne_none bid,priceByte_ne_none ask⟩

variable {book} in
/-- A book with a quote has neither sentinel. -/
theorem not_oneSided {q : Quote} (h : book.quote? = some q) :
    ¬ (book.getBestBid = kNoBid ∨ book.getBestAsk = kNoAsk) := by
  intro hs
  rw [(oneSided_iff book).mp hs] at h
  cases h

variable {book} in
/-- What the getters return on a quoted book. -/
theorem of_quote {q : Quote} (h : book.quote? = some q) :
    book.getBestBid = priceByte q.bid ∧ book.getBestAsk = priceByte q.ask ∧
      book.getBidSize (priceByte q.bid) = q.bidSize ∧ book.getAskSize (priceByte q.ask) = q.askSize := by
  obtain ⟨bid,hbid,hrest⟩ := Option.bind_eq_some_iff.mp h
  obtain ⟨ask,hask,rfl⟩ := Option.map_eq_some_iff.mp hrest
  rw [getBestBid_eq, hbid, getBestAsk_eq, hask]
  exact ⟨rfl,rfl,book.getBidSize_priceByte bid,book.getAskSize_priceByte ask⟩

/-- Bids become asks at the complementary price, and asks bids. -/
def mirror : LimitOrderBook :=
  ⟨.ofFn fun p => book.sizeAt (false,p.rev),.ofFn fun p => book.sizeAt (true,p.rev)⟩

private theorem sizeAt_mirror (side : Bool) (p : Fin kLevels) :
    book.mirror.sizeAt (side,p) = book.sizeAt (!side,p.rev) := by
  cases side <;> simp [mirror, sizeAt]

/-- The mirror of the empty book is empty. -/
theorem mirror_empty : empty.mirror = empty := by
  apply ext_sizeAt
  funext ⟨side,p⟩
  rw [sizeAt_mirror, sizeAt_empty, sizeAt_empty]

private theorem bestBid?_mirror : book.mirror.bestBid? = book.bestAsk?.map Fin.rev := by
  have hp : (fun p => book.mirror.sizeAt (true,p) != 0) ∘ Fin.rev =
      fun p => book.sizeAt (false,p) != 0 := by
    funext p
    simp only [Function.comp_apply, sizeAt_mirror, Fin.rev_rev, Bool.not_true]
  rw [bestBid?, bestAsk?, prices, List.finRange_reverse, List.find?_map, hp]

private theorem bestAsk?_mirror : book.mirror.bestAsk? = book.bestBid?.map Fin.rev := by
  have hp : (fun p => book.mirror.sizeAt (false,p) != 0) ∘ Fin.rev =
      fun p => book.sizeAt (true,p) != 0 := by
    funext p
    simp only [Function.comp_apply, sizeAt_mirror, Fin.rev_rev, Bool.not_false]
  have hr : prices = prices.reverse.map Fin.rev := by
    rw [prices, List.finRange_reverse, List.map_map, Fin.rev_involutive.comp_self, List.map_id]
  rw [bestBid?, bestAsk?, hr, List.find?_map, hp, ← hr]

/-- The mirrored book has the mirrored quote. -/
theorem quote?_mirror : book.mirror.quote? = book.quote?.map Quote.mirror := by
  rw [quote?, quote?, bestBid?_mirror, bestAsk?_mirror]
  cases book.bestBid? with
  | none => cases book.bestAsk? <;> rfl
  | some bid =>
    cases book.bestAsk? with
    | none => rfl
    | some ask =>
      simp only [Option.map_some, Option.bind_some, sizeAt_mirror, Fin.rev_rev, Quote.mirror,
        Bool.not_true, Bool.not_false]

variable {book} in
/-- The mirror of a book with a quote has the mirrored quote. -/
theorem quote?_mirror_some {q : Quote} (h : book.quote? = some q) :
    book.mirror.quote? = some q.mirror := by
  rw [quote?_mirror, h]
  rfl

end LimitOrderBook

/-- The other side at the complementary price. -/
def Level.mirror (level : Level) : Level := (!level.1,level.2.rev)

private theorem Level.mirror_mirror (level : Level) : Level.mirror (Level.mirror level) = level := by
  simp [Level.mirror]

namespace MarketTick

/-- A tick of the other outcome; one off the book stays as it is. -/
def mirror (tick : MarketTick) : MarketTick :=
  if LimitOrderBook.OutOfRange tick.price then tick
  else ⟨LimitOrderBook.kMaxPrice - tick.price,tick.size,!tick.isBid⟩

private theorem mirror_level? (tick : MarketTick) : tick.mirror.level? = tick.level?.map Level.mirror := by
  by_cases h : LimitOrderBook.OutOfRange tick.price
  · rw [mirror, if_pos h, level?, dif_pos h]
    rfl
  · have hp : tick.price.toNat ≤ 100 := by rwa [LimitOrderBook.outOfRange_iff, Nat.not_lt] at h
    have hsub : (LimitOrderBook.kMaxPrice - tick.price).toNat = 100 - tick.price.toNat :=
      UInt8.toNat_sub_of_le _ _ (UInt8.le_iff_toNat_le.mpr hp)
    have hin : ¬ LimitOrderBook.OutOfRange (LimitOrderBook.kMaxPrice - tick.price) := by
      rw [LimitOrderBook.outOfRange_iff, hsub]
      omega
    rw [mirror, if_neg h, level?, dif_neg hin, level?, dif_neg h, Option.map_some, Level.mirror]
    refine congrArg some (Prod.ext rfl (Fin.ext ?_))
    rw [Fin.val_rev]
    refine hsub.trans ?_
    change 100 - tick.price.toNat = 101 - (tick.price.toNat + 1)
    omega

private theorem mirror_size (tick : MarketTick) : tick.mirror.size = tick.size := by
  unfold mirror
  split <;> rfl

end MarketTick

/-- Mirrored ticks build the mirrored book. -/
theorem LimitOrderBook.mirror_applyTick (book : LimitOrderBook) (tick : MarketTick) :
    book.mirror.applyTick tick.mirror = (book.applyTick tick).mirror := by
  apply ext_sizeAt
  funext ⟨side,p⟩
  rw [sizeAt_mirror, sizeAt_applyTick, sizeAt_applyTick, MarketTick.write?, MarketTick.write?,
    MarketTick.mirror_level?, MarketTick.mirror_size]
  cases tick.level? with
  | none => exact book.sizeAt_mirror side p
  | some level =>
    change Function.update book.mirror.sizeAt (Level.mirror level) tick.size (side,p) =
      Function.update book.sizeAt level tick.size (Level.mirror (side,p))
    by_cases h : Level.mirror (side,p) = level
    · rw [h, Function.update_self, ← h, Level.mirror_mirror, Function.update_self]
    · have h' : (side,p) ≠ Level.mirror level := by
        intro he
        apply h
        rw [he, Level.mirror_mirror]
      rw [Function.update_of_ne h, Function.update_of_ne h', sizeAt_mirror]
      rfl

end PredictionMarket.Market

import PredictionMarket.Market.Quote
import Mathlib.Order.Bounds.Basic

/-! What a book shows of the ticks applied to it. Each level holds the size of its last
tick, and the two scans find the extreme prices among the levels that are not empty. -/
namespace PredictionMarket.Market
open Foundation.LastWrite

private theorem find?_sorted {α : Type} {r : α → α → Prop} (asymm : ∀ a b, r a b → ¬ r b a)
    {l : List α} (sorted : l.Pairwise r) (p : α → Bool) (a : α) :
    l.find? p = some a ↔ a ∈ l ∧ p a = true ∧ ∀ b ∈ l, r b a → p b = false := by
  constructor
  · intro h
    obtain ⟨hp,before,after,rfl,hb⟩ := List.find?_eq_some_iff_append.mp h
    refine ⟨by simp,hp,?_⟩
    intro b hm hr
    rcases List.mem_append.mp hm with hm | hm
    · simpa using hb b hm
    · rcases List.mem_cons.mp hm with rfl | hm
      · exact absurd hr (asymm b b hr)
      · have hab := List.rel_of_pairwise_cons (List.pairwise_append.mp sorted).2.1 hm
        exact absurd hr (asymm a b hab)
  · rintro ⟨hm,hp,hfirst⟩
    obtain ⟨before,after,rfl⟩ := List.append_of_mem hm
    apply List.find?_eq_some_iff_append.mpr
    refine ⟨hp,before,after,rfl,?_⟩
    intro b hb
    have hr := (List.pairwise_append.mp sorted).2.2 b hb a List.mem_cons_self
    simp [hfirst b (List.mem_append_left _ hb) hr]

namespace LimitOrderBook
variable (book : LimitOrderBook)

/-- The prices with something on this side. -/
def live (side : Bool) : Set (Fin kLevels) := fun p => book.sizeAt (side,p) ≠ 0

private theorem find?_live (side : Bool) {r : Fin kLevels → Fin kLevels → Prop}
    (asymm : ∀ a b, r a b → ¬ r b a) {l : List (Fin kLevels)} (sorted : l.Pairwise r) (all : ∀ q, q ∈ l)
    (p : Fin kLevels) : l.find? (fun q => book.sizeAt (side,q) != 0) = some p ↔
      p ∈ book.live side ∧ ∀ q ∈ book.live side, ¬ r q p := by
  rw [find?_sorted asymm sorted]
  simp only [all, true_and, bne_iff_ne, forall_const]
  apply and_congr Iff.rfl
  constructor
  · intro h q hq hr
    exact hq (by simpa using h q hr)
  · intro h q hr
    by_contra hq
    have hlive : book.sizeAt (side,q) ≠ 0 := by simpa using hq
    exact h q hlive hr

/-- The best bid is the greatest live bid price. -/
theorem bestBid?_eq_some_iff (p : Fin kLevels) :
    book.bestBid? = some p ↔ IsGreatest (book.live true) p := by
  have hsorted : prices.reverse.Pairwise (· > ·) :=
    List.pairwise_reverse.mpr (List.pairwise_lt_finRange kLevels)
  have hall (q : Fin kLevels) : q ∈ prices.reverse := List.mem_reverse.mpr (List.mem_finRange q)
  rw [bestBid?, book.find?_live true (fun _ _ h => lt_asymm h) hsorted hall]
  simp only [not_lt]
  exact Iff.rfl

/-- The best ask is the least live ask price. -/
theorem bestAsk?_eq_some_iff (p : Fin kLevels) :
    book.bestAsk? = some p ↔ IsLeast (book.live false) p := by
  have hsorted : prices.Pairwise (· < ·) := List.pairwise_lt_finRange kLevels
  rw [bestAsk?, book.find?_live false (fun _ _ h => lt_asymm h) hsorted List.mem_finRange]
  simp only [not_lt]
  exact Iff.rfl

/-- There is no best bid exactly if no bid has a size. -/
theorem bestBid?_eq_none_iff : book.bestBid? = none ↔ ∀ p, book.sizeAt (true,p) = 0 := by
  simp [bestBid?, prices]

/-- There is no best ask exactly if no ask has a size. -/
theorem bestAsk?_eq_none_iff : book.bestAsk? = none ↔ ∀ p, book.sizeAt (false,p) = 0 := by
  simp [bestAsk?, prices]

private theorem getBestBid_eq_iff (p : Fin kLevels) :
    book.getBestBid = priceByte p ↔ IsGreatest (book.live true) p := by
  rw [← bestBid?_eq_some_iff, getBestBid_eq]
  cases book.bestBid? with
  | none => simpa using (priceByte_ne_none p).symm
  | some q => simp [priceByte_inj]

private theorem getBestAsk_eq_iff (p : Fin kLevels) :
    book.getBestAsk = priceByte p ↔ IsLeast (book.live false) p := by
  rw [← bestAsk?_eq_some_iff, getBestAsk_eq]
  cases book.bestAsk? with
  | none =>
    have h : priceByte p ≠ kNoAsk := priceByte_ne_none p
    simpa using h.symm
  | some q => simp [priceByte_inj]

/-- The sentinel for no bid is returned exactly if no bid has a size. -/
theorem getBestBid_eq_none_iff : book.getBestBid = kNoBid ↔ ∀ p, book.sizeAt (true,p) = 0 := by
  rw [← bestBid?_eq_none_iff, getBestBid_eq]
  cases book.bestBid? with
  | none => simp
  | some q => simpa using priceByte_ne_none q

/-- The sentinel for no ask is returned exactly if no ask has a size. -/
theorem getBestAsk_eq_none_iff : book.getBestAsk = kNoAsk ↔ ∀ p, book.sizeAt (false,p) = 0 := by
  rw [← bestAsk?_eq_none_iff, getBestAsk_eq]
  cases book.bestAsk? with
  | none => simp
  | some q =>
    have h : priceByte q ≠ kNoAsk := priceByte_ne_none q
    simpa using h

end LimitOrderBook

/-- The tick is for this side and price. -/
def MarketTick.IsAt (side : Bool) (price : UInt8) (tick : MarketTick) : Prop :=
  tick.isBid = side ∧ tick.price = price

instance (side : Bool) (price : UInt8) (tick : MarketTick) : Decidable (tick.IsAt side price) :=
  instDecidableAnd

/-- The size last assigned to a side and price, zero if none was. -/
def lastSize (ticks : List MarketTick) (side : Bool) (price : UInt8) : UInt32 :=
  ((ticks.filter fun tick => tick.IsAt side price).getLast?.map MarketTick.size).getD 0

/-- Two orders of ticks that agree for each side and price. -/
def Reordered (xs ys : List MarketTick) : Prop :=
  ∀ side price, xs.filter (fun tick => tick.IsAt side price) = ys.filter fun tick => tick.IsAt side price

/-- A tick is for a level exactly if its side and its price byte are those of the level. -/
theorem MarketTick.level?_eq_some_iff (tick : MarketTick) (side : Bool) (p : Fin LimitOrderBook.kLevels) :
    tick.level? = some (side,p) ↔ tick.IsAt side (priceByte p) := by
  rw [level?, IsAt, ← UInt8.toNat_inj, priceByte_toNat]
  split
  · rename_i h
    rw [LimitOrderBook.outOfRange_iff] at h
    have := LimitOrderBook.price_le p
    simp only [reduceCtorEq, false_iff, not_and]
    omega
  · simp [Fin.ext_iff]

private theorem writes_at (ticks : List MarketTick) (side : Bool) (p : Fin LimitOrderBook.kLevels) :
    (ticks.filterMap MarketTick.write?).filter (fun w => w.1 = (side,p)) =
      (ticks.filter fun tick => tick.IsAt side (priceByte p)).map fun tick => ((side,p),tick.size) := by
  induction ticks with
  | nil => rfl
  | cons tick ticks ih =>
    have hlevel := tick.level?_eq_some_iff side p
    rw [List.filterMap_cons, List.filter_cons, MarketTick.write?]
    cases hl : tick.level? with
    | none =>
      rw [hl] at hlevel
      simp only [reduceCtorEq, false_iff] at hlevel
      simpa [hlevel] using ih
    | some level =>
      rw [hl, Option.some_inj] at hlevel
      by_cases hk : level = (side,p)
      · simp [hk, hlevel.mp hk, ih]
      · simp [hk, mt hlevel.mpr hk, ih]

namespace LimitOrderBook

/-- A level shows the size of the last tick for it. -/
theorem sizeAt_history (ticks : List MarketTick) (side : Bool) (p : Fin kLevels) :
    (empty.applyTicks ticks).sizeAt (side,p) = lastSize ticks side (priceByte p) := by
  rw [sizeAt_applyTicks, writes_apply, last?_eq_getLast?, writes_at, List.getLast?_map, sizeAt_empty,
    lastSize]
  cases (ticks.filter fun tick => tick.IsAt side (priceByte p)).getLast? <;> rfl

private theorem applyTick_outOfRange (book : LimitOrderBook) {tick : MarketTick} (h : OutOfRange tick.price) :
    book.applyTick tick = book := dif_pos h

private theorem applyTicks_inRange (book : LimitOrderBook) (ticks : List MarketTick) :
    book.applyTicks (ticks.filter fun tick => tick.price ≤ kMaxPrice) = book.applyTicks ticks := by
  induction ticks generalizing book with
  | nil => rfl
  | cons tick ticks ih =>
    rw [List.filter_cons]
    by_cases h : tick.price ≤ kMaxPrice
    · rw [if_pos (by simpa using h)]
      exact ih _
    · have hout : OutOfRange tick.price := .inr (UInt8.not_le.mp h)
      rw [if_neg (by simpa using h), ih]
      change _ = (book.applyTick tick).applyTicks ticks
      rw [book.applyTick_outOfRange hout]

/-- A book is the last-write-wins map of its ticks: each level has the size of its last
tick, ticks off the book do nothing, the getters find the extreme live prices or report an
empty side, and only the order among the ticks of one side and price matters. -/
theorem history_determines_book (ticks : List MarketTick) :
    (∀ side p, (empty.applyTicks ticks).sizeAt (side,p) = lastSize ticks side (priceByte p)) ∧
    empty.applyTicks (ticks.filter fun tick => tick.price ≤ kMaxPrice) = empty.applyTicks ticks ∧
    ((∀ p, (empty.applyTicks ticks).getBestBid = priceByte p ↔
        IsGreatest ((empty.applyTicks ticks).live true) p) ∧
      ((empty.applyTicks ticks).getBestBid = kNoBid ↔
        ∀ p, (empty.applyTicks ticks).sizeAt (true,p) = 0)) ∧
    ((∀ p, (empty.applyTicks ticks).getBestAsk = priceByte p ↔
        IsLeast ((empty.applyTicks ticks).live false) p) ∧
      ((empty.applyTicks ticks).getBestAsk = kNoAsk ↔
        ∀ p, (empty.applyTicks ticks).sizeAt (false,p) = 0)) ∧
    ∀ reordered, Reordered ticks reordered → empty.applyTicks reordered = empty.applyTicks ticks ∧
      (empty.applyTicks reordered).getBestBid = (empty.applyTicks ticks).getBestBid ∧
      (empty.applyTicks reordered).getBestAsk = (empty.applyTicks ticks).getBestAsk := by
  refine ⟨sizeAt_history ticks,applyTicks_inRange _ ticks,
    ⟨getBestBid_eq_iff _,getBestBid_eq_none_iff _⟩,⟨getBestAsk_eq_iff _,getBestAsk_eq_none_iff _⟩,?_⟩
  intro reordered h
  have hbook : empty.applyTicks reordered = empty.applyTicks ticks := by
    apply ext_sizeAt
    funext ⟨side,p⟩
    rw [sizeAt_history, sizeAt_history, lastSize, lastSize, h]
  rw [hbook]
  exact ⟨rfl,rfl,rfl⟩

/-- An update of each side, exchanged; the second bid update stays behind the first. -/
theorem exchanged_same_book :
    empty.applyTicks [⟨60,5,false⟩,⟨40,10,true⟩,⟨40,7,true⟩] =
      empty.applyTicks [⟨40,10,true⟩,⟨60,5,false⟩,⟨40,7,true⟩] := by
  have h : Reordered [⟨40,10,true⟩,⟨60,5,false⟩,⟨40,7,true⟩] [⟨60,5,false⟩,⟨40,10,true⟩,⟨40,7,true⟩] := by
    intro side price
    cases side <;> simp [MarketTick.IsAt, List.filter_cons]
  exact ((history_determines_book _).2.2.2.2 _ h).1

/-- A tick leaves nothing of an earlier one at its level. -/
theorem applyTick_overwrite (book : LimitOrderBook) {tick next : MarketTick} (h : next.level? = tick.level?) :
    (book.applyTick tick).applyTick next = book.applyTick next := by
  apply ext_sizeAt
  rw [sizeAt_applyTick, sizeAt_applyTick, sizeAt_applyTick, MarketTick.write?, MarketTick.write?, h]
  cases tick.level? with
  | none => rfl
  | some level => exact Function.update_idem ..

/-- There is a bid and there is an ask. -/
def TwoSided (book : LimitOrderBook) : Prop := (book.live true).Nonempty ∧ (book.live false).Nonempty

/-- A book has both sides exactly if it has a quote. -/
theorem twoSided_iff (book : LimitOrderBook) : book.TwoSided ↔ ∃ q, book.quote? = some q := by
  have hbid : (book.live true).Nonempty ↔ book.bestBid? ≠ none := by
    rw [ne_eq, bestBid?_eq_none_iff, not_forall]
    rfl
  have hask : (book.live false).Nonempty ↔ book.bestAsk? ≠ none := by
    rw [ne_eq, bestAsk?_eq_none_iff, not_forall]
    rfl
  rw [TwoSided, hbid, hask, quote?]
  cases book.bestBid? with
  | none => simp
  | some bid => cases book.bestAsk? <;> simp

/-- The books behind the ticks, one after another. -/
def books (book : LimitOrderBook) : List MarketTick → List LimitOrderBook
  | [] => []
  | tick :: ticks => book.applyTick tick :: (book.applyTick tick).books ticks

/-- The book behind all ticks is one of the books behind each of them. -/
theorem applyTicks_mem_books {book : LimitOrderBook} {ticks : List MarketTick} (h : ticks ≠ []) :
    book.applyTicks ticks ∈ book.books ticks := by
  induction ticks generalizing book with
  | nil => exact absurd rfl h
  | cons tick ticks ih =>
    cases ticks with
    | nil => exact List.mem_cons_self
    | cons next ticks => exact List.mem_cons_of_mem _ (ih (List.cons_ne_nil _ _))

end LimitOrderBook
end PredictionMarket.Market

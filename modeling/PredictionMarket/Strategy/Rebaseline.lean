import PredictionMarket.Strategy.Baseline
import PredictionMarket.Market.BookHistory

/-! The order-flow signal across a one-sided book. The loop skips such a book, so the reset
in `OFIAlpha::update` never runs: a baseline taken once outlives every gap. -/
namespace PredictionMarket.Strategy
open Market Foundation

section Gap
variable {book : LimitOrderBook}

private theorem evaluatedQuote?_of_one_sided (h : ¬ book.TwoSided) : evaluatedQuote? book = none := by
  rw [LimitOrderBook.twoSided_iff, not_exists] at h
  cases hq : evaluatedQuote? book with
  | none => rfl
  | some q => exact absurd (evaluatedQuote?_eq_some_iff.mp hq).1 (h q)

/-- Nothing is evaluated while a side is empty. -/
theorem evaluatedQuotes_gap {ticks : List MarketTick} (h : ∀ b ∈ book.books ticks, ¬ b.TwoSided) :
    evaluatedQuotes book ticks = [] := by
  induction ticks generalizing book with
  | nil => rfl
  | cons tick ticks ih =>
    obtain ⟨hhead,htail⟩ := List.forall_mem_cons.mp h
    rw [evaluatedQuotes, evaluatedQuote?_of_one_sided hhead, ih htail]
    rfl

end Gap

def highest : Fin LimitOrderBook.kLevels := Fin.last 100
def lowest : Fin LimitOrderBook.kLevels := highest.rev

private theorem cents_highest : cents (priceByte highest) = 100 := cents_priceByte highest

private theorem cents_lowest : cents (priceByte lowest) = 0 := cents_priceByte lowest

/-- A bid of one lot at the highest price and an ask of three at the lowest. -/
def crossedQuote : Quote := ⟨highest,lowest,1,3⟩

private theorem quote?_crossed {book : LimitOrderBook} (hbid : book.sizeAt (true,highest) = 1)
    (hask : book.sizeAt (false,lowest) = 3) : book.quote? = some crossedQuote := by
  have hb : book.bestBid? = some highest := by
    rw [LimitOrderBook.bestBid?_eq_some_iff]
    refine ⟨?_,fun p _ => Fin.le_last p⟩
    change book.sizeAt (true,highest) ≠ 0
    rw [hbid]
    decide
  have ha : book.bestAsk? = some lowest := by
    rw [LimitOrderBook.bestAsk?_eq_some_iff]
    refine ⟨?_,fun p _ => Nat.zero_le p.val⟩
    change book.sizeAt (false,lowest) ≠ 0
    rw [hask]
    decide
  rw [LimitOrderBook.quote?, hb, ha, Option.bind_some, Option.map_some, hbid, hask]
  rfl

namespace OFIAlpha

/-- Flow is a whole number of lots. -/
theorem bidFlow_integer (alpha : OFIAlpha) (price : UInt8) (size : UInt32) :
    ∃ n : Int, alpha.bidFlow price size = n := by
  unfold bidFlow lots sizeDelta
  split_ifs
  · exact ⟨size.toNat,rfl⟩
  · exact ⟨_,rfl⟩
  · exact ⟨-alpha.prevBestBidSize.toNat,by push_cast; rfl⟩

private theorem askFlow_integer (alpha : OFIAlpha) (price : UInt8) (size : UInt32) :
    ∃ n : Int, alpha.askFlow price size = n := by
  unfold askFlow lots sizeDelta
  split_ifs
  · exact ⟨size.toNat,rfl⟩
  · exact ⟨_,rfl⟩
  · exact ⟨-alpha.prevBestAskSize.toNat,by push_cast; rfl⟩

private theorem lots_crossed : lots (crossedQuote.bidSize + crossedQuote.askSize) = 4 := rfl

private theorem pressureScore_crossed : pressureScore crossedQuote = 1 := by
  have hmicro : quoteMicroprice crossedQuote = 75 := by
    have hbid : lots crossedQuote.bidSize = 1 := rfl
    have hask : lots crossedQuote.askSize = 3 := rfl
    rw [quoteMicroprice, microprice, lots_crossed, hbid, hask]
    change (cents (priceByte highest) * 3 + cents (priceByte lowest) * 1) / 4 = 75
    rw [cents_highest, cents_lowest]
    norm_num
  have hmid : quoteMid crossedQuote = 50 := by
    change (cents (priceByte highest) + cents (priceByte lowest)) * (1 / 2) = 50
    rw [cents_highest, cents_lowest]
    norm_num
  have hspread : (((priceByte crossedQuote.ask).toNat - (priceByte crossedQuote.bid).toNat : Int) : ℚ) = -100 := rfl
  rw [pressureScore, hmicro, hmid, hspread]
  norm_num [clamp]

end OFIAlpha

/-- Whole lots over four never balance the pressure on the crossed quote. -/
theorem flowSince_crossed (p : Quote) : flowSince (some p) crossedQuote ≠ 0 := by
  obtain ⟨n,hbid⟩ := (OFIAlpha.seen p).bidFlow_integer (priceByte highest) 1
  obtain ⟨m,hask⟩ := (OFIAlpha.seen p).askFlow_integer (priceByte lowest) 3
  have hflow : OFIAlpha.flowScore p crossedQuote = clamp (((n - m : Int) : ℚ) / 4) (-1) 1 := by
    rw [OFIAlpha.flowScore, OFIAlpha.lots_crossed]
    change clamp ((0 + (OFIAlpha.seen p).bidFlow (priceByte highest) 1 -
      (OFIAlpha.seen p).askFlow (priceByte lowest) 3) / _) _ _ = _
    rw [hbid, hask, zero_add, Int.cast_sub, max_eq_right (by norm_num)]
  have hodd : 13 * (n - m) ≠ -28 := by omega
  have hodd' : 13 * ((n - m : Int) : ℚ) ≠ -28 := by exact_mod_cast hodd
  rw [flowSince, Option.elim_some, hflow, OFIAlpha.pressureScore_crossed]
  intro hzero
  apply hodd'
  unfold clamp at hzero
  split_ifs at hzero <;> linarith

def topBid : MarketTick := ⟨100,1,true⟩
def topAsk : MarketTick := ⟨0,3,false⟩

private theorem sizeAt_topBid (book : LimitOrderBook) :
    (book.applyTick topBid).sizeAt = Function.update book.sizeAt (true,highest) 1 :=
  book.sizeAt_applyTick topBid

private theorem sizeAt_topAsk (book : LimitOrderBook) :
    (book.applyTick topAsk).sizeAt = Function.update book.sizeAt (false,lowest) 3 :=
  book.sizeAt_applyTick topAsk

/-- Two ticks lead from a one-sided book to the crossed quote, the first of them within the
gap: the side that is there is set up first. -/
theorem exists_crossing {book : LimitOrderBook} (h : ¬ book.TwoSided) : ∃ skipped tick,
    (∀ b ∈ book.books skipped, ¬ b.TwoSided) ∧
      ((book.applyTicks skipped).applyTick tick).quote? = some crossedQuote := by
  have hne : ((true,highest) : Level) ≠ (false,lowest) := by decide
  by_cases hask : (book.live false).Nonempty
  · have hbid : ¬ (book.live true).Nonempty := fun hb => h ⟨hb,hask⟩
    refine ⟨[topAsk],topBid,?_,?_⟩
    · intro b hb
      rw [List.mem_singleton.mp hb]
      rintro ⟨⟨p,hp⟩,_⟩
      apply hbid
      refine ⟨p,?_⟩
      change (book.applyTick topAsk).sizeAt (true,p) ≠ 0 at hp
      rwa [sizeAt_topAsk, Function.update_of_ne (by simp)] at hp
    · apply quote?_crossed
      · rw [sizeAt_topBid, Function.update_self]
      · rw [sizeAt_topBid, Function.update_of_ne hne.symm]
        change (book.applyTick topAsk).sizeAt (false,lowest) = 3
        rw [sizeAt_topAsk, Function.update_self]
  · refine ⟨[topBid],topAsk,?_,?_⟩
    · intro b hb
      rw [List.mem_singleton.mp hb]
      rintro ⟨_,⟨p,hp⟩⟩
      apply hask
      refine ⟨p,?_⟩
      change (book.applyTick topBid).sizeAt (false,p) ≠ 0 at hp
      rwa [sizeAt_topBid, Function.update_of_ne (by simp)] at hp
    · apply quote?_crossed
      · rw [sizeAt_topAsk, Function.update_of_ne hne]
        change (book.applyTick topBid).sizeAt (true,highest) = 1
        rw [sizeAt_topBid, Function.update_self]
      · rw [sizeAt_topAsk, Function.update_self]

namespace StrategyEngine

/-- At the first evaluated tick from here on, order flow scores zero and starts over from
the quote of that tick. -/
def Rebaselines (e : StrategyEngine) : Prop :=
  ∀ skipped passes tick q, e.runTicks skipped = some passes → evaluatedQuotes e.book skipped = [] →
    evaluatedQuote? ((e.after passes).book.applyTick tick) = some q →
    ∀ alpha, .ofi alpha ∈ (e.after passes).signals →
      alpha.update ((e.after passes).book.applyTick tick) tick = (0, .seen q)

/-- Passes that stop before the signals cannot overflow. -/
theorem runTicks_skipped {e : StrategyEngine} {ticks : List MarketTick}
    (h : evaluatedQuotes e.book ticks = []) : ∃ passes, e.runTicks ticks = some passes := by
  induction ticks generalizing e with
  | nil => exact ⟨[],rfl⟩
  | cons tick ticks ih =>
    obtain ⟨hhead,htail⟩ := List.append_eq_nil_iff.mp h
    have hnone : evaluatedQuote? (e.book.applyTick tick) = none := by
      cases hq : evaluatedQuote? (e.book.applyTick tick) with
      | none => rfl
      | some q =>
        rw [hq] at hhead
        cases hhead
    obtain ⟨passes,hpasses⟩ := ih (e := e.skip tick |>.engine) htail
    exact ⟨_,by rw [runTicks, loopBody_skipped hnone, Option.bind_some, hpasses, Option.map_some]⟩

section Standing
variable {e : StrategyEngine} {selection : StrategySelection} {book : LimitOrderBook} {last : Option Quote}
  (h : e.view = .behind selection book last)
include h

/-- Skipped passes leave the signals where they stand. -/
theorem skipped_view {skipped : List MarketTick} {passes : List Step} (hrun : e.runTicks skipped = some passes)
    (hskip : evaluatedQuotes e.book skipped = []) :
    (e.after passes).view = .behind selection (book.applyTicks skipped) last := by
  have hbook : e.book = book := congrArg View.book h
  rw [hbook] at hskip
  rw [(runTicks_view hrun).2, h, View.final_behind, hskip]
  rfl

private theorem rebaselines_fresh (hlast : last = none) : Rebaselines e := by
  intro skipped passes tick q hrun hskip hq alpha hmem
  have hview := skipped_view h hrun hskip
  have hsignals : (e.after passes).signals = signalsBehind last selection := congrArg View.signals hview
  rw [hsignals, hlast] at hmem
  have halpha : alpha = .behind none := by
    cases selection with
    | momentum => simp [signalsBehind] at hmem
    | ofi => simpa [signalsBehind] using hmem
    | both => simpa [signalsBehind] using hmem
  rw [halpha, OFIAlpha.behind_update hq]
  rfl

/-- A baseline from before the gap scores on the crossed quote. -/
theorem not_rebaselines_stale (hofi : selection ≠ .momentum) {p : Quote} (hlast : last = some p)
    (hgap : ¬ book.TwoSided) : ¬ Rebaselines e := by
  intro hre
  have hbook : e.book = book := congrArg View.book h
  obtain ⟨skipped,tick,hone,hquote⟩ := exists_crossing hgap
  have hskip : evaluatedQuotes e.book skipped = [] := by
    rw [hbook]
    exact evaluatedQuotes_gap hone
  obtain ⟨passes,hrun⟩ := runTicks_skipped hskip
  have hview := skipped_view h hrun hskip
  have hafter : (e.after passes).book = book.applyTicks skipped := congrArg View.book hview
  have hsignals : (e.after passes).signals = signalsBehind last selection := congrArg View.signals hview
  have hq : evaluatedQuote? ((e.after passes).book.applyTick tick) = some crossedQuote := by
    rw [hafter]
    exact evaluatedQuote?_eq_some_iff.mpr ⟨hquote,by decide⟩
  have hmem : .ofi (.behind last) ∈ (e.after passes).signals := by
    rw [hsignals]
    cases selection with
    | momentum => exact absurd rfl hofi
    | ofi => exact List.mem_cons_self
    | both => exact List.mem_cons_of_mem _ List.mem_cons_self
  have hupdate := hre skipped passes tick crossedQuote hrun hskip hq _ hmem
  rw [OFIAlpha.behind_update hq, hlast] at hupdate
  exact flowSince_crossed p (congrArg Prod.fst hupdate)

end Standing

/-- Behind a gap the order-flow signal starts over exactly if no tick had been evaluated
before it. -/
theorem rebaselines_iff (selection : StrategySelection) (hofi : selection ≠ .momentum)
    (before interval : List MarketTick) (hne : interval ≠ []) (steps : List Step)
    (hrun : (construct selection).runTicks (before ++ interval) = some steps)
    (hgap : ∀ book ∈ (LimitOrderBook.empty.applyTicks before).books interval, ¬ book.TwoSided) :
    Rebaselines ((construct selection).after steps) ↔ evaluatedQuotes .empty before = [] := by
  have hview := after_view hrun
  have hquotes : evaluatedQuotes .empty (before ++ interval) = evaluatedQuotes .empty before := by
    rw [evaluatedQuotes_append, evaluatedQuotes_gap hgap, List.append_nil]
  have hone : ¬ (LimitOrderBook.empty.applyTicks (before ++ interval)).TwoSided := by
    rw [LimitOrderBook.applyTicks_append]
    exact hgap _ (LimitOrderBook.applyTicks_mem_books hne)
  rw [hquotes] at hview
  constructor
  · intro hre
    by_contra hsome
    obtain ⟨p,hp⟩ := Option.ne_none_iff_exists'.mp (mt List.getLast?_eq_none_iff.mp hsome)
    exact not_rebaselines_stale hview hofi hp hone hre
  · intro hnone
    exact rebaselines_fresh hview (by rw [hnone]; rfl)

private theorem one_sided_of_quote {book : LimitOrderBook} (h : book.quote? = none) : ¬ book.TwoSided := by
  rw [LimitOrderBook.twoSided_iff, h]
  rintro ⟨q,hq⟩
  cases hq

/-- The bid side is cleared and comes back ten cents higher with a thousand lots. -/
def refilled : List MarketTick := [⟨40,10,true⟩,⟨60,10,false⟩,⟨40,0,true⟩,⟨50,1000,true⟩]

/-- Behind the gap the order-flow strategy measures the refill against the quote from before
it, and buys ten lots at sixty cents. -/
theorem refilled_buys : ∃ steps, (construct .ofi).runTicks (refilled.take 2 ++ [⟨40,0,true⟩]) = some steps ∧
    ¬ Rebaselines ((construct .ofi).after steps) ∧
    ((construct .ofi).runTicks refilled).map (List.map Step.fill) = some [none,none,none,some ⟨10,3/5⟩] := by
  have hfills : ((construct .ofi).runTicks refilled).map (List.map Step.fill) =
      some [none,none,none,some ⟨10,3/5⟩] := by decide +kernel
  obtain ⟨all,hall,_⟩ := Option.map_eq_some_iff.mp hfills
  have hsplit : (construct .ofi).runTicks ((refilled.take 2 ++ [⟨40,0,true⟩]) ++ [⟨50,1000,true⟩]) = some all := hall
  obtain ⟨steps,_,hs,_⟩ := runTicks_snoc_cases hsplit
  have hlast : (evaluatedQuotes .empty (refilled.take 2 ++ [⟨40,0,true⟩])).getLast? =
      some ⟨(40 : Fin 101),(60 : Fin 101),10,10⟩ := by decide +kernel
  have hgap : (LimitOrderBook.empty.applyTicks (refilled.take 2 ++ [⟨40,0,true⟩])).quote? = none := by
    decide +kernel
  refine ⟨steps,hs,?_,hfills⟩
  exact not_rebaselines_stale (after_view hs) (fun h => by cases h) hlast (one_sided_of_quote hgap)

/-- A bid that comes and goes without an ask leaves nothing to measure against; a quote that
was evaluated before the gap does. -/
theorem rebaselines_two_gaps :
    (∃ steps, (construct .both).runTicks ([⟨40,10,true⟩,⟨40,0,true⟩] ++ [⟨45,10,true⟩,⟨44,5,true⟩]) = some steps ∧
      Rebaselines ((construct .both).after steps)) ∧
    ∃ steps, (construct .ofi).runTicks (refilled.take 2 ++ [⟨40,0,true⟩]) = some steps ∧
      ¬ Rebaselines ((construct .ofi).after steps) := by
  constructor
  · have hgap : ∀ book ∈ (LimitOrderBook.empty.applyTicks [⟨40,10,true⟩,⟨40,0,true⟩]).books
        [⟨45,10,true⟩,⟨44,5,true⟩], book.quote? = none := by decide +kernel
    have hskip : evaluatedQuotes (construct .both).book
        ([⟨40,10,true⟩,⟨40,0,true⟩] ++ [⟨45,10,true⟩,⟨44,5,true⟩]) = [] := by decide +kernel
    obtain ⟨steps,hs⟩ := runTicks_skipped hskip
    refine ⟨steps,hs,(rebaselines_iff .both (fun h => by cases h) _ _ (by simp) steps hs ?_).mpr ?_⟩
    · exact fun book hbook => one_sided_of_quote (hgap book hbook)
    · decide +kernel
  · have hsome : ((construct .ofi).runTicks (refilled.take 2 ++ [⟨40,0,true⟩])).isSome = true := by
      decide +kernel
    obtain ⟨steps,hs⟩ := Option.isSome_iff_exists.mp hsome
    have hgap : ∀ book ∈ (LimitOrderBook.empty.applyTicks (refilled.take 2)).books [⟨40,0,true⟩],
        book.quote? = none := by decide +kernel
    refine ⟨steps,hs,fun hre => ?_⟩
    have hnone := (rebaselines_iff .ofi (fun h => by cases h) _ _ (by simp) steps hs
      (fun book hbook => one_sided_of_quote (hgap book hbook))).mp hre
    exact absurd hnone (by decide +kernel)

end StrategyEngine
end PredictionMarket.Strategy

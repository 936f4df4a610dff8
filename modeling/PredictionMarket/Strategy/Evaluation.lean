import PredictionMarket.Strategy.View
import PredictionMarket.Market.BookHistory

/-! Which ticks reach the signals. The loop is run with a note of every call of `update`;
dropping the notes gives the loop back. A book with both sides is skipped when the sum of
its best sizes, a 32-bit word, comes out as zero. -/
namespace PredictionMarket.Market.LimitOrderBook

/-- The sizes of the best bid and the best ask add up to the modulus of their word. -/
def SizesCancel (book : LimitOrderBook) : Prop :=
  (book.getBidSize book.getBestBid).toNat + (book.getAskSize book.getBestAsk).toNat = 2^32

instance (book : LimitOrderBook) : Decidable book.SizesCancel := instDecidableEqNat _ _

/-- Sizes on the book are not zero, so they can only cancel by wrapping. -/
theorem sizesCancel_iff {book : LimitOrderBook} {q : Quote} (h : book.quote? = some q) :
    book.SizesCancel ↔ q.bidSize + q.askSize = 0 := by
  obtain ⟨hbid,hask,hbs,has⟩ := of_quote h
  have hne : q.bidSize ≠ 0 := by
    obtain ⟨bid,hb,hrest⟩ := Option.bind_eq_some_iff.mp h
    obtain ⟨ask,_,rfl⟩ := Option.map_eq_some_iff.mp hrest
    exact ((bestBid?_eq_some_iff book bid).mp hb).1
  have hpos : q.bidSize.toNat ≠ 0 := fun hz => hne (UInt32.toNat.inj hz)
  have hb := q.bidSize.toNat_lt
  have ha := q.askSize.toNat_lt
  rw [SizesCancel, hbid, hask, hbs, has, ← UInt32.toNat_inj, UInt32.toNat_add]
  change _ ↔ _ % 2^32 = 0
  omega

private theorem not_sizesCancel (book : LimitOrderBook) (h : book.quote? = none) : ¬ book.SizesCancel := by
  have hb := (book.getBidSize book.getBestBid).toNat_lt
  have ha := (book.getAskSize book.getBestAsk).toNat_lt
  unfold SizesCancel
  rcases (oneSided_iff book).mpr h with hnone | hnone
  · have hz : book.getBidSize book.getBestBid = 0 := by
      rw [hnone]
      rfl
    rw [hz, UInt32.toNat_zero]
    omega
  · have hz : book.getAskSize book.getBestAsk = 0 := by
      rw [hnone]
      rfl
    rw [hz, UInt32.toNat_zero]
    omega

end PredictionMarket.Market.LimitOrderBook

namespace PredictionMarket.Strategy
open Market Foundation

/-- A call of `update`: which signal, and on which book. -/
structure UpdateCall where
  index : Nat
  book : LimitOrderBook

namespace StrategyEngine

/-- `updateSignals` with its calls, from the signal of this index on. -/
def notedUpdates (book : LimitOrderBook) (tick : MarketTick) :
    Nat → ℚ → List Signal → (ℚ × List Signal) × List UpdateCall
  | _, scoreSum, [] => ((scoreSum, []), [])
  | i, scoreSum, signal :: rest =>
    let (score, signal) := signal.update book tick
    let ((scoreSum, rest), calls) := notedUpdates book tick (i + 1) (scoreSum + score) rest
    ((scoreSum, signal :: rest), ⟨i,book⟩ :: calls)

/-- `loopBody` with its calls. -/
def notedBody (engine : StrategyEngine) (tick : MarketTick) : Option (Step × List UpdateCall) :=
  let ticksProcessed := engine.ticksProcessed + 1
  let book := engine.book.applyTick tick
  let bestBid := book.getBestBid
  let bestAsk := book.getBestAsk
  if bestBid = LimitOrderBook.kNoBid ∨ bestAsk = LimitOrderBook.kNoAsk then
    some (⟨{ engine with book, ticksProcessed },none,[]⟩, [])
  else if book.getBidSize bestBid + book.getAskSize bestAsk = 0 then
    some (⟨{ engine with book, ticksProcessed },none,[]⟩, [])
  else (engine.evaluate book tick ticksProcessed bestBid bestAsk).map fun step =>
    (step, (notedUpdates book tick 0 0 engine.signals).2)

/-- `runTicks` with its calls. -/
def notedRun (engine : StrategyEngine) : List MarketTick → Option (List (Step × List UpdateCall))
  | [] => some []
  | tick :: ticks => (engine.notedBody tick).bind fun pass =>
    (pass.1.engine.notedRun ticks).map fun passes => pass :: passes

private theorem notedUpdates_erased (book : LimitOrderBook) (tick : MarketTick) (i : Nat) (sum : ℚ)
    (signals : List Signal) : (notedUpdates book tick i sum signals).1 = updateSignals book tick sum signals := by
  induction signals generalizing i sum with
  | nil => rfl
  | cons signal rest ih =>
    simp only [notedUpdates, updateSignals]
    rw [← ih (i + 1)]

private theorem notedBody_erased (engine : StrategyEngine) (tick : MarketTick) :
    (engine.notedBody tick).map Prod.fst = engine.loopBody tick := by
  unfold notedBody loopBody
  dsimp only
  split_ifs
  · rfl
  · rfl
  · rw [Option.map_map]
    exact Option.map_id'

/-- Without the notes a noted run is a run. -/
theorem notedRun_erased (engine : StrategyEngine) (ticks : List MarketTick) :
    (engine.notedRun ticks).map (List.map Prod.fst) = engine.runTicks ticks := by
  induction ticks generalizing engine with
  | nil => rfl
  | cons tick ticks ih =>
    rw [notedRun, runTicks, ← notedBody_erased]
    cases engine.notedBody tick with
    | none => rfl
    | some pass =>
      rw [Option.bind_some, Option.map_some, Option.bind_some, ← ih, Option.map_map, Option.map_map]
      rfl

/-- One call for each signal, in order, and one signal left for each. -/
theorem notedUpdates_calls (book : LimitOrderBook) (tick : MarketTick) (i : Nat) (sum : ℚ)
    (signals : List Signal) :
    (notedUpdates book tick i sum signals).2 = (List.range' i signals.length).map (⟨·,book⟩) ∧
      (updateSignals book tick sum signals).2.length = signals.length := by
  induction signals generalizing i sum with
  | nil => exact ⟨rfl,rfl⟩
  | cons signal rest ih =>
    obtain ⟨hcalls,hlength⟩ := ih (i + 1) (sum + (signal.update book tick).1)
    constructor
    · rw [List.length_cons, List.range'_succ, List.map_cons, ← hcalls]
      rfl
    · rw [List.length_cons, ← hlength]
      rfl

/-- The notes of a pass are the calls of one round on a quote, and nothing elsewhere. -/
theorem notedBody_calls {engine : StrategyEngine} {tick : MarketTick} {pass : Step × List UpdateCall}
    (h : engine.notedBody tick = some pass) :
    pass.2 = if evaluatedQuote? (engine.book.applyTick tick) = none then []
      else (List.range engine.signals.length).map (⟨·,engine.book.applyTick tick⟩) := by
  have hexit := evaluatedQuote?_eq_none_iff (engine.book.applyTick tick)
  unfold notedBody at h
  dsimp only at h
  split_ifs at h with hside hzero
  · rw [if_pos (hexit.mpr (.inl hside)), ← Option.some_inj.mp h]
  · rw [if_pos (hexit.mpr (.inr hzero)), ← Option.some_inj.mp h]
  · obtain ⟨step,_,rfl⟩ := Option.map_eq_some_iff.mp h
    rw [if_neg (fun hnone => (hexit.mp hnone).elim hside hzero), List.range_eq_range']
    exact (notedUpdates_calls _ tick 0 0 engine.signals).1

private theorem loopBody_signals {engine : StrategyEngine} {tick : MarketTick} {step : Step}
    (h : engine.loopBody tick = some step) : step.engine.signals.length = engine.signals.length := by
  have hview := congrArg View.signals (loopBody_view h).2.1
  change step.engine.signals = _ at hview
  rw [hview]
  cases hq : evaluatedQuote? (engine.book.applyTick tick) with
  | none => rw [View.step_skipped (v := engine.view) hq]; rfl
  | some q =>
    rw [View.step_evaluated (v := engine.view) hq]
    exact (notedUpdates_calls _ tick 0 0 engine.signals).2

/-- A book with both sides meets every signal once, and no other book meets any. -/
def UpdatesOnce (n : Nat) (book : LimitOrderBook) (calls : List UpdateCall) : Prop :=
  (book.TwoSided → ∀ i < n, (calls.filter (·.index = i)).map UpdateCall.book = [book]) ∧
    (¬ book.TwoSided → calls = [])

private theorem round_updatesOnce (n : Nat) (book : LimitOrderBook) (i : Nat) (hi : i < n) :
    (((List.range n).map (UpdateCall.mk · book)).filter (·.index = i)).map UpdateCall.book = [book] := by
  have hself : (List.range n).filter (· = i) = [i] := by
    rw [List.filter_eq, List.count_range, if_pos hi]
    rfl
  rw [List.filter_map, List.map_map]
  change ((List.range n).filter (· = i)).map _ = _
  rw [hself]
  rfl

/-- A pass treats its book as it should unless the best sizes cancel. -/
theorem notedBody_updatesOnce {engine : StrategyEngine} (hn : 0 < engine.signals.length) {tick : MarketTick}
    {pass : Step × List UpdateCall} (h : engine.notedBody tick = some pass) :
    UpdatesOnce engine.signals.length (engine.book.applyTick tick) pass.2 ↔
      ¬ (engine.book.applyTick tick).SizesCancel := by
  rw [notedBody_calls h]
  generalize engine.book.applyTick tick = book
  cases hq : book.quote? with
  | none =>
    have hone : ¬ book.TwoSided := by simp [book.twoSided_iff, hq]
    rw [evaluatedQuote?, hq]
    exact ⟨fun _ => book.not_sizesCancel hq,fun _ => ⟨fun htwo => absurd htwo hone,fun _ => rfl⟩⟩
  | some q =>
    have htwo : book.TwoSided := book.twoSided_iff.mpr ⟨q,hq⟩
    rw [LimitOrderBook.sizesCancel_iff hq]
    constructor
    · intro hupdates hzero
      have hnone : evaluatedQuote? book = none := by simp [evaluatedQuote?, hq, hzero]
      have hcall := hupdates.1 htwo 0 hn
      rw [if_pos hnone] at hcall
      cases hcall
    · intro hd
      rw [if_neg (by simp [evaluatedQuote?_eq_some_iff.mpr ⟨hq,hd⟩])]
      exact ⟨fun _ i hi => round_updatesOnce _ book i hi,fun hone => absurd htwo hone⟩

private theorem notedRun_updatesOnce {engine : StrategyEngine} (hn : 0 < engine.signals.length)
    {ticks : List MarketTick} {passes : List (Step × List UpdateCall)} (h : engine.notedRun ticks = some passes) :
    List.Forall₂ (UpdatesOnce engine.signals.length) (engine.book.books ticks) (passes.map Prod.snd) ↔
      ∀ book ∈ engine.book.books ticks, ¬ book.SizesCancel := by
  induction ticks generalizing engine passes with
  | nil =>
    cases h
    exact ⟨fun _ book hbook => absurd hbook List.not_mem_nil,fun _ => .nil⟩
  | cons tick ticks ih =>
    obtain ⟨pass,hpass,hrest⟩ := Option.bind_eq_some_iff.mp h
    obtain ⟨passes,hrun,rfl⟩ := Option.map_eq_some_iff.mp hrest
    have hbody : engine.loopBody tick = some pass.1 := by rw [← notedBody_erased, hpass, Option.map_some]
    have hlength := loopBody_signals hbody
    have hih := ih (hlength ▸ hn) hrun
    rw [hlength, loopBody_book hbody] at hih
    rw [List.map_cons, LimitOrderBook.books, List.forall₂_cons, notedBody_updatesOnce hn hpass, hih,
      List.forall_mem_cons]

/-- Two sizes of half the modulus: the book has both sides, and the tick is skipped. -/
def halves : List MarketTick := [⟨40,2147483648,true⟩,⟨60,2147483648,false⟩]

end StrategyEngine
end PredictionMarket.Strategy

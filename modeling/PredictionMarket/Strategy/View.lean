import PredictionMarket.Strategy.StrategyEngine
import PredictionMarket.Strategy.MirrorSignals
import PredictionMarket.Foundation.Transducer

/-! The engine without its position: what a pass of the loop reads and what it orders.
The position, the log and the overflow of a fill never act back on it. -/
namespace PredictionMarket.Strategy
open Market Foundation

/-- The quote on which a pass goes on to the signals: both sides are there and the sum of
the two sizes, taken as a word, is not zero. -/
def evaluatedQuote? (book : LimitOrderBook) : Option Quote :=
  book.quote?.filter fun q => q.bidSize + q.askSize ≠ 0

/-- A quote is evaluated exactly if its sizes do not add up to zero. -/
theorem evaluatedQuote?_eq_some_iff {book : LimitOrderBook} {q : Quote} :
    evaluatedQuote? book = some q ↔ book.quote? = some q ∧ q.bidSize + q.askSize ≠ 0 := by
  simp [evaluatedQuote?, Option.filter_eq_some_iff]

/-- The two early exits of a pass. -/
theorem evaluatedQuote?_eq_none_iff (book : LimitOrderBook) : evaluatedQuote? book = none ↔
    (book.getBestBid = LimitOrderBook.kNoBid ∨ book.getBestAsk = LimitOrderBook.kNoAsk) ∨
      book.getBidSize book.getBestBid + book.getAskSize book.getBestAsk = 0 := by
  rw [LimitOrderBook.oneSided_iff]
  cases hq : book.quote? with
  | none => simp [evaluatedQuote?, hq]
  | some q =>
    obtain ⟨hb,ha,hbs,has⟩ := LimitOrderBook.of_quote hq
    rw [hb, ha, hbs, has]
    simp [evaluatedQuote?, hq, Option.filter_eq_none_iff]

/-- A fill that a pass asks the position manager for: a size and a price. -/
abbrev Order := CInt × ℚ

def Fill.ofOrder (order : Order) : Fill := ⟨order.1.val,order.2⟩

/-- The position behind a pass, if no `int` operation leaves its range. -/
def PositionManager.placed (pm : PositionManager) (order : Option Order) : Option PositionManager :=
  order.elim (some pm) fun order => pm.addFill order.1 order.2

/-- The book and the signals. -/
@[ext] structure View where
  book : LimitOrderBook
  signals : List Signal

namespace StrategyEngine

def view (e : StrategyEngine) : View := ⟨e.book,e.signals⟩

/-- The average of the scores behind `updateSignals`. -/
def combinedScore (updated : ℚ × List Signal) : ℚ :=
  if updated.2.length = 0 then 0 else updated.1 / updated.2.length

/-- A pass that stops before the signals. -/
def skip (e : StrategyEngine) (tick : MarketTick) : Step :=
  ⟨{ e with book := e.book.applyTick tick, ticksProcessed := e.ticksProcessed + 1 },none,[]⟩

/-- Both early exits of a pass are one test of the book. -/
theorem loopBody_eq (e : StrategyEngine) (tick : MarketTick) : e.loopBody tick =
    match evaluatedQuote? (e.book.applyTick tick) with
    | none => some (e.skip tick)
    | some q => e.evaluate (e.book.applyTick tick) tick (e.ticksProcessed + 1) (priceByte q.bid)
        (priceByte q.ask) := by
  rw [loopBody]
  simp only [LimitOrderBook.oneSided_iff]
  cases hq : (e.book.applyTick tick).quote? with
  | none =>
    rw [if_pos rfl, evaluatedQuote?, hq]
    rfl
  | some q =>
    obtain ⟨hb,ha,hbs,has⟩ := LimitOrderBook.of_quote hq
    rw [if_neg (Option.some_ne_none q), hb, ha, hbs, has]
    by_cases hd : q.bidSize + q.askSize = 0
    · rw [if_pos hd, evaluatedQuote?, hq, Option.filter_some_neg (by simpa using hd)]
      rfl
    · rw [if_neg hd, evaluatedQuote?, hq, Option.filter_some_pos (by simpa using hd)]

end StrategyEngine

namespace View
open StrategyEngine

/-- What a pass orders, and the view behind it. -/
def step (v : View) (tick : MarketTick) : Option Order × View :=
  match evaluatedQuote? (v.book.applyTick tick) with
  | none => (none, ⟨v.book.applyTick tick,v.signals⟩)
  | some q =>
    (decideFill (combinedScore (updateSignals (v.book.applyTick tick) tick 0 v.signals)) (priceByte q.bid)
        (priceByte q.ask),
      ⟨v.book.applyTick tick,(updateSignals (v.book.applyTick tick) tick 0 v.signals).2⟩)

variable {v : View} {tick : MarketTick}

/-- Without a quote to evaluate a tick only changes the book. -/
theorem step_skipped (h : evaluatedQuote? (v.book.applyTick tick) = none) :
    v.step tick = (none, ⟨v.book.applyTick tick,v.signals⟩) := by
  rw [step, h]

/-- With a quote to evaluate the signals decide on the order. -/
theorem step_evaluated {q : Quote} (h : evaluatedQuote? (v.book.applyTick tick) = some q) :
    v.step tick =
      (decideFill (combinedScore (updateSignals (v.book.applyTick tick) tick 0 v.signals)) (priceByte q.bid)
          (priceByte q.ask),
        ⟨v.book.applyTick tick,(updateSignals (v.book.applyTick tick) tick 0 v.signals).2⟩) := by
  rw [step, h]

private theorem step_book (v : View) (tick : MarketTick) : (v.step tick).2.book = v.book.applyTick tick := by
  rw [step]
  cases evaluatedQuote? (v.book.applyTick tick) <;> rfl

end View

namespace StrategyEngine

def quoteMidPrice (q : Quote) : ℚ := midPrice (priceByte q.bid) (priceByte q.ask)

/-- A trade event, logged once the fill is booked. -/
def tradeEvent (order : Order) (pm : PositionManager) : LogEvent :=
  ⟨'T',order.2,order.1.val,pm.realizedPnl⟩

/-- A pass that goes on to the signals and leaves this position manager. -/
def pass (e : StrategyEngine) (tick : MarketTick) (q : Quote) (pm : PositionManager) : Step :=
  ⟨⟨e.book.applyTick tick,pm,(e.view.step tick).2.signals,true,e.ticksProcessed + 1⟩,
    (e.view.step tick).1.map Fill.ofOrder,
    (if e.emittedInitialP then [] else [markEvent e.positionManager (quoteMidPrice q)]) ++
      ((e.view.step tick).1.map fun order => tradeEvent order pm).toList ++
      if (e.ticksProcessed + 1) % 1000 = 0 then [markEvent pm (quoteMidPrice q)] else []⟩

variable {e : StrategyEngine} {tick : MarketTick}

/-- Without a quote to evaluate a pass is skipped. -/
theorem loopBody_skipped (h : evaluatedQuote? (e.book.applyTick tick) = none) :
    e.loopBody tick = some (e.skip tick) := by
  rw [loopBody_eq, h]

private theorem loopBody_evaluated {q : Quote} (h : evaluatedQuote? (e.book.applyTick tick) = some q) :
    e.loopBody tick = (e.positionManager.placed (e.view.step tick).1).map (e.pass tick q) := by
  let updated := updateSignals (e.book.applyTick tick) tick 0 e.signals
  have hstep : e.view.step tick =
      (decideFill (combinedScore updated) (priceByte q.bid) (priceByte q.ask),
        ⟨e.book.applyTick tick,updated.2⟩) := View.step_evaluated h
  rw [loopBody_eq, h]
  unfold pass
  rw [hstep]
  simp only [evaluate, combinedScore]
  generalize decideFill _ _ _ = order
  cases order <;> rfl

/-- Everything a pass can do: stop before the signals, or order and log on a quote. -/
theorem loopBody_cases {step : Step} (h : e.loopBody tick = some step) :
    (evaluatedQuote? (e.book.applyTick tick) = none ∧ step = e.skip tick) ∨
    ∃ q pm, evaluatedQuote? (e.book.applyTick tick) = some q ∧
      e.positionManager.placed (e.view.step tick).1 = some pm ∧ step = e.pass tick q pm := by
  cases hq : evaluatedQuote? (e.book.applyTick tick) with
  | none =>
    rw [loopBody_skipped hq] at h
    exact .inl ⟨rfl,(Option.some_inj.mp h).symm⟩
  | some q =>
    rw [loopBody_evaluated hq] at h
    obtain ⟨pm,hpm,rfl⟩ := Option.map_eq_some_iff.mp h
    exact .inr ⟨q,pm,rfl,hpm,rfl⟩

/-- A pass orders what its view says, and stands or falls with the booking of it. -/
theorem loopBody_view {step : Step} (h : e.loopBody tick = some step) :
    step.fill = (e.view.step tick).1.map Fill.ofOrder ∧ step.engine.view = (e.view.step tick).2 ∧
      e.positionManager.placed (e.view.step tick).1 = some step.engine.positionManager := by
  rcases loopBody_cases h with ⟨hq,rfl⟩ | ⟨q,pm,hq,hpm,rfl⟩
  · have hstep : e.view.step tick = _ := View.step_skipped hq
    rw [hstep]
    exact ⟨rfl,rfl,rfl⟩
  · exact ⟨rfl,View.ext (View.step_book e.view tick).symm rfl,hpm⟩

/-- A pass whose order can be placed has a result. -/
theorem loopBody_of_placed {pm : PositionManager}
    (h : e.positionManager.placed (e.view.step tick).1 = some pm) : ∃ step, e.loopBody tick = some step := by
  cases hq : evaluatedQuote? (e.book.applyTick tick) with
  | none => exact ⟨_,loopBody_skipped hq⟩
  | some q => exact ⟨_,by rw [loopBody_evaluated hq, h, Option.map_some]⟩

/-- A run orders what its view says. -/
theorem runTicks_view {ticks : List MarketTick} {steps : List Step} (h : e.runTicks ticks = some steps) :
    steps.map Step.fill =
      (Transducer.outputs View.step e.view ticks).map (Option.map Fill.ofOrder) ∧
    (e.after steps).view = Transducer.final View.step e.view ticks := by
  induction ticks generalizing e steps with
  | nil =>
    cases h
    exact ⟨rfl,rfl⟩
  | cons tick ticks ih =>
    obtain ⟨head,hhead,hrest⟩ := Option.bind_eq_some_iff.mp h
    obtain ⟨rest,hrun,rfl⟩ := Option.map_eq_some_iff.mp hrest
    obtain ⟨hfill,hview,_⟩ := loopBody_view hhead
    obtain ⟨hfills,hviews⟩ := ih hrun
    rw [hview] at hfills hviews
    rw [after_cons, List.map_cons, hfills, hfill]
    exact ⟨rfl,hviews⟩

/-- A run books what its view orders. -/
theorem runTicks_placed {ticks : List MarketTick} {steps : List Step}
    (h : e.runTicks ticks = some steps) : (Transducer.outputs View.step e.view ticks).foldlM PositionManager.placed
      e.positionManager = some (e.after steps).positionManager := by
  induction ticks generalizing e steps with
  | nil =>
    cases h
    rfl
  | cons tick ticks ih =>
    obtain ⟨head,hhead,hrest⟩ := Option.bind_eq_some_iff.mp h
    obtain ⟨rest,hrun,rfl⟩ := Option.map_eq_some_iff.mp hrest
    obtain ⟨_,hview,hpm⟩ := loopBody_view hhead
    have htail := ih hrun
    rw [hview] at htail
    rw [after_cons, Transducer.outputs, List.foldlM_cons, hpm]
    exact htail

end StrategyEngine
end PredictionMarket.Strategy

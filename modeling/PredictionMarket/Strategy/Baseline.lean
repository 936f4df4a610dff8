import PredictionMarket.Strategy.View

/-! What the signals remember. Whatever passes came before, each signal stands where the
last quote that was evaluated has put it, so the engine orders by two quotes only. -/
namespace PredictionMarket.Strategy
open Market Foundation

def MomentumAlpha.behind (last : Option Quote) : MomentumAlpha :=
  last.elim fresh fun p => ⟨true,quoteMicroprice p⟩

def OFIAlpha.behind (last : Option Quote) : OFIAlpha := last.elim fresh seen

/-- The score of the momentum signal on a quote. -/
def moveSince (last : Option Quote) (q : Quote) : ℚ :=
  last.elim 0 fun p => MomentumAlpha.moveScore (quoteMicroprice q - quoteMicroprice p)

/-- The score of the order-flow signal on a quote. -/
def flowSince (last : Option Quote) (q : Quote) : ℚ :=
  last.elim 0 fun p =>
    clamp (65 / 100 * OFIAlpha.flowScore p q + 35 / 100 * OFIAlpha.pressureScore q) (-1) 1

section Update
variable {book : LimitOrderBook} {q : Quote} (h : evaluatedQuote? book = some q) (last : Option Quote)
  (tick : MarketTick)
include h

/-- From a baseline the momentum signal scores the move since then, and the quote becomes the
baseline. -/
theorem MomentumAlpha.behind_update :
    (behind last).update book tick = (moveSince last q, behind (some q)) := by
  obtain ⟨hq,hd⟩ := evaluatedQuote?_eq_some_iff.mp h
  rw [update_quoted _ hq hd]
  cases last <;> rfl

/-- From a baseline the order-flow signal scores the flow since then, and the quote becomes the
baseline. -/
theorem OFIAlpha.behind_update :
    (behind last).update book tick = (flowSince last q, behind (some q)) := by
  obtain ⟨hq,hd⟩ := evaluatedQuote?_eq_some_iff.mp h
  cases last with
  | none => exact update_unseen rfl hq tick
  | some p => exact update_seen p hq hd tick

end Update

namespace StrategyEngine

/-- A fill is decided on exactly if the score is at a threshold or beyond it. -/
theorem decideFill_eq_some_iff {score : ℚ} {bid ask : UInt8} {order : Order} :
    decideFill score bid ask = some order ↔
      (60 / 100 ≤ score ∧ order = (kDefaultTradeSize, centsToPrice ask)) ∨
      (score ≤ -(60 / 100) ∧ order = (kDefaultSellSize, centsToPrice bid)) := by
  rw [decideFill, kTradeThreshold]
  split_ifs with hbuy hsell
  · rw [Option.some_inj]
    constructor
    · exact fun h => .inl ⟨hbuy,h.symm⟩
    · rintro (⟨_,rfl⟩ | ⟨hs,_⟩)
      · rfl
      · linarith
  · rw [Option.some_inj]
    constructor
    · exact fun h => .inr ⟨hsell,h.symm⟩
    · rintro (⟨hb,_⟩ | ⟨_,rfl⟩)
      · exact absurd hb hbuy
      · rfl
  · constructor
    · intro h
      cases h
    · rintro (⟨hb,_⟩ | ⟨hs,_⟩)
      · exact absurd hb hbuy
      · exact absurd hs hsell

/-- Between the thresholds there is no fill. -/
theorem decideFill_eq_none {score : ℚ} (h : |score| < 60 / 100) (bid ask : UInt8) :
    decideFill score bid ask = none := by
  obtain ⟨hlow,hhigh⟩ := abs_lt.mp h
  rw [decideFill, kTradeThreshold, if_neg (not_le.mpr hhigh), if_neg (not_le.mpr hlow)]

/-- The signals of a selection behind the last evaluated quote. -/
def signalsBehind (last : Option Quote) : StrategySelection → List Signal
  | .momentum => [.momentum (.behind last)]
  | .ofi => [.ofi (.behind last)]
  | .both => [.momentum (.behind last),.ofi (.behind last)]

/-- The averaged score of a selection on a quote. -/
def scoreSince (last : Option Quote) (q : Quote) : StrategySelection → ℚ
  | .momentum => moveSince last q
  | .ofi => flowSince last q
  | .both => (moveSince last q + flowSince last q) / 2

/-- What a selection orders on a quote. -/
def orderOn (selection : StrategySelection) (last : Option Quote) (q : Quote) : Option Order :=
  decideFill (scoreSince last q selection) (priceByte q.bid) (priceByte q.ask)

private theorem makeSignals_eq (selection : StrategySelection) : makeSignals selection = signalsBehind none selection := by
  cases selection <;> rfl

private theorem updateSignals_behind {book : LimitOrderBook} {q : Quote} (h : evaluatedQuote? book = some q)
    (last : Option Quote) (tick : MarketTick) (selection : StrategySelection) :
    combinedScore (updateSignals book tick 0 (signalsBehind last selection)) = scoreSince last q selection ∧
      (updateSignals book tick 0 (signalsBehind last selection)).2 = signalsBehind (some q) selection := by
  have hmove := MomentumAlpha.behind_update h last tick
  have hflow := OFIAlpha.behind_update h last tick
  cases selection <;>
    simp [signalsBehind, updateSignals, Signal.update, combinedScore, scoreSince, hmove, hflow]

end StrategyEngine

namespace View
open StrategyEngine

/-- A view on this book whose signals stand behind this quote. -/
def behind (selection : StrategySelection) (book : LimitOrderBook) (last : Option Quote) : View :=
  ⟨book,signalsBehind last selection⟩

/-- A pass orders on the new quote and remembers it. -/
theorem step_behind (selection : StrategySelection) (book : LimitOrderBook) (last : Option Quote)
    (tick : MarketTick) : (behind selection book last).step tick =
      ((evaluatedQuote? (book.applyTick tick)).bind (orderOn selection last),
        behind selection (book.applyTick tick) ((evaluatedQuote? (book.applyTick tick)).or last)) := by
  cases h : evaluatedQuote? (book.applyTick tick) with
  | none => exact step_skipped (v := behind selection book last) h
  | some q =>
    obtain ⟨hscore,hsignals⟩ := updateSignals_behind h last tick selection
    have hstep := step_evaluated (v := ⟨book,signalsBehind last selection⟩) h
    rw [hscore, hsignals] at hstep
    exact hstep

end View

/-- The quotes on which the passes go on to the signals. -/
def evaluatedQuotes (book : LimitOrderBook) : List MarketTick → List Quote
  | [] => []
  | tick :: ticks =>
    (evaluatedQuote? (book.applyTick tick)).toList ++ evaluatedQuotes (book.applyTick tick) ticks

/-- A quote that is evaluated has some size. -/
theorem evaluatedQuotes_nonzero {book : LimitOrderBook} {ticks : List MarketTick} {q : Quote}
    (h : q ∈ evaluatedQuotes book ticks) : q.bidSize + q.askSize ≠ 0 := by
  induction ticks generalizing book with
  | nil => cases h
  | cons tick ticks ih =>
    rcases List.mem_append.mp h with h | h
    · exact (evaluatedQuote?_eq_some_iff.mp (Option.mem_toList.mp h)).2
    · exact ih h

/-- The quotes that are evaluated come one after the other. -/
theorem evaluatedQuotes_append (book : LimitOrderBook) (xs ys : List MarketTick) :
    evaluatedQuotes book (xs ++ ys) = evaluatedQuotes book xs ++ evaluatedQuotes (book.applyTicks xs) ys := by
  induction xs generalizing book with
  | nil => rfl
  | cons tick xs ih =>
    rw [List.cons_append, evaluatedQuotes, ih, evaluatedQuotes, List.append_assoc]
    rfl

/-- Behind any ticks the signals stand where the last evaluated quote has put them. -/
theorem View.final_behind (selection : StrategySelection) (book : LimitOrderBook) (last : Option Quote)
    (ticks : List MarketTick) : Transducer.final step (behind selection book last) ticks =
      behind selection (book.applyTicks ticks) ((evaluatedQuotes book ticks).getLast?.or last) := by
  induction ticks generalizing book last with
  | nil => rfl
  | cons tick ticks ih =>
    rw [Transducer.final, step_behind, ih, evaluatedQuotes, List.getLast?_append, Option.or_assoc]
    cases evaluatedQuote? (book.applyTick tick) <;> rfl

namespace StrategyEngine

/-- An engine starts with an empty book and no baseline. -/
theorem construct_view (selection : StrategySelection) :
    (construct selection).view = .behind selection .empty none := by
  rw [View.behind, ← makeSignals_eq]
  rfl

/-- Where the engine stands behind a run. -/
theorem after_view {selection : StrategySelection} {ticks : List MarketTick} {steps : List Step}
    (h : (construct selection).runTicks ticks = some steps) :
    ((construct selection).after steps).view =
      .behind selection (LimitOrderBook.empty.applyTicks ticks) (evaluatedQuotes .empty ticks).getLast? := by
  rw [(runTicks_view h).2, construct_view, View.final_behind, Option.or_none]

/-- What the next pass of a run orders. -/
theorem after_step {selection : StrategySelection} {ticks : List MarketTick} {steps : List Step}
    (h : (construct selection).runTicks ticks = some steps) (tick : MarketTick) :
    (((construct selection).after steps).view.step tick).1 =
      (evaluatedQuote? ((LimitOrderBook.empty.applyTicks ticks).applyTick tick)).bind
        (orderOn selection (evaluatedQuotes .empty ticks).getLast?) := by
  rw [after_view h, View.step_behind]

/-- A run orders what a run over more ticks orders first. -/
theorem fills_prefix {selection : StrategySelection} {ticks total : List MarketTick} {steps : List Step}
    (h : (construct selection).runTicks ticks = some steps) (hp : ticks <+: total) : steps.map Step.fill <+:
      (Transducer.outputs View.step (.behind selection .empty none) total).map (Option.map Fill.ofOrder) := by
  obtain ⟨later,rfl⟩ := hp
  rw [(runTicks_view h).1, construct_view, Transducer.outputs_append, List.map_append]
  exact List.prefix_append _ _

end StrategyEngine
end PredictionMarket.Strategy

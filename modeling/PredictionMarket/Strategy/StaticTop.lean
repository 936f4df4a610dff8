import PredictionMarket.Strategy.Ensemble
import PredictionMarket.Market.BookHistory

/-! No trade without a change at the top of the book. On the quote that was evaluated last
nothing moves and nothing flows, and pressure alone stays below the threshold. -/
namespace PredictionMarket.Strategy
open Market Foundation

private theorem moveSince_self (q : Quote) : moveSince (some q) q = 0 := by
  simp only [moveSince, Option.elim_some, sub_self, MomentumAlpha.moveScore]
  norm_num

/-- Nothing flows between equal quotes. -/
theorem OFIAlpha.flowScore_self (q : Quote) : flowScore q q = 0 := by
  have hbid : (seen q).bidFlow (priceByte q.bid) q.bidSize = 0 := by
    simp [bidFlow, seen, sizeDelta]
  have hask : (seen q).askFlow (priceByte q.ask) q.askSize = 0 := by
    simp [askFlow, seen, sizeDelta]
  rw [flowScore, hbid, hask, add_zero, sub_zero, zero_div]
  norm_num [clamp]

private theorem flowSince_self (q : Quote) : |flowSince (some q) q| ≤ 35 / 100 := by
  obtain ⟨hlow,hhigh⟩ := clamp_bounds ((quoteMicroprice q - OFIAlpha.quoteMid q) /
    max 1 ((((priceByte q.ask).toNat - (priceByte q.bid).toNat : Int) : ℚ)))
  rw [← OFIAlpha.pressureScore] at hlow hhigh
  rw [flowSince, Option.elim_some, OFIAlpha.flowScore_self, abs_le, clamp]
  split_ifs <;> constructor <;> linarith

namespace StrategyEngine

/-- The quote of the baseline itself calls for no order. -/
theorem orderOn_self (selection : StrategySelection) (q : Quote) : orderOn selection (some q) q = none := by
  apply decideFill_eq_none
  have hmove := moveSince_self q
  have hflow := flowSince_self q
  cases selection with
  | momentum =>
    change |moveSince (some q) q| < _
    rw [hmove]
    norm_num
  | ofi =>
    change |flowSince (some q) q| < _
    linarith
  | both =>
    change |(moveSince (some q) q + flowSince (some q) q) / 2| < _
    obtain ⟨hlow,hhigh⟩ := abs_le.mp hflow
    rw [hmove, zero_add, abs_lt]
    constructor <;> linarith

section Run
variable {selection : StrategySelection} {ticks : List MarketTick} {steps : List Step}
  (h : (construct selection).runTicks ticks = some steps)
include h

/-- A pass on the quote that was evaluated last leaves the position alone. -/
theorem after_static {tick : MarketTick} {q : Quote} (hlast : (evaluatedQuotes .empty ticks).getLast? = some q)
    (hq : ((LimitOrderBook.empty.applyTicks ticks).applyTick tick).quote? = some q) :
    ∃ step, ((construct selection).after steps).loopBody tick = some step ∧ step.fill = none ∧
      step.engine.positionManager = ((construct selection).after steps).positionManager := by
  have hd := evaluatedQuotes_nonzero (List.mem_of_getLast? hlast)
  have horder := after_step h tick
  rw [hlast, evaluatedQuote?_eq_some_iff.mpr ⟨hq,hd⟩, Option.bind_some, orderOn_self] at horder
  have hplaced : ((construct selection).after steps).positionManager.placed
      (((construct selection).after steps).view.step tick).1 =
        some ((construct selection).after steps).positionManager := by
    rw [horder]
    rfl
  obtain ⟨step,hstep⟩ := loopBody_of_placed hplaced
  obtain ⟨hfill,_,hpm⟩ := loopBody_view hstep
  rw [horder] at hfill
  rw [hplaced] at hpm
  exact ⟨step,hstep,hfill,(Option.some_inj.mp hpm).symm⟩

/-- The second delivery of a tick leaves everything but the counter alone. -/
theorem after_twice {tick : MarketTick} {step : Step}
    (hstep : ((construct selection).after steps).loopBody tick = some step) :
    ∃ again, step.engine.loopBody tick = some again ∧ again.fill = none ∧
      again.engine.book = step.engine.book ∧ again.engine.positionManager = step.engine.positionManager := by
  have hrun := runTicks_snoc h hstep
  have hbook : step.engine.book = (LimitOrderBook.empty.applyTicks ticks).applyTick tick := by
    rw [loopBody_book hstep]
    exact congrArg (fun v => v.book.applyTick tick) (after_view h)
  have hsame : step.engine.book.applyTick tick = step.engine.book := by
    rw [hbook, LimitOrderBook.applyTick_overwrite _ rfl]
  cases hq : evaluatedQuote? step.engine.book with
  | none =>
    refine ⟨step.engine.skip tick,loopBody_skipped (by rwa [hsame]),rfl,hsame,rfl⟩
  | some q =>
    have hlast : (evaluatedQuotes .empty (ticks ++ [tick])).getLast? = some q := by
      rw [evaluatedQuotes_append, evaluatedQuotes, evaluatedQuotes, ← hbook, hq]
      exact List.getLast?_concat
    have hquote : ((LimitOrderBook.empty.applyTicks (ticks ++ [tick])).applyTick tick).quote? = some q := by
      rw [LimitOrderBook.applyTicks_append]
      change (((LimitOrderBook.empty.applyTicks ticks).applyTick tick).applyTick tick).quote? = some q
      rw [← hbook, hsame]
      exact (evaluatedQuote?_eq_some_iff.mp hq).1
    obtain ⟨again,hagain,hfill,hpm⟩ := after_static hrun hlast hquote
    rw [after_snoc] at hagain hpm
    exact ⟨again,hagain,hfill,(loopBody_book hagain).trans hsame,hpm⟩

end Run

/-- No trade on an unchanged top of the book, however imbalanced it is, and no effect of a
tick that is delivered a second time. -/
theorem static_top_never_trades (selection : StrategySelection) (ticks : List MarketTick) (steps : List Step)
    (h : (construct selection).runTicks ticks = some steps) (tick : MarketTick) :
    (∀ q, (evaluatedQuotes .empty ticks).getLast? = some q →
      ((LimitOrderBook.empty.applyTicks ticks).applyTick tick).quote? = some q →
      ∃ step, ((construct selection).after steps).loopBody tick = some step ∧ step.fill = none) ∧
    ∀ step, ((construct selection).after steps).loopBody tick = some step →
      ∃ again, step.engine.loopBody tick = some again ∧ again.fill = none ∧
        again.engine.book = step.engine.book ∧
        again.engine.positionManager = step.engine.positionManager := by
  constructor
  · intro q hlast hq
    obtain ⟨step,hstep,hfill,_⟩ := after_static h hlast hq
    exact ⟨step,hstep,hfill⟩
  · intro step hstep
    exact after_twice h hstep

/-- Ten lots bid against one offered. -/
def imbalanced : List MarketTick := [⟨40,10,true⟩,⟨60,1,false⟩]

/-- A deeper bid does not trade, and neither does its second delivery. -/
theorem deeper_bid : ∃ steps step again, (construct .both).runTicks imbalanced = some steps ∧
    ((construct .both).after steps).loopBody ⟨30,7,true⟩ = some step ∧ step.fill = none ∧
    step.engine.loopBody ⟨30,7,true⟩ = some again ∧ again.fill = none ∧
    again.engine.book = step.engine.book ∧ again.engine.positionManager = step.engine.positionManager := by
  have hrun : ((construct .both).runTicks imbalanced).isSome = true := by decide +kernel
  obtain ⟨steps,hs⟩ := Option.isSome_iff_exists.mp hrun
  obtain ⟨hstatic,htwice⟩ := static_top_never_trades .both imbalanced steps hs ⟨30,7,true⟩
  obtain ⟨step,hstep,hfill⟩ := hstatic ⟨(40 : Fin 101),(60 : Fin 101),10,1⟩ (by decide +kernel) (by decide +kernel)
  obtain ⟨again,hagain⟩ := htwice step hstep
  exact ⟨steps,step,again,hs,hstep,hfill,hagain⟩

end StrategyEngine
end PredictionMarket.Strategy

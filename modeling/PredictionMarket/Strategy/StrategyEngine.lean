import PredictionMarket.Strategy.Alphas
import PredictionMarket.Strategy.PositionManager
import Mathlib.Data.List.Induction

/-! The loop body of `StrategyEngine::run`, from a popped tick to the next `pop`. Clock
readings are left out; what the logger is given otherwise is kept. -/
namespace PredictionMarket.Strategy
open Market

inductive StrategySelection where
  | momentum
  | ofi
  | both

/-- The arguments of `log_event` without timestamp and latency. -/
structure LogEvent where
  type : Char
  price : ℚ
  size : Int
  pnl : ℚ
  deriving DecidableEq

/-- The engine with the book and the position manager that it refers to, and the counter
of `run`. -/
structure StrategyEngine where
  book : LimitOrderBook
  positionManager : PositionManager
  signals : List Signal
  emittedInitialP : Bool
  ticksProcessed : UInt64

structure Fill where
  size : Int
  price : ℚ
  deriving DecidableEq

/-- One pass of the loop: the engine behind it, its fill if any, and the events logged. -/
structure Step where
  engine : StrategyEngine
  fill : Option Fill
  events : List LogEvent

namespace StrategyEngine

def kTradeThreshold : ℚ := 60 / 100
def kDefaultTradeSize : CInt := ⟨10,by decide,by decide⟩
/-- `-kDefaultTradeSize` -/
def kDefaultSellSize : CInt := ⟨-10,by decide,by decide⟩

def centsToPrice (priceCents : UInt8) : ℚ := cents priceCents / 100

def makeSignals : StrategySelection → List Signal
  | .momentum => [.momentum .fresh]
  | .ofi => [.ofi .fresh]
  | .both => [.momentum .fresh,.ofi .fresh]

/-- The constructor, on the empty book and the fresh position manager of `main`. -/
def construct (selection : StrategySelection) : StrategyEngine :=
  ⟨.empty,.fresh,makeSignals selection,false,0⟩

/-- Update the signals in order, adding their scores to the sum so far. -/
def updateSignals (book : LimitOrderBook) (tick : MarketTick) : ℚ → List Signal → ℚ × List Signal
  | scoreSum, [] => (scoreSum, [])
  | scoreSum, signal :: rest =>
    let (score, signal) := signal.update book tick
    let (scoreSum, rest) := updateSignals book tick (scoreSum + score) rest
    (scoreSum, signal :: rest)

/-- The score compared with the threshold; `none` where `fill_size` stays zero. -/
def decideFill (combinedScore : ℚ) (bestBid bestAsk : UInt8) : Option (CInt × ℚ) :=
  if combinedScore ≥ kTradeThreshold then some (kDefaultTradeSize, centsToPrice bestAsk)
  else if combinedScore ≤ -kTradeThreshold then some (kDefaultSellSize, centsToPrice bestBid)
  else none

def midPrice (bestBid bestAsk : UInt8) : ℚ := (centsToPrice bestBid + centsToPrice bestAsk) * (1 / 2)

/-- A mark-to-market event. -/
def markEvent (pm : PositionManager) (mid : ℚ) : LogEvent :=
  ⟨'P',mid,pm.positionSize.val,pm.realizedPnl + pm.getUnrealizedPnl mid⟩

/-- The rest of the loop body once both sides are there: signals, decision, fill, events. -/
def evaluate (engine : StrategyEngine) (book : LimitOrderBook) (tick : MarketTick)
    (ticksProcessed : UInt64) (bestBid bestAsk : UInt8) : Option Step :=
  let mid := midPrice bestBid bestAsk
  let initial := if engine.emittedInitialP then [] else [markEvent engine.positionManager mid]
  let (scoreSum, signals) := updateSignals book tick 0 engine.signals
  let combinedScore := if signals.length = 0 then 0 else scoreSum / signals.length
  let finish (pm : PositionManager) (fill : Option Fill) (trade : List LogEvent) : Step :=
    ⟨⟨book,pm,signals,true,ticksProcessed⟩,fill,
      initial ++ trade ++ if ticksProcessed % 1000 = 0 then [markEvent pm mid] else []⟩
  match decideFill combinedScore bestBid bestAsk with
  | none => some (finish engine.positionManager none [])
  | some (fillSize, fillPrice) =>
    (engine.positionManager.addFill fillSize fillPrice).map fun pm =>
      finish pm (some ⟨fillSize.val,fillPrice⟩) [⟨'T',fillPrice,fillSize.val,pm.realizedPnl⟩]

/-- The body of the loop on a popped tick. There is no result where `add_fill` overflows. -/
def loopBody (engine : StrategyEngine) (tick : MarketTick) : Option Step :=
  let ticksProcessed := engine.ticksProcessed + 1
  let book := engine.book.applyTick tick
  let bestBid := book.getBestBid
  let bestAsk := book.getBestAsk
  if bestBid = LimitOrderBook.kNoBid ∨ bestAsk = LimitOrderBook.kNoAsk then
    some ⟨{ engine with book, ticksProcessed },none,[]⟩
  else if book.getBidSize bestBid + book.getAskSize bestAsk = 0 then
    some ⟨{ engine with book, ticksProcessed },none,[]⟩
  else engine.evaluate book tick ticksProcessed bestBid bestAsk

/-- Every pass applies its tick to the book and does nothing else to it. -/
theorem loopBody_book {engine : StrategyEngine} {tick : MarketTick} {step : Step}
    (h : engine.loopBody tick = some step) : step.engine.book = engine.book.applyTick tick := by
  simp only [loopBody] at h
  split_ifs at h
  · cases h
    rfl
  · cases h
    rfl
  · simp only [evaluate] at h
    generalize decideFill _ _ _ = decision at h
    cases decision with
    | none =>
      cases h
      rfl
    | some fill =>
      obtain ⟨_,_,rfl⟩ := Option.map_eq_some_iff.mp h
      rfl

/-- The loop over popped ticks, with what each pass did. -/
def runTicks (engine : StrategyEngine) : List MarketTick → Option (List Step)
  | [] => some []
  | tick :: ticks => (engine.loopBody tick).bind fun step =>
    (step.engine.runTicks ticks).map fun steps => step :: steps

/-- The engine behind some passes of the loop. -/
def after (engine : StrategyEngine) (steps : List Step) : StrategyEngine :=
  (steps.getLast?.map Step.engine).getD engine

/-- The engine behind some passes is that behind the others from where the first has led. -/
theorem after_cons (engine : StrategyEngine) (step : Step) (steps : List Step) :
    engine.after (step :: steps) = step.engine.after steps := by
  rw [after, List.getLast?_cons, after]
  cases steps.getLast? <;> rfl

/-- The engine behind some passes is that of the last one. -/
theorem after_snoc (engine : StrategyEngine) (steps : List Step) (step : Step) :
    engine.after (steps ++ [step]) = step.engine := by
  rw [after, List.getLast?_concat]
  rfl

/-- Ticks behind others are run by the engine that the others have led to. -/
theorem runTicks_append (engine : StrategyEngine) (xs ys : List MarketTick) :
    engine.runTicks (xs ++ ys) =
      (engine.runTicks xs).bind fun steps => ((engine.after steps).runTicks ys).map fun more => steps ++ more := by
  induction xs generalizing engine with
  | nil => exact Option.map_id'.symm
  | cons tick xs ih =>
    rw [List.cons_append, runTicks, runTicks, Option.bind_assoc]
    refine congrArg (engine.loopBody tick).bind (funext fun step => ?_)
    rw [ih, Option.map_bind, Option.bind_map]
    refine congrArg (step.engine.runTicks xs).bind (funext fun steps => ?_)
    rw [Function.comp_apply, Function.comp_apply, after_cons, Option.map_map]
    rfl

/-- A run over ticks behind others is a run over the others and one that follows it. -/
theorem runTicks_append_cases {engine : StrategyEngine} {xs ys : List MarketTick} {all : List Step}
    (h : engine.runTicks (xs ++ ys) = some all) :
    ∃ steps more, engine.runTicks xs = some steps ∧ (engine.after steps).runTicks ys = some more ∧
      all = steps ++ more := by
  rw [runTicks_append] at h
  obtain ⟨steps,hsteps,hrest⟩ := Option.bind_eq_some_iff.mp h
  obtain ⟨more,hmore,rfl⟩ := Option.map_eq_some_iff.mp hrest
  exact ⟨steps,more,hsteps,hmore,rfl⟩

private theorem runTicks_singleton (engine : StrategyEngine) (tick : MarketTick) :
    engine.runTicks [tick] = (engine.loopBody tick).map fun step => [step] := by
  rw [runTicks]
  cases engine.loopBody tick <;> rfl

/-- One more tick is one more pass. -/
theorem runTicks_snoc {engine : StrategyEngine} {ticks : List MarketTick} {steps : List Step}
    (h : engine.runTicks ticks = some steps) {tick : MarketTick} {step : Step}
    (hs : (engine.after steps).loopBody tick = some step) :
    engine.runTicks (ticks ++ [tick]) = some (steps ++ [step]) := by
  rw [runTicks_append, h, Option.bind_some, runTicks_singleton, hs]
  rfl

/-- A run of one more tick has a last pass. -/
theorem runTicks_snoc_cases {engine : StrategyEngine} {ticks : List MarketTick} {tick : MarketTick}
    {all : List Step} (h : engine.runTicks (ticks ++ [tick]) = some all) :
    ∃ steps step, engine.runTicks ticks = some steps ∧
      (engine.after steps).loopBody tick = some step ∧ all = steps ++ [step] := by
  obtain ⟨steps,more,hsteps,hmore,rfl⟩ := runTicks_append_cases h
  rw [runTicks_singleton] at hmore
  obtain ⟨step,hstep,rfl⟩ := Option.map_eq_some_iff.mp hmore
  exact ⟨steps,step,hsteps,hstep,rfl⟩

/-- What the empty run has and every pass keeps, every run has. -/
theorem runTicks_induction {engine : StrategyEngine} {P : List MarketTick → List Step → Prop} (nil : P [] [])
    (snoc : ∀ ticks steps tick step, engine.runTicks ticks = some steps →
      (engine.after steps).loopBody tick = some step → P ticks steps → P (ticks ++ [tick]) (steps ++ [step]))
    {ticks : List MarketTick} {steps : List Step} (h : engine.runTicks ticks = some steps) :
    P ticks steps := by
  induction ticks using List.reverseRecOn generalizing steps with
  | nil =>
    cases h
    exact nil
  | append_singleton ticks tick ih =>
    obtain ⟨before,step,hrun,hstep,rfl⟩ := runTicks_snoc_cases h
    exact snoc ticks before tick step hrun hstep (ih hrun)

/-- There is one pass for each tick. -/
theorem runTicks_length {engine : StrategyEngine} {ticks : List MarketTick} {steps : List Step}
    (h : engine.runTicks ticks = some steps) : steps.length = ticks.length := by
  induction ticks generalizing engine steps with
  | nil => cases h; rfl
  | cons tick ticks ih =>
    obtain ⟨head,_,hrest⟩ := Option.bind_eq_some_iff.mp h
    obtain ⟨rest,hrun,rfl⟩ := Option.map_eq_some_iff.mp hrest
    rw [List.length_cons, ih hrun, List.length_cons]

/-- Mark-to-market equity at the mid price, while both sides are there. -/
def equity? (engine : StrategyEngine) : Option ℚ :=
  let bestBid := engine.book.getBestBid
  let bestAsk := engine.book.getBestAsk
  if bestBid = LimitOrderBook.kNoBid ∨ bestAsk = LimitOrderBook.kNoAsk then none
  else some (markEvent engine.positionManager (midPrice bestBid bestAsk)).pnl

end StrategyEngine
end PredictionMarket.Strategy

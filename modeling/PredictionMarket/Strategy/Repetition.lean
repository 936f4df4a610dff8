import PredictionMarket.Strategy.PositionBound

/-! A feed that is repeated from its beginning. Behind every pass over the feed the book is the
same, and from the second pass on the signals are, so the fills repeat themselves. -/
namespace PredictionMarket.Strategy
open Market Foundation LastWrite

private theorem applyTicks_again (book : LimitOrderBook) (ticks : List MarketTick) :
    (book.applyTicks ticks).applyTicks ticks = book.applyTicks ticks := by
  apply LimitOrderBook.ext_sizeAt
  rw [LimitOrderBook.sizeAt_applyTicks, LimitOrderBook.sizeAt_applyTicks, writes_again]

/-- Ticks that are repeated leave the book that they leave the first time. -/
theorem applyTicks_repeated (book : LimitOrderBook) (ticks : List MarketTick) (passes : Nat) :
    book.applyTicks (List.replicate (passes + 1) ticks).flatten = book.applyTicks ticks := by
  induction passes with
  | zero => rw [List.replicate_one, List.flatten_singleton]
  | succ n ih =>
    rw [List.replicate_succ', List.flatten_append, List.flatten_singleton, LimitOrderBook.applyTicks_append, ih,
      applyTicks_again]

/-- Behind the second pass over a feed the engine stands where it stands behind the third. -/
theorem View.settled (selection : StrategySelection) (book : LimitOrderBook) (last : Option Quote)
    (ticks : List MarketTick) : Transducer.final step
      (Transducer.final step (Transducer.final step (behind selection book last) ticks) ticks) ticks =
    Transducer.final step (Transducer.final step (behind selection book last) ticks) ticks := by
  simp only [final_behind, applyTicks_again]
  cases (evaluatedQuotes (book.applyTicks ticks) ticks).getLast? <;> rfl

namespace StrategyEngine

/-- What the strategy fills in a pass over the feed, behind so many passes. -/
def passFills (selection : StrategySelection) (ticks : List MarketTick) (earlier : Nat) : List (Option Fill) :=
  (Transducer.outputs View.step (Transducer.final View.step (.behind selection .empty none)
    (List.replicate earlier ticks).flatten) ticks).map (Option.map Fill.ofOrder)

/-- There is one fill or none for each tick of a pass. -/
theorem passFills_length (selection : StrategySelection) (ticks : List MarketTick) (earlier : Nat) :
    (passFills selection ticks earlier).length = ticks.length := by
  rw [passFills, List.length_map, Transducer.outputs_length]

/-- From the third pass on, every pass fills what the third one fills. -/
theorem repeated_fills (selection : StrategySelection) (ticks : List MarketTick) (passes : Nat) :
    (Transducer.outputs View.step (.behind selection .empty none)
      (List.replicate (passes + 2) ticks).flatten).map (Option.map Fill.ofOrder) =
    passFills selection ticks 0 ++ passFills selection ticks 1 ++
      (List.replicate passes (passFills selection ticks 2)).flatten := by
  let start : View := .behind selection .empty none
  let first := Transducer.final View.step start ticks
  let second := Transducer.final View.step first ticks
  have hsettled : Transducer.final View.step second ticks = second := View.settled selection .empty none ticks
  have hfirst : Transducer.final View.step start (List.replicate 1 ticks).flatten = first := by
    rw [List.replicate_one, List.flatten_singleton]
  have hsecond : Transducer.final View.step start (List.replicate 2 ticks).flatten = second := by
    rw [List.replicate_succ, List.flatten_cons, Transducer.final_append, List.replicate_one, List.flatten_singleton]
  have houtputs : Transducer.outputs View.step start (List.replicate (passes + 2) ticks).flatten =
      Transducer.outputs View.step start ticks ++ (Transducer.outputs View.step first ticks ++
        (List.replicate passes (Transducer.outputs View.step second ticks)).flatten) := by
    rw [List.replicate_succ, List.flatten_cons, Transducer.outputs_append, List.replicate_succ, List.flatten_cons,
      Transducer.outputs_append, Transducer.outputs_replicate hsettled]
  rw [passFills, passFills, passFills, hfirst, hsecond, houtputs, List.map_append, List.map_append, List.map_flatten,
    List.map_replicate, List.append_assoc]
  rfl

/-- The size of what a pass over the feed fills, in all. -/
def passSize (selection : StrategySelection) (ticks : List MarketTick) (earlier : Nat) : Int :=
  ((passFills selection ticks earlier).map fillSize).sum

end StrategyEngine
end PredictionMarket.Strategy

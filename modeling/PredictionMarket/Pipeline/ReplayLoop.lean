import PredictionMarket.Pipeline.Backtest
import PredictionMarket.Strategy.Repetition

/-! The engine at a replay server for as long as its client stays connected. The server starts
the file again whenever it has sent all of it, and the engine is not told. A line that the server cannot
handle ends the connection in the first pass already, since every pass is like the first. -/
namespace PredictionMarket.Pipeline
open Queue Market Strategy StrategyEngine MarketParser Foundation Foundation.Transition Tools Recorder Replay

section Loop
variable (py : Python) (replayMaxSleep : ℚ) (iterate : ByteString → Option Json) (parser : MarketParser) (file : Text)

/-- The handler's loop over a file that does not change, up to the end of so many passes. -/
def replayLoop : Nat → List Action
  | 0 => []
  | passes + 1 =>
    let (actions,raised) := replayPass py replayMaxSleep file
    if raised then actions else actions ++ replayLoop passes

/-- The ticks that the parser makes of one pass. -/
def passTicks : List MarketTick :=
  (((replayPass py replayMaxSleep file).1.filterMap Action.sent).map utf8).flatMap (payloadTicks iterate parser)

private theorem replayLoop_raised (raised : (replayPass py replayMaxSleep file).2 = true) (passes : Nat) :
    replayLoop py replayMaxSleep file (passes + 1) = (replayPass py replayMaxSleep file).1 := by
  rw [replayLoop]
  simp only [raised, if_true]

private theorem replayLoop_ticks (through : (replayPass py replayMaxSleep file).2 = false) (passes : Nat) :
    (((replayLoop py replayMaxSleep file passes).filterMap Action.sent).map utf8).flatMap
      (payloadTicks iterate parser) =
    (List.replicate passes (passTicks py replayMaxSleep iterate parser file)).flatten := by
  induction passes with
  | zero => rfl
  | succ n ih =>
    rw [replayLoop]
    simp only [through, Bool.false_eq_true, if_false]
    rw [List.filterMap_append, List.map_append, List.flatMap_append, List.replicate_succ, List.flatten_cons, ← ih]
    rfl

end Loop

private theorem sum_repeated (fills : List (Option Fill)) (passes : Nat) :
    (((List.replicate passes fills).flatten).map fillSize).sum = passes * (fills.map fillSize).sum := by
  rw [List.map_flatten, List.sum_flatten, List.map_replicate, List.map_replicate, List.sum_replicate, nsmul_eq_mul]

section Passes
variable {iterate : ByteString → Option Json} {parser : MarketParser} {selection : StrategySelection}
  {base : SizeT} {ticks : List MarketTick} {s : State}

/-- The run over one pass. -/
theorem Inv.one_pass (h : Inv iterate parser selection base ticks s)
    (pushed : ∀ c ∈ s.queue.producer.calls, c.ok = true) :
    s.steps.map Step.fill <+: passFills selection ticks 0 := fills_prefix (h.run_total pushed) (List.take_prefix _ _)

/-- The run over a feed that is repeated. -/
theorem Inv.many_passes {passes : Nat}
    (h : Inv iterate parser selection base (List.replicate (passes + 2) ticks).flatten s)
    (pushed : ∀ c ∈ s.queue.producer.calls, c.ok = true) :
    s.steps.map Step.fill <+: passFills selection ticks 0 ++ passFills selection ticks 1 ++
      (List.replicate passes (passFills selection ticks 2)).flatten ∧
    (s.steps.length = (passes + 2) * ticks.length →
      s.engine.book = LimitOrderBook.empty.applyTicks ticks ∧
      s.engine.positionManager.positionSize.val = passSize selection ticks 0 + passSize selection ticks 1 +
        passes * passSize selection ticks 2) := by
  have hrun := h.run_total pushed
  have hfills := fills_prefix hrun (List.take_prefix _ _)
  rw [repeated_fills] at hfills
  refine ⟨hfills,fun hlength => ?_⟩
  have htotal : (List.replicate (passes + 2) ticks).flatten.length = s.steps.length := by
    rw [hlength, List.length_flatten, List.map_replicate, List.sum_replicate, smul_eq_mul]
  rw [← htotal, List.take_length] at hrun
  constructor
  · rw [h.engine]
    exact (congrArg View.book (after_view hrun)).trans (applyTicks_repeated _ ticks (passes + 1))
  · have hall := hfills.eq_of_length (by
      simp only [List.length_map, List.length_append, List.length_flatten, List.map_replicate, List.sum_replicate,
        passFills_length, smul_eq_mul, hlength]
      ring)
    have hsizes : (s.steps.map fun step => fillSize step.fill) = (s.steps.map Step.fill).map fillSize := by
      rw [List.map_map]
      rfl
    have hposition := after_position hrun
    rw [← h.engine, hsizes, hall, List.map_append, List.map_append, List.sum_append, List.sum_append,
      sum_repeated] at hposition
    exact hposition.trans (zero_add _)

end Passes

/-- Whatever the file holds, and under every schedule that refuses no tick. If a line ends the handler
with an exception, then all that is filled belongs to the first pass. Otherwise the fills of the third
pass over the file are those of every later one, so the position moves on by the same amount with
every pass until it leaves its range, while the book is the same at the end of every pass. -/
theorem replay_loop_repeats (py : Python) (replayMaxSleep : ℚ) (iterate : ByteString → Option Json)
    (parser : MarketParser) (selection : StrategySelection) (file : Text) (passes : Nat)
    {ticks : List MarketTick} (made : ticks = passTicks py replayMaxSleep iterate parser file)
    {base : SizeT} {schedule : List Label} {s : State}
    (run : exec (step iterate parser) (init selection base
      (((replayLoop py replayMaxSleep file (passes + 2)).filterMap Action.sent).map utf8)) schedule = some s)
    (pushed : ∀ c ∈ s.queue.producer.calls, c.ok = true) :
    ((replayPass py replayMaxSleep file).2 = true → s.steps.map Step.fill <+: passFills selection ticks 0) ∧
    ((replayPass py replayMaxSleep file).2 = false →
      s.steps.map Step.fill <+: passFills selection ticks 0 ++ passFills selection ticks 1 ++
        (List.replicate passes (passFills selection ticks 2)).flatten ∧
      (s.steps.length = (passes + 2) * ticks.length →
        s.engine.book = LimitOrderBook.empty.applyTicks ticks ∧
        s.engine.positionManager.positionSize.val = passSize selection ticks 0 + passSize selection ticks 1 +
          passes * passSize selection ticks 2)) := by
  obtain ⟨h,_,_⟩ := Inv.reached _ run
  constructor
  · intro raised
    rw [replayLoop_raised py replayMaxSleep file raised] at h
    change Inv iterate parser selection base (passTicks py replayMaxSleep iterate parser file) s at h
    rw [← made] at h
    exact h.one_pass pushed
  · intro through
    rw [replayLoop_ticks py replayMaxSleep iterate parser file through, ← made] at h
    exact h.many_passes pushed

def thirdText : ByteString := ascii "\x7b\"bids\":[[\"0.58\",\"0\"]]\x7d"

def swingFeed (payload : ByteString) : Option Json :=
  (feed payload).or (Json.only thirdText (.object [some (ascii "bids",.array [pair "0.58" "0"])]) payload)

def thirdMessage : Text := text "\x7b\"bids\":[[\"0.58\",\"0\"]]\x7d"

/-- A file of bare messages: the bid comes up and goes again. -/
def swingFile : Text := firstMessage ++ newline ++ secondMessageText ++ newline ++ thirdMessage ++ newline

/-- An interpreter that knows the lines of that file. -/
def swingPython : Python := .knowing [(firstMessage,.dict firstPayload),(secondMessageText,.dict secondPayload),
  (thirdMessage,.dict [(text "bids",level "0.58" "0")])]

/-- One pass over that file, behind so many ticks. -/
def swingPass (published : Nat) : List Label :=
  [.onRead] ++ pushCall published ++ popPass (published + 1) ++ pushCall published ++ popPass (published + 2) ++
    [.parsed,.onRead] ++ pushCall published ++ popPass (published + 3) ++
    [.parsed,.onRead] ++ pushCall published ++ popPass (published + 4) ++ [.parsed]

def swingTicks : List MarketTick := passTicks swingPython (1/2) swingFeed (construct true) swingFile

set_option maxRecDepth 8000 in
theorem swing_repeats : ∃ s, exec (step swingFeed (construct true)) (init .momentum 0
      (((replayLoop swingPython (1/2) swingFile (1 + 2)).filterMap Action.sent).map utf8))
      (swingPass 0 ++ swingPass 4 ++ swingPass 8) = some s ∧
    s.steps.map Step.fill = (List.replicate 3 [none,none,some ⟨10,3/5⟩,some ⟨-10,2/5⟩]).flatten ∧
    s.engine.book = LimitOrderBook.empty.applyTicks swingTicks ∧
    s.engine.positionManager.positionSize.val = passSize .momentum swingTicks 0 + passSize .momentum swingTicks 1 +
      (1 : Nat) * passSize .momentum swingTicks 2 := by
  have he : (exec (step swingFeed (construct true)) (init .momentum 0
      (((replayLoop swingPython (1/2) swingFile (1 + 2)).filterMap Action.sent).map utf8))
      (swingPass 0 ++ swingPass 4 ++ swingPass 8)).map
        (fun s => (s.steps.map Step.fill,s.queue.producer.calls.all Spsc.PushCall.ok)) =
      some ((List.replicate 3 [none,none,some ⟨10,3/5⟩,some ⟨-10,2/5⟩]).flatten,true) := by decide +kernel
  have hticks : swingTicks.length = 4 := by decide +kernel
  have hthrough : (replayPass swingPython (1/2) swingFile).2 = false := by decide +kernel
  obtain ⟨s,hs,ho⟩ := Option.map_eq_some_iff.mp he
  obtain ⟨hf,hok⟩ := Prod.mk.inj ho
  have hlength : s.steps.length = (1 + 2) * swingTicks.length := by
    have h := congrArg List.length hf
    rwa [List.length_map, show ((List.replicate 3 [none,none,some (⟨10,3/5⟩ : Fill),some ⟨-10,2/5⟩]).flatten).length =
      (1 + 2) * 4 from rfl, ← hticks] at h
  exact ⟨s,hs,hf,((replay_loop_repeats swingPython (1/2) swingFeed (construct true) .momentum
    swingFile 1 rfl hs (List.all_eq_true.mp hok)).2 hthrough).2 hlength⟩

end PredictionMarket.Pipeline

import PredictionMarket.Pipeline.Overload
import PredictionMarket.Tools.Sessions

/-! The engine on a recording against the engine on the feed itself. Recording and replaying
drops nothing that makes a tick, and the result of the pipeline does not depend on its schedule,
so of two runs the one that has come further continues the other. -/
namespace PredictionMarket.Pipeline
open Queue Market Strategy MarketParser Foundation.Transition Tools Recorder Replay

private theorem runTicks_beginning {e : StrategyEngine} {xs ys : List MarketTick} {steps all : List Step}
    (h : e.runTicks xs = some steps) (hall : e.runTicks (xs ++ ys) = some all) : steps <+: all := by
  obtain ⟨steps',more,hsteps,_,rfl⟩ := StrategyEngine.runTicks_append_cases hall
  obtain rfl := Option.some.inj (h.symm.trans hsteps)
  exact List.prefix_append _ _

section Runs
variable {iterate : ByteString → Option Json} {parser : MarketParser} {selection : StrategySelection}
  {base : SizeT} {total : List MarketTick} {s : State}

/-- Without a refusal the passes are a run over a beginning of all ticks. -/
theorem Inv.run_total (h : Inv iterate parser selection base total s)
    (pushed : ∀ c ∈ s.queue.producer.calls, c.ok = true) :
    (StrategyEngine.construct selection).runTicks (total.take s.steps.length) = some s.steps := by
  obtain ⟨hrun,hle⟩ := h.run_pushed
  have hoffered : s.queue.offered <+: total := by
    rw [← h.offers, List.append_assoc]
    exact List.prefix_append _ _
  obtain ⟨later,hlater⟩ := (Spsc.pushed_prefix_offered pushed).trans hoffered
  rw [← hlater, List.take_append_of_le_length hle]
  exact hrun

/-- Two runs over the same ticks, of which one continues the other. -/
theorem runs_agree {n n' : Nat} {steps steps' : List Step}
    (h : (StrategyEngine.construct selection).runTicks (total.take n) = some steps)
    (h' : (StrategyEngine.construct selection).runTicks (total.take n') = some steps') (hle : n ≤ n') :
    steps <+: steps' := by
  obtain ⟨later,hlater⟩ := List.take_prefix_take_left (l := total) hle
  rw [← hlater] at h'
  exact runTicks_beginning h h'

end Runs

/-- The ticks of a recording are those of the feed; a keepalive has none. -/
theorem ticks_replayed (iterate : ByteString → Option Json) (parser : MarketParser)
    (pongRejected : iterate (utf8 pong) = none) (messages : List (Text × Int64)) :
    (((messages.filter fun m => m.1 ≠ pong).map Prod.fst).map utf8).flatMap (payloadTicks iterate parser) =
      (messages.map fun m => utf8 m.1).flatMap (payloadTicks iterate parser) := by
  have hpong : payloadTicks iterate parser (utf8 pong) = [] := by
    rw [payloadTicks_eq, script, pongRejected]
    split_ifs <;> rfl
  induction messages with
  | nil => rfl
  | cons m messages ih =>
    by_cases hp : m.1 = pong
    · rw [List.filter_cons_of_neg (by simpa using hp), ih, List.map_cons, List.flatMap_cons, hp, hpong,
        List.nil_append]
    · rw [List.filter_cons_of_pos (by simpa using hp), List.map_cons, List.map_cons, List.flatMap_cons, ih,
        List.map_cons, List.flatMap_cons]

/-- A run of the pipeline on the texts that were recorded and one on what a pass over the
recording sends, under any schedules that refuse no tick: the passes of the one that has come
further continue those of the other, and when both have come equally far the engines are equal. -/
theorem backtest_matches_live (py : Python) (replayMaxSleep : ℚ) (iterate : ByteString → Option Json)
    (parser : MarketParser) (selection : StrategySelection) (pongRejected : iterate (utf8 pong) = none)
    (sessions : List (Session × Stop)) (messages : List (Text × Int64))
    (recorded : (happened sessions).flatMap (fun s => s.1.recordable py) = received messages)
    (nonempty : ∀ m ∈ messages, m.1 ≠ []) (roundTrip : ∀ m ∈ messages, m.1 ≠ pong → RoundTrip py m)
    {base base' : SizeT} {schedule schedule' : List Label} {s s' : State}
    (live : exec (step iterate parser) (init selection base (messages.map fun m => utf8 m.1)) schedule = some s)
    (pushed : ∀ c ∈ s.queue.producer.calls, c.ok = true)
    (backtest : exec (step iterate parser) (init selection base'
      (((replayPass py replayMaxSleep (recordMain py ⟨[],backoffInitial,[]⟩ sessions).file).1.filterMap
        Action.sent).map utf8)) schedule' = some s')
    (pushed' : ∀ c ∈ s'.queue.producer.calls, c.ok = true) :
    (s.steps <+: s'.steps ∨ s'.steps <+: s.steps) ∧
      (s'.steps.length = s.steps.length → s'.steps = s.steps ∧ s'.engine = s.engine) := by
  have hgoing := recordable_going py sessions
  rw [recorded] at hgoing
  rw [recordMain_file, recorded, List.nil_append, replayPass_readBack (lines_readBack nonempty roundTrip hgoing),
    repeated_sent] at backtest
  have h := (Inv.reached _ live).1
  have h' := (Inv.reached _ backtest).1
  rw [ticks_replayed iterate parser pongRejected] at h'
  have hrun := h.run_total pushed
  have hrun' := h'.run_total pushed'
  constructor
  · rcases Nat.le_total s.steps.length s'.steps.length with hle | hle
    · exact .inl (runs_agree hrun hrun' hle)
    · exact .inr (runs_agree hrun' hrun hle)
  · intro hlength
    have hsteps : s'.steps = s.steps := by
      rw [hlength, hrun] at hrun'
      exact (Option.some.inj hrun').symm
    exact ⟨hsteps,by rw [h'.engine, hsteps, h.engine]⟩

def firstMessage : Text := text "\x7b\"bids\":[[\"0.40\",\"10\"]],\"asks\":[[\"0.60\",\"10\"]]\x7d"

def secondMessageText : Text := text "\x7b\"bids\":[[\"0.58\",\"10\"]]\x7d"

def level (price size : String) : Value := .list [.list [.str (text price),.str (text size)]]

def firstPayload : List (Text × Value) := [(text "bids",level "0.40" "10"),(text "asks",level "0.60" "10")]

def secondPayload : List (Text × Value) := [(text "bids",level "0.58" "10")]

/-- The feed with a keepalive between its messages. -/
def recordedFeed : List (Text × Int64) := [(firstMessage,5),(pong,6),(secondMessageText,7)]

/-- An interpreter that knows the messages of the feed and their lines. -/
def feedPython : Python := .knowing [(firstMessage,.dict firstPayload),(secondMessageText,.dict secondPayload),
  (dumps (.dict (enriched firstPayload firstMessage 5)),.dict (enriched firstPayload firstMessage 5)),
  (dumps (.dict (enriched secondPayload secondMessageText 7)),.dict (enriched secondPayload secondMessageText 7))]

/-- The strategy takes each tick at once; the keepalive is parsed and rejected. -/
def liveSchedule : List Label := [.onRead] ++ pushCall 0 ++ popPass 1 ++ pushCall 0 ++ popPass 2 ++
  [.parsed,.onRead,.parsed,.onRead] ++ pushCall 0 ++ popPass 3

set_option maxRecDepth 8000 in
theorem feed_backtested : ∃ s s',
    exec (step feed (construct true)) (init .momentum 0 (recordedFeed.map fun m => utf8 m.1)) liveSchedule =
      some s ∧
    exec (step feed (construct true)) (init .momentum 0 (((replayPass feedPython (1/2)
      (recordMain feedPython ⟨[],backoffInitial,[]⟩ [(.ran (received recordedFeed),.during)]).file).1.filterMap
        Action.sent).map utf8)) lazySchedule = some s' ∧
    s.steps.map Step.fill = [none,none,some ⟨10,3/5⟩] ∧ s'.steps = s.steps ∧ s'.engine = s.engine := by
  have hl : (exec (step feed (construct true)) (init .momentum 0 (recordedFeed.map fun m => utf8 m.1))
      liveSchedule).map (fun s => (s.steps.map Step.fill,s.queue.producer.calls.all Spsc.PushCall.ok)) =
        some ([none,none,some ⟨10,3/5⟩],true) := by decide +kernel
  have hsent : ((replayPass feedPython (1/2) (recordMain feedPython ⟨[],backoffInitial,[]⟩
      [(.ran (received recordedFeed),.during)]).file).1.filterMap Action.sent).map utf8 =
        [firstText,secondText] := by decide +kernel
  have hb : outcome lazySchedule = some ([none,none,some ⟨10,3/5⟩], true) := by decide +kernel
  obtain ⟨s,hs,ho⟩ := Option.map_eq_some_iff.mp hl
  obtain ⟨s',hs',ho'⟩ := Option.map_eq_some_iff.mp hb
  obtain ⟨hf,hok⟩ := Prod.mk.inj ho
  obtain ⟨hf',hok'⟩ := Prod.mk.inj ho'
  have hk : s'.steps.length = s.steps.length := by
    have := congrArg List.length (hf'.trans hf.symm)
    rwa [List.length_map, List.length_map] at this
  have hrecorded : (happened [(.ran (received recordedFeed),.during)]).flatMap (fun s => s.1.recordable feedPython) =
      received recordedFeed := by decide +kernel
  rw [← hsent] at hs'
  refine ⟨s,s',hs,hs',hf,(backtest_matches_live feedPython (1/2) feed (construct true) .momentum
    rfl [(.ran (received recordedFeed),.during)] recordedFeed hrecorded (by decide) ?_ hs
    (List.all_eq_true.mp hok) hs' (List.all_eq_true.mp hok')).2 hk⟩
  simp only [recordedFeed, List.forall_mem_cons, List.not_mem_nil, false_implies, implies_true, and_true]
  refine ⟨fun _ => ?_,fun h => absurd rfl h,fun _ => ?_⟩ <;> rintro _ ⟨⟩ <;> rfl

end PredictionMarket.Pipeline

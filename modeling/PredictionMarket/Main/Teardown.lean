import PredictionMarket.Main.TradingLog
import PredictionMarket.Strategy.PositionBound

/-! Wherever a schedule has led the process, it can still be shut down: `main` never waits for
a thread that cannot come to its end. -/
namespace PredictionMarket.Main
open Queue Market Strategy MarketParser Foundation.Transition

section Alive
variable {iterate : ByteString → Option Json} {parser : MarketParser} {s t : Pipeline.State}

/-- `parse_tick` has a result for this payload. -/
def Parses (iterate : ByteString → Option Json) (parser : MarketParser) (payload : ByteString) : Prop :=
  (parseTick record iterate parser payload []).1 ≠ .terminated

/-- The network thread has not been and will not be terminated by the parser, and the strategy
thread has no tick in hand while it is in a `pop`. -/
structure Alive (iterate : ByteString → Option Json) (parser : MarketParser) (s : Pipeline.State) : Prop where
  running : s.aborted = false
  parsing : ∀ p, s.parsing = some p → p.verdict ≠ .terminated
  inbox : ∀ payload ∈ s.inbox, Parses iterate parser payload
  popping : s.queue.consumer.pc ≠ .idle → s.tick = none

private theorem Alive.queueStep (h : Alive iterate parser s) {l : Spsc.Label MarketTick}
    (hl : l.ofConsumer = false) {queue : Spsc.State kTickQueueSize MarketTick}
    (hq : Spsc.step s.queue l = some queue) : Alive iterate parser { s with queue } where
  running := h.running
  parsing := h.parsing
  inbox := h.inbox
  popping := by
    rw [Spsc.consumer_frame hq hl]
    exact h.popping

/-- Every step keeps what the continuation needs. -/
theorem Alive.step (h : Alive iterate parser s) {l : Pipeline.Label}
    (hs : Pipeline.step iterate parser s l = some t) : Alive iterate parser t := by
  unfold Pipeline.step at hs
  split_ifs at hs
  cases l with
  | onRead =>
    simp only [Pipeline.onRead] at hs
    split at hs
    · rename_i payload inbox hparsing hinbox
      have hrest := h.inbox
      rw [hinbox, List.forall_mem_cons] at hrest
      split_ifs at hs
      · cases hs
        exact ⟨h.running,h.parsing,hrest.2,h.popping⟩
      · cases hs
        exact ⟨h.running,fun p hp => by cases hp; exact hrest.1,hrest.2,h.popping⟩
    · cases hs
  | push =>
    simp only [Pipeline.push] at hs
    split at hs
    · rename_i verdict tick pending hparsing
      obtain ⟨queue,hq,rfl⟩ := Option.map_eq_some_iff.mp hs
      have hqueue := h.queueStep rfl hq
      have hverdict : verdict ≠ .terminated := h.parsing _ hparsing
      exact ⟨h.running,fun p hp => by cases hp; exact hverdict,h.inbox,hqueue.popping⟩
    · cases hs
  | pushes l =>
    simp only [Pipeline.pushes] at hs
    split_ifs at hs with hl
    obtain ⟨queue,hq,rfl⟩ := Option.map_eq_some_iff.mp hs
    exact h.queueStep (by cases l <;> first | rfl | cases hl) hq
  | parsed =>
    simp only [Pipeline.parsed] at hs
    split at hs
    · rename_i verdict hparsing _
      cases hs
      exact ⟨decide_eq_false (h.parsing _ hparsing),by simp,h.inbox,h.popping⟩
    · cases hs
  | pop =>
    simp only [Pipeline.pop] at hs
    split_ifs at hs with hc
    obtain ⟨queue,hq,rfl⟩ := Option.map_eq_some_iff.mp hs
    exact ⟨h.running,h.parsing,h.inbox,fun _ => Option.isNone_iff_eq_none.mp hc.2⟩
  | pops l =>
    simp only [Pipeline.pops] at hs
    split_ifs at hs with hl
    obtain ⟨queue,hq,rfl⟩ := Option.map_eq_some_iff.mp hs
    refine ⟨h.running,h.parsing,h.inbox,fun _ => h.popping ?_⟩
    cases l with
    | popLoadOther j =>
      obtain ⟨_,_,hp,_⟩ := Spsc.popLoadOther_inv hq
      simp [hp]
    | moveOut =>
      obtain ⟨_,_,hp,_⟩ := Spsc.moveOut_inv hq
      simp [hp]
    | _ => cases hl
  | popped =>
    simp only [Pipeline.popped] at hs
    split at hs
    · obtain ⟨queue,hq,rfl⟩ := Option.map_eq_some_iff.mp hs
      obtain ⟨_,_,_,_,rfl⟩ := Spsc.publishRead_inv hq
      exact ⟨h.running,h.parsing,h.inbox,fun hidle => absurd rfl hidle⟩
    · cases hs
  | loopBody =>
    simp only [Pipeline.loopBody] at hs
    split at hs
    · obtain ⟨step,_,rfl⟩ := Option.map_eq_some_iff.mp hs
      exact ⟨h.running,h.parsing,h.inbox,fun _ => rfl⟩
    · cases hs
  | stop =>
    cases hs
    exact ⟨h.running,h.parsing,h.inbox,h.popping⟩

/-- Steps of the network thread in a handler that has begun. -/
def inHandler : Pipeline.Label → Bool
  | .push | .pushes _ | .parsed => true
  | .onRead | .pop | .pops _ | .popped | .loopBody | .stop => false

/-- What the network thread has yet to do before the handler it is in returns. -/
def networkLeft (s : Pipeline.State) : Nat :=
  s.parsing.elim 0 fun p => 1 + 4 * p.pending.length + s.queue.producer.pc.rank

/-- A handler can always go on, and comes to an end. -/
theorem Alive.network_advances {base : SizeT} (h : Alive iterate parser s) (coherent : Spsc.Coherent base s.queue)
    {p : Pipeline.Parsing} (hparsing : s.parsing = some p) :
    ∃ l t, inHandler l = true ∧ Pipeline.step iterate parser s l = some t ∧ networkLeft t < networkLeft s := by
  have halive : ¬ s.aborted = true := by
    rw [h.running]
    exact Bool.false_ne_true
  by_cases hidle : s.queue.producer.pc = .idle
  · obtain ⟨verdict,pending⟩ := p
    cases pending with
    | nil =>
      refine ⟨.parsed,{ s with parsing := none, aborted := decide (verdict = .terminated) },rfl,?_,?_⟩
      · simp only [Pipeline.step, if_neg halive, Pipeline.parsed, hparsing, hidle]
      · simp [networkLeft, hparsing]
    | cons tick pending =>
      obtain ⟨queue,hq,hrank⟩ : ∃ queue, Spsc.step s.queue (.pushLoadOwn tick) = some queue ∧
          queue.producer.pc.rank = 3 :=
        ⟨_,by simp only [Spsc.step, Spsc.pushLoadOwn, hidle]; rfl,rfl⟩
      have hzero : s.queue.producer.pc.rank = 0 := by rw [hidle]; rfl
      refine ⟨.push,{ s with queue, parsing := some ⟨verdict,pending⟩ },rfl,?_,?_⟩
      · simp only [Pipeline.step, if_neg halive, Pipeline.push, hparsing, hq, Option.map_some]
      · simp only [networkLeft, hparsing, Option.elim_some, List.length_cons, hrank, hzero]
        omega
  · obtain ⟨l,queue,hl,hq⟩ := Spsc.push_enabled coherent hidle
    obtain ⟨hoffer,hrank,_⟩ := Spsc.push_rank hq hl hidle
    refine ⟨.pushes l,{ s with queue },rfl,?_,?_⟩
    · have hin : Pipeline.inPush l = true := by
        cases l <;> first | rfl | exact absurd hoffer (Option.some_ne_none _) | cases hl
      simp only [Pipeline.step, if_neg halive, Pipeline.pushes, if_pos hin, hq, Option.map_some]
    · simp only [networkLeft, hparsing, Option.elim_some]
      omega

/-- Steps of the strategy thread behind the loop condition. -/
def inPass : Pipeline.Label → Bool
  | .pops _ | .popped | .loopBody => true
  | .onRead | .push | .pushes _ | .parsed | .pop | .stop => false

/-- What the strategy thread has yet to do before it comes to the loop condition. -/
def passLeft (s : Pipeline.State) : Nat := 2 * s.queue.consumer.pc.rank + s.tick.toList.length

/-- A pass that has begun can always go on, and comes to an end. -/
theorem Alive.pass_advances {base : SizeT} (h : Alive iterate parser s) (coherent : Spsc.Coherent base s.queue)
    (passes : ∀ tick, s.tick = some tick → ∃ step, s.engine.loopBody tick = some step)
    (busy : s.queue.consumer.pc ≠ .idle ∨ s.tick ≠ none) :
    ∃ l t, inPass l = true ∧ Pipeline.step iterate parser s l = some t ∧ t.running = s.running ∧
      passLeft t < passLeft s := by
  have halive : ¬ s.aborted = true := by
    rw [h.running]
    exact Bool.false_ne_true
  by_cases hidle : s.queue.consumer.pc = .idle
  · obtain ⟨tick,htick⟩ := Option.ne_none_iff_exists'.mp (busy.resolve_left (not_not_intro hidle))
    obtain ⟨step,hstep⟩ := passes tick htick
    refine ⟨.loopBody,{ s with tick := none, engine := step.engine, steps := s.steps ++ [step] },rfl,?_,rfl,?_⟩
    · simp only [Pipeline.step, if_neg halive, Pipeline.loopBody, htick, hstep, Option.map_some]
    · simp [passLeft, htick]
  · obtain ⟨l,queue,hl,hq⟩ := Spsc.pop_enabled coherent hidle
    obtain ⟨hrank,_⟩ := Spsc.pop_rank coherent hq hl hidle
    have htick := h.popping hidle
    cases l with
    | pushLoadOwn | pushLoadOther | construct | publishWrite => cases hl
    | popLoadOwn => exact absurd (Spsc.popLoadOwn_inv hq).1 hidle
    | popLoadOther j =>
      refine ⟨.pops (.popLoadOther j),{ s with queue },rfl,?_,rfl,?_⟩
      · simp only [Pipeline.step, if_neg halive, Pipeline.pops, Pipeline.inPop, if_true, hq, Option.map_some]
      · exact Nat.add_lt_add_right (Nat.mul_lt_mul_of_pos_left hrank (by decide)) _
    | moveOut =>
      refine ⟨.pops .moveOut,{ s with queue },rfl,?_,rfl,?_⟩
      · simp only [Pipeline.step, if_neg halive, Pipeline.pops, Pipeline.inPop, if_true, hq, Option.map_some]
      · exact Nat.add_lt_add_right (Nat.mul_lt_mul_of_pos_left hrank (by decide)) _
    | publishRead =>
      obtain ⟨read,write,item,hp,_⟩ := Spsc.publishRead_inv hq
      refine ⟨.popped,{ s with queue, tick := some item },rfl,?_,rfl,?_⟩
      · simp only [Pipeline.step, if_neg halive, Pipeline.popped, htick, hp, hq, Option.map_some]
      · rw [passLeft, passLeft, htick]
        change 2 * queue.consumer.pc.rank + 1 < 2 * s.queue.consumer.pc.rank + 0
        omega

end Alive

namespace MainPc

/-- The destructor of the logger has begun. -/
def destructor : MainPc → Bool
  | .destroying | .returned => true
  | _ => false

/-- `ioc.stop()` is behind it. -/
def iocDone : MainPc → Bool
  | .constructing | .announcing | .watching | .strategyStopped => false
  | _ => true

/-- Places of `main` before its end. -/
def left : MainPc → Nat
  | .constructing => 8
  | .announcing => 7
  | .watching => 6
  | .strategyStopped => 5
  | .iocStopped => 4
  | .strategyJoined => 3
  | .networkJoined => 2
  | .destroying => 1
  | .returned => 0

end MainPc

section Components
variable {iterate : ByteString → Option Json} {parser : MarketParser} {selection : StrategySelection}
  {s t : State} {l : Label}

private theorem onLogger_eq_some {logger : Option Logger.State} {condition : Bool}
    (hs : onLogger s logger condition = some t) :
    condition = true ∧ ∃ next, logger = some next ∧ t = { s with logger := next } := by
  unfold onLogger at hs
  split_ifs at hs with hc
  obtain ⟨next,hn,rfl⟩ := Option.map_eq_some_iff.mp hs
  exact ⟨hc,next,hn,rfl⟩

private theorem advance_eq_some {condition : Bool} {here next : MainPc}
    (hs : advance s condition here next = some t) : s.main = here ∧ t = { s with main := next } := by
  unfold advance at hs
  split_ifs at hs with hc
  exact ⟨hc.1,(Option.some.inj hs).symm⟩

private theorem pipeline_eq_some {l : Pipeline.Label} (hs : pipeline iterate parser s l = some t) :
    Pipeline.step iterate parser s.pipeline l = some t.pipeline ∧ t.logger = s.logger ∧ t.main = s.main ∧
      t.iocStopped = s.iocStopped := by
  cases l with
  | onRead | push | pushes | parsed | pop | pops | popped | loopBody | stop =>
    simp only [pipeline] at hs
    split_ifs at hs
    obtain ⟨next,hn,rfl⟩ := Option.map_eq_some_iff.mp hs
    exact ⟨hn,rfl,rfl,rfl⟩

/-- A step of the process is at most one step of each component; what is stopped stays stopped. -/
theorem step_components (hs : step iterate parser selection s l = some t) :
    (t.pipeline = s.pipeline ∨ ∃ k, Pipeline.step iterate parser s.pipeline k = some t.pipeline) ∧
    ((t.logger = s.logger ∧ t.main.destructor = s.main.destructor) ∨
      (∃ k, k ≠ .stop ∧ Logger.step s.logger k = some t.logger ∧ t.main.destructor = s.main.destructor) ∨
      (Logger.step s.logger .stop = some t.logger ∧ t.main = .destroying)) ∧
    (t.iocStopped = true ∨ (t.iocStopped = s.iocStopped ∧ t.main.iocDone = s.main.iocDone)) := by
  unfold step at hs
  split_ifs at hs
  unfold act at hs
  cases l with
  | logActiveStrategy =>
    simp only [logActiveStrategy] at hs
    split at hs
    · rename_i hmain
      obtain ⟨logger,hl,rfl⟩ := Option.map_eq_some_iff.mp hs
      exact ⟨.inl rfl,.inr (.inl ⟨.call _,by simp,hl,by rw [hmain]; rfl⟩),.inr ⟨rfl,by rw [hmain]; rfl⟩⟩
    · cases hs
  | start =>
    simp only [start] at hs
    split at hs
    · rename_i hmain _
      cases hs
      exact ⟨.inl rfl,.inl ⟨rfl,by rw [hmain]; rfl⟩,.inr ⟨rfl,by rw [hmain]; rfl⟩⟩
    · cases hs
  | pipeline l =>
    obtain ⟨hp,hlogger,hmain,hioc⟩ := pipeline_eq_some hs
    exact ⟨.inr ⟨l,hp⟩,.inl ⟨hlogger,by rw [hmain]⟩,.inr ⟨hioc,by rw [hmain]⟩⟩
  | logEvent timestampUs latencyUs =>
    simp only [logEvent] at hs
    split at hs
    · cases hs
    · obtain ⟨c,_,hs⟩ := Option.bind_eq_some_iff.mp hs
      obtain ⟨logger,hl,rfl⟩ := Option.map_eq_some_iff.mp hs
      exact ⟨.inl rfl,.inr (.inl ⟨.call c,by simp,hl,rfl⟩),.inr ⟨rfl,rfl⟩⟩
  | logs l =>
    obtain ⟨_,logger,hl,rfl⟩ := onLogger_eq_some hs
    exact ⟨.inl rfl,.inr (.inl ⟨.pushes l,by simp,hl,rfl⟩),.inr ⟨rfl,rfl⟩⟩
  | worker l =>
    obtain ⟨hw,logger,hl,rfl⟩ := onLogger_eq_some hs
    refine ⟨.inl rfl,.inr (.inl ⟨l,?_,hl,rfl⟩),.inr ⟨rfl,rfl⟩⟩
    rintro rfl
    cases hw
  | signal =>
    cases hs
    exact ⟨.inl rfl,.inl ⟨rfl,rfl⟩,.inr ⟨rfl,rfl⟩⟩
  | stopStrategy | joinStrategy | joinNetwork =>
    obtain ⟨hmain,rfl⟩ := advance_eq_some hs
    exact ⟨.inl rfl,.inl ⟨rfl,by rw [hmain]; rfl⟩,.inr ⟨rfl,by rw [hmain]; rfl⟩⟩
  | stopIoc =>
    obtain ⟨u,hu,rfl⟩ := Option.map_eq_some_iff.mp hs
    obtain ⟨hmain,rfl⟩ := advance_eq_some hu
    exact ⟨.inl rfl,.inl ⟨rfl,by rw [hmain]; rfl⟩,.inl rfl⟩
  | strategyReturns =>
    simp only [strategyReturns] at hs
    split at hs
    · split_ifs at hs
      cases hs
      exact ⟨.inl rfl,.inl ⟨rfl,rfl⟩,.inr ⟨rfl,rfl⟩⟩
    · cases hs
  | fails | networkReturns =>
    simp only [fails, networkReturns] at hs
    split_ifs at hs
    cases hs
    exact ⟨.inl rfl,.inl ⟨rfl,rfl⟩,.inr ⟨rfl,rfl⟩⟩
  | destroyLogger =>
    obtain ⟨u,hu,rfl⟩ := Option.map_eq_some_iff.mp hs
    obtain ⟨hmain,logger,hl,rfl⟩ := onLogger_eq_some hu
    exact ⟨.inl rfl,.inr (.inr ⟨hl,rfl⟩),.inr ⟨rfl,by rw [of_decide_eq_true hmain]; rfl⟩⟩
  | joinWorker =>
    obtain ⟨u,hu,rfl⟩ := Option.map_eq_some_iff.mp hs
    obtain ⟨hmain,logger,hl,rfl⟩ := onLogger_eq_some hu
    exact ⟨.inl rfl,.inr (.inl ⟨.join,by simp,hl,by rw [of_decide_eq_true hmain]; rfl⟩),
      .inr ⟨rfl,by rw [of_decide_eq_true hmain]; rfl⟩⟩

/-- What is needed for the process to be shut down, besides the invariant of its log. -/
structure Ready (iterate : ByteString → Option Json) (parser : MarketParser) (selection : StrategySelection)
    (ticks logs : SizeT) (total : List MarketTick) (s : State) : Prop where
  inv : Inv iterate parser selection ticks logs total s
  alive : Alive iterate parser s.pipeline
  stream : Logger.HasStream s.logger
  destroying : s.logger.stopped.isSome = s.main.destructor
  stopped : s.main.iocDone = true → s.iocStopped = true

variable {ticks logs : SizeT} {total : List MarketTick}

/-- Every step keeps what the continuation needs of the logger's calls. -/
theorem Ready.step (h : Ready iterate parser selection ticks logs total s)
    (hs : Main.step iterate parser selection s l = some t) : Ready iterate parser selection ticks logs total t := by
  obtain ⟨hpipeline,hlogger,hioc⟩ := step_components hs
  refine ⟨h.inv.step hs,?_,?_,?_,?_⟩
  · rcases hpipeline with he | ⟨k,hk⟩
    · rw [he]
      exact h.alive
    · exact h.alive.step hk
  · rcases hlogger with ⟨he,_⟩ | ⟨k,_,hk,_⟩ | ⟨hk,_⟩
    · rw [he]
      exact h.stream
    · exact h.stream.step hk
    · exact h.stream.step (l := .stop) hk
  · rcases hlogger with ⟨he,hmain⟩ | ⟨k,hne,hk,hmain⟩ | ⟨hk,hmain⟩
    · rw [he, hmain, h.destroying]
    · rw [Logger.stopped_frame hne hk, hmain, h.destroying]
    · rw [hmain]
      simp only [Logger.step, Logger.stop] at hk
      split_ifs at hk
      rw [← Option.some.inj hk]
      rfl
  · rcases hioc with hstopped | ⟨hkept,hmain⟩
    · exact fun _ => hstopped
    · rw [hkept, hmain]
      exact h.stopped

/-- At the start nothing is in the way of the shutdown. -/
theorem Ready.initial {payloads : List ByteString} (parses : ∀ payload ∈ payloads, Parses iterate parser payload) :
    Ready iterate parser selection ticks logs (payloads.flatMap (payloadTicks iterate parser))
      (init selection ticks logs payloads) :=
  ⟨.initial payloads,⟨rfl,nofun,parses,fun hidle => absurd rfl hidle⟩,nofun,rfl,nofun⟩

private theorem loopBody_sizes {e : StrategyEngine} {tick : MarketTick} {step : Step}
    (h : e.loopBody tick = some step) : ∀ event ∈ step.events, ∃ size : CInt, size.val = event.size := by
  intro event hmem
  rcases StrategyEngine.loopBody_cases h with ⟨_,rfl⟩ | ⟨q,pm,_,_,rfl⟩
  · cases hmem
  · simp only [StrategyEngine.pass, List.mem_append, Option.mem_toList, Option.map_eq_some_iff] at hmem
    rcases hmem with (hmem | ⟨order,_,rfl⟩) | hmem
    · split_ifs at hmem
      · cases hmem
      · exact ⟨e.positionManager.positionSize,by rw [List.mem_singleton.mp hmem]; rfl⟩
    · exact ⟨order.1,rfl⟩
    · split_ifs at hmem
      · exact ⟨pm.positionSize,by rw [List.mem_singleton.mp hmem]; rfl⟩
      · cases hmem

private theorem runTicks_sizes {e : StrategyEngine} {ticks : List MarketTick} {steps : List Step}
    (h : e.runTicks ticks = some steps) :
    ∀ event ∈ steps.flatMap Step.events, ∃ size : CInt, size.val = event.size := by
  apply StrategyEngine.runTicks_induction
    (P := fun _ steps => ∀ event ∈ steps.flatMap Step.events, ∃ size : CInt, size.val = event.size) ?_ ?_ h
  · nofun
  · intro ticks steps tick step _ hstep ih event hmem
    rw [List.flatMap_append, List.flatMap_singleton, List.mem_append] at hmem
    rcases hmem with hmem | hmem
    · exact ih event hmem
    · exact loopBody_sizes hstep event hmem

private theorem Ready.logCall (h : Ready iterate parser selection ticks logs total s) {event : LogEvent}
    {unlogged : List LogEvent} (hun : s.unlogged = event :: unlogged) (timestampUs latencyUs : UInt64) :
    ∃ c, Main.logCall event timestampUs latencyUs = some c := by
  obtain ⟨processed,_,hrun⟩ := h.inv.pipeline.progress
  obtain ⟨logged,_,hevents,_⟩ := h.inv.calls
  have hmem : event ∈ s.pipeline.steps.flatMap Step.events := by
    rw [hevents, hun]
    simp
  obtain ⟨size,hsize⟩ := runTicks_sizes hrun event hmem
  exact ⟨_,by rw [Main.logCall, Foundation.CheckedInt.ofInt?_eq_some_iff.mpr hsize, Option.map_some]⟩

private theorem Ready.passes (h : Ready iterate parser selection ticks logs total s)
    (short : 10 * total.length < 2^31) (tick : MarketTick) (htick : s.pipeline.tick = some tick) :
    ∃ step, s.pipeline.engine.loopBody tick = some step := by
  obtain ⟨processed,hpopped,hrun⟩ := h.inv.pipeline.progress
  rw [htick] at hpopped
  have hle := (popped_of_feed h.inv.pipeline).1.length_le
  rw [hpopped] at hle
  obtain ⟨all,hall⟩ := StrategyEngine.exists_runTicks_of_length selection
    ((Nat.mul_le_mul_left 10 hle).trans_lt short)
  obtain ⟨steps,step,hsteps,hstep,_⟩ := StrategyEngine.runTicks_snoc_cases hall
  rw [hrun] at hsteps
  cases hsteps
  rw [h.inv.pipeline.engine]
  exact ⟨step,hstep⟩

/-- Accesses of the log's queue that the strategy thread has yet to make in its pass. -/
def State.callsLeft (s : State) : Nat := 4 * s.unlogged.length + s.logger.callLeft

/-- What `main` waits for where it stands. -/
def State.awaited (s : State) : Nat × Nat :=
  match s.main with
  | .announcing => (0, s.logger.callLeft)
  | .watching => (0, (!s.gStop).toNat)
  | .iocStopped =>
    ((!s.strategyDone).toNat + s.pipeline.running.toNat + passLeft s.pipeline, s.callsLeft)
  | .strategyJoined => ((!s.networkDone).toNat + networkLeft s.pipeline, 0)
  | .destroying => s.logger.workLeft
  | _ => (0, 0)

/-- Steps in which the other end of the connection has no part. -/
def Label.unaided : Label → Prop
  | .fails | .pipeline .onRead => False
  | _ => True

private theorem inHandler_unaided {l : Pipeline.Label} (h : inHandler l = true) : (Label.pipeline l).unaided := by
  cases l <;> trivial

private theorem inPass_unaided {l : Pipeline.Label} (h : inPass l = true) : (Label.pipeline l).unaided := by
  cases l <;> trivial

/-- `main` goes on, or what it waits for comes closer. -/
def Closer (t s : State) : Prop := t.main.left < s.main.left ∨ (t.main = s.main ∧ Less t.awaited s.awaited)

private theorem closer_of_main {here : MainPc} (next : MainPc) (hs : s.main = here) (ht : t.main = next)
    (hlt : next.left < here.left) : Closer t s := by
  refine .inl ?_
  rw [hs, ht]
  exact hlt

section Stages
variable (h : Ready iterate parser selection ticks logs total s)
include h

private theorem Ready.step_eq (l : Label) :
    Main.step iterate parser selection s l = act iterate parser selection s l := by
  rw [Main.step, if_neg (by rw [h.alive.running]; exact Bool.false_ne_true)]

private theorem Ready.access {c : Logger.Call} (hcall : s.logger.call = some c)
    (hcloser : ∀ logger : Logger.State, logger.callLeft < s.logger.callLeft → Closer { s with logger } s) :
    ∃ l t, l.unaided ∧ Main.step iterate parser selection s l = some t ∧ Closer t s := by
  obtain ⟨l,logger,hl,hleft⟩ := h.inv.logger.access_enabled hcall
  refine ⟨.logs l,{ s with logger },trivial,?_,hcloser logger hleft⟩
  rw [h.step_eq]
  simp only [act, onLogger, hl, if_true, Option.map_some]

private theorem Ready.stopped_none (hmain : s.main.destructor = false) : s.logger.stopped = none := by
  have hd := h.destroying
  rw [hmain, Option.isSome_eq_false_iff] at hd
  exact Option.isNone_iff_eq_none.mp hd

private theorem Ready.logs_advance (hmain : s.main = .iocStopped) (hunlogged : s.logged = false) :
    ∃ l t, l.unaided ∧ Main.step iterate parser selection s l = some t ∧ Closer t s := by
  cases hcall : s.logger.call with
  | some c =>
    refine h.access hcall fun logger hleft => .inr ⟨rfl,?_⟩
    simp only [State.awaited, hmain]
    exact .inr ⟨rfl,Nat.add_lt_add_left hleft _⟩
  | none =>
    cases hun : s.unlogged with
    | nil => simp [State.logged, hcall, hun] at hunlogged
    | cons event unlogged =>
      obtain ⟨c,hc⟩ := h.logCall hun 0 0
      obtain ⟨logger,hl,hleft⟩ :=
        h.inv.logger.call_enabled hcall (h.stopped_none (by rw [hmain]; rfl)) c
      refine ⟨.logEvent 0 0,{ s with logger, unlogged },trivial,?_,.inr ⟨rfl,?_⟩⟩
      · rw [h.step_eq]
        simp only [act, logEvent, hun, hc, hl, Option.bind_some, Option.map_some]
      · simp only [State.awaited, hmain]
        refine .inr ⟨rfl,?_⟩
        simp only [State.callsLeft, hun, hleft, List.length_cons]
        omega

private theorem Ready.strategy_advances (short : 10 * total.length < 2^31) (hmain : s.main = .iocStopped)
    (hdone : s.strategyDone = false) :
    ∃ l t, l.unaided ∧ Main.step iterate parser selection s l = some t ∧ Closer t s := by
  have hstarted : s.main.started = true := by rw [hmain]; rfl
  cases hlogged : s.logged with
  | false => exact h.logs_advance hmain hlogged
  | true =>
    cases hrunning : s.pipeline.running with
    | true =>
      refine ⟨.pipeline .stop,{ s with pipeline.running := false },trivial,?_,.inr ⟨rfl,.inl ?_⟩⟩
      · rw [h.step_eq]
        simp only [act, pipeline, hmain, Pipeline.step, h.alive.running]
        rfl
      · simp only [State.awaited, hmain, hrunning, passLeft]
        simp
    | false =>
      by_cases hbusy : s.pipeline.queue.consumer.pc ≠ .idle ∨ s.pipeline.tick ≠ none
      · obtain ⟨l,next,hl,hp,hrun,hleft⟩ := h.alive.pass_advances h.inv.pipeline.coherent (h.passes short) hbusy
        have hcloser (unlogged : List LogEvent) : Closer { s with pipeline := next, unlogged } s := by
          refine .inr ⟨rfl,.inl ?_⟩
          simp only [State.awaited, hmain, hrun]
          omega
        have hunaided := inPass_unaided hl
        have hstep {t : State} (ht : pipeline iterate parser s l = some t) :
            Main.step iterate parser selection s (.pipeline l) = some t := (h.step_eq _).trans ht
        cases l with
        | onRead | push | pushes | parsed | pop | stop => cases hl
        | pops | popped =>
          refine ⟨_,{ s with pipeline := next },hunaided,hstep ?_,hcloser s.unlogged⟩
          simp only [pipeline, hstarted, hdone, hlogged, hp, and_self, if_true, Option.map_some]
        | loopBody =>
          refine ⟨_,_,hunaided,hstep ?_,hcloser ((next.steps.drop s.pipeline.steps.length).flatMap Step.events)⟩
          simp only [pipeline, hstarted, hdone, hlogged, hp, and_self, if_true, Option.map_some]
      · obtain ⟨hidle,htick⟩ := not_or.mp hbusy
        rw [not_not] at hidle htick
        refine ⟨.strategyReturns,{ s with strategyDone := true },trivial,?_,.inr ⟨rfl,.inl ?_⟩⟩
        · rw [h.step_eq]
          simp only [act, strategyReturns, hidle, hstarted, hrunning, htick, hlogged, and_self, if_true]
        · simp only [State.awaited, hmain, hdone]
          simp

private theorem Ready.network_advances (hmain : s.main = .strategyJoined) (hdone : s.networkDone = false) :
    ∃ l t, l.unaided ∧ Main.step iterate parser selection s l = some t ∧ Closer t s := by
  have hstarted : s.main.started = true := by rw [hmain]; rfl
  cases hparsing : s.pipeline.parsing with
  | none =>
    have hioc : s.iocStopped = true := h.stopped (by rw [hmain]; rfl)
    refine ⟨.networkReturns,{ s with networkDone := true },trivial,?_,.inr ⟨rfl,.inl ?_⟩⟩
    · rw [h.step_eq]
      simp only [act, networkReturns, hstarted, hparsing, hioc, Option.isNone_none, true_or, and_self, if_true]
    · simp only [State.awaited, hmain, hdone]
      simp
  | some p =>
    obtain ⟨l,next,hl,hp,hleft⟩ := h.alive.network_advances h.inv.pipeline.coherent hparsing
    have hcloser : Closer { s with pipeline := next } s := by
      refine .inr ⟨rfl,.inl ?_⟩
      simp only [State.awaited, hmain]
      omega
    have hunaided := inHandler_unaided hl
    cases l with
    | onRead | pop | pops | popped | loopBody | stop => cases hl
    | push | pushes | parsed =>
      refine ⟨_,{ s with pipeline := next },hunaided,(h.step_eq _).trans ?_,hcloser⟩
      simp only [act, pipeline, hstarted, hdone, hp, and_self, if_true, Option.map_some]

private theorem Ready.worker_advances (hmain : s.main = .destroying) :
    ∃ l t, l.unaided ∧ Main.step iterate parser selection s l = some t ∧ Closer t s := by
  have hstopped : s.logger.stopped.isSome = true := by rw [h.destroying, hmain]; rfl
  by_cases hfinished : s.logger.worker = .finished
  · refine ⟨.joinWorker,{ s with logger.destroyed := true, main := .returned },trivial,?_,closer_of_main .returned hmain rfl (by decide)⟩
    rw [h.step_eq]
    simp only [act, onLogger, hmain, decide_true, Logger.join, hstopped, hfinished, and_self, if_true,
      Option.map_some]
  · obtain ⟨l,logger,hl,hstep,hless⟩ := Logger.worker_advances h.inv.logger h.stream hstopped hfinished
    refine ⟨.worker l,{ s with logger },trivial,?_,.inr ⟨rfl,?_⟩⟩
    · rw [h.step_eq]
      simp only [act, onLogger, hl, hstep, if_true, Option.map_some]
    · simp only [State.awaited, hmain]
      exact hless

/-- Before its end `main` can go on, or what it waits for can come closer. -/
theorem Ready.advance (short : 10 * total.length < 2^31) (hend : s.main ≠ .returned) :
    ∃ l t, l.unaided ∧ Main.step iterate parser selection s l = some t ∧ Closer t s := by
  cases hmain : s.main with
  | returned => exact absurd hmain hend
  | constructing =>
    have hcall : s.logger.call = none := by
      obtain ⟨logged,calls,hevents,hlogs,hcalls⟩ := h.inv.calls
      rw [(h.inv.unstarted (by rw [hmain]; rfl)).1] at hevents
      rw [(List.append_eq_nil_iff.mp hevents.symm).1] at hlogs
      cases hlogs
      rw [hmain, Logger.State.calls] at hcalls
      exact Option.toList_eq_nil_iff.mp (List.append_eq_nil_iff.mp hcalls).2
    obtain ⟨logger,hl,_⟩ :=
      h.inv.logger.call_enabled hcall (h.stopped_none (by rw [hmain]; rfl)) (announcement selection)
    refine ⟨.logActiveStrategy,{ s with logger, main := .announcing },trivial,?_,closer_of_main .announcing hmain rfl (by decide)⟩
    rw [h.step_eq]
    have hl' : Logger.call s.logger (.logActiveStrategy (strategyName selection)) = some logger := hl
    simp only [act, logActiveStrategy, hmain, hl', Option.map_some]
  | announcing =>
    cases hcall : s.logger.call with
    | none =>
      refine ⟨.start,{ s with main := .watching },trivial,?_,closer_of_main .watching hmain rfl (by decide)⟩
      rw [h.step_eq]
      simp only [act, start, hmain, hcall]
    | some c =>
      refine h.access hcall fun logger hleft => .inr ⟨rfl,?_⟩
      simp only [State.awaited, hmain]
      exact .inr ⟨rfl,hleft⟩
  | watching =>
    cases hstop : s.gStop with
    | false =>
      refine ⟨.signal,{ s with gStop := true },trivial,h.step_eq _,.inr ⟨rfl,?_⟩⟩
      simp only [State.awaited, hmain, hstop]
      exact .inr ⟨rfl,by decide⟩
    | true =>
      refine ⟨.stopStrategy,{ s with main := .strategyStopped },trivial,?_,closer_of_main .strategyStopped hmain rfl (by decide)⟩
      rw [h.step_eq]
      simp only [act, Main.advance, hmain, hstop, and_self, if_true]
  | strategyStopped =>
    refine ⟨.stopIoc,{ s with main := .iocStopped, iocStopped := true },trivial,?_,closer_of_main .iocStopped hmain rfl (by decide)⟩
    rw [h.step_eq]
    simp only [act, Main.stopIoc, Main.advance, hmain, and_self, if_true, Option.map_some]
  | iocStopped =>
    cases hdone : s.strategyDone with
    | false => exact h.strategy_advances short hmain hdone
    | true =>
      refine ⟨.joinStrategy,{ s with main := .strategyJoined },trivial,?_,closer_of_main .strategyJoined hmain rfl (by decide)⟩
      rw [h.step_eq]
      simp only [act, Main.advance, hmain, hdone, and_self, if_true]
  | strategyJoined =>
    cases hdone : s.networkDone with
    | false => exact h.network_advances hmain hdone
    | true =>
      refine ⟨.joinNetwork,{ s with main := .networkJoined },trivial,?_,closer_of_main .networkJoined hmain rfl (by decide)⟩
      rw [h.step_eq]
      simp only [act, Main.advance, hmain, hdone, and_self, if_true]
  | networkJoined =>
    obtain ⟨_,hlogged⟩ := h.inv.finished (h.inv.joined (by rw [hmain]; rfl))
    have hcall := ((State.logged_iff s).mp hlogged).2
    have hstopped := h.stopped_none (by rw [hmain]; rfl)
    refine ⟨.destroyLogger,{ s with
      logger.stopped := some s.logger.queue.writeIndex.stores.length, main := .destroying },trivial,?_,
      closer_of_main .destroying hmain rfl (by decide)⟩
    rw [h.step_eq]
    simp only [act, onLogger, hmain, decide_true, Logger.stop, hcall, hstopped, Option.isNone_none, and_self,
      if_true, Option.map_some]
  | destroying => exact h.worker_advances hmain

end Stages

end Components

/-- From every state that a schedule reaches, a schedule leads on to the return of `main`, without
any help from the other end of the connection: no thread ever blocks another for good, and the
destructor of the logger finds no call in progress. The parser has to have a result for every payload,
and no fill may overflow, which it cannot in fewer than 2^31 / 10 ticks. -/
theorem shutdown_reachable (iterate : ByteString → Option Json) (parser : MarketParser)
    (selection : StrategySelection) (ticks logs : SizeT) (payloads : List ByteString)
    (parses : ∀ payload ∈ payloads, Parses iterate parser payload)
    (short : 10 * (payloads.flatMap (payloadTicks iterate parser)).length < 2^31)
    {schedule : List Label} {s : State}
    (run : exec (step iterate parser selection) (init selection ticks logs payloads) schedule = some s) :
    CanReach Label.unaided (step iterate parser selection) (fun t => t.main = .returned) s := by
  have hready := exec_invariant (P := Ready iterate parser selection ticks logs _)
    (fun _ _ _ h hs => h.step hs) run (.initial parses)
  refine canReach_of_rank (WellFounded.prod_lex wellFounded_lt less_wf)
    (fun s : State => (s.main.left, s.awaited)) ?_ hready
  intro s h hend
  obtain ⟨l,t,hl,ht,hcloser⟩ := h.advance short hend
  refine ⟨l,t,hl,ht,h.step ht,Prod.lex_def.mpr ?_⟩
  exact hcloser.imp_right fun hc => ⟨by rw [hc.1],hc.2⟩

/-- In the middle of the second message, with the first event just logged. -/
theorem shutdown_midway : ∃ s,
    exec (step Pipeline.feed (construct true) .momentum)
      (init .momentum 0 0 [Pipeline.firstText,Pipeline.secondText]) (tradingSchedule.take 30) = some s ∧
    s.main = .watching ∧
    CanReach Label.unaided (step Pipeline.feed (construct true) .momentum) (fun t => t.main = .returned) s := by
  have he : (exec (step Pipeline.feed (construct true) .momentum)
      (init .momentum 0 0 [Pipeline.firstText,Pipeline.secondText]) (tradingSchedule.take 30)).map State.main =
      some .watching := by decide +kernel
  obtain ⟨s,hs,hmain⟩ := Option.map_eq_some_iff.mp he
  have hparses : ∀ payload ∈ [Pipeline.firstText,Pipeline.secondText],
      Parses Pipeline.feed (construct true) payload := by
    simp only [List.forall_mem_cons, Parses]
    exact ⟨by decide +kernel,by decide +kernel,nofun⟩
  have hshort : ([Pipeline.firstText,Pipeline.secondText].flatMap
      (payloadTicks Pipeline.feed (construct true))).length = 3 := by decide +kernel
  exact ⟨s,hs,hmain,shutdown_reachable Pipeline.feed (construct true) .momentum 0 0 _ hparses
    (by rw [hshort]; decide) hs⟩

end PredictionMarket.Main

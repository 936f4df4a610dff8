import PredictionMarket.Pipeline.Threads

/-! The schedule decides how far the strategy has come, and nothing else. What it has
processed is a prefix of the ticks of all payloads, in the order of the payloads. -/
namespace PredictionMarket.Pipeline
open Queue Market Strategy MarketParser Foundation.Transition

/-- Ticks that the parser has still to push for the payload it is at. -/
def State.pending (s : State) : List MarketTick := s.parsing.elim [] Parsing.pending

/-- The queue is coherent, no tick is missing or out of order between the payloads and
the queue, and the engine is where the ticks it has been given take it. -/
structure Inv (iterate : ByteString → Option Json) (parser : MarketParser)
    (selection : StrategySelection) (base : SizeT) (total : List MarketTick) (s : State) : Prop where
  coherent : Spsc.Coherent base s.queue
  offers : s.queue.offered ++ s.pending ++ s.inbox.flatMap (payloadTicks iterate parser) = total
  progress : ∃ processed, s.queue.popped = processed ++ s.tick.toList ∧
    (StrategyEngine.construct selection).runTicks processed = some s.steps
  engine : s.engine = (StrategyEngine.construct selection).after s.steps

section Steps
variable {iterate : ByteString → Option Json} {parser : MarketParser} {selection : StrategySelection}
  {base : SizeT} {total : List MarketTick} {s t : State}

/-- The invariant holds when the process starts. -/
theorem Inv.initial (payloads : List ByteString) : Inv iterate parser selection base
    (payloads.flatMap (payloadTicks iterate parser)) (init selection base payloads) where
  coherent := Spsc.coherent_init base
  offers := rfl
  progress := ⟨[],rfl,rfl⟩
  engine := rfl

private theorem Inv.access (h : Inv iterate parser selection base total s) {l : Spsc.Label MarketTick}
    (hoffer : l.offer = none) (hl : l ≠ .publishRead) {queue : Spsc.State kTickQueueSize MarketTick}
    (hs : Spsc.step s.queue l = some queue) :
    Inv iterate parser selection base total { s with queue } where
  coherent := (Spsc.coherent_step h.coherent hs).1
  offers := by
    rw [Spsc.offered_step hs, hoffer, Option.toList_none, List.append_nil]
    exact h.offers
  progress := by
    rw [Spsc.popped_step hs hl]
    exact h.progress
  engine := h.engine

/-- Without a payload there are no ticks. -/
theorem payloadTicks_empty {payload : ByteString} (h : payload.length = 0) :
    payloadTicks iterate parser payload = [] := by
  rw [payloadTicks_eq, script]
  split_ifs with hi hl
  · rfl
  · rfl
  · exact absurd (.inl h) hl

/-- A payload that is read becomes the message in progress. -/
theorem Inv.onRead (h : Inv iterate parser selection base total s)
    (hs : Pipeline.onRead iterate parser s = some t) : Inv iterate parser selection base total t := by
  obtain ⟨hc,ho,hp,he⟩ := h
  unfold Pipeline.onRead at hs
  split at hs
  · rename_i payload inbox hparsing hinbox
    rw [State.pending, hparsing, hinbox, List.flatMap_cons, Option.elim_none, List.append_nil] at ho
    split_ifs at hs with hlen
    · cases hs
      refine ⟨hc,?_,hp,he⟩
      rw [payloadTicks_empty hlen, List.nil_append] at ho
      rw [State.pending, hparsing, Option.elim_none, List.append_nil]
      exact ho
    · cases hs
      refine ⟨hc,?_,hp,he⟩
      rw [List.append_assoc]
      exact ho
  · cases hs

/-- The start of a push keeps the invariant. -/
theorem Inv.push (h : Inv iterate parser selection base total s) (hs : Pipeline.push s = some t) :
    Inv iterate parser selection base total t := by
  unfold Pipeline.push at hs
  split at hs
  · rename_i verdict tick pending hparsing
    obtain ⟨queue,hq,rfl⟩ := Option.map_eq_some_iff.mp hs
    refine ⟨(Spsc.coherent_step h.coherent hq).1,?_,?_,h.engine⟩
    · have ho := h.offers
      rw [State.pending, hparsing] at ho
      rw [Spsc.offered_step hq, ← ho]
      simp [State.pending, Spsc.Label.offer]
    · have hl : Spsc.Label.pushLoadOwn tick ≠ .publishRead := by
        intro hl
        cases hl
      rw [Spsc.popped_step hq hl]
      exact h.progress
  · cases hs

/-- The end of a message keeps the invariant. -/
theorem Inv.parsed (h : Inv iterate parser selection base total s) (hs : Pipeline.parsed s = some t) :
    Inv iterate parser selection base total t := by
  obtain ⟨hc,ho,hp,he⟩ := h
  unfold Pipeline.parsed at hs
  split at hs
  · rename_i verdict hparsing _
    cases hs
    refine ⟨hc,?_,hp,he⟩
    rwa [State.pending, hparsing] at ho
  · cases hs

/-- A tick that is taken goes to the loop body. -/
theorem Inv.popped (h : Inv iterate parser selection base total s) (hs : Pipeline.popped s = some t) :
    Inv iterate parser selection base total t := by
  unfold Pipeline.popped at hs
  split at hs
  · rename_i read write item htick hpc
    obtain ⟨queue,hq,rfl⟩ := Option.map_eq_some_iff.mp hs
    obtain ⟨processed,hp,hrun⟩ := h.progress
    refine ⟨(Spsc.coherent_step h.coherent hq).1,?_,⟨processed,?_,hrun⟩,h.engine⟩
    · have hoffer : (Spsc.Label.publishRead : Spsc.Label MarketTick).offer = none := rfl
      rw [Spsc.offered_step hq, hoffer, Option.toList_none, List.append_nil]
      exact h.offers
    · rw [htick, Option.toList_none, List.append_nil] at hp
      rw [Spsc.popped_publishRead hpc hq, hp]
      rfl
  · cases hs

/-- A pass over the tick in hand goes on with the engine's run. -/
theorem Inv.loopBody (h : Inv iterate parser selection base total s) (hs : Pipeline.loopBody s = some t) :
    Inv iterate parser selection base total t := by
  obtain ⟨hc,ho,⟨processed,hp,hrun⟩,he⟩ := h
  unfold Pipeline.loopBody at hs
  split at hs
  · rename_i tick htick
    obtain ⟨step,hstep,rfl⟩ := Option.map_eq_some_iff.mp hs
    rw [he] at hstep
    refine ⟨hc,ho,⟨processed ++ [tick],?_,StrategyEngine.runTicks_snoc hrun hstep⟩,?_⟩
    · rw [htick] at hp
      simpa using hp
    · rw [StrategyEngine.after_snoc]
  · cases hs

private theorem inPush_silent {l : Spsc.Label MarketTick} (h : inPush l = true) :
    l.offer = none ∧ l ≠ .publishRead := by
  cases l with
  | pushLoadOther | construct | publishWrite =>
    refine ⟨rfl,?_⟩
    intro hl
    cases hl
  | _ => cases h

private theorem inPop_silent {l : Spsc.Label MarketTick} (h : inPop l = true) :
    l.offer = none ∧ l ≠ .publishRead := by
  cases l with
  | popLoadOther | moveOut =>
    refine ⟨rfl,?_⟩
    intro hl
    cases hl
  | _ => cases h

/-- Every step of either thread keeps the invariant. -/
theorem Inv.step (h : Inv iterate parser selection base total s) {l : Label}
    (hs : Pipeline.step iterate parser s l = some t) : Inv iterate parser selection base total t := by
  unfold Pipeline.step at hs
  split_ifs at hs
  cases l with
  | onRead => exact h.onRead hs
  | push => exact h.push hs
  | parsed => exact h.parsed hs
  | popped => exact h.popped hs
  | loopBody => exact h.loopBody hs
  | stop =>
    cases hs
    exact ⟨h.coherent,h.offers,h.progress,h.engine⟩
  | pushes l =>
    simp only [Pipeline.pushes] at hs
    split_ifs at hs with hl
    obtain ⟨queue,hq,rfl⟩ := Option.map_eq_some_iff.mp hs
    exact h.access (inPush_silent hl).1 (inPush_silent hl).2 hq
  | pop =>
    simp only [Pipeline.pop] at hs
    split_ifs at hs
    obtain ⟨queue,hq,rfl⟩ := Option.map_eq_some_iff.mp hs
    have hl : (Spsc.Label.popLoadOwn : Spsc.Label MarketTick) ≠ .publishRead := by
      intro hl
      cases hl
    exact h.access rfl hl hq
  | pops l =>
    simp only [Pipeline.pops] at hs
    split_ifs at hs with hl
    obtain ⟨queue,hq,rfl⟩ := Option.map_eq_some_iff.mp hs
    exact h.access (inPop_silent hl).1 (inPop_silent hl).2 hq

end Steps

/-- Where the ticks processed so far, all of them pushed, come from. -/
theorem Inv.processed {iterate : ByteString → Option Json} {parser : MarketParser}
    {selection : StrategySelection} {base : SizeT} {total : List MarketTick} {s : State}
    (h : Inv iterate parser selection base total s)
    (pushed : ∀ c ∈ s.queue.producer.calls, c.ok = true) :
    (StrategyEngine.construct selection).runTicks (total.take s.steps.length) = some s.steps := by
  obtain ⟨processed,hp,hrun⟩ := h.progress
  have hpopped : s.queue.popped <+: s.queue.pushed := by
    have hi : Spsc.Inv base s.queue.pushed s.queue.popped s.queue := h.coherent
    have ht := List.take_prefix s.queue.popped.length s.queue.pushed
    rwa [← hi.order] at ht
  have hoffered : s.queue.offered <+: total := by
    rw [← h.offers, List.append_assoc]
    exact List.prefix_append _ _
  have hprefix : processed <+: total :=
    (List.prefix_append processed s.tick.toList).trans
      (hp ▸ hpopped.trans ((Spsc.pushed_prefix_offered pushed).trans hoffered))
  rw [StrategyEngine.runTicks_length hrun, ← List.prefix_iff_eq_take.mp hprefix]
  exact hrun

/-- The result of the pipeline does not depend on the schedule: after `k` passes of the
loop the engine and all passes are those of a sequential run over the first `k` ticks of
the payloads, so runs that have come equally far agree. -/
theorem schedule_independent (iterate : ByteString → Option Json) (parser : MarketParser)
    (selection : StrategySelection) (payloads : List ByteString) {base base' : SizeT}
    {schedule schedule' : List Label} {s s' : State}
    (run : exec (step iterate parser) (init selection base payloads) schedule = some s)
    (pushed : ∀ c ∈ s.queue.producer.calls, c.ok = true)
    (run' : exec (step iterate parser) (init selection base' payloads) schedule' = some s')
    (pushed' : ∀ c ∈ s'.queue.producer.calls, c.ok = true) :
    (StrategyEngine.construct selection).runTicks
        ((payloads.flatMap (payloadTicks iterate parser)).take s.steps.length) = some s.steps ∧
      s.engine = (StrategyEngine.construct selection).after s.steps ∧
      (s'.steps.length = s.steps.length → s'.steps = s.steps ∧ s'.engine = s.engine) := by
  have h := exec_invariant (fun _ _ _ h hs => Inv.step h hs) run (Inv.initial payloads)
  have h' := exec_invariant (fun _ _ _ h hs => Inv.step h hs) run' (Inv.initial payloads)
  refine ⟨h.processed pushed,h.engine,?_⟩
  intro hk
  have hsteps : s'.steps = s.steps := by
    have hrun := h'.processed pushed'
    rw [hk, h.processed pushed] at hrun
    exact (Option.some.inj hrun).symm
  exact ⟨hsteps,by rw [h'.engine, hsteps, h.engine]⟩

def firstText : ByteString :=
  ascii "\x7b\"bids\":[[\"0.40\",\"10\"]],\"asks\":[[\"0.60\",\"10\"]]\x7d"

def secondText : ByteString := ascii "\x7b\"bids\":[[\"0.58\",\"10\"]]\x7d"

def feed (payload : ByteString) : Option Json :=
  (Json.only firstText (.object [some (ascii "bids",.array [pair "0.40" "10"]),
    some (ascii "asks",.array [pair "0.60" "10"])]) payload).or
  (Json.only secondText (.object [some (ascii "bids",.array [pair "0.58" "10"])]) payload)

def pushCall (published : Nat) : List Label :=
  [.push,.pushes (.pushLoadOther published),.pushes .construct,.pushes .publishWrite]

def popPass (published : Nat) : List Label :=
  [.pop,.pops (.popLoadOther published),.pops .moveOut,.popped,.loopBody]

/-- The strategy takes every tick as soon as it is there, in the middle of a message. -/
def eagerSchedule : List Label := [.onRead] ++ pushCall 0 ++ popPass 1 ++ pushCall 0 ++ popPass 2 ++
  [.parsed,.onRead] ++ pushCall 0 ++ popPass 3

/-- The strategy starts when both messages are in the queue. -/
def lazySchedule : List Label := [.onRead] ++ pushCall 0 ++ pushCall 0 ++ [.parsed,.onRead] ++ pushCall 0 ++
  popPass 1 ++ popPass 3 ++ popPass 3

/-- What a schedule of the two messages comes to. -/
def outcome (schedule : List Label) : Option (List (Option Fill) × Bool) :=
  (exec (step feed (construct true)) (init .momentum 0 [firstText,secondText]) schedule).map fun s =>
    (s.steps.map Step.fill, s.queue.producer.calls.all Spsc.PushCall.ok)

theorem eager_lazy_agree : ∃ s s',
    exec (step feed (construct true)) (init .momentum 0 [firstText,secondText]) eagerSchedule = some s ∧
    exec (step feed (construct true)) (init .momentum 0 [firstText,secondText]) lazySchedule = some s' ∧
    s.steps.map Step.fill = [none,none,some ⟨10,3/5⟩] ∧ s'.steps = s.steps ∧ s'.engine = s.engine := by
  have he : outcome eagerSchedule = some ([none,none,some ⟨10,3/5⟩], true) := by decide +kernel
  have hl : outcome lazySchedule = some ([none,none,some ⟨10,3/5⟩], true) := by decide +kernel
  obtain ⟨s,hs,ho⟩ := Option.map_eq_some_iff.mp he
  obtain ⟨s',hs',ho'⟩ := Option.map_eq_some_iff.mp hl
  obtain ⟨hf,hok⟩ := Prod.mk.inj ho
  obtain ⟨hf',hok'⟩ := Prod.mk.inj ho'
  have hk : s'.steps.length = s.steps.length := by
    have := congrArg List.length (hf'.trans hf.symm)
    rwa [List.length_map, List.length_map] at this
  exact ⟨s,s',hs,hs',hf,(schedule_independent feed (construct true) .momentum [firstText,secondText]
    hs (List.all_eq_true.mp hok) hs' (List.all_eq_true.mp hok')).2.2 hk⟩

end PredictionMarket.Pipeline

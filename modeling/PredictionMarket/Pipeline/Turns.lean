import PredictionMarket.Pipeline.Determinism
import PredictionMarket.Queue.SpscAlone

/-! Runs in which one thread works at a time. The network thread hands over whole messages and
loses what finds no room; the strategy thread catches up. Taking turns they trade a feed of any
length to its end, if each of its messages fits into the queue. -/
namespace PredictionMarket.Pipeline
open Queue Market Strategy MarketParser Foundation.Transition

/-- Neither thread is inside of a call, and none has been stopped. -/
structure State.Resting (base : SizeT) (s : State) : Prop where
  coherent : Spsc.Coherent base s.queue
  producer : s.queue.producer.pc = .idle
  consumer : s.queue.consumer.pc = .idle
  alive : s.aborted = false
  running : s.running = true
  tick : s.tick = none

variable {iterate : ByteString → Option Json} {parser : MarketParser} {base : SizeT} {s : State}

section Network

variable (iterate parser) in
private theorem exec_pushes (halive : s.aborted = false) {accesses : List (Spsc.Label MarketTick)}
    (hinside : ∀ k ∈ accesses, k.offer = none ∧ k.ofConsumer = false) {queue : Spsc.State kTickQueueSize MarketTick}
    (hs : exec Spsc.step s.queue accesses = some queue) :
    exec (step iterate parser) s (accesses.map .pushes) = some { s with queue } := by
  induction accesses generalizing s with
  | nil =>
    cases hs
    rfl
  | cons k accesses ih =>
    rw [List.forall_mem_cons] at hinside
    obtain ⟨next,hk,hrest⟩ := exec_cons_some hs
    have hpush : inPush k = true := by
      cases k with
      | pushLoadOwn => cases hinside.1.1
      | pushLoadOther | construct | publishWrite => rfl
      | popLoadOwn | popLoadOther | moveOut | publishRead => cases hinside.1.2
    have hstep : step iterate parser s (.pushes k) = some { s with queue := next } := by
      rw [step, if_neg (by rw [halive]; exact Bool.false_ne_true)]
      simp only [pushes, if_pos hpush, hk, Option.map_some]
    rw [List.map_cons, exec_cons, hstep, Option.bind_some]
    exact ih (s := { s with queue := next }) halive hinside.2 hrest

variable (iterate parser) in
private theorem exec_pending (halive : s.aborted = false) (hc : Spsc.Coherent base s.queue)
    (hidle : s.queue.producer.pc = .idle) {verdict : Verdict} {pending : List MarketTick}
    (hp : s.parsing = some ⟨verdict,pending⟩) : ∃ schedule queue,
      exec (step iterate parser) s schedule = some { s with queue, parsing := some ⟨verdict,[]⟩ } ∧
      Spsc.PushedAlone base s.queue queue pending := by
  induction pending generalizing s with
  | nil =>
    refine ⟨[],s.queue,?_,.none hc hidle⟩
    rw [exec_nil, ← hp]
  | cons tick pending ih =>
    obtain ⟨accesses,queue,hinside,hrun,hpushed⟩ := Spsc.push_alone hc hidle tick
    obtain ⟨begun,hbegin,hrest⟩ := exec_cons_some hrun
    have hpush : step iterate parser s .push =
        some { s with queue := begun, parsing := some ⟨verdict,pending⟩ } := by
      rw [step, if_neg (by rw [halive]; exact Bool.false_ne_true)]
      simp only [push, hp, hbegin, Option.map_some]
    have hcall : exec (step iterate parser) s (.push :: accesses.map .pushes) =
        some { s with queue, parsing := some ⟨verdict,pending⟩ } := by
      rw [exec_cons, hpush, Option.bind_some]
      exact exec_pushes iterate parser (s := { s with queue := begun, parsing := some ⟨verdict,pending⟩ }) halive
        hinside hrest
    obtain ⟨schedule,last,hschedule,hlast⟩ := ih (s := { s with queue, parsing := some ⟨verdict,pending⟩ }) halive
      hpushed.coherent hpushed.idle rfl
    refine ⟨.push :: accesses.map .pushes ++ schedule,last,?_,hpushed.trans hlast⟩
    rw [exec_append, hcall, Option.bind_some, hschedule]

/-- What has changed when the network thread has handed over these ticks. -/
structure Delivered (base : SizeT) (s t : State) (rest : List ByteString) (ticks : List MarketTick) : Prop where
  resting : t.Resting base
  between : t.parsing = none
  inbox : t.inbox = rest
  engine : t.engine = s.engine
  steps : t.steps = s.steps
  queue : Spsc.PushedAlone base s.queue t.queue ticks

/-- A message is handed over while the strategy stands still. -/
theorem message_alone (h : s.Resting base) (hbetween : s.parsing = none) {payload : ByteString}
    {rest : List ByteString} (hinbox : s.inbox = payload :: rest)
    (parses : (parseTick record iterate parser payload []).1 ≠ .terminated) : ∃ schedule t,
      exec (step iterate parser) s schedule = some t ∧
      Delivered base s t rest (payloadTicks iterate parser payload) := by
  obtain ⟨hcoherent,hproducer,hconsumer,halive,hrunning,htick⟩ := h
  have hlive : ¬ s.aborted = true := by rw [halive]; exact Bool.false_ne_true
  by_cases hlen : payload.length = 0
  · have hread : step iterate parser s .onRead = some { s with inbox := rest } := by
      rw [step, if_neg hlive]
      simp only [onRead, hbetween, hinbox, if_pos hlen]
    refine ⟨[.onRead],_,(exec_single _ _ _).trans hread,
      ⟨hcoherent,hproducer,hconsumer,halive,hrunning,htick⟩,hbetween,rfl,rfl,rfl,?_⟩
    rw [payloadTicks_empty hlen]
    exact .none hcoherent hproducer
  · have hread : step iterate parser s .onRead = some { s with
        inbox := rest
        parsing := some ⟨(parseTick record iterate parser payload []).1,payloadTicks iterate parser payload⟩ } := by
      rw [step, if_neg hlive]
      simp only [onRead, hbetween, hinbox, if_neg hlen]
      rfl
    obtain ⟨schedule,queue,hschedule,hpushed⟩ := exec_pending iterate parser
      (s := { s with
        inbox := rest
        parsing := some ⟨(parseTick record iterate parser payload []).1,payloadTicks iterate parser payload⟩ })
      halive hcoherent hproducer rfl
    have hparsed : step iterate parser { s with
        queue
        inbox := rest
        parsing := some ⟨(parseTick record iterate parser payload []).1,[]⟩ } .parsed =
        some { s with
          queue
          inbox := rest
          parsing := none
          aborted := false } := by
      rw [step, if_neg hlive]
      simp only [parsed, hpushed.idle, decide_eq_false parses]
    have hall : exec (step iterate parser) s (.onRead :: schedule ++ [.parsed]) = some { s with
        queue
        inbox := rest
        parsing := none
        aborted := false } := by
      rw [exec_append, exec_cons, hread, Option.bind_some, hschedule, Option.bind_some, exec_single]
      exact hparsed
    refine ⟨_,_,hall,⟨hpushed.coherent,hpushed.idle,?_,rfl,hrunning,htick⟩,rfl,rfl,rfl,rfl,hpushed⟩
    change queue.consumer.pc = .idle
    rw [hpushed.consumer]
    exact hconsumer

/-- Deliveries one after the other are one delivery. -/
theorem Delivered.trans {s t u : State} {rest last : List ByteString} {ticks more : List MarketTick}
    (h : Delivered base s t rest ticks) (h' : Delivered base t u last more) :
    Delivered base s u last (ticks ++ more) :=
  ⟨h'.resting,h'.between,h'.inbox,h'.engine.trans h.engine,h'.steps.trans h.steps,h.queue.trans h'.queue⟩

/-- Messages are handed over while the strategy stands still. -/
theorem messages_alone (h : s.Resting base) (hbetween : s.parsing = none) {payloads rest : List ByteString}
    (hinbox : s.inbox = payloads ++ rest)
    (parses : ∀ payload ∈ payloads, (parseTick record iterate parser payload []).1 ≠ .terminated) :
    ∃ schedule t, exec (step iterate parser) s schedule = some t ∧
      Delivered base s t rest (payloads.flatMap (payloadTicks iterate parser)) := by
  induction payloads generalizing s with
  | nil => exact ⟨[],s,rfl,h,hbetween,hinbox,rfl,rfl,.none h.coherent h.producer⟩
  | cons payload payloads ih =>
    rw [List.forall_mem_cons] at parses
    obtain ⟨schedule,t,hschedule,ht⟩ := message_alone h hbetween hinbox parses.1
    obtain ⟨later,u,hlater,hu⟩ := ih ht.resting ht.between ht.inbox parses.2
    refine ⟨schedule ++ later,u,?_,ht.trans hu⟩
    rw [exec_append, hschedule, Option.bind_some, hlater]

end Network

/-- What has changed when the strategy has taken these ticks and made its passes over them. -/
structure Taken (base : SizeT) (s t : State) (ticks : List MarketTick) (passes : List Step) : Prop where
  resting : t.Resting base
  parsing : t.parsing = s.parsing
  inbox : t.inbox = s.inbox
  engine : t.engine = s.engine.after passes
  steps : t.steps = s.steps ++ passes
  producer : t.queue.producer = s.queue.producer
  popped : t.queue.popped = s.queue.popped ++ ticks

section Strategy

private theorem next_item {q u : Spsc.State kTickQueueSize MarketTick} (hu : Spsc.Coherent base u)
    (hproducer : u.producer = q.producer) {item tick : MarketTick} (hpopped : u.popped = q.popped ++ [item])
    {waiting : List MarketTick} (hwaiting : q.pushed = q.popped ++ tick :: waiting) : item = tick := by
  have horder := Spsc.Inv.order hu
  have hpushed : u.pushed = q.pushed := by rw [Spsc.State.pushed, hproducer, Spsc.State.pushed]
  rw [hpushed, hwaiting, hpopped, List.length_append, List.take_length_add_append] at horder
  exact List.singleton_inj.mp (List.append_cancel_left horder)

variable (iterate parser) in
/-- A pass over the next tick in the queue. -/
theorem pass_alone (h : s.Resting base) {tick : MarketTick} {waiting : List MarketTick}
    (hwaiting : s.queue.pushed = s.queue.popped ++ tick :: waiting) {pass : Step}
    (hbody : s.engine.loopBody tick = some pass) : ∃ schedule t,
      exec (step iterate parser) s schedule = some t ∧ Taken base s t [tick] [pass] := by
  obtain ⟨hcoherent,hproducer,hconsumer,halive,hrunning,htick⟩ := h
  have hlive : ¬ s.aborted = true := by rw [halive]; exact Bool.false_ne_true
  have hlt : s.queue.popped.length < s.queue.pushed.length := by
    rw [hwaiting, List.length_append, List.length_cons]
    omega
  obtain ⟨moved,queue,item,read,write,hrun,hpc,hpublish,hqueue,hidle,hsame,hpopped⟩ :=
    Spsc.pop_alone hcoherent hconsumer hlt
  obtain rfl := next_item hqueue hsame hpopped hwaiting
  obtain ⟨first,hfirst,hrest⟩ := exec_cons_some hrun
  obtain ⟨second,hsecond,hthird⟩ := exec_cons_some hrest
  rw [exec_single] at hthird
  have hpop : step iterate parser s .pop = some { s with queue := first } := by
    rw [step, if_neg hlive]
    simp only [pop, hrunning, htick, Option.isNone_none, and_self, if_true, hfirst, Option.map_some]
  have hload : step iterate parser { s with queue := first } (.pops (.popLoadOther s.queue.pushed.length)) =
      some { s with queue := second } := by
    rw [step, if_neg hlive]
    simp only [pops, inPop, if_true, hsecond, Option.map_some]
  have hmove : step iterate parser { s with queue := second } (.pops .moveOut) = some { s with queue := moved } := by
    rw [step, if_neg hlive]
    simp only [pops, inPop, if_true, hthird, Option.map_some]
  have htake : step iterate parser { s with queue := moved } .popped = some { s with queue, tick := some item } := by
    rw [step, if_neg hlive]
    simp only [popped, htick, hpc, hpublish, Option.map_some]
  have hpass : step iterate parser { s with queue, tick := some item } .loopBody =
      some { s with queue, tick := none, engine := pass.engine, steps := s.steps ++ [pass] } := by
    rw [step, if_neg hlive]
    simp only [loopBody, hbody, Option.map_some]
  have hall : exec (step iterate parser) s
      [.pop,.pops (.popLoadOther s.queue.pushed.length),.pops .moveOut,.popped,.loopBody] =
        some { s with queue, tick := none, engine := pass.engine, steps := s.steps ++ [pass] } := by
    rw [exec_cons, hpop, Option.bind_some, exec_cons, hload, Option.bind_some, exec_cons, hmove, Option.bind_some,
      exec_cons, htake, Option.bind_some, exec_single, hpass]
  refine ⟨_,_,hall,⟨hqueue,?_,hidle,halive,hrunning,rfl⟩,rfl,rfl,rfl,rfl,hsame,hpopped⟩
  change queue.producer.pc = .idle
  rw [hsame]
  exact hproducer

variable (iterate parser) in
/-- The strategy takes what is in the queue while the network thread stands still. -/
theorem passes_alone (h : s.Resting base) {waiting : List MarketTick}
    (hwaiting : s.queue.pushed = s.queue.popped ++ waiting) {passes : List Step}
    (hrun : s.engine.runTicks waiting = some passes) : ∃ schedule t,
      exec (step iterate parser) s schedule = some t ∧ Taken base s t waiting passes := by
  induction waiting generalizing s passes with
  | nil =>
    cases hrun
    exact ⟨[],s,rfl,h,rfl,rfl,rfl,(List.append_nil _).symm,rfl,(List.append_nil _).symm⟩
  | cons tick waiting ih =>
    obtain ⟨pass,hbody,hrest⟩ := Option.bind_eq_some_iff.mp hrun
    obtain ⟨rest,hpasses,rfl⟩ := Option.map_eq_some_iff.mp hrest
    obtain ⟨schedule,t,hschedule,ht⟩ := pass_alone iterate parser h hwaiting hbody
    have hengine : t.engine = pass.engine := ht.engine
    have hleft : t.queue.pushed = t.queue.popped ++ waiting := by
      rw [Spsc.State.pushed, ht.producer, ← Spsc.State.pushed, hwaiting, ht.popped, List.append_assoc,
        List.singleton_append]
    obtain ⟨later,u,hlater,hu⟩ := ih ht.resting hleft (hengine ▸ hpasses)
    refine ⟨schedule ++ later,u,?_,hu.resting,hu.parsing.trans ht.parsing,hu.inbox.trans ht.inbox,?_,?_,
      hu.producer.trans ht.producer,?_⟩
    · rw [exec_append, hschedule, Option.bind_some, hlater]
    · rw [hu.engine, hengine, StrategyEngine.after_cons]
    · rw [hu.steps, ht.steps, List.append_assoc, List.singleton_append]
    · rw [hu.popped, ht.popped, List.append_assoc, List.singleton_append]

end Strategy

/-- Before either thread has done anything. -/
theorem resting_init (selection : StrategySelection) (base : SizeT) (payloads : List ByteString) :
    (init selection base payloads).Resting base :=
  ⟨Spsc.coherent_init base,rfl,rfl,rfl,rfl,rfl⟩

/-- What gets through of a burst of messages that finds the queue empty. -/
def kept (iterate : ByteString → Option Json) (parser : MarketParser) (burst : List ByteString) : List MarketTick :=
  (burst.flatMap (payloadTicks iterate parser)).take kTickQueueSize.value

/-- The calls of `push` that a burst into the empty queue makes, and what they return. -/
def attempted (iterate : ByteString → Option Json) (parser : MarketParser) (burst : List ByteString) :
    List (MarketTick × Bool) :=
  Spsc.outcomes kTickQueueSize.value (burst.flatMap (payloadTicks iterate parser))

/-- What has changed when bursts have been handed over and traded on, one after the other. -/
structure Traded (iterate : ByteString → Option Json) (parser : MarketParser) (s t : State)
    (bursts : List (List ByteString)) (passes : List Step) : Prop where
  between : t.parsing = none
  inbox : t.inbox = []
  steps : t.steps = s.steps ++ passes
  pushed : t.queue.pushed = s.queue.pushed ++ bursts.flatMap (kept iterate parser)
  calls : ∃ calls, t.queue.producer.calls = s.queue.producer.calls ++ calls ∧
    calls.map (fun c => (c.item,c.ok)) = bursts.flatMap (attempted iterate parser)

private theorem bursts_taken (h : s.Resting base) (hbetween : s.parsing = none)
    (hcaught : s.queue.popped = s.queue.pushed) {bursts : List (List ByteString)} (hinbox : s.inbox = bursts.flatten)
    (parses : ∀ payload ∈ bursts.flatten, (parseTick record iterate parser payload []).1 ≠ .terminated)
    {passes : List Step} (hrun : s.engine.runTicks (bursts.flatMap (kept iterate parser)) = some passes) :
    ∃ schedule t, exec (step iterate parser) s schedule = some t ∧ Traded iterate parser s t bursts passes := by
  -- Each burst is handed over whole and traded on before the next one.
  induction bursts generalizing s passes with
  | nil =>
    cases hrun
    exact ⟨[],s,rfl,hbetween,hinbox,(List.append_nil _).symm,(List.append_nil _).symm,[],(List.append_nil _).symm,rfl⟩
  | cons burst bursts ih =>
    rw [List.flatten_cons] at hinbox parses
    obtain ⟨hburst,hbursts⟩ := List.forall_mem_append.mp parses
    obtain ⟨first,rest,hfirst,hrest,rfl⟩ := StrategyEngine.runTicks_append_cases hrun
    have hroom : s.queue.room = kTickQueueSize.value := by rw [Spsc.State.room, hcaught, Nat.add_sub_cancel_left]
    obtain ⟨handing,t,hhanding,ht⟩ := messages_alone h hbetween hinbox hburst
    have hpushed : t.queue.pushed = s.queue.pushed ++ kept iterate parser burst := by
      rw [ht.queue.pushed, hroom, kept]
    have hwaiting : t.queue.pushed = t.queue.popped ++ kept iterate parser burst := by
      rw [hpushed, ht.queue.popped, hcaught]
    obtain ⟨trading,u,htrading,hu⟩ := passes_alone iterate parser ht.resting hwaiting (ht.engine ▸ hfirst)
    have hsame : u.queue.pushed = t.queue.pushed := by
      rw [Spsc.State.pushed, hu.producer, ← Spsc.State.pushed]
    have hempty : u.queue.popped = u.queue.pushed := by rw [hu.popped, ← hwaiting, hsame]
    have hengine : u.engine = s.engine.after first := by rw [hu.engine, ht.engine]
    obtain ⟨later,v,hlater,hv⟩ := ih hu.resting (hu.parsing.trans ht.between) hempty (hu.inbox.trans ht.inbox) hbursts
      (hengine ▸ hrest)
    obtain ⟨calls,hcalls,hitems⟩ := ht.queue.calls
    obtain ⟨more,hmore,hothers⟩ := hv.calls
    refine ⟨handing ++ (trading ++ later),v,?_,hv.between,hv.inbox,?_,?_,calls ++ more,?_,?_⟩
    · rw [exec_append, hhanding, Option.bind_some, exec_append, htrading, Option.bind_some, hlater]
    · rw [hv.steps, hu.steps, ht.steps, List.append_assoc]
    · rw [hv.pushed, hsame, hpushed, List.flatMap_cons, List.append_assoc]
    · rw [hmore, hu.producer, hcalls, List.append_assoc]
    · rw [List.map_append, hitems, hothers, hroom, List.flatMap_cons, attempted]

/-- Every feed can be handed over in bursts that are traded on one by one, if what gets through
overflows nothing. -/
theorem bursts_traded (iterate : ByteString → Option Json) (parser : MarketParser) (selection : StrategySelection)
    (base : SizeT) (bursts : List (List ByteString))
    (parses : ∀ payload ∈ bursts.flatten, (parseTick record iterate parser payload []).1 ≠ .terminated)
    {passes : List Step}
    (hrun : (StrategyEngine.construct selection).runTicks (bursts.flatMap (kept iterate parser)) = some passes) :
    ∃ schedule s, exec (step iterate parser) (init selection base bursts.flatten) schedule = some s ∧
      Traded iterate parser (init selection base bursts.flatten) s bursts passes :=
  bursts_taken (resting_init selection base bursts.flatten) rfl rfl rfl parses hrun

/-- Every feed whose messages fit into the queue one by one, and whose ticks overflow nothing, can be
traded to its end without a tick refused. -/
theorem feed_traded (iterate : ByteString → Option Json) (parser : MarketParser) (selection : StrategySelection)
    (base : SizeT) {payloads : List ByteString}
    (parses : ∀ payload ∈ payloads, (parseTick record iterate parser payload []).1 ≠ .terminated)
    (fits : ∀ payload ∈ payloads, (payloadTicks iterate parser payload).length ≤ kTickQueueSize.value)
    {passes : List Step} (hrun : (StrategyEngine.construct selection).runTicks
      (payloads.flatMap (payloadTicks iterate parser)) = some passes) :
    ∃ schedule s, exec (step iterate parser) (init selection base payloads) schedule = some s ∧ s.inbox = [] ∧
      s.parsing = none ∧ s.steps = passes ∧ ∀ c ∈ s.queue.producer.calls, c.ok = true := by
  have hflat : (payloads.map fun payload => [payload]).flatten = payloads := by
    rw [← List.flatMap_def, List.flatMap_singleton']
  have hkept : ∀ payload ∈ payloads, kept iterate parser [payload] = payloadTicks iterate parser payload := by
    intro payload hmem
    rw [kept, List.flatMap_singleton, List.take_of_length_le (fits payload hmem)]
  obtain ⟨schedule,s,hs,hdone⟩ := bursts_traded iterate parser selection base (payloads.map fun payload => [payload])
    (hflat.symm ▸ parses) (by rw [List.flatMap_map, List.flatMap_congr hkept]; exact hrun)
  rw [hflat] at hs hdone
  refine ⟨schedule,s,hs,hdone.inbox,hdone.between,hdone.steps,fun c hc => ?_⟩
  obtain ⟨calls,hcalls,hitems⟩ := hdone.calls
  have hmade : c ∈ calls := by
    rw [hcalls] at hc
    exact hc
  have hpair : (c.item,c.ok) ∈ calls.map fun c => (c.item,c.ok) := List.mem_map_of_mem hmade
  rw [hitems, List.flatMap_map] at hpair
  obtain ⟨payload,hmem,htried⟩ := List.mem_flatMap.mp hpair
  rw [attempted, List.flatMap_singleton, Spsc.mem_outcomes] at htried
  by_contra hok
  rw [if_neg hok, List.drop_eq_nil_of_le (fits payload hmem)] at htried
  exact List.not_mem_nil htried

end PredictionMarket.Pipeline

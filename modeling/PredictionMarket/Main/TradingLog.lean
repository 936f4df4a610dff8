import PredictionMarket.Main.Process

/-! What the file holds when `main` returns: the name of the strategy and then the events of
the passes over the ticks that were taken from the queue, whatever the schedule was. -/
namespace PredictionMarket.Main
open Queue Market Strategy MarketParser Foundation.Transition

section Frames
variable {iterate : ByteString → Option Json} {parser : MarketParser}

/-- The steps of the network thread. -/
def ofNetwork : Pipeline.Label → Bool
  | .onRead | .push | .pushes _ | .parsed => true
  | .pop | .pops _ | .popped | .loopBody | .stop => false

/-- The network thread leaves the strategy thread alone. -/
theorem network_frame {s t : Pipeline.State} {l : Pipeline.Label} (hl : ofNetwork l = true)
    (hs : Pipeline.step iterate parser s l = some t) :
    t.steps = s.steps ∧ t.tick = s.tick ∧ t.running = s.running := by
  unfold Pipeline.step at hs
  split_ifs at hs
  cases l with
  | pop | pops | popped | loopBody | stop => cases hl
  | onRead =>
    simp only [Pipeline.onRead] at hs
    split at hs
    · split_ifs at hs <;> cases hs <;> exact ⟨rfl,rfl,rfl⟩
    · cases hs
  | push =>
    simp only [Pipeline.push] at hs
    split at hs
    · obtain ⟨_,_,rfl⟩ := Option.map_eq_some_iff.mp hs
      exact ⟨rfl,rfl,rfl⟩
    · cases hs
  | pushes =>
    simp only [Pipeline.pushes] at hs
    split_ifs at hs
    obtain ⟨_,_,rfl⟩ := Option.map_eq_some_iff.mp hs
    exact ⟨rfl,rfl,rfl⟩
  | parsed =>
    simp only [Pipeline.parsed] at hs
    split at hs
    · cases hs
      exact ⟨rfl,rfl,rfl⟩
    · cases hs

/-- Passes are made by `loopBody` only. -/
theorem steps_step {s t : Pipeline.State} {l : Pipeline.Label} (hl : l ≠ .loopBody)
    (hs : Pipeline.step iterate parser s l = some t) : t.steps = s.steps := by
  cases l with
  | onRead | push | pushes | parsed => exact (network_frame rfl hs).1
  | loopBody => exact absurd rfl hl
  | stop =>
    unfold Pipeline.step at hs
    split_ifs at hs
    cases hs
    rfl
  | pop | pops | popped =>
    unfold Pipeline.step at hs
    split_ifs at hs
    simp only [Pipeline.pop, Pipeline.pops, Pipeline.popped] at hs
    split at hs
    · obtain ⟨_,_,rfl⟩ := Option.map_eq_some_iff.mp hs
      rfl
    · cases hs

private theorem steps_loopBody {s t : Pipeline.State} (hs : Pipeline.step iterate parser s .loopBody = some t) :
    ∃ step, t.steps = s.steps ++ [step] := by
  unfold Pipeline.step at hs
  split_ifs at hs
  simp only [Pipeline.loopBody] at hs
  split at hs
  · obtain ⟨step,_,rfl⟩ := Option.map_eq_some_iff.mp hs
    exact ⟨step,rfl⟩
  · cases hs

end Frames

/-- The call that `main` makes before the threads start. -/
def announcement (selection : StrategySelection) : Logger.Call := .logActiveStrategy (strategyName selection)

/-- A call that logs this event of a pass, at some time. -/
def Logs (event : LogEvent) (c : Logger.Call) : Prop :=
  ∃ timestampUs latencyUs, logCall event timestampUs latencyUs = some c

namespace MainPc

/-- The calls that `main` has begun here. -/
def announced (selection : StrategySelection) : MainPc → List Logger.Call
  | .constructing => []
  | _ => [announcement selection]

/-- The strategy thread has been joined. -/
def joined : MainPc → Bool
  | .strategyJoined | .networkJoined | .destroying | .returned => true
  | _ => false

variable {pc : MainPc}

private theorem announced_of_ne {selection : StrategySelection} (h : pc ≠ .constructing) :
    pc.announced selection = [announcement selection] := by
  cases pc <;> first | rfl | exact absurd rfl h

end MainPc

/-- What the threads have come to, and what `main` relies on where it stands. -/
structure Inv (iterate : ByteString → Option Json) (parser : MarketParser) (selection : StrategySelection)
    (ticks logs : SizeT) (total : List MarketTick) (s : State) : Prop where
  pipeline : Pipeline.Inv iterate parser selection ticks total s.pipeline
  logger : Logger.Inv logs s.logger
  /-- The calls made are the announcement and the events of the passes, as far as they are logged. -/
  calls : ∃ logged calls, s.pipeline.steps.flatMap Step.events = logged ++ s.unlogged ∧
    List.Forall₂ Logs logged calls ∧ s.logger.calls = s.main.announced selection ++ calls
  unstarted : s.main.started = false → s.pipeline.steps = [] ∧ s.strategyDone = false
  finished : s.strategyDone = true → s.pipeline.tick = none ∧ s.logged = true
  joined : s.main.joined = true → s.strategyDone = true
  returned : s.main = .returned → s.logger.destroyed = true

section Steps
variable {iterate : ByteString → Option Json} {parser : MarketParser} {selection : StrategySelection}
  {ticks logs : SizeT} {total : List MarketTick} {s t : State}

/-- Everything is logged when no event waits and no call is in progress. -/
theorem State.logged_iff (s : State) : s.logged = true ↔ s.unlogged = [] ∧ s.logger.call = none := by
  simp [State.logged]

/-- The invariant holds when the process starts. -/
theorem Inv.initial (payloads : List ByteString) : Inv iterate parser selection ticks logs
    (payloads.flatMap (payloadTicks iterate parser)) (init selection ticks logs payloads) where
  pipeline := .initial payloads
  logger := .initial logs
  calls := ⟨[],[],rfl,.nil,rfl⟩
  unstarted := fun _ => ⟨rfl,rfl⟩
  finished := nofun
  joined := nofun
  returned := nofun

private theorem Inv.moves (h : Inv iterate parser selection ticks logs total s) {next : MainPc}
    (hannounced : next.announced selection = s.main.announced selection)
    (hstarted : next.started = false → s.main.started = false)
    (hjoined : next.joined = true → s.strategyDone = true) (hreturned : next ≠ .returned) :
    Inv iterate parser selection ticks logs total { s with main := next } where
  pipeline := h.pipeline
  logger := h.logger
  calls := by
    obtain ⟨logged,calls,hevents,hlogs,hcalls⟩ := h.calls
    exact ⟨logged,calls,hevents,hlogs,hcalls.trans (congrArg (· ++ calls) hannounced.symm)⟩
  unstarted := fun hs => h.unstarted (hstarted hs)
  finished := h.finished
  joined := hjoined
  returned := fun hr => absurd hr hreturned

private theorem Inv.silent (h : Inv iterate parser selection ticks logs total s) {logger : Logger.State}
    (hlogger : Logger.Inv logs logger) (hcall : logger.call = s.logger.call)
    (hresults : logger.results = s.logger.results)
    (hdestroyed : s.logger.destroyed = true → logger.destroyed = true) :
    Inv iterate parser selection ticks logs total { s with logger } where
  pipeline := h.pipeline
  logger := hlogger
  calls := by
    obtain ⟨logged,calls,hevents,hlogs,hcalls⟩ := h.calls
    refine ⟨logged,calls,hevents,hlogs,?_⟩
    rw [← hcalls, Logger.State.calls, hcall, hresults, Logger.State.calls]
  unstarted := h.unstarted
  finished := by
    intro hf
    obtain ⟨htick,hlogged⟩ := h.finished hf
    refine ⟨htick,?_⟩
    rw [State.logged_iff] at hlogged ⊢
    exact ⟨hlogged.1,hcall.trans hlogged.2⟩
  joined := h.joined
  returned := fun hr => hdestroyed (h.returned hr)

private theorem Inv.logActiveStrategy (h : Inv iterate parser selection ticks logs total s)
    (hs : Main.logActiveStrategy selection s = some t) : Inv iterate parser selection ticks logs total t := by
  unfold Main.logActiveStrategy at hs
  split at hs
  · rename_i hmain
    obtain ⟨logger,hl,rfl⟩ := Option.map_eq_some_iff.mp hs
    have hstep : Logger.step s.logger (.call (announcement selection)) = some logger := hl
    have hun := h.unstarted (by rw [hmain]; rfl)
    refine ⟨h.pipeline,h.logger.step hstep,?_,fun _ => hun,?_,nofun,nofun⟩
    · obtain ⟨logged,calls,hevents,hlogs,hcalls⟩ := h.calls
      have hnone : logged = [] := by
        rw [hun.1] at hevents
        exact (List.append_eq_nil_iff.mp hevents.symm).1
      cases hnone
      cases hlogs
      refine ⟨[],[],hevents,.nil,?_⟩
      rw [Logger.calls_step hstep, hcalls, hmain]
      rfl
    · intro hf
      rw [hun.2] at hf
      cases hf
  · cases hs

private theorem Inv.start (h : Inv iterate parser selection ticks logs total s) (hs : Main.start s = some t) :
    Inv iterate parser selection ticks logs total t := by
  unfold Main.start at hs
  split at hs
  · rename_i hmain _
    cases hs
    exact h.moves (by rw [hmain]; rfl) nofun nofun nofun
  · cases hs

private theorem Inv.pipes (h : Inv iterate parser selection ticks logs total s) {l : Pipeline.Label}
    {pipeline : Pipeline.State} (hs : Pipeline.step iterate parser s.pipeline l = some pipeline)
    (hl : l ≠ .loopBody) (htick : s.strategyDone = true → pipeline.tick = s.pipeline.tick) :
    Inv iterate parser selection ticks logs total { s with pipeline } where
  pipeline := h.pipeline.step hs
  logger := h.logger
  calls := by
    rw [steps_step hl hs]
    exact h.calls
  unstarted := by
    rw [steps_step hl hs]
    exact h.unstarted
  finished := fun hf => ⟨(htick hf).trans (h.finished hf).1,(h.finished hf).2⟩
  joined := h.joined
  returned := h.returned

private theorem Inv.loopBody (h : Inv iterate parser selection ticks logs total s)
    (hs : Main.pipeline iterate parser s .loopBody = some t) : Inv iterate parser selection ticks logs total t := by
  simp only [Main.pipeline] at hs
  split_ifs at hs with hc
  obtain ⟨hstarted,hdone,hlogged⟩ := hc
  obtain ⟨pipeline,hp,rfl⟩ := Option.map_eq_some_iff.mp hs
  obtain ⟨step,hsteps⟩ := steps_loopBody hp
  refine ⟨h.pipeline.step hp,h.logger,?_,?_,?_,h.joined,h.returned⟩
  · obtain ⟨logged,calls,hevents,hlogs,hcalls⟩ := h.calls
    rw [((State.logged_iff s).mp hlogged).1, List.append_nil] at hevents
    refine ⟨logged,calls,?_,hlogs,hcalls⟩
    rw [hsteps, List.flatMap_append, hevents, List.drop_left]
  · intro hn
    rw [hstarted] at hn
    cases hn
  · intro hf
    rw [hdone] at hf
    cases hf

private theorem Inv.pipelineStep (h : Inv iterate parser selection ticks logs total s) {l : Pipeline.Label}
    (hs : Main.pipeline iterate parser s l = some t) : Inv iterate parser selection ticks logs total t := by
  cases l with
  | loopBody => exact h.loopBody hs
  | onRead | push | pushes | parsed =>
    simp only [Main.pipeline] at hs
    split_ifs at hs
    obtain ⟨pipeline,hp,rfl⟩ := Option.map_eq_some_iff.mp hs
    exact h.pipes hp nofun fun _ => (network_frame rfl hp).2.1
  | pop | pops | popped =>
    simp only [Main.pipeline] at hs
    split_ifs at hs with hc
    obtain ⟨pipeline,hp,rfl⟩ := Option.map_eq_some_iff.mp hs
    refine h.pipes hp nofun ?_
    intro hf
    rw [hc.2.1] at hf
    cases hf
  | stop =>
    simp only [Main.pipeline] at hs
    split_ifs at hs
    obtain ⟨pipeline,hp,rfl⟩ := Option.map_eq_some_iff.mp hs
    refine h.pipes hp nofun fun _ => ?_
    unfold Pipeline.step at hp
    split_ifs at hp
    cases hp
    rfl

private theorem Inv.logEvent (h : Inv iterate parser selection ticks logs total s) {timestampUs latencyUs : UInt64}
    (hs : Main.logEvent s timestampUs latencyUs = some t) : Inv iterate parser selection ticks logs total t := by
  unfold Main.logEvent at hs
  split at hs
  · cases hs
  · rename_i event unlogged hun
    obtain ⟨c,hc,hs⟩ := Option.bind_eq_some_iff.mp hs
    obtain ⟨logger,hl,rfl⟩ := Option.map_eq_some_iff.mp hs
    have hstep : Logger.step s.logger (.call c) = some logger := hl
    refine ⟨h.pipeline,h.logger.step hstep,?_,h.unstarted,?_,h.joined,?_⟩
    · obtain ⟨logged,calls,hevents,hlogs,hcalls⟩ := h.calls
      refine ⟨logged ++ [event],calls ++ [c],?_,?_,?_⟩
      · rw [hevents, hun, List.append_assoc]
        rfl
      · exact List.rel_append hlogs (.cons ⟨timestampUs,latencyUs,hc⟩ .nil)
      · rw [Logger.calls_step hstep, hcalls, List.append_assoc]
        rfl
    · intro hf
      have hnone := ((State.logged_iff s).mp (h.finished hf).2).1
      rw [hun] at hnone
      cases hnone
    · intro hr
      simp only [Logger.call] at hl
      split_ifs at hl
      obtain ⟨_,_,rfl⟩ := Option.map_eq_some_iff.mp hl
      exact h.returned hr

private theorem Inv.access (h : Inv iterate parser selection ticks logs total s) {l : Spsc.Label Logger.LogEvent}
    {logger : Logger.State} (hs : Logger.pushes s.logger l = some logger) :
    Inv iterate parser selection ticks logs total { s with logger } := by
  have hstep : Logger.step s.logger (.pushes l) = some logger := hs
  have hcalls := Logger.calls_step hstep
  obtain ⟨c,hc,hdestroyed⟩ : ∃ c, s.logger.call = some c ∧ logger.destroyed = s.logger.destroyed := by
    unfold Logger.pushes at hs
    split at hs
    · cases hs
    · rename_i c hc
      split_ifs at hs
      obtain ⟨queue,_,rfl⟩ := Option.map_eq_some_iff.mp hs
      refine ⟨c,hc,?_⟩
      split <;> rfl
  refine ⟨h.pipeline,h.logger.step hstep,?_,h.unstarted,?_,h.joined,fun hr => hdestroyed.trans (h.returned hr)⟩
  · obtain ⟨logged,calls,hevents,hlogs,hmade⟩ := h.calls
    refine ⟨logged,calls,hevents,hlogs,?_⟩
    rw [hcalls, hmade]
    exact List.append_nil _
  · intro hf
    have hnone := ((State.logged_iff s).mp (h.finished hf).2).2
    rw [hc] at hnone
    cases hnone

private theorem Inv.worker (h : Inv iterate parser selection ticks logs total s) {l : Logger.Label}
    {logger : Logger.State} (hl : l.ofWorker = true) (hs : Logger.step s.logger l = some logger) :
    Inv iterate parser selection ticks logs total { s with logger } := by
  obtain ⟨hcall,hresults,_,hdestroyed⟩ := Logger.worker_frame hl hs
  exact h.silent (h.logger.step hs) hcall hresults fun hd => hdestroyed.trans hd

private theorem Inv.advance (h : Inv iterate parser selection ticks logs total s) {condition : Bool}
    {here next : MainPc} (hs : Main.advance s condition here next = some t)
    (hannounced : next.announced selection = here.announced selection) (hstarted : next.started = true)
    (hjoined : condition = true → s.main = here → next.joined = true → s.strategyDone = true)
    (hreturned : next ≠ .returned) : Inv iterate parser selection ticks logs total t := by
  unfold Main.advance at hs
  split_ifs at hs with hc
  cases hs
  apply h.moves
  · rw [hannounced, hc.1]
  · rw [hstarted]
    nofun
  · exact hjoined hc.2 hc.1
  · exact hreturned

private theorem Inv.strategyReturns (h : Inv iterate parser selection ticks logs total s)
    (hs : Main.strategyReturns s = some t) : Inv iterate parser selection ticks logs total t := by
  unfold Main.strategyReturns at hs
  split at hs
  · split_ifs at hs with hc
    cases hs
    refine { h with unstarted := ?_, finished := fun _ => ⟨hc.2.2.1,hc.2.2.2⟩, joined := fun _ => rfl }
    intro hn
    rw [hc.1] at hn
    cases hn
  · cases hs

private theorem Inv.destroyLogger (h : Inv iterate parser selection ticks logs total s) {logger : Logger.State}
    (hmain : s.main = .networkJoined) (hs : Logger.stop s.logger = some logger) :
    Inv iterate parser selection ticks logs total { s with logger, main := .destroying } := by
  have hi : Logger.Inv logs logger := h.logger.step (l := .stop) hs
  unfold Logger.stop at hs
  split_ifs at hs
  cases hs
  apply (h.silent hi rfl rfl id).moves
  · rw [hmain]
    rfl
  · nofun
  · intro _
    exact h.joined (by rw [hmain]; rfl)
  · nofun

private theorem Inv.joinWorker (h : Inv iterate parser selection ticks logs total s) {logger : Logger.State}
    (hmain : s.main = .destroying) (hs : Logger.join s.logger = some logger) :
    Inv iterate parser selection ticks logs total { s with logger, main := .returned } := by
  have hi : Logger.Inv logs logger := h.logger.step (l := .join) hs
  unfold Logger.join at hs
  split_ifs at hs
  cases hs
  refine { h.silent hi rfl rfl (fun _ => rfl) with
    calls := ?_, unstarted := nofun, joined := ?_, returned := fun _ => rfl }
  · obtain ⟨logged,calls,hevents,hlogs,hcalls⟩ := h.calls
    refine ⟨logged,calls,hevents,hlogs,?_⟩
    rw [hmain] at hcalls
    exact hcalls
  · intro _
    exact h.joined (by rw [hmain]; rfl)

/-- Every step of every thread keeps the invariant. -/
theorem Inv.step (h : Inv iterate parser selection ticks logs total s) {l : Label}
    (hs : Main.step iterate parser selection s l = some t) : Inv iterate parser selection ticks logs total t := by
  unfold Main.step at hs
  split_ifs at hs
  unfold act at hs
  cases l with
  | logActiveStrategy => exact h.logActiveStrategy hs
  | start => exact h.start hs
  | pipeline l => exact h.pipelineStep hs
  | logEvent timestampUs latencyUs => exact h.logEvent hs
  | logs l =>
    obtain ⟨logger,hl,rfl⟩ := Option.map_eq_some_iff.mp hs
    exact h.access hl
  | worker l =>
    simp only [Main.onLogger] at hs
    split_ifs at hs with hw
    obtain ⟨logger,hl,rfl⟩ := Option.map_eq_some_iff.mp hs
    exact h.worker hw hl
  | signal =>
    cases hs
    exact ⟨h.pipeline,h.logger,h.calls,h.unstarted,h.finished,h.joined,h.returned⟩
  | stopStrategy => exact h.advance hs rfl rfl nofun nofun
  | stopIoc =>
    obtain ⟨u,hu,rfl⟩ := Option.map_eq_some_iff.mp hs
    have hadvanced := h.advance hu rfl rfl nofun nofun
    exact ⟨hadvanced.pipeline,hadvanced.logger,hadvanced.calls,hadvanced.unstarted,hadvanced.finished,
      hadvanced.joined,hadvanced.returned⟩
  | fails =>
    simp only [Main.fails] at hs
    split_ifs at hs
    cases hs
    exact ⟨h.pipeline,h.logger,h.calls,h.unstarted,h.finished,h.joined,h.returned⟩
  | strategyReturns => exact h.strategyReturns hs
  | networkReturns =>
    simp only [Main.networkReturns] at hs
    split_ifs at hs
    cases hs
    exact ⟨h.pipeline,h.logger,h.calls,h.unstarted,h.finished,h.joined,h.returned⟩
  | joinStrategy => exact h.advance hs rfl rfl (fun hc _ _ => hc) nofun
  | joinNetwork => exact h.advance hs rfl rfl (fun _ hm _ => h.joined (by rw [hm]; rfl)) nofun
  | destroyLogger =>
    obtain ⟨u,hu,rfl⟩ := Option.map_eq_some_iff.mp hs
    simp only [Main.onLogger] at hu
    split_ifs at hu with hm
    obtain ⟨logger,hl,rfl⟩ := Option.map_eq_some_iff.mp hu
    exact h.destroyLogger (of_decide_eq_true hm) hl
  | joinWorker =>
    obtain ⟨u,hu,rfl⟩ := Option.map_eq_some_iff.mp hs
    simp only [Main.onLogger] at hu
    split_ifs at hu with hm
    obtain ⟨logger,hl,rfl⟩ := Option.map_eq_some_iff.mp hu
    exact h.joinWorker (of_decide_eq_true hm) hl

/-- The invariant holds in every run. -/
theorem Inv.run {payloads : List ByteString} {schedule : List Label}
    (run : exec (Main.step iterate parser selection) (init selection ticks logs payloads) schedule = some s) :
    Inv iterate parser selection ticks logs (payloads.flatMap (payloadTicks iterate parser)) s :=
  exec_invariant (fun _ _ _ h hs => h.step hs) run (.initial payloads)

/-- Ticks leave the queue in the order of the feed; without a refused push none is missing. -/
theorem popped_of_feed (h : Pipeline.Inv iterate parser selection ticks total s.pipeline) :
    s.pipeline.queue.popped.Sublist total ∧
      ((∀ c ∈ s.pipeline.queue.producer.calls, c.ok = true) → s.pipeline.queue.popped <+: total) := by
  have hpopped : s.pipeline.queue.popped <+: s.pipeline.queue.pushed := by
    rw [Spsc.Inv.order h.coherent]
    exact List.take_prefix _ _
  have hoffered : s.pipeline.queue.offered <+: total := by
    rw [← h.offers, List.append_assoc]
    exact List.prefix_append _ _
  constructor
  · exact (hpopped.sublist.trans (Spsc.pushed_sublist_offered _)).trans hoffered.sublist
  · intro hok
    exact (hpopped.trans (Spsc.pushed_prefix_offered hok)).trans hoffered

private theorem Inv.complete (h : Inv iterate parser selection ticks logs total s) (hdone : s.strategyDone = true)
    (hmain : s.main ≠ .constructing) :
    ∃ calls, (StrategyEngine.construct selection).runTicks s.pipeline.queue.popped = some s.pipeline.steps ∧
      List.Forall₂ Logs (s.pipeline.steps.flatMap Step.events) calls ∧
      s.logger.results.map Prod.fst = announcement selection :: calls := by
  obtain ⟨htick,hlogged⟩ := h.finished hdone
  obtain ⟨hun,hcall⟩ := (State.logged_iff s).mp hlogged
  obtain ⟨processed,hpopped,hrun⟩ := h.pipeline.progress
  obtain ⟨logged,calls,hevents,hlogs,hcalls⟩ := h.calls
  refine ⟨calls,?_,?_,?_⟩
  · rw [hpopped, htick, Option.toList_none, List.append_nil]
    exact hrun
  · rw [hevents, hun, List.append_nil]
    exact hlogs
  · rw [MainPc.announced_of_ne hmain, Logger.State.calls, hcall] at hcalls
    simpa using hcalls

end Steps

/-- When `main` has returned, every pass is complete, and the calls made are the announcement of
the strategy and then one for each event of the passes; the file holds the header and a row for
each call that returned true, in order. The passes are those of a sequential run over the ticks
taken from the queue, which are ticks of the feed in its order, and a beginning of the feed if
no push was refused. -/
theorem trading_log (iterate : ByteString → Option Json) (parser : MarketParser) (selection : StrategySelection)
    (ticks logs : SizeT) (payloads : List ByteString) {schedule : List Label} {s : State} {out : Logger.OutFile}
    (run : exec (step iterate parser selection) (init selection ticks logs payloads) schedule = some s)
    (returned : s.main = .returned) (opened : s.logger.out = some out) :
    s.pipeline.queue.popped.Sublist (payloads.flatMap (payloadTicks iterate parser)) ∧
    ((∀ c ∈ s.pipeline.queue.producer.calls, c.ok = true) →
      s.pipeline.queue.popped <+: payloads.flatMap (payloadTicks iterate parser)) ∧
    ∃ steps calls,
      (StrategyEngine.construct selection).runTicks s.pipeline.queue.popped = some steps ∧
      List.Forall₂ Logs (steps.flatMap Step.events) calls ∧
      s.logger.results.map Prod.fst = announcement selection :: calls ∧
      out.disk = Logger.header ++ s.logger.accepted.flatMap Logger.row ∧
      Logger.readLog out.disk = some (s.logger.accepted.map Logger.LogEvent.shown) := by
  have h := Inv.run run
  obtain ⟨hsub,hbeginning⟩ := popped_of_feed h.pipeline
  obtain ⟨calls,hruns,hlogs,hresults⟩ := h.complete (h.joined (by rw [returned]; rfl)) (by rw [returned]; nofun)
  have hdisk := h.logger.disk_rows (h.logger.joined (h.returned returned)) opened
  refine ⟨hsub,hbeginning,_,calls,hruns,hlogs,hresults,hdisk,?_⟩
  rw [hdisk, Logger.readLog_rows]

def logPush : List Label := [.logs (.pushLoadOther 0),.logs .construct,.logs .publishWrite]

def writeOne : List Label :=
  [.worker (.pops .popLoadOwn),.worker (.pops (.popLoadOther 3)),.worker (.pops .moveOut),
    .worker (.pops .publishRead),.worker .writeRow]

/-- Two messages; the signal comes in the middle of the pass that trades, and all rows are
written in the draining. -/
def tradingSchedule : List Label := [.worker (.openFile true),.logActiveStrategy] ++ logPush ++
  [.start,.worker .writeHeader] ++
  ([Pipeline.Label.onRead] ++ Pipeline.pushCall 0 ++ Pipeline.popPass 1 ++ Pipeline.pushCall 0 ++
    Pipeline.popPass 2).map Label.pipeline ++
  [.logEvent 1000 12] ++ logPush ++
  ([Pipeline.Label.parsed,.onRead] ++ Pipeline.pushCall 0 ++ Pipeline.popPass 3).map Label.pipeline ++
  [.signal,.logEvent 2000 9,.stopStrategy,.stopIoc] ++ logPush ++
  [.pipeline .parsed,.pipeline .stop,.networkReturns,.strategyReturns,.joinStrategy,.joinNetwork,
    .destroyLogger,.worker (.poll false)] ++ writeOne ++ writeOne ++ writeOne ++
  [.worker (.pops .popLoadOwn),.worker (.pops (.popLoadOther 3)),.worker .close,.joinWorker]

theorem tradingSchedule_logged : ∃ s out,
    exec (step Pipeline.feed (construct true) .momentum)
      (init .momentum 0 0 [Pipeline.firstText,Pipeline.secondText]) tradingSchedule = some s ∧
    s.main = .returned ∧ s.logger.out = some out ∧
    Logger.readLog out.disk = some [⟨0,77,0,.zero 32,0,0,ascii "momentum"⟩,⟨1000,80,1 / 2,.zero 32,0,12,[]⟩,
      ⟨2000,84,3 / 5,StrategyEngine.kDefaultTradeSize,0,9,[]⟩] := by
  have he : (exec (step Pipeline.feed (construct true) .momentum)
      (init .momentum 0 0 [Pipeline.firstText,Pipeline.secondText]) tradingSchedule).map (fun s =>
        (s.main, s.logger.out.isSome, s.logger.results)) =
      some (.returned, true, [(announcement .momentum,true),(.logEvent 1000 80 (1 / 2) (.zero 32) 0 12,true),
        (.logEvent 2000 84 (3 / 5) StrategyEngine.kDefaultTradeSize 0 9,true)]) := by decide +kernel
  obtain ⟨s,hs,ho⟩ := Option.map_eq_some_iff.mp he
  obtain ⟨hmain,ho⟩ := Prod.mk.inj ho
  obtain ⟨hsome,hr⟩ := Prod.mk.inj ho
  obtain ⟨out,hout⟩ := Option.isSome_iff_exists.mp hsome
  obtain ⟨_,_,_,_,_,_,_,_,hread⟩ := trading_log Pipeline.feed (construct true) .momentum 0 0 _ hs hmain hout
  rw [Logger.State.accepted, hr] at hread
  refine ⟨s,out,hs,hmain,hout,hread.trans ?_⟩
  decide +kernel

end PredictionMarket.Main

import PredictionMarket.Main.CommandLine
import PredictionMarket.Pipeline.Determinism
import PredictionMarket.Logger.LoggerProgress

/-! The process of `main.cpp`: the network thread, the strategy thread and the worker of the
logger, and `main`, which starts them, waits for a signal and takes everything down. The
strategy's passes make the calls of the logger. -/
namespace PredictionMarket.Main
open Queue Market Strategy MarketParser

/-- Where `main` stands. -/
inductive MainPc where
  | constructing
  /-- In the call of `log_active_strategy`. -/
  | announcing
  /-- Both threads run; `g_stop` is polled. -/
  | watching
  | strategyStopped
  | iocStopped
  | strategyJoined
  | networkJoined
  /-- In the destructor of the logger. -/
  | destroying
  | returned
  deriving DecidableEq

/-- The threads have been started. -/
def MainPc.started : MainPc → Bool
  | .constructing | .announcing => false
  | _ => true

/-- `strategy.stop()` is behind it. -/
def MainPc.stopping : MainPc → Bool
  | .constructing | .announcing | .watching => false
  | _ => true

structure State where
  pipeline : Pipeline.State
  logger : Logger.State
  main : MainPc
  /-- `g_stop` -/
  gStop : Bool
  /-- What the pass that the strategy thread is at has yet to log. -/
  unlogged : List LogEvent
  strategyDone : Bool
  networkDone : Bool
  /-- What `ioc.stop()` sets: no further handler is run. -/
  iocStopped : Bool
  /-- An operation of the client is outstanding, from the resolving to the latest read. -/
  outstanding : Bool

/-- The clock readings that a call of `log_event` gets are arguments of its label. The label
`pipeline .stop` is the moment at which the strategy thread can see the store to `running_`, and
`fails` the handler of an operation that has failed. -/
inductive Label where
  | logActiveStrategy
  | start
  | pipeline (l : Pipeline.Label)
  | logEvent (timestampUs latencyUs : UInt64)
  | logs (l : Spsc.Label Logger.LogEvent)
  | worker (l : Logger.Label)
  | signal
  | stopStrategy
  | stopIoc
  | fails
  | strategyReturns
  | networkReturns
  | joinStrategy
  | joinNetwork
  | destroyLogger
  | joinWorker

/-- `(void)logger.log_active_strategy(strategy_name(selection))` up to the first access. -/
def logActiveStrategy (selection : StrategySelection) (s : State) : Option State :=
  match s.main with
  | .constructing => (Logger.call s.logger (.logActiveStrategy (strategyName selection))).map fun logger =>
    { s with logger, main := .announcing }
  | _ => none

/-- The call has returned, and the threads start. -/
def start (s : State) : Option State :=
  match s.main, s.logger.call with
  | .announcing, none => some { s with main := .watching }
  | _, _ => none

/-- The strategy thread has made all calls of its pass. -/
def State.logged (s : State) : Bool := s.unlogged.isEmpty && s.logger.call.isNone

/-- A step of the network thread or of the strategy thread; a pass logs before the next `pop`. -/
def pipeline (iterate : ByteString → Option Json) (parser : MarketParser) (s : State) (l : Pipeline.Label) :
    Option State :=
  match l with
  | .onRead =>
    if s.main.started ∧ s.networkDone = false ∧ s.iocStopped = false ∧ s.outstanding then
      (Pipeline.step iterate parser s.pipeline .onRead).map fun pipeline => { s with pipeline }
    else none
  | .push | .pushes _ | .parsed =>
    if s.main.started ∧ s.networkDone = false then
      (Pipeline.step iterate parser s.pipeline l).map fun pipeline => { s with pipeline }
    else none
  | .pop | .pops _ | .popped =>
    if s.main.started ∧ s.strategyDone = false ∧ s.logged then
      (Pipeline.step iterate parser s.pipeline l).map fun pipeline => { s with pipeline }
    else none
  | .loopBody =>
    if s.main.started ∧ s.strategyDone = false ∧ s.logged then
      (Pipeline.step iterate parser s.pipeline .loopBody).map fun pipeline =>
        { s with pipeline, unlogged := (pipeline.steps.drop s.pipeline.steps.length).flatMap Step.events }
    else none
  | .stop =>
    if s.main.stopping then
      (Pipeline.step iterate parser s.pipeline .stop).map fun pipeline => { s with pipeline }
    else none

/-- An event of a pass as the pass hands it to `log_event`, at a time and with a latency. -/
def logCall (event : LogEvent) (timestampUs latencyUs : UInt64) : Option Logger.Call :=
  (Foundation.CheckedInt.ofInt? event.size).map fun size =>
    .logEvent timestampUs (UInt8.ofNat event.type.toNat) event.price size event.pnl latencyUs

/-- The next call of `log_event` in the pass. -/
def logEvent (s : State) (timestampUs latencyUs : UInt64) : Option State :=
  match s.unlogged with
  | [] => none
  | event :: unlogged =>
    (logCall event timestampUs latencyUs).bind fun c =>
      (Logger.call s.logger c).map fun logger => { s with logger, unlogged }

/-- `run` returns where the loop condition is false. -/
def strategyReturns (s : State) : Option State :=
  match s.pipeline.queue.consumer.pc with
  | .idle =>
    if s.main.started ∧ s.pipeline.running = false ∧ s.pipeline.tick = none ∧ s.logged then
      some { s with strategyDone := true }
    else none
  | _ => none

/-- `fail` reports the failure, and no operation is started any more. -/
def fails (s : State) : Option State :=
  if s.main.started ∧ s.pipeline.parsing.isNone ∧ s.networkDone = false ∧ s.iocStopped = false ∧ s.outstanding then
    some { s with outstanding := false }
  else none

/-- `ioc.run()` returns between two handlers: when it is stopped, or when nothing is outstanding. -/
def networkReturns (s : State) : Option State :=
  if s.main.started ∧ s.pipeline.parsing.isNone ∧ (s.iocStopped ∨ s.outstanding = false) then
    some { s with networkDone := true }
  else none

/-- A statement of `main` behind its loop. -/
def advance (s : State) (condition : Bool) (here next : MainPc) : Option State :=
  if s.main = here ∧ condition then some { s with main := next } else none

/-- `ioc.stop()`, behind the post of a `close` that may never be run. -/
def stopIoc (s : State) : Option State :=
  (advance s true .strategyStopped .iocStopped).map fun s => { s with iocStopped := true }

def onLogger (s : State) (logger : Option Logger.State) (condition : Bool) : Option State :=
  if condition then logger.map fun logger => { s with logger } else none

section Step
variable (iterate : ByteString → Option Json) (parser : MarketParser) (selection : StrategySelection)

def act (s : State) (l : Label) : Option State :=
  match l with
  | .logActiveStrategy => logActiveStrategy selection s
  | .start => start s
  | .pipeline l => pipeline iterate parser s l
  | .logEvent timestampUs latencyUs => logEvent s timestampUs latencyUs
  | .logs l => onLogger s (Logger.pushes s.logger l) true
  | .worker l => onLogger s (Logger.step s.logger l) l.ofWorker
  | .signal => some { s with gStop := true }
  | .stopStrategy => advance s s.gStop .watching .strategyStopped
  | .stopIoc => stopIoc s
  | .fails => fails s
  | .strategyReturns => strategyReturns s
  | .networkReturns => networkReturns s
  | .joinStrategy => advance s s.strategyDone .iocStopped .strategyJoined
  | .joinNetwork => advance s s.networkDone .strategyJoined .networkJoined
  | .destroyLogger => (onLogger s (Logger.stop s.logger) (s.main = .networkJoined)).map fun s =>
      { s with main := .destroying }
  | .joinWorker => (onLogger s (Logger.join s.logger) (s.main = .destroying)).map fun s =>
      { s with main := .returned }

/-- A step of the process, unless it has been terminated. -/
def step (s : State) (l : Label) : Option State :=
  if s.pipeline.aborted then none else act iterate parser selection s l

end Step

/-- The command line has been read, the objects are constructed and the worker is started. -/
def init (selection : StrategySelection) (ticks logs : SizeT) (payloads : List ByteString) : State where
  pipeline := Pipeline.init selection ticks payloads
  logger := Logger.init logs
  main := .constructing
  gStop := false
  unlogged := []
  strategyDone := false
  networkDone := false
  iocStopped := false
  outstanding := true

end PredictionMarket.Main

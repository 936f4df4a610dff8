import PredictionMarket.Queue.SpscRefinement
import PredictionMarket.Market.ParserQueue
import PredictionMarket.Strategy.StrategyEngine

/-! The network thread and the strategy thread around the queue, with the queue's calls
split into their memory accesses. A thread's work on data of its own is one step. -/
namespace PredictionMarket.Pipeline
open Queue Market Strategy MarketParser

/-- `parse_tick` in progress: the result it is going to have, and the ticks it has not
yet handed to `push`. Both are the same on every queue. -/
structure Parsing where
  verdict : Verdict
  pending : List MarketTick

structure State where
  queue : Spsc.State kTickQueueSize MarketTick
  /-- Payloads that the socket will deliver, in order. -/
  inbox : List ByteString
  parsing : Option Parsing
  /-- The process has been terminated. -/
  aborted : Bool
  running : Bool
  /-- The tick that `pop` has returned and the loop body has not yet seen. -/
  tick : Option MarketTick
  engine : StrategyEngine
  /-- What the passes of the loop did so far. -/
  steps : List Step

inductive Label where
  | onRead
  | push
  | pushes (l : Spsc.Label MarketTick)
  | parsed
  | pop
  | pops (l : Spsc.Label MarketTick)
  | popped
  | loopBody
  | stop

/-- The accesses of `push` and `pop` between their first and their last. -/
def inPush : Spsc.Label MarketTick → Bool
  | .pushLoadOther _ | .construct | .publishWrite => true
  | _ => false

def inPop : Spsc.Label MarketTick → Bool
  | .popLoadOther _ | .moveOut => true
  | _ => false

section Network
variable (iterate : ByteString → Option Json) (parser : MarketParser)

/-- `on_read`: a payload of some length goes to the parser. -/
def onRead (s : State) : Option State :=
  match s.parsing, s.inbox with
  | none, payload :: inbox =>
    if payload.length = 0 then some { s with inbox }
    else
      let (verdict, pending) := parseTick record iterate parser payload []
      some { s with inbox, parsing := some ⟨verdict,pending⟩ }
  | _, _ => none

end Network

/-- The next call of `push` by the parser. -/
def push (s : State) : Option State :=
  match s.parsing with
  | some ⟨verdict,tick :: pending⟩ => (Spsc.step s.queue (.pushLoadOwn tick)).map fun queue =>
    { s with queue, parsing := some ⟨verdict,pending⟩ }
  | _ => none

def pushes (s : State) (l : Spsc.Label MarketTick) : Option State :=
  if inPush l then (Spsc.step s.queue l).map fun queue => { s with queue } else none

/-- The end of `parse_tick`: its result is discarded, unless there is none. -/
def parsed (s : State) : Option State :=
  match s.parsing, s.queue.producer.pc with
  | some ⟨verdict,[]⟩, .idle =>
    some { s with parsing := none, aborted := decide (verdict = .terminated) }
  | _, _ => none

/-- The loop condition and the start of `pop`. -/
def pop (s : State) : Option State :=
  if s.running ∧ s.tick.isNone then
    (Spsc.step s.queue .popLoadOwn).map fun queue => { s with queue }
  else none

def pops (s : State) (l : Spsc.Label MarketTick) : Option State :=
  if inPop l then (Spsc.step s.queue l).map fun queue => { s with queue } else none

/-- The end of a `pop` that returns true; the thread cannot have a tick in hand there. -/
def popped (s : State) : Option State :=
  match s.tick, s.queue.consumer.pc with
  | none, .moved _ _ item => (Spsc.step s.queue .publishRead).map fun queue =>
    { s with queue, tick := some item }
  | _, _ => none

def loopBody (s : State) : Option State :=
  match s.tick with
  | some tick => (s.engine.loopBody tick).map fun step =>
    { s with tick := none, engine := step.engine, steps := s.steps ++ [step] }
  | none => none

def step (iterate : ByteString → Option Json) (parser : MarketParser) (s : State) (l : Label) :
    Option State :=
  if s.aborted then none
  else match l with
    | .onRead => onRead iterate parser s
    | .push => push s
    | .pushes l => pushes s l
    | .parsed => parsed s
    | .pop => pop s
    | .pops l => pops s l
    | .popped => popped s
    | .loopBody => loopBody s
    | .stop => some { s with running := false }

/-- `main` before either thread starts. -/
def init (selection : StrategySelection) (start : SizeT) (payloads : List ByteString) : State where
  queue := Spsc.init kTickQueueSize MarketTick start
  inbox := payloads
  parsing := none
  aborted := false
  running := true
  tick := none
  engine := .construct selection
  steps := []

end PredictionMarket.Pipeline

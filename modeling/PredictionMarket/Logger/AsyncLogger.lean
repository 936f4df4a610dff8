import PredictionMarket.Queue.SpscCalls
import PredictionMarket.Logger.LogEvent

/-! The thread that logs, the worker thread and the destructor of `AsyncLogger`, with the
calls of the queue split into their memory accesses. The worker's work on the file is one
step for each statement. -/
namespace PredictionMarket.Logger
open Queue Market

/-- `AsyncLogger::kQueueSize` -/
def kQueueSize : Size := ⟨4096,by decide,by decide,by decide⟩

/-- Where the worker stands in `run`; the last three before the end are in
`drain_without_io`. In the middle of a `pop` it stands where the `pop` is. -/
inductive WorkerPc where
  | opening
  | heading
  | polling
  | popping
  | writing (ev : LogEvent)
  | flushing
  | draining
  | drainWriting (ev : LogEvent)
  | closing
  | idlePolling
  | idlePopping
  | idleDraining
  | finished
  deriving DecidableEq

structure State where
  queue : Spsc.State kQueueSize LogEvent
  /-- The call that has not yet returned. -/
  call : Option Call
  /-- The calls that have returned, with their results. -/
  results : List (Call × Bool)
  /-- The store of false to `running_`, as the number of stores of the write index that
  it releases. -/
  stopped : Option Nat
  worker : WorkerPc
  /-- The stream, if the file could be opened. -/
  out : Option OutFile
  eventsSinceFlush : UInt64
  /-- The destructor has returned. -/
  destroyed : Bool

/-- A load of `running_` has the value it returns as its argument, the decision of
`maybe_flush` whether a second has elapsed. -/
inductive Label where
  | call (c : Call)
  | pushes (l : Spsc.Label LogEvent)
  | openFile (isOpen : Bool)
  | writeHeader
  | poll (running : Bool)
  | pops (l : Spsc.Label LogEvent)
  | writeRow
  | maybeFlush (elapsed : Bool)
  | spill (n : Nat)
  | close
  | stop
  | join

namespace WorkerPc

/-- The worker is at a call of `pop` or in the middle of one. -/
def inPop : WorkerPc → Bool
  | .popping | .draining | .idlePopping | .idleDraining => true
  | _ => false

/-- Where a load of `running_` leads. -/
def afterPoll (running : Bool) : WorkerPc → Option WorkerPc
  | .polling => some (if running then .popping else .draining)
  | .idlePolling => some (if running then .idlePopping else .idleDraining)
  | _ => none

/-- Where the result of `pop` leads. -/
def afterPop (item : Option LogEvent) : WorkerPc → WorkerPc
  | .popping => item.elim .flushing .writing
  | .draining => item.elim .closing .drainWriting
  | .idlePopping => .idlePolling
  | .idleDraining => item.elim .finished fun _ => .idleDraining
  | pc => pc

end WorkerPc

/-- `log_event` or `log_active_strategy` up to the first access of `push`. No call begins
once the destructor has begun. -/
def call (s : State) (c : Call) : Option State :=
  if s.call.isNone ∧ s.stopped.isNone then
    (Spsc.step s.queue (.pushLoadOwn c.event)).map fun queue => { s with queue, call := some c }
  else none

/-- A further access of `push`. The call returns what `push` returns. -/
def pushes (s : State) (l : Spsc.Label LogEvent) : Option State :=
  match s.call with
  | none => none
  | some c =>
    if l.ofConsumer ∨ l.offer.isSome then none
    else (Spsc.step s.queue l).map fun queue =>
      match Spsc.pushReturn s.queue queue with
      | none => { s with queue }
      | some push => { s with queue, call := none, results := s.results ++ [(c,push.ok)] }

def openFile (s : State) (isOpen : Bool) : Option State :=
  match s.worker with
  | .opening => some (if isOpen then { s with worker := .heading, out := some .opened }
      else { s with worker := .idlePolling })
  | _ => none

def writeHeader (s : State) : Option State :=
  match s.worker, s.out with
  | .heading, some out => some { s with worker := .polling, out := some (out.insert header) }
  | _, _ => none

/-- A load of `running_`. It may return true long after the store of false. When it
returns false it acquires what the store of false released. -/
def poll (s : State) (running : Bool) : Option State :=
  match s.worker.afterPoll running, running, s.stopped with
  | some worker, true, _ => some { s with worker }
  | some worker, false, some released => some { s with worker, queue := s.queue.acquire released }
  | _, _, _ => none

/-- An access of `pop`. Its result, if it returns there, decides what the worker does next. -/
def pops (s : State) (l : Spsc.Label LogEvent) : Option State :=
  if s.worker.inPop ∧ l.ofConsumer then
    (Spsc.step s.queue l).map fun queue =>
      match Spsc.popReturn s.queue queue with
      | none => { s with queue }
      | some pop => { s with queue, worker := s.worker.afterPop pop.item }
  else none

def writeRow (s : State) : Option State :=
  match s.worker, s.out with
  | .writing ev, some out => some { s with
      worker := .flushing, out := some (out.insert (row ev)), eventsSinceFlush := s.eventsSinceFlush + 1 }
  | .drainWriting ev, some out => some { s with worker := .draining, out := some (out.insert (row ev)) }
  | _, _ => none

/-- `maybe_flush`, at the end of a pass of the loop. -/
def maybeFlush (s : State) (elapsed : Bool) : Option State :=
  match s.worker, s.out with
  | .flushing, some out => some <|
      if s.eventsSinceFlush ≥ 1000 ∨ elapsed then
        { s with worker := .polling, out := some out.flush, eventsSinceFlush := 0 }
      else { s with worker := .polling }
  | _, _ => none

/-- The stream hands over some of what it holds, as it may at any time. -/
def spill (s : State) (n : Nat) : Option State :=
  s.out.map fun out => { s with out := some (out.spill n) }

/-- `out.flush()` and the end of `run`. -/
def close (s : State) : Option State :=
  match s.worker, s.out with
  | .closing, some out => some { s with worker := .finished, out := some out.flush }
  | _, _ => none

/-- The destructor's store to `running_`. All calls have returned and are known to the
thread that runs the destructor, so the store releases every store of the write index. -/
def stop (s : State) : Option State :=
  if s.call.isNone ∧ s.stopped.isNone then
    some { s with stopped := some s.queue.writeIndex.stores.length }
  else none

/-- `worker_.join()`; the worker is joinable, since nothing else joins or detaches it. -/
def join (s : State) : Option State :=
  if s.stopped.isSome ∧ s.worker = .finished then some { s with destroyed := true } else none

def step (s : State) : Label → Option State
  | .call c => call s c
  | .pushes l => pushes s l
  | .openFile isOpen => openFile s isOpen
  | .writeHeader => writeHeader s
  | .poll running => poll s running
  | .pops l => pops s l
  | .writeRow => writeRow s
  | .maybeFlush elapsed => maybeFlush s elapsed
  | .spill n => spill s n
  | .close => close s
  | .stop => stop s
  | .join => join s

/-- Behind the constructor, with the worker started. -/
def init (start : SizeT) : State where
  queue := Spsc.init kQueueSize LogEvent start
  call := none
  results := []
  stopped := none
  worker := .opening
  out := none
  eventsSinceFlush := 0
  destroyed := false

end PredictionMarket.Logger

import PredictionMarket.Logger.AsyncLogger

/-! What is known of the logger from where its worker stands. What is still to be written is
a function of that place, so one equation covers both loops. -/
namespace PredictionMarket.Logger

namespace WorkerPc

/-- What the worker has yet to write before it goes on. -/
def pending : WorkerPc → List Operand
  | .heading => header
  | .writing ev | .drainWriting ev => row ev
  | _ => []

/-- The worker has seen the store of false. -/
def afterStop : WorkerPc → Bool
  | .draining | .drainWriting _ | .closing | .idleDraining | .finished => true
  | _ => false

/-- The worker has found the queue empty after it has seen the store. -/
def exhausted : WorkerPc → Bool
  | .closing | .finished => true
  | _ => false

/-- The worker has no file, or not yet. -/
def withoutFile : WorkerPc → Bool
  | .opening | .idlePolling | .idlePopping | .idleDraining => true
  | _ => false

variable {pc : WorkerPc} {item : Option LogEvent}

/-- A worker that has found the queue empty behind the flag has seen the flag. -/
theorem afterStop_of_exhausted (h : pc.exhausted = true) : pc.afterStop = true := by
  cases pc <;> first | rfl | cases h

@[simp] theorem afterStop_afterPop : (pc.afterPop item).afterStop = pc.afterStop := by
  cases pc <;> cases item <;> rfl

/-- What a `pop` leads to is without a file only if the `pop` is. -/
theorem withoutFile_of_afterPop (h : (pc.afterPop item).withoutFile = true) : pc.withoutFile = true := by
  cases pc <;> cases item <;> first | rfl | cases h

/-- The four stages at which the worker is inside a `pop`. -/
theorem inPop_cases (h : pc.inPop = true) :
    pc = .popping ∨ pc = .draining ∨ pc = .idlePopping ∨ pc = .idleDraining := by
  cases pc <;> simp at h ⊢ <;> cases h

/-- A load of `running_` leads into one of the loops or out of it. -/
structure Polled (pc next : WorkerPc) (running : Bool) : Prop where
  between : pc.inPop = false
  started : next ≠ .opening
  unfinished : pc ≠ .finished ∧ next ≠ .finished
  pending : next.pending = pc.pending
  withoutFile : next.withoutFile = pc.withoutFile
  exhausted : next.exhausted = false
  afterStop : next.afterStop = !running

/-- What a load of the flag leads to. -/
theorem polled_of_afterPoll {running : Bool} {next : WorkerPc} (h : pc.afterPoll running = some next) :
    Polled pc next running := by
  cases pc with
  | polling | idlePolling =>
    cases running <;> cases h
    all_goals exact ⟨rfl,nofun,⟨nofun,nofun⟩,rfl,rfl,rfl,rfl⟩
  | _ => cases h

/-- A worker with a file has to write what `pop` gives it, and nothing else. -/
theorem pending_afterPop (h : pc.inPop = true) (hf : pc.withoutFile = false) :
    (pc.afterPop item).pending = pc.pending ++ item.toList.flatMap row := by
  obtain rfl | rfl | rfl | rfl := inPop_cases h
  · cases item <;> simp [afterPop, pending]
  · cases item <;> simp [afterPop, pending]
  · cases hf
  · cases hf

/-- Only an empty queue ends the draining. -/
theorem none_of_exhausted (h : pc.inPop = true) (he : (pc.afterPop item).exhausted = true) :
    item = none ∧ pc.afterStop = true := by
  obtain rfl | rfl | rfl | rfl := inPop_cases h <;> cases item
  all_goals first | exact ⟨rfl,rfl⟩ | cases he

/-- A `pop` behind which the worker has finished is that of a worker without a file. -/
theorem withoutFile_of_finished (h : pc.inPop = true) (he : pc.afterPop item = .finished) :
    pc.withoutFile = true := by
  obtain rfl | rfl | rfl | rfl := inPop_cases h <;> cases item
  all_goals first | rfl | cases he

/-- No `pop` leads back to the opening of the file. -/
theorem afterPop_ne_opening (h : pc.inPop = true) : pc.afterPop item ≠ .opening := by
  obtain rfl | rfl | rfl | rfl := inPop_cases h <;> cases item
  all_goals exact nofun

end WorkerPc

end PredictionMarket.Logger

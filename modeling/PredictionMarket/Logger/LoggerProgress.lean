import PredictionMarket.Logger.Shutdown
import PredictionMarket.Queue.SpscProgress

/-! A call of the logger can always go on. Once the destructor has begun, so can the worker, and
each of its steps here brings it closer to its end: first the queue gets shorter, then it moves
on through its loops. -/
namespace PredictionMarket.Logger
open Queue Foundation.Transition

/-- The steps of the worker. -/
def Label.ofWorker : Label → Bool
  | .openFile _ | .writeHeader | .poll _ | .pops _ | .writeRow | .maybeFlush _ | .spill _ | .close => true
  | .call _ | .pushes _ | .stop | .join => false

/-- The worker neither makes nor ends a call, and touches no flag of the destructor. -/
theorem worker_frame {s t : State} {l : Label} (hl : l.ofWorker = true) (hs : step s l = some t) :
    t.call = s.call ∧ t.results = s.results ∧ t.stopped = s.stopped ∧ t.destroyed = s.destroyed := by
  cases l with
  | call | pushes | stop | join => cases hl
  | openFile isOpen =>
    simp only [step, openFile] at hs
    split at hs
    · cases hs
      split_ifs <;> exact ⟨rfl,rfl,rfl,rfl⟩
    · cases hs
  | pops l =>
    simp only [step, pops] at hs
    split_ifs at hs
    obtain ⟨queue,_,rfl⟩ := Option.map_eq_some_iff.mp hs
    split <;> exact ⟨rfl,rfl,rfl,rfl⟩
  | maybeFlush elapsed =>
    simp only [step, maybeFlush] at hs
    split at hs
    · cases hs
      split_ifs <;> exact ⟨rfl,rfl,rfl,rfl⟩
    · cases hs
  | spill n =>
    obtain ⟨out,_,rfl⟩ := Option.map_eq_some_iff.mp hs
    exact ⟨rfl,rfl,rfl,rfl⟩
  | writeHeader | poll | writeRow | close =>
    simp only [step, writeHeader, poll, writeRow, close] at hs
    split at hs <;> cases hs
    all_goals exact ⟨rfl,rfl,rfl,rfl⟩

/-- No step of the worker touches what the destructor has done. -/
theorem stopped_frame {s t : State} {l : Label} (hl : l ≠ .stop) (hs : step s l = some t) :
    t.stopped = s.stopped := by
  cases l with
  | stop => exact absurd rfl hl
  | openFile | writeHeader | poll | pops | writeRow | maybeFlush | spill | close =>
    exact (worker_frame rfl hs).2.2.1
  | call c =>
    simp only [step, call] at hs
    split_ifs at hs
    obtain ⟨_,_,rfl⟩ := Option.map_eq_some_iff.mp hs
    rfl
  | pushes l =>
    simp only [step, pushes] at hs
    split at hs
    · cases hs
    · split_ifs at hs
      obtain ⟨_,_,rfl⟩ := Option.map_eq_some_iff.mp hs
      split <;> rfl
  | join =>
    simp only [step, join] at hs
    split_ifs at hs
    cases hs
    rfl

section Calls
variable {start : SizeT} {s : State}

/-- Accesses that the call in progress may still make. -/
def State.callLeft (s : State) : Nat := s.queue.producer.pc.rank

private theorem Inv.producer_idle_iff (h : Inv start s) : s.queue.producer.pc = .idle ↔ s.call = none := by
  have hcall := h.call
  cases hp : s.queue.producer.pc <;> cases hc : s.call <;>
    simp [hp, hc, Spsc.ProducerPc.inHand] at hcall ⊢

/-- A call of the producer can always begin, and has three accesses before it. -/
theorem Inv.call_enabled (h : Inv start s) (hcall : s.call = none) (hstopped : s.stopped = none) (c : Call) :
    ∃ t, Logger.call s c = some t ∧ t.callLeft = 3 := by
  have hidle := h.producer_idle_iff.mpr hcall
  let queue := { s.queue with producer.pc := .ownLoaded c.event s.queue.writeIndex.latest }
  have hq : Spsc.step s.queue (.pushLoadOwn c.event) = some queue := by
    simp only [Spsc.step, Spsc.pushLoadOwn, hidle]
    rfl
  refine ⟨{ s with queue, call := some c },?_,rfl⟩
  rw [Logger.call, hcall, hstopped, if_pos ⟨rfl,rfl⟩, hq]
  rfl

/-- A call in progress can make an access that brings it closer to its end. -/
theorem Inv.access_enabled (h : Inv start s) {c : Call} (hcall : s.call = some c) :
    ∃ l t, Logger.pushes s l = some t ∧ t.callLeft < s.callLeft := by
  have hbusy : s.queue.producer.pc ≠ .idle := by
    intro hidle
    rw [h.producer_idle_iff.mp hidle] at hcall
    cases hcall
  obtain ⟨l,queue,hl,hq⟩ := Spsc.push_enabled h.coherent hbusy
  obtain ⟨hoffer,hrank,_⟩ := Spsc.push_rank hq hl hbusy
  obtain ⟨t,ht,hqueue⟩ : ∃ t, Logger.pushes s l = some t ∧ t.queue = queue := by
    simp only [Logger.pushes, hcall, hl, hoffer, hq]
    refine ⟨_,rfl,?_⟩
    simp only []
    split <;> rfl
  refine ⟨l,t,ht,?_⟩
  rw [State.callLeft, hqueue]
  exact hrank

end Calls

/-- A worker that has opened the file has a stream until it is finished. -/
def HasStream (s : State) : Prop :=
  s.worker.withoutFile = false → s.worker = .finished ∨ s.out.isSome = true

/-- A worker with a stream keeps one. -/
theorem HasStream.step {s t : State} {l : Label} (h : HasStream s) (hs : Logger.step s l = some t) : HasStream t := by
  cases l with
  | call c =>
    simp only [Logger.step, Logger.call] at hs
    split_ifs at hs
    obtain ⟨_,_,rfl⟩ := Option.map_eq_some_iff.mp hs
    exact h
  | pushes l =>
    simp only [Logger.step, pushes] at hs
    split at hs
    · cases hs
    · split_ifs at hs
      obtain ⟨_,_,rfl⟩ := Option.map_eq_some_iff.mp hs
      split <;> exact h
  | openFile isOpen =>
    simp only [Logger.step, openFile] at hs
    split at hs
    · cases hs
      split_ifs
      · exact fun _ => .inr rfl
      · intro hf
        cases hf
    · cases hs
  | pops l =>
    simp only [Logger.step, pops] at hs
    split_ifs at hs with hc
    obtain ⟨queue,_,rfl⟩ := Option.map_eq_some_iff.mp hs
    split
    · exact h
    · rename_i pop _
      intro hf
      obtain hw | hw | hw | hw := WorkerPc.inPop_cases hc.1
      · rw [HasStream, hw] at h
        exact .inr ((h rfl).resolve_left (by simp))
      · rw [HasStream, hw] at h
        exact .inr ((h rfl).resolve_left (by simp))
      · simp only [hw] at hf
        cases pop.item <;> cases hf
      · simp only [hw] at hf ⊢
        cases hi : pop.item with
        | none => exact .inl rfl
        | some item =>
          rw [hi] at hf
          cases hf
  | poll running =>
    simp only [Logger.step, poll] at hs
    split at hs
    · rename_i worker _ hw
      cases hs
      have hp := WorkerPc.polled_of_afterPoll hw
      intro hf
      exact .inr ((h (hp.withoutFile.symm.trans hf)).resolve_left hp.unfinished.1)
    · rename_i worker released _ hw
      cases hs
      have hp := WorkerPc.polled_of_afterPoll hw
      intro hf
      exact .inr ((h (hp.withoutFile.symm.trans hf)).resolve_left hp.unfinished.1)
    · cases hs
  | maybeFlush elapsed =>
    simp only [Logger.step, maybeFlush] at hs
    split at hs
    · rename_i out _ hout
      cases hs
      split_ifs
      · exact fun _ => .inr rfl
      · exact fun _ => .inr (by rw [hout]; rfl)
    · cases hs
  | spill n =>
    obtain ⟨out,hout,rfl⟩ := Option.map_eq_some_iff.mp hs
    exact fun _ => .inr rfl
  | writeHeader | writeRow | close =>
    simp only [Logger.step, writeHeader, writeRow, close] at hs
    split at hs <;> cases hs
    all_goals exact fun _ => .inr rfl
  | stop | join =>
    simp only [Logger.step, stop, join] at hs
    split_ifs at hs
    cases hs
    exact h

namespace WorkerPc

/-- How far the worker is from its end, if `pop` returns no more events and `running_` has been
set to false. -/
def stage : WorkerPc → Nat
  | .finished => 0
  | .closing => 1
  | .draining | .idleDraining => 2
  | .drainWriting _ => 3
  | .polling | .idlePolling => 4
  | .flushing => 5
  | .writing _ => 6
  | .popping | .idlePopping => 7
  | .heading => 8
  | .opening => 9

/-- A `pop` that finds nothing is a move towards the end. -/
theorem stage_afterPop_none {pc : WorkerPc} (h : pc.inPop = true) : (pc.afterPop none).stage < pc.stage := by
  obtain rfl | rfl | rfl | rfl := inPop_cases h <;> decide

end WorkerPc

/-- Accesses that the `pop` the worker is at may still make. -/
def State.popRank (s : State) : Nat :=
  if s.worker.inPop then
    match s.queue.consumer.pc with
    | .idle => 4
    | pc => pc.rank
  else 0

private theorem State.popRank_le (s : State) : s.popRank ≤ 4 := by
  unfold popRank
  split_ifs
  · split
    · exact le_refl _
    · exact (Spsc.ConsumerPc.rank_le _).trans (by decide)
  · exact Nat.zero_le _

/-- Events that the worker has not taken, and how far it is from its end without them. -/
def State.workLeft (s : State) : Nat × Nat :=
  (s.queue.pushed.length - s.queue.popped.length, 5 * s.worker.stage + s.popRank)

section Advance
variable {start : SizeT} {s t : State}

private theorem less_of_stage {pc : WorkerPc} (next : WorkerPc) (hs : s.worker = pc) (ht : t.worker = next)
    (hpushed : t.queue.pushed = s.queue.pushed) (hpopped : t.queue.popped = s.queue.popped)
    (hstage : next.stage < pc.stage) : Less t.workLeft s.workLeft := by
  have := t.popRank_le
  refine .inr ⟨by rw [State.workLeft, State.workLeft, hpushed, hpopped],?_⟩
  simp only [State.workLeft, hs, ht]
  omega

private theorem pop_begins (hpc : s.worker.inPop = true) (hidle : s.queue.consumer.pc = .idle) :
    ∃ t, step s (.pops .popLoadOwn) = some t ∧ Less t.workLeft s.workLeft := by
  have hstep : Spsc.step s.queue .popLoadOwn =
      some { s.queue with consumer.pc := .ownLoaded s.queue.readIndex.latest } := by
    simp only [Spsc.step, Spsc.popLoadOwn, hidle]
  refine ⟨{ s with queue := { s.queue with consumer.pc := .ownLoaded s.queue.readIndex.latest } },?_,.inr ⟨rfl,?_⟩⟩
  · rw [step, pops, if_pos ⟨hpc,rfl⟩, hstep, Option.map_some]
    simp [Spsc.popReturn]
  · simp [State.workLeft, State.popRank, hpc, hidle, Spsc.ConsumerPc.rank]

private theorem pop_advances (h : Inv start s) (hpc : s.worker.inPop = true)
    (hbusy : s.queue.consumer.pc ≠ .idle) :
    ∃ l t, step s (.pops l) = some t ∧ Less t.workLeft s.workLeft := by
  -- A `pop` goes on: it stays inside with fewer accesses to make, takes an event, or finds the queue
  -- empty and sends the worker on.
  obtain ⟨l,queue,hl,hq⟩ := Spsc.pop_enabled h.coherent hbusy
  obtain ⟨hproducer,_,_,haccess⟩ := Spsc.pop_access h.coherent hq hl
  obtain ⟨hrank,hreturns⟩ := Spsc.pop_rank h.coherent hq hl hbusy
  have hpushed : queue.pushed = s.queue.pushed := by rw [Spsc.State.pushed, hproducer, Spsc.State.pushed]
  have hsilent (hr : Spsc.popReturn s.queue queue = none) : step s (.pops l) = some { s with queue } := by
    simp only [step, pops, hpc, hl, hq, hr, and_self, if_true, Option.map_some]
  have hreturn {pop : Spsc.PopCall LogEvent} (hr : Spsc.popReturn s.queue queue = some pop) :
      step s (.pops l) = some { s with queue, worker := s.worker.afterPop pop.item } := by
    simp only [step, pops, hpc, hl, hq, hr, and_self, if_true, Option.map_some]
  cases haccess with
  | inside returned popped =>
    have hinside : queue.consumer.pc ≠ .idle := by
      intro hidle
      have hlt := hreturns hidle
      rw [Spsc.popReturn, List.getElem?_eq_none_iff] at returned
      omega
    refine ⟨l,_,hsilent returned,.inr ⟨by simp only [State.workLeft, hpushed, popped],?_⟩⟩
    simp only [State.workLeft, State.popRank, hpc, if_true]
    exact Nat.add_lt_add_left hrank _
  | empty c returned item popped _ _ =>
    have hempty := hreturn returned
    rw [item] at hempty
    exact ⟨l,_,hempty,less_of_stage _ rfl rfl hpushed popped (WorkerPc.stage_afterPop_none hpc)⟩
  | taken c item returned item_eq popped _ =>
    have hle := Spsc.Inv.popped_le (Spsc.coherent_step h.coherent hq).1
    rw [popped, hpushed, List.length_append, List.length_singleton] at hle
    refine ⟨l,_,hreturn returned,.inl ?_⟩
    simp only [State.workLeft, hpushed, popped, List.length_append, List.length_singleton]
    omega

/-- Wherever the worker stands behind the store of false, it can do something that brings it
closer to its end. -/
theorem worker_advances (h : Inv start s) (stream : HasStream s) (stopped : s.stopped.isSome = true)
    (unfinished : s.worker ≠ .finished) :
    ∃ l t, l.ofWorker = true ∧ step s l = some t ∧ Less t.workLeft s.workLeft := by
  obtain ⟨released,hstop⟩ := Option.isSome_iff_exists.mp stopped
  have hstream {pc : WorkerPc} (hw : s.worker = pc) (hf : pc.withoutFile = false) : ∃ out, s.out = some out := by
    rw [← hw] at hf
    exact Option.isSome_iff_exists.mp ((stream hf).resolve_left unfinished)
  have hpop (hpc : s.worker.inPop = true) :
      ∃ l t, l.ofWorker = true ∧ step s l = some t ∧ Less t.workLeft s.workLeft := by
    by_cases hidle : s.queue.consumer.pc = .idle
    · obtain ⟨t,ht,hless⟩ := pop_begins hpc hidle
      exact ⟨_,t,rfl,ht,hless⟩
    · obtain ⟨l,t,ht,hless⟩ := pop_advances h hpc hidle
      exact ⟨_,t,rfl,ht,hless⟩
  cases hw : s.worker with
  | finished => exact absurd hw unfinished
  | popping | draining | idlePopping | idleDraining => exact hpop (by rw [hw]; rfl)
  | opening =>
    refine ⟨.openFile false,{ s with worker := .idlePolling },rfl,?_,?_⟩
    · simp only [step, openFile, hw]
      rfl
    · exact less_of_stage .idlePolling hw rfl rfl rfl (by decide)
  | heading =>
    obtain ⟨out,hout⟩ := hstream hw rfl
    refine ⟨.writeHeader,{ s with worker := .polling, out := some (out.insert header) },rfl,?_,?_⟩
    · simp only [step, writeHeader, hw, hout]
    · exact less_of_stage .polling hw rfl rfl rfl (by decide)
  | polling =>
    refine ⟨.poll false,{ s with worker := .draining, queue := s.queue.acquire released },rfl,?_,?_⟩
    · simp only [step, poll, hw, hstop, WorkerPc.afterPoll]
      rfl
    · exact less_of_stage .draining hw rfl rfl rfl (by decide)
  | idlePolling =>
    refine ⟨.poll false,{ s with worker := .idleDraining, queue := s.queue.acquire released },rfl,?_,?_⟩
    · simp only [step, poll, hw, hstop, WorkerPc.afterPoll]
      rfl
    · exact less_of_stage .idleDraining hw rfl rfl rfl (by decide)
  | writing ev =>
    obtain ⟨out,hout⟩ := hstream hw rfl
    refine ⟨.writeRow,_,rfl,by simp only [step, writeRow, hw, hout]; rfl,?_⟩
    exact less_of_stage .flushing hw rfl rfl rfl (Nat.lt_succ_self _)
  | drainWriting ev =>
    obtain ⟨out,hout⟩ := hstream hw rfl
    refine ⟨.writeRow,_,rfl,by simp only [step, writeRow, hw, hout]; rfl,?_⟩
    exact less_of_stage .draining hw rfl rfl rfl (Nat.lt_succ_self _)
  | flushing =>
    obtain ⟨out,hout⟩ := hstream hw rfl
    refine ⟨.maybeFlush true,{ s with worker := .polling, out := some out.flush, eventsSinceFlush := 0 },rfl,?_,?_⟩
    · simp [step, maybeFlush, hw, hout]
    · exact less_of_stage .polling hw rfl rfl rfl (by decide)
  | closing =>
    obtain ⟨out,hout⟩ := hstream hw rfl
    refine ⟨.close,{ s with worker := .finished, out := some out.flush },rfl,?_,?_⟩
    · simp only [step, close, hw, hout]
    · exact less_of_stage .finished hw rfl rfl rfl (by decide)

end Advance

end PredictionMarket.Logger

import PredictionMarket.Logger.WorkerStages

/-! One invariant of the three threads around the logger, kept by each of their steps. -/
namespace PredictionMarket.Logger
open Queue Market Foundation.Transition

/-- What the threads have come to, seen from each of them. -/
structure Inv (start : SizeT) (s : State) : Prop where
  coherent : Spsc.Coherent start s.queue
  results : s.queue.producer.calls.map (fun c => (c.item, c.ok)) =
    s.results.map fun r => (r.1.event, r.2)
  call : s.queue.producer.pc.inHand = s.call.toList.map Call.event
  /-- The destructor begins behind all calls, and what it releases covers them all. -/
  quiet : ∀ released, s.stopped = some released →
    s.call = none ∧ released = s.queue.writeIndex.stores.length
  between : s.worker.inPop = false → s.queue.consumer.pc = .idle
  view : s.worker.afterStop = true →
    s.stopped.isSome = true ∧ s.queue.pushed.length ≤ s.queue.consumer.seen
  untouched : s.worker = .opening → s.queue.popped = []
  noFile : s.worker.withoutFile = true → s.out = none
  rows : ∀ out, s.out = some out →
    out.written ++ s.worker.pending = header ++ s.queue.popped.flatMap row
  drained : s.worker.exhausted = true → s.queue.popped = s.queue.pushed
  flushed : s.worker = .finished → ∀ out, s.out = some out → out.buffered = []
  joined : s.destroyed = true → s.worker = .finished

namespace Inv
variable {start : SizeT} {s t : State}

/-- The invariant holds when the worker starts. -/
theorem initial (start : SizeT) : Inv start (init start) where
  coherent := Spsc.coherent_init start
  results := rfl
  call := rfl
  quiet := nofun
  between := fun _ => rfl
  view := nofun
  untouched := fun _ => rfl
  noFile := fun _ => rfl
  rows := nofun
  drained := nofun
  flushed := nofun
  joined := nofun

/-- While a call is running the worker cannot have seen the store of false. -/
theorem running (h : Inv start s) (hs : s.stopped.isNone = true) : s.worker.afterStop = false := by
  cases ha : s.worker.afterStop with
  | false => rfl
  | true =>
    have hv := (h.view ha).1
    rw [Option.isNone_iff_eq_none.mp hs] at hv
    cases hv

/-- A worker without a file has no stream. -/
theorem withFile (h : Inv start s) {out : OutFile} (hout : s.out = some out) : s.worker.withoutFile = false := by
  cases hf : s.worker.withoutFile with
  | false => rfl
  | true =>
    have hnone := h.noFile hf
    rw [hout] at hnone
    cases hnone

/-- While a call is in progress the destructor has not begun. -/
theorem stopped_of_call (h : Inv start s) {c : Call} (hc : s.call = some c) : s.stopped.isNone = true := by
  cases hs : s.stopped with
  | none => rfl
  | some released =>
    have hq := (h.quiet released hs).1
    rw [hc] at hq
    cases hq

private theorem call_step (h : Inv start s) {c : Call} (hs : Logger.call s c = some t) : Inv start t := by
  unfold Logger.call at hs
  split_ifs at hs with hc
  obtain ⟨queue,hq,rfl⟩ := Option.map_eq_some_iff.mp hs
  have hcoherent := (Spsc.coherent_step h.coherent hq).1
  have hrun := h.running hc.2
  obtain ⟨_,rfl⟩ := Spsc.pushLoadOwn_inv hq
  refine { h with coherent := hcoherent, call := rfl, quiet := ?_ }
  intro released hr
  rw [hr] at hc
  cases hc.2

private theorem push_step (h : Inv start s) {c : Call} (hc : s.call = some c)
    {queue : Spsc.State kQueueSize LogEvent} (hcoherent : Spsc.Coherent start queue)
    (hconsumer : queue.consumer = s.queue.consumer) {results : List (Call × Bool)} {next : Option Call}
    (hresults : queue.producer.calls.map (fun c => (c.item, c.ok)) =
      results.map fun r => (r.1.event, r.2))
    (hnext : queue.producer.pc.inHand = next.toList.map Call.event) :
    Inv start { s with queue, call := next, results } := by
  have hs := h.stopped_of_call hc
  have hrun := h.running hs
  have hpopped : queue.popped = s.queue.popped := by rw [Spsc.State.popped, hconsumer, Spsc.State.popped]
  refine { h with
    coherent := hcoherent, results := hresults, call := hnext, quiet := ?_, between := ?_
    view := ?_, untouched := ?_, rows := ?_, drained := ?_ }
  · intro released hr
    rw [hr] at hs
    cases hs
  · rw [hconsumer]
    exact h.between
  · intro ha
    rw [hrun] at ha
    cases ha
  · rw [hpopped]
    exact h.untouched
  · rw [hpopped]
    exact h.rows
  · intro he
    have ha := WorkerPc.afterStop_of_exhausted he
    rw [hrun] at ha
    cases ha

/-- An access of `push` keeps the invariant. -/
theorem pushes (h : Inv start s) {l : Spsc.Label LogEvent} (hs : Logger.pushes s l = some t) :
    Inv start t := by
  unfold Logger.pushes at hs
  split at hs
  · cases hs
  · rename_i c hc
    split_ifs at hs with hl
    obtain ⟨queue,hq,rfl⟩ := Option.map_eq_some_iff.mp hs
    have hcoherent := (Spsc.coherent_step h.coherent hq).1
    have hl1 : l.ofConsumer = false := by
      cases hl1 : l.ofConsumer with
      | false => rfl
      | true => exact absurd (.inl hl1) hl
    have hl2 : l.offer = none := by
      cases hl2 : l.offer with
      | none => rfl
      | some item => exact absurd (.inr (by rw [hl2]; rfl)) hl
    obtain ⟨hconsumer,ha⟩ := Spsc.push_access hq hl1 hl2
    cases ha with
    | inside returned calls inHand =>
      rw [returned]
      have hn : Inv start { s with queue, call := s.call, results := s.results } :=
        h.push_step hc hcoherent hconsumer (by rw [calls]; exact h.results) (by rw [inHand]; exact h.call)
      exact hn
    | returned push returned calls inHand idle =>
      rw [returned]
      refine h.push_step hc hcoherent hconsumer ?_ idle
      have hitem : push.item = c.event := by
        have hcall := h.call
        rw [inHand, hc] at hcall
        exact List.head_eq_of_cons_eq hcall
      rw [calls, List.map_append, List.map_append, h.results]
      simp [hitem]

private theorem pop_inside (h : Inv start s) (hpc : s.worker.inPop = true)
    {queue : Spsc.State kQueueSize LogEvent} (hcoherent : Spsc.Coherent start queue)
    (hproducer : queue.producer = s.queue.producer) (hwrites : queue.writeIndex = s.queue.writeIndex)
    (hseen : s.queue.consumer.seen ≤ queue.consumer.seen) (hpopped : queue.popped = s.queue.popped) :
    Inv start { s with queue } := by
  have hpushed : queue.pushed = s.queue.pushed := by rw [Spsc.State.pushed, hproducer, Spsc.State.pushed]
  refine { h with
    coherent := hcoherent, results := ?_, call := ?_, quiet := ?_, between := ?_, view := ?_
    untouched := ?_, rows := ?_, drained := ?_ }
  · rw [hproducer]
    exact h.results
  · rw [hproducer]
    exact h.call
  · rw [hwrites]
    exact h.quiet
  · intro hn
    rw [hpc] at hn
    cases hn
  · intro ha
    rw [hpushed]
    exact ⟨(h.view ha).1,(h.view ha).2.trans hseen⟩
  · rw [hpopped]
    exact h.untouched
  · rw [hpopped]
    exact h.rows
  · rw [hpopped, hpushed]
    exact h.drained

private theorem pop_return (h : Inv start s) (hpc : s.worker.inPop = true)
    {queue : Spsc.State kQueueSize LogEvent} (hcoherent : Spsc.Coherent start queue)
    (hproducer : queue.producer = s.queue.producer) (hwrites : queue.writeIndex = s.queue.writeIndex)
    (hseen : s.queue.consumer.seen ≤ queue.consumer.seen) (hidle : queue.consumer.pc = .idle)
    {item : Option LogEvent} (hpopped : queue.popped = s.queue.popped ++ item.toList)
    (hempty : item = none → queue.consumer.seen = s.queue.popped.length) :
    Inv start { s with queue, worker := s.worker.afterPop item } := by
  -- The end of a `pop`. When it returns nothing the consumer has not seen more stores than it has taken;
  -- if it knows of all stores, then it has taken all.
  have hpushed : queue.pushed = s.queue.pushed := by rw [Spsc.State.pushed, hproducer, Spsc.State.pushed]
  refine {
    coherent := hcoherent, results := ?_, call := ?_, quiet := ?_, between := ?_, view := ?_
    untouched := ?_, noFile := ?_, rows := ?_, drained := ?_, flushed := ?_, joined := ?_ }
  · rw [hproducer]
    exact h.results
  · rw [hproducer]
    exact h.call
  · rw [hwrites]
    exact h.quiet
  · intro _
    exact hidle
  · intro ha
    rw [WorkerPc.afterStop_afterPop] at ha
    rw [hpushed]
    exact ⟨(h.view ha).1,(h.view ha).2.trans hseen⟩
  · intro ho
    exact absurd ho (WorkerPc.afterPop_ne_opening hpc)
  · intro hf
    exact h.noFile (WorkerPc.withoutFile_of_afterPop hf)
  · intro out hout
    rw [hpopped, WorkerPc.pending_afterPop hpc (h.withFile hout), List.flatMap_append, ← List.append_assoc,
      ← List.append_assoc, h.rows out hout]
  · intro he
    obtain ⟨rfl,ha⟩ := WorkerPc.none_of_exhausted hpc he
    rw [Option.toList_none, List.append_nil] at hpopped
    apply hcoherent.popped_eq
    rw [hpushed, hpopped, ← hempty rfl]
    exact (h.view ha).2.trans hseen
  · intro he out hout
    exact absurd (WorkerPc.withoutFile_of_finished hpc he) (by simp [h.withFile hout])
  · intro hd
    have hfinished := h.joined hd
    rw [hfinished] at hpc
    cases hpc

/-- An access of `pop` keeps the invariant. -/
theorem pops (h : Inv start s) {l : Spsc.Label LogEvent} (hs : Logger.pops s l = some t) :
    Inv start t := by
  unfold Logger.pops at hs
  split_ifs at hs with hl
  obtain ⟨hpc,hl⟩ := hl
  obtain ⟨queue,hq,rfl⟩ := Option.map_eq_some_iff.mp hs
  have hcoherent := (Spsc.coherent_step h.coherent hq).1
  obtain ⟨hproducer,hwrites,hseen,ha⟩ := Spsc.pop_access h.coherent hq hl
  cases ha with
  | inside returned popped =>
    rw [returned]
    exact h.pop_inside hpc hcoherent hproducer hwrites hseen popped
  | empty pop returned item popped idle seen =>
    rw [returned]
    apply h.pop_return hpc hcoherent hproducer hwrites hseen idle
    · rw [item, popped, Option.toList_none, List.append_nil]
    · intro _
      exact seen
  | taken pop ev returned item popped idle =>
    rw [returned]
    apply h.pop_return hpc hcoherent hproducer hwrites hseen idle
    · rw [item, popped, Option.toList_some]
    · intro hnone
      rw [item] at hnone
      cases hnone

private theorem written (h : Inv start s) {pc : WorkerPc} (hw : s.worker = pc) {out : OutFile}
    (hout : s.out = some out) : (out.insert pc.pending).written = header ++ s.queue.popped.flatMap row := by
  rw [OutFile.written_insert, ← hw]
  exact h.rows out hout

private theorem own_step (h : Inv start s) {pc : WorkerPc} (hw : s.worker = pc)
    (hpc : pc.inPop = false) (hrun : pc ≠ .finished)
    (worker : WorkerPc) (out : Option OutFile) (eventsSinceFlush : UInt64)
    (hview : worker.afterStop = true →
      s.stopped.isSome = true ∧ s.queue.pushed.length ≤ s.queue.consumer.seen)
    (hopening : worker ≠ .opening) (hnone : worker.withoutFile = true → out = none)
    (hrows : ∀ o, out = some o → o.written ++ worker.pending = header ++ s.queue.popped.flatMap row)
    (hdrained : worker.exhausted = true → pc.exhausted = true)
    (hflushed : worker = .finished → ∀ o, out = some o → o.buffered = []) :
    Inv start { s with worker, out, eventsSinceFlush } := by
  refine { h with
    between := ?_, view := hview, untouched := ?_, noFile := hnone, rows := hrows, drained := ?_
    flushed := hflushed, joined := ?_ }
  · intro _
    apply h.between
    rw [hw]
    exact hpc
  · intro ho
    exact absurd ho hopening
  · intro he
    apply h.drained
    rw [hw]
    exact hdrained he
  · intro hd
    exact absurd (hw.symm.trans (h.joined hd)) hrun

private theorem stream_step (h : Inv start s) {pc : WorkerPc} (hw : s.worker = pc)
    (hpc : pc.inPop = false) (hrun : pc ≠ .finished)
    (worker : WorkerPc) (out : OutFile) (eventsSinceFlush : UInt64) (hpending : worker.pending = [])
    (hwritten : out.written = header ++ s.queue.popped.flatMap row)
    (hview : worker.afterStop = true → pc.afterStop = true) (hfile : worker.withoutFile = false)
    (hdrained : worker.exhausted = true → pc.exhausted = true)
    (hflushed : worker = .finished → out.buffered = []) :
    Inv start { s with worker, out := some out, eventsSinceFlush } := by
  apply h.own_step hw hpc hrun
  · intro ha
    apply h.view
    rw [hw]
    exact hview ha
  · intro ho
    rw [ho] at hfile
    cases hfile
  · intro hn
    rw [hfile] at hn
    cases hn
  · intro o ho
    rw [← Option.some.inj ho, hpending, List.append_nil, hwritten]
  · exact hdrained
  · intro hf o ho
    rw [← Option.some.inj ho, hflushed hf]

private theorem openFile (h : Inv start s) {isOpen : Bool} (hs : Logger.openFile s isOpen = some t) :
    Inv start t := by
  unfold Logger.openFile at hs
  split at hs
  · rename_i hw
    split_ifs at hs
    · cases hs
      refine h.own_step hw rfl nofun .heading _ _ nofun nofun nofun ?_ nofun nofun
      intro o ho
      cases ho
      rw [h.untouched hw]
      rfl
    · cases hs
      have hn : s.out = none := h.noFile (by rw [hw]; rfl)
      refine h.own_step hw rfl nofun .idlePolling _ _ nofun nofun (fun _ => hn) ?_ nofun nofun
      intro o ho
      rw [hn] at ho
      cases ho
  · cases hs

private theorem writeHeader (h : Inv start s) (hs : Logger.writeHeader s = some t) : Inv start t := by
  unfold Logger.writeHeader at hs
  split at hs
  · rename_i out hw hout
    cases hs
    exact h.stream_step hw rfl nofun .polling _ _ rfl (h.written hw hout) nofun rfl nofun nofun
  · cases hs

private theorem acquire (h : Inv start s) (hpc : s.worker.inPop = false) {released : Nat}
    (hstop : s.stopped = some released) :
    Inv start { s with queue := s.queue.acquire released } := by
  have hle : released ≤ s.queue.pushed.length := by
    rw [(h.quiet released hstop).2, h.coherent.writes_length]
  refine { h with coherent := h.coherent.acquire (h.between hpc) hle, view := ?_ }
  intro ha
  exact ⟨(h.view ha).1,(h.view ha).2.trans (Nat.le_max_left _ _)⟩

private theorem afterPoll (h : Inv start s) {running : Bool} {worker : WorkerPc}
    (hw : s.worker.afterPoll running = some worker)
    (hview : running = false → s.stopped.isSome = true ∧ s.queue.pushed.length ≤ s.queue.consumer.seen) :
    Inv start { s with worker } := by
  -- A load of `running_` moves the worker on. If it goes to the draining, it knows of all that was
  -- pushed.
  have hp := WorkerPc.polled_of_afterPoll hw
  apply h.own_step rfl hp.between hp.unfinished.1
  · intro ha
    rw [hp.afterStop, Bool.not_eq_true'] at ha
    exact hview ha
  · exact hp.started
  · rw [hp.withoutFile]
    exact h.noFile
  · rw [hp.pending]
    exact h.rows
  · intro he
    rw [hp.exhausted] at he
    cases he
  · intro hf
    exact absurd hf hp.unfinished.2

private theorem poll (h : Inv start s) {running : Bool} (hs : Logger.poll s running = some t) :
    Inv start t := by
  -- A load that returns false makes all that was pushed known to the worker.
  unfold Logger.poll at hs
  split at hs
  · rename_i worker _ hw
    cases hs
    exact h.afterPoll hw nofun
  · rename_i worker released hstop hw
    cases hs
    refine (h.acquire (WorkerPc.polled_of_afterPoll hw).between hstop).afterPoll hw ?_
    intro _
    rw [hstop]
    refine ⟨rfl,?_⟩
    have hr := (h.quiet released hstop).2
    rw [h.coherent.writes_length] at hr
    rw [hr]
    exact Nat.le_max_right _ _
  · cases hs

private theorem writeRow (h : Inv start s) (hs : Logger.writeRow s = some t) : Inv start t := by
  unfold Logger.writeRow at hs
  split at hs
  · rename_i ev out hw hout
    cases hs
    exact h.stream_step hw rfl nofun .flushing _ _ rfl (h.written hw hout) nofun rfl nofun nofun
  · rename_i ev out hw hout
    cases hs
    exact h.stream_step hw rfl nofun .draining _ _ rfl (h.written hw hout) (fun _ => rfl) rfl nofun nofun
  · cases hs

private theorem flushed_written (h : Inv start s) {pc : WorkerPc} (hw : s.worker = pc) (hpc : pc.pending = [])
    {out : OutFile} (hout : s.out = some out) : out.flush.written = header ++ s.queue.popped.flatMap row := by
  have hr := h.rows out hout
  rw [hw, hpc, List.append_nil] at hr
  rw [OutFile.written_flush, hr]

private theorem maybeFlush (h : Inv start s) {elapsed : Bool} (hs : Logger.maybeFlush s elapsed = some t) :
    Inv start t := by
  unfold Logger.maybeFlush at hs
  split at hs
  · rename_i out hw hout
    split_ifs at hs
    · cases hs
      exact h.stream_step hw rfl nofun .polling _ _ rfl (h.flushed_written hw rfl hout) nofun rfl nofun nofun
    · cases hs
      refine h.own_step hw rfl nofun .polling _ _ nofun nofun nofun ?_ nofun nofun
      intro o ho
      have hr := h.rows o ho
      rw [hw] at hr
      exact hr
  · cases hs

private theorem close (h : Inv start s) (hs : Logger.close s = some t) : Inv start t := by
  unfold Logger.close at hs
  split at hs
  · rename_i out hw hout
    cases hs
    exact h.stream_step hw rfl nofun .finished _ _ rfl (h.flushed_written hw rfl hout) (fun _ => rfl) rfl
      (fun _ => rfl) fun _ => rfl
  · cases hs

private theorem spill (h : Inv start s) {n : Nat} (hs : Logger.spill s n = some t) : Inv start t := by
  obtain ⟨out,hout,rfl⟩ := Option.map_eq_some_iff.mp hs
  refine { h with noFile := ?_, rows := ?_, flushed := ?_ }
  · intro hf
    exact absurd hf (by simp [h.withFile hout])
  · intro o ho
    cases ho
    rw [OutFile.written_spill]
    exact h.rows out hout
  · intro hf o ho
    cases ho
    rw [OutFile.spill, h.flushed hf out hout, List.drop_nil]

private theorem stop (h : Inv start s) (hs : Logger.stop s = some t) : Inv start t := by
  unfold Logger.stop at hs
  split_ifs at hs with hc
  cases hs
  refine { h with quiet := ?_, view := ?_ }
  · intro released hr
    exact ⟨Option.isNone_iff_eq_none.mp hc.1,(Option.some.inj hr).symm⟩
  · intro ha
    exact ⟨rfl,(h.view ha).2⟩

private theorem join (h : Inv start s) (hs : Logger.join s = some t) : Inv start t := by
  unfold Logger.join at hs
  split_ifs at hs with hc
  cases hs
  exact { h with joined := fun _ => hc.2 }

/-- Every step of every thread keeps the invariant. -/
theorem step (h : Inv start s) {l : Label} (hs : Logger.step s l = some t) : Inv start t := by
  cases l with
  | call c => exact h.call_step hs
  | pushes l => exact h.pushes hs
  | openFile isOpen => exact h.openFile hs
  | writeHeader => exact h.writeHeader hs
  | poll running => exact h.poll hs
  | pops l => exact h.pops hs
  | writeRow => exact h.writeRow hs
  | maybeFlush elapsed => exact h.maybeFlush hs
  | spill n => exact h.spill hs
  | close => exact h.close hs
  | stop => exact h.stop hs
  | join => exact h.join hs

/-- The invariant holds in every run. -/
theorem run {schedule : List Label} (run : exec Logger.step (init start) schedule = some s) : Inv start s :=
  exec_invariant (fun _ _ _ h hs => h.step hs) run (initial start)

end Inv

end PredictionMarket.Logger

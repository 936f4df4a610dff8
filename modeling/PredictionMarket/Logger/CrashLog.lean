import PredictionMarket.Logger.Shutdown
import PredictionMarket.Foundation.Journal

/-! What the log is worth if the process dies. The worker flushes in its loop and once more at
its end, but not while it drains; what is not on the disk by then is bounded by the queue. -/
namespace PredictionMarket.Logger
open Queue Market Foundation.Transition Foundation.Journal

/-- The lines that the accepted events make, the header first. -/
def State.journal (s : State) : List (List Operand) := header :: s.accepted.map row

/-- Those of the events that the worker has taken. -/
private def State.taken (s : State) : List (List Operand) := header :: s.queue.popped.map row

namespace WorkerPc

/-- Events that the worker has taken and not yet counted. -/
private def uncounted : WorkerPc → Nat
  | .writing _ => 1
  | _ => 0

/-- How far the count has come at most. -/
private def limit : WorkerPc → Nat
  | .flushing => 1000
  | _ => 999

private theorem limit_inPop {pc : WorkerPc} (h : pc.inPop = true) : pc.limit = 999 := by
  obtain rfl | rfl | rfl | rfl := inPop_cases h <;> rfl

private theorem limit_ge (pc : WorkerPc) : 999 ≤ pc.limit := by
  cases pc <;> simp [limit]

private theorem limit_uncounted (pc : WorkerPc) : pc.limit + pc.uncounted ≤ 1000 := by
  cases pc <;> simp [limit, uncounted]

end WorkerPc

/-- Lines that may be missing on the disk once the loop has ended. -/
private def behind : Nat := 999 + kQueueSize.value

/-- The worker's count says how many events it has taken since the last flush. -/
private structure Kept (s : State) (out : OutFile) (k : Nat) : Prop where
  durable : Durable s.taken out.disk k
  counted : s.worker.afterStop = false →
    s.queue.popped.length ≤ k + s.eventsSinceFlush.toNat + s.worker.uncounted
  drained : s.worker.afterStop = true → s.queue.pushed.length ≤ k + behind

private structure Backed (s : State) : Prop where
  limit : s.eventsSinceFlush.toNat ≤ s.worker.limit
  kept : ∀ out, s.out = some out → ∃ k, Kept s out k

section Steps
variable {start : SizeT} {s t : State}

private theorem Backed.initial (start : SizeT) : Backed (init start) := ⟨Nat.zero_le _,nofun⟩

private theorem Backed.aside (h : Backed s) (hworker : t.worker = s.worker) (hout : t.out = s.out)
    (hevents : t.eventsSinceFlush = s.eventsSinceFlush) (hpopped : t.queue.popped = s.queue.popped)
    (hpushed : s.worker.afterStop = true → t.queue.pushed = s.queue.pushed) : Backed t := by
  refine ⟨by rw [hevents, hworker]; exact h.limit,fun out ho => ?_⟩
  obtain ⟨k,hk⟩ := h.kept out (hout ▸ ho)
  refine ⟨k,?_,?_,?_⟩
  · rw [State.taken, hpopped]
    exact hk.durable
  · rw [hworker, hevents, hpopped]
    exact hk.counted
  · rw [hworker]
    intro ha
    rw [hpushed ha]
    exact hk.drained ha

private theorem calls_aside (h : Inv start s) {l : Label} (hl : (∃ c, l = .call c) ∨ ∃ k, l = .pushes k)
    (hs : step s l = some t) : t.worker = s.worker ∧ t.out = s.out ∧ t.eventsSinceFlush = s.eventsSinceFlush ∧
      t.queue.popped = s.queue.popped ∧ s.worker.afterStop = false := by
  rcases hl with ⟨c,rfl⟩ | ⟨k,rfl⟩
  · simp only [step, call] at hs
    split_ifs at hs with hc
    obtain ⟨queue,hq,rfl⟩ := Option.map_eq_some_iff.mp hs
    exact ⟨rfl,rfl,rfl,Spsc.popped_step hq (by simp),h.running hc.2⟩
  · simp only [step, pushes] at hs
    split at hs
    · cases hs
    · rename_i c hc
      split_ifs at hs with hk
      obtain ⟨queue,hq,rfl⟩ := Option.map_eq_some_iff.mp hs
      have hrun := h.running (h.stopped_of_call hc)
      have hpopped : queue.popped = s.queue.popped := by
        refine Spsc.popped_step hq ?_
        rintro rfl
        exact hk (.inl rfl)
      split <;> exact ⟨rfl,rfl,rfl,hpopped,hrun⟩

private theorem Kept.own {out out' : OutFile} {k : Nat} (hk : Kept s out k)
    (hqueue : t.queue.popped = s.queue.popped ∧ t.queue.pushed = s.queue.pushed)
    (longer : out.disk <+: out'.disk)
    (hcounted : t.worker.afterStop = false → s.worker.afterStop = false ∧
      s.eventsSinceFlush.toNat + s.worker.uncounted ≤ t.eventsSinceFlush.toNat + t.worker.uncounted)
    (hdrained : t.worker.afterStop = true → s.worker.afterStop = true) : Kept t out' k := by
  obtain ⟨hpopped,hpushed⟩ := hqueue
  refine ⟨?_,fun hr => ?_,fun ha => ?_⟩
  · have hd := hk.durable.mono [] longer
    rw [List.append_nil] at hd
    rw [State.taken, hpopped]
    exact hd
  · obtain ⟨hrun,hle⟩ := hcounted hr
    have hc := hk.counted hrun
    rw [hpopped]
    omega
  · rw [hpushed]
    exact hk.drained (hdrained ha)

private theorem Inv.flushes (h : Inv start s) {out : OutFile} (hout : s.out = some out)
    (hpending : s.worker.pending = []) : Durable s.taken out.flush.disk (s.queue.popped.length + 1) := by
  have hrows := h.rows out hout
  rw [hpending, List.append_nil] at hrows
  have hflat : s.taken.flatten <+: out.flush.disk := by
    rw [State.taken, List.flatten_cons, ← List.flatMap_def, ← hrows]
    exact List.prefix_rfl
  have hd := Durable.flushed hflat
  rwa [State.taken, List.length_cons, List.length_map] at hd

private theorem Backed.openFile (h : Inv start s) (hb : Backed s) {isOpen : Bool}
    (hs : Logger.openFile s isOpen = some t) : Backed t := by
  unfold Logger.openFile at hs
  split at hs
  · rename_i hw
    have hlimit := hb.limit
    rw [hw] at hlimit
    split_ifs at hs <;> cases hs
    · refine ⟨hlimit,fun out _ => ⟨0,.none _ _,fun _ => ?_,nofun⟩⟩
      rw [h.untouched hw]
      exact Nat.zero_le _
    · have hnone : s.out = none := h.noFile (by rw [hw]; rfl)
      refine ⟨hlimit,fun out ho => ?_⟩
      cases hnone.symm.trans ho
  · cases hs

private theorem Backed.writeHeader (hb : Backed s) (hs : Logger.writeHeader s = some t) : Backed t := by
  unfold Logger.writeHeader at hs
  split at hs
  · rename_i out hw hout
    cases hs
    have hlimit := hb.limit
    rw [hw] at hlimit
    obtain ⟨k,hk⟩ := hb.kept out hout
    refine ⟨hlimit,fun o ho => ⟨k,?_⟩⟩
    cases ho
    exact hk.own ⟨rfl,rfl⟩ List.prefix_rfl (fun _ => by rw [hw]; exact ⟨rfl,Nat.le_refl _⟩) nofun
  · cases hs

private theorem Backed.writeRow (hb : Backed s) (hs : Logger.writeRow s = some t) : Backed t := by
  unfold Logger.writeRow at hs
  have hlimit := hb.limit
  split at hs
  · rename_i ev out hw hout
    cases hs
    rw [hw] at hlimit
    have hcount : (s.eventsSinceFlush + 1).toNat = s.eventsSinceFlush.toNat + 1 := by
      have hfew : s.eventsSinceFlush.toNat ≤ 999 := hlimit
      have hlt : s.eventsSinceFlush.toNat + 1 < 2^64 := by omega
      rw [UInt64.toNat_add]
      exact Nat.mod_eq_of_lt hlt
    obtain ⟨k,hk⟩ := hb.kept out hout
    refine ⟨?_,fun o ho => ⟨k,?_⟩⟩
    · rw [hcount]
      exact Nat.succ_le_succ hlimit
    · cases ho
      refine hk.own ⟨rfl,rfl⟩ List.prefix_rfl (fun _ => ?_) nofun
      rw [hw, hcount]
      exact ⟨rfl,Nat.le_refl _⟩
  · rename_i ev out hw hout
    cases hs
    rw [hw] at hlimit
    obtain ⟨k,hk⟩ := hb.kept out hout
    refine ⟨hlimit,fun o ho => ⟨k,?_⟩⟩
    cases ho
    exact hk.own ⟨rfl,rfl⟩ List.prefix_rfl nofun (fun _ => by rw [hw]; rfl)
  · cases hs

private theorem Backed.maybeFlush (h : Inv start s) (hb : Backed s) {elapsed : Bool}
    (hs : Logger.maybeFlush s elapsed = some t) : Backed t := by
  unfold Logger.maybeFlush at hs
  split at hs
  · rename_i out hw hout
    split_ifs at hs with hflush <;> cases hs
    · refine ⟨Nat.zero_le _,fun o ho => ⟨s.queue.popped.length + 1,?_,fun _ => ?_,nofun⟩⟩
      · cases ho
        exact h.flushes hout (by rw [hw]; rfl)
      · exact (Nat.le_succ _).trans (Nat.le_add_right _ _)
    · have hfew : s.eventsSinceFlush.toNat < 1000 :=
        Nat.not_le.mp fun hge => hflush (.inl (UInt64.le_iff_toNat_le.mpr hge))
      obtain ⟨k,hk⟩ := hb.kept out hout
      refine ⟨Nat.le_of_lt_succ hfew,fun o ho => ⟨k,?_⟩⟩
      cases hout.symm.trans ho
      exact hk.own ⟨rfl,rfl⟩ List.prefix_rfl (fun _ => by rw [hw]; exact ⟨rfl,Nat.le_refl _⟩) nofun
  · cases hs

private theorem Backed.close (hb : Backed s) (hs : Logger.close s = some t) : Backed t := by
  unfold Logger.close at hs
  split at hs
  · rename_i out hw hout
    cases hs
    have hlimit := hb.limit
    rw [hw] at hlimit
    obtain ⟨k,hk⟩ := hb.kept out hout
    refine ⟨hlimit,fun o ho => ⟨k,?_⟩⟩
    cases ho
    exact hk.own ⟨rfl,rfl⟩ (List.prefix_append _ _) nofun (fun _ => by rw [hw]; rfl)
  · cases hs

private theorem Backed.spill (hb : Backed s) {n : Nat} (hs : Logger.spill s n = some t) : Backed t := by
  obtain ⟨out,hout,rfl⟩ := Option.map_eq_some_iff.mp hs
  obtain ⟨k,hk⟩ := hb.kept out hout
  refine ⟨hb.limit,fun o ho => ⟨k,?_⟩⟩
  cases ho
  exact hk.own ⟨rfl,rfl⟩ (List.prefix_append _ _) (fun hr => ⟨hr,Nat.le_refl _⟩) id

private theorem Backed.poll (h : Inv start s) (hb : Backed s) {running : Bool}
    (hs : Logger.poll s running = some t) : Backed t := by
  -- A load of `running_`. When it leads to the draining, what is not on the disk is what was counted and
  -- what is in the queue.
  have hmoved {worker : WorkerPc} {queue : Spsc.State kQueueSize LogEvent}
      (hw : s.worker.afterPoll running = some worker)
      (hqueue : queue.popped = s.queue.popped ∧ queue.pushed = s.queue.pushed) :
      Backed { s with queue, worker } := by
    have hp := WorkerPc.polled_of_afterPoll hw
    have hpc : s.worker.afterStop = false ∧ s.worker.limit = 999 ∧ s.worker.uncounted = 0 ∧ worker.limit = 999 := by
      cases hpc : s.worker <;> rw [hpc] at hw <;> try cases hw
      all_goals cases running <;> exact ⟨rfl,rfl,rfl,rfl⟩
    obtain ⟨hrun,hlimit,hnone,hnext⟩ := hpc
    have hevents : s.eventsSinceFlush.toNat ≤ 999 := hlimit ▸ hb.limit
    refine ⟨hnext ▸ hevents,fun out ho => ?_⟩
    obtain ⟨k,hk⟩ := hb.kept out ho
    have hcounted := hk.counted hrun
    have hoccupied := Spsc.Inv.occupancy h.coherent
    refine ⟨k,?_,fun _ => ?_,fun _ => ?_⟩
    · rw [State.taken, hqueue.1]
      exact hk.durable
    · rw [hqueue.1]
      exact hcounted.trans (by rw [hnone]; exact Nat.le_add_right _ _)
    · rw [hqueue.2]
      unfold behind
      omega
  unfold Logger.poll at hs
  split at hs
  · rename_i worker _ hw
    cases hs
    exact hmoved hw ⟨rfl,rfl⟩
  · rename_i worker released _ hw
    cases hs
    exact hmoved hw ⟨rfl,rfl⟩
  · cases hs

private theorem Backed.pop_return (h : Inv start s) (hb : Backed s) (hpc : s.worker.inPop = true)
    {queue : Spsc.State kQueueSize LogEvent} {item : Option LogEvent}
    (hpopped : queue.popped = s.queue.popped ++ item.toList) (hpushed : queue.pushed = s.queue.pushed) :
    Backed { s with queue, worker := s.worker.afterPop item } := by
  -- The end of a `pop`. An event that is taken is not yet counted.
  refine ⟨hb.limit.trans ((WorkerPc.limit_inPop hpc).trans_le (WorkerPc.limit_ge _)),fun out ho => ?_⟩
  obtain ⟨k,hk⟩ := hb.kept out ho
  have huncounted : s.worker.afterStop = false →
      s.worker.uncounted + item.toList.length ≤ (s.worker.afterPop item).uncounted := by
    have hfile := h.withFile ho
    obtain hw | hw | hw | hw := WorkerPc.inPop_cases hpc <;> rw [hw] at hfile ⊢
    · intro _
      cases item <;> exact Nat.le_refl _
    · nofun
    · cases hfile
    · cases hfile
  refine ⟨k,?_,fun hr => ?_,fun ha => ?_⟩
  · rw [State.taken, hpopped, List.map_append, ← List.cons_append]
    exact hk.durable.mono _ List.prefix_rfl
  · rw [WorkerPc.afterStop_afterPop] at hr
    have hcounted := hk.counted hr
    have := huncounted hr
    rw [hpopped, List.length_append]
    simp only
    omega
  · rw [WorkerPc.afterStop_afterPop] at ha
    rw [hpushed]
    exact hk.drained ha

private theorem Backed.pops (h : Inv start s) (hb : Backed s) {l : Spsc.Label LogEvent}
    (hs : Logger.pops s l = some t) : Backed t := by
  unfold Logger.pops at hs
  split_ifs at hs with hl
  obtain ⟨hpc,hl⟩ := hl
  obtain ⟨queue,hq,rfl⟩ := Option.map_eq_some_iff.mp hs
  obtain ⟨hproducer,_,_,ha⟩ := Spsc.pop_access h.coherent hq hl
  have hpushed : queue.pushed = s.queue.pushed := by rw [Spsc.State.pushed, hproducer, Spsc.State.pushed]
  cases ha with
  | inside returned popped =>
    rw [returned]
    exact hb.aside rfl rfl rfl popped fun _ => hpushed
  | empty pop returned item popped =>
    rw [returned]
    exact hb.pop_return h hpc (by rw [item, popped, Option.toList_none, List.append_nil]) hpushed
  | taken pop ev returned item popped =>
    rw [returned]
    exact hb.pop_return h hpc (by rw [item, popped, Option.toList_some]) hpushed

private theorem Backed.step (h : Inv start s) (hb : Backed s) {l : Label} (hs : Logger.step s l = some t) :
    Backed t := by
  cases l with
  | call c =>
    obtain ⟨hworker,hout,hevents,hpopped,hrun⟩ := calls_aside h (.inl ⟨c,rfl⟩) hs
    exact hb.aside hworker hout hevents hpopped fun ha => nomatch hrun.symm.trans ha
  | pushes k =>
    obtain ⟨hworker,hout,hevents,hpopped,hrun⟩ := calls_aside h (.inr ⟨k,rfl⟩) hs
    exact hb.aside hworker hout hevents hpopped fun ha => nomatch hrun.symm.trans ha
  | openFile isOpen => exact hb.openFile h hs
  | writeHeader => exact hb.writeHeader hs
  | poll running => exact hb.poll h hs
  | pops l => exact hb.pops h hs
  | writeRow => exact hb.writeRow hs
  | maybeFlush elapsed => exact hb.maybeFlush h hs
  | spill n => exact hb.spill hs
  | close => exact hb.close hs
  | stop =>
    simp only [Logger.step, stop] at hs
    split_ifs at hs
    cases hs
    exact hb.aside rfl rfl rfl rfl fun _ => rfl
  | join =>
    simp only [Logger.step, join] at hs
    split_ifs at hs
    cases hs
    exact hb.aside rfl rfl rfl rfl fun _ => rfl

end Steps

/-- What the disk may hold, however the operands are spelled: the stream hands its bytes over
wherever its buffer ends. -/
def OutFile.OnDisk (spell : Operand → ByteString) (out : OutFile) (bytes : ByteString) : Prop :=
  Foundation.Journal.OnDisk spell out.disk out.written bytes

/-- If the process dies, at any point of any schedule behind the opening of the file, then the disk holds
the log up to some byte, and at most the last 5097 lines of it are missing or cut: a full queue, the
thousand events that the worker has counted without a flush, and the header. -/
theorem crash_keeps_beginning (start : SizeT) (schedule : List Label) (s : State) (out : OutFile)
    (run : exec step (init start) schedule = some s) (opened : s.out = some out) (spell : Operand → ByteString)
    {bytes : ByteString} (crash : out.OnDisk spell bytes) :
    Survives (s.journal.map (List.flatMap spell)) bytes 5097 := by
  obtain ⟨h,hb⟩ : Inv start s ∧ Backed s :=
    exec_invariant (P := fun s => Inv start s ∧ Backed s) (fun _ _ _ h hs => ⟨h.1.step hs,h.2.step h.1 hs⟩) run
      ⟨.initial start,.initial start⟩
  obtain ⟨k,hk⟩ := hb.kept out opened
  obtain ⟨later,hlater⟩ : s.queue.popped <+: s.queue.pushed := by
    rw [Spsc.Inv.order h.coherent]
    exact List.take_prefix _ _
  refine crash.survives ?_ (k := k) ?_ ?_
  · rw [State.journal, List.flatten_cons, ← List.flatMap_def]
    exact h.written_prefix opened
  · rw [State.journal, ← h.pushed_eq, ← hlater, List.map_append, ← List.cons_append]
    exact hk.durable.mono _ List.prefix_rfl
  · rw [State.journal, List.length_cons, List.length_map, ← h.pushed_eq]
    have hoccupied := Spsc.Inv.occupancy h.coherent
    have hlimit := hb.limit
    have hsize : kQueueSize.value = 4096 := rfl
    have huncounted := s.worker.limit_uncounted
    cases ha : s.worker.afterStop with
    | false =>
      have hcounted := hk.counted ha
      omega
    | true =>
      have hdrained := hk.drained ha
      unfold behind at hdrained
      omega

/-- How the stream spells the operands of the calls below. -/
def spelled : Operand → ByteString
  | .text bytes => bytes
  | .char c => [c]
  | .unsigned n => ascii (toString n.toNat)
  | .int n => ascii (toString n.val)
  | .double x => if x = 3 / 5 then ascii "0.6" else ascii "0"

/-- The process dies when the destructor has begun and the worker is in the middle of its work. The
last operand on the disk is cut. -/
theorem crash_at_shutdown : ∃ s out, exec step (init 0) (shutdownSchedule.take 29) = some s ∧
    s.out = some out ∧ s.destroyed = false ∧ out.disk.length = 9 ∧ out.buffered.length = 20 ∧
    Survives (s.journal.map (List.flatMap spelled))
      (out.disk.flatMap spelled ++ (out.buffered.flatMap spelled).take 2) 5097 := by
  have he : (exec step (init 0) (shutdownSchedule.take 29)).map (fun s =>
      (s.destroyed, s.out.map fun out => (out.disk.length,out.buffered.length))) = some (false, some (9,20)) := by
    decide +kernel
  obtain ⟨s,hs,ho⟩ := Option.map_eq_some_iff.mp he
  obtain ⟨hd,ho⟩ := Prod.mk.inj ho
  obtain ⟨out,hout,ho⟩ := Option.map_eq_some_iff.mp ho
  obtain ⟨hdisk,hbuffered⟩ := Prod.mk.inj ho
  refine ⟨s,out,hs,hout,hd,hdisk,hbuffered,crash_keeps_beginning 0 _ s out hs hout spelled ⟨List.prefix_append _ _,?_⟩⟩
  rw [OutFile.written, List.flatMap_append]
  exact (List.prefix_append_right_inj _).mpr (List.take_prefix _ _)

end PredictionMarket.Logger

import PredictionMarket.Logger.LoggerInvariant
import PredictionMarket.Strategy.StrategyEngine

/-! Nothing that was accepted is lost or written twice when the logger shuts down, wherever
the worker is when it learns of it. -/
namespace PredictionMarket.Logger
open Queue Market Strategy Foundation.Transition

/-- The calls made so far, in order. -/
def State.calls (s : State) : List Call := s.results.map Prod.fst ++ s.call.toList

def Label.made : Label → Option Call
  | .call c => some c
  | _ => none

/-- The events whose call returned true, in the order of the calls. -/
def State.accepted (s : State) : List LogEvent :=
  (s.results.filter Prod.snd).map fun r => r.1.event

/-- A step adds the call that it makes. -/
theorem calls_step {s t : State} {l : Label} (hs : step s l = some t) :
    t.calls = s.calls ++ l.made.toList := by
  cases l with
  | call c =>
    simp only [step, call] at hs
    split_ifs at hs with hc
    obtain ⟨queue,_,rfl⟩ := Option.map_eq_some_iff.mp hs
    rw [State.calls, State.calls, Option.isNone_iff_eq_none.mp hc.1]
    simp [Label.made]
  | pushes l =>
    simp only [step, pushes] at hs
    split at hs
    · cases hs
    · rename_i c hc
      split_ifs at hs
      obtain ⟨queue,_,rfl⟩ := Option.map_eq_some_iff.mp hs
      split
      · simp [State.calls, Label.made]
      · simp [State.calls, Label.made, hc]
  | pops l =>
    simp only [step, pops] at hs
    split_ifs at hs
    obtain ⟨queue,_,rfl⟩ := Option.map_eq_some_iff.mp hs
    split <;> simp [State.calls, Label.made]
  | openFile isOpen =>
    simp only [step, openFile] at hs
    split at hs
    · cases hs
      split_ifs <;> simp [State.calls, Label.made]
    · cases hs
  | maybeFlush elapsed =>
    simp only [step, maybeFlush] at hs
    split at hs
    · cases hs
      split_ifs <;> simp [State.calls, Label.made]
    · cases hs
  | spill n =>
    obtain ⟨out,_,rfl⟩ := Option.map_eq_some_iff.mp hs
    simp [State.calls, Label.made]
  | writeHeader | poll | writeRow | close =>
    simp only [step, writeHeader, poll, writeRow, close] at hs
    split at hs <;> cases hs
    all_goals simp [State.calls, Label.made]
  | stop | join =>
    simp only [step, stop, join] at hs
    split_ifs at hs
    cases hs
    simp [State.calls, Label.made]

private theorem calls_run {s t : State} {schedule : List Label} (run : exec step s schedule = some t) :
    t.calls = s.calls ++ schedule.filterMap Label.made := by
  induction schedule generalizing s with
  | nil => cases run; simp
  | cons l schedule ih =>
    obtain ⟨u,hu,ht⟩ := exec_cons_some run
    rw [ih ht, calls_step hu, List.append_assoc, List.filterMap_cons]
    cases l.made <;> rfl

namespace Inv
variable {start : SizeT} {s : State}

/-- A call returns what its `push` returns, so the queue holds what was accepted. -/
theorem pushed_eq (h : Inv start s) : s.queue.pushed = s.accepted := by
  have hr := congrArg (fun calls : List (LogEvent × Bool) => (calls.filter Prod.snd).map Prod.fst) h.results
  simp only [List.filter_map, List.map_map] at hr
  rw [Spsc.pushed_eq, State.accepted]
  exact hr

/-- At any time the stream has been given a beginning of the rows of what was accepted. -/
theorem written_prefix (h : Inv start s) {out : OutFile} (hout : s.out = some out) :
    out.written <+: header ++ s.accepted.flatMap row := by
  have hpopped : s.queue.popped <+: s.accepted := by
    rw [← h.pushed_eq, Spsc.Inv.order h.coherent]
    exact List.take_prefix _ _
  obtain ⟨later,hl⟩ := hpopped
  rw [← hl, List.flatMap_append, ← List.append_assoc, ← h.rows out hout, List.append_assoc]
  exact List.prefix_append _ _

/-- When the worker has finished, the file holds a row for each accepted event. -/
theorem disk_rows (h : Inv start s) (hw : s.worker = .finished) {out : OutFile} (hout : s.out = some out) :
    out.disk = header ++ s.accepted.flatMap row := by
  have hd := h.drained (by rw [hw]; rfl)
  have hr := h.rows out hout
  rw [hw, hd, h.pushed_eq] at hr
  rw [OutFile.disk_eq_written (h.flushed hw out hout), ← hr]
  exact (List.append_nil _).symm

end Inv

/-- When the destructor has returned, every call made is among the results, in order, and
the file holds the header and then one row for each call that returned true, in the order
of the calls and nothing else, whatever the schedule was. Read back, the rows are those events. -/
theorem file_holds_accepted (start : SizeT) (schedule : List Label) (s : State) (out : OutFile)
    (run : exec step (init start) schedule = some s) (returned : s.destroyed = true)
    (opened : s.out = some out) :
    s.results.map Prod.fst = schedule.filterMap Label.made ∧
      out.disk = header ++ s.accepted.flatMap row ∧ readLog out.disk = some (s.accepted.map LogEvent.shown) := by
  have h := Inv.run run
  have hw := h.joined returned
  refine and_assoc.mp ⟨⟨?_,?_⟩,?_⟩
  · have hstop := (h.view (by rw [hw]; rfl)).1
    obtain ⟨released,hr⟩ := Option.isSome_iff_exists.mp hstop
    have hc := calls_run run
    rw [State.calls, (h.quiet released hr).1, Option.toList_none, List.append_nil] at hc
    exact hc
  · exact h.disk_rows hw opened
  · rw [h.disk_rows hw opened, readLog_rows]

def activeName : Call := .logActiveStrategy (ascii "both")

def tradeBuy : Call := .logEvent 1000 84 (3 / 5) StrategyEngine.kDefaultTradeSize 0 12

def tradeSell : Call := .logEvent 2000 84 (11 / 20) StrategyEngine.kDefaultSellSize (-1 / 2) 9

def pushCall (c : Call) (published : Nat) : List Label :=
  [.call c,.pushes (.pushLoadOther published),.pushes .construct,.pushes .publishWrite]

def popCall (published : Nat) : List Label :=
  [.pops .popLoadOwn,.pops (.popLoadOther published),.pops .moveOut,.pops .publishRead]

/-- The first event is queued before the file is open and written in the loop, the second is
popped in the loop when the destructor has begun, and the third is drained. -/
def shutdownSchedule : List Label := pushCall activeName 0 ++ [.openFile true,.writeHeader,.poll true] ++
  popCall 1 ++ pushCall tradeBuy 0 ++ [.writeRow,.spill 9,.maybeFlush false,.poll true] ++
  [.pops .popLoadOwn,.pops (.popLoadOther 2)] ++ pushCall tradeSell 1 ++
  [.stop,.pops .moveOut,.pops .publishRead,.writeRow,.maybeFlush true,.poll false] ++ popCall 3 ++
  [.writeRow,.pops .popLoadOwn,.pops (.popLoadOther 3),.close,.join]

/-- The rows of those three calls. -/
def shutdownRows : List Operand :=
  [.unsigned 0,.char 44,.char 77,.char 44,.double 0,.char 44,.int (.zero 32),.char 44,.double 0,.char 44,
    .unsigned 0,.char 44,.text (ascii "both"),.char 10,
    .unsigned 1000,.char 44,.char 84,.char 44,.double (3 / 5),.char 44,.int StrategyEngine.kDefaultTradeSize,.char 44,
    .double 0,.char 44,.unsigned 12,.char 44,.text [],.char 10,
    .unsigned 2000,.char 44,.char 84,.char 44,.double (11 / 20),.char 44,.int StrategyEngine.kDefaultSellSize,.char 44,
    .double (-1 / 2),.char 44,.unsigned 9,.char 44,.text [],.char 10]

theorem shutdown_writes_all : ∃ s out, exec step (init 0) shutdownSchedule = some s ∧
    s.destroyed = true ∧ s.out = some out ∧
    s.results = [(activeName,true),(tradeBuy,true),(tradeSell,true)] ∧
    out.disk = .text (ascii "timestamp_us,event_type,price,size,realized_pnl,latency_us,strategy\n") :: shutdownRows ∧
    readLog out.disk = some [⟨0,77,0,.zero 32,0,0,ascii "both"⟩,
      ⟨1000,84,3 / 5,StrategyEngine.kDefaultTradeSize,0,12,[]⟩,
      ⟨2000,84,11 / 20,StrategyEngine.kDefaultSellSize,-1 / 2,9,[]⟩] := by
  have he : (exec step (init 0) shutdownSchedule).map (fun s => (s.destroyed, s.out.isSome, s.results)) =
      some (true, true, [(activeName,true),(tradeBuy,true),(tradeSell,true)]) := by decide +kernel
  obtain ⟨s,hs,ho⟩ := Option.map_eq_some_iff.mp he
  obtain ⟨hd,ho⟩ := Prod.mk.inj ho
  obtain ⟨hsome,hr⟩ := Prod.mk.inj ho
  obtain ⟨out,hout⟩ := Option.isSome_iff_exists.mp hsome
  obtain ⟨_,hdisk,hread⟩ := file_holds_accepted 0 shutdownSchedule s out hs hd hout
  rw [State.accepted, hr] at hdisk hread
  refine ⟨s,out,hs,hd,hout,hr,hdisk.trans ?_,hread.trans ?_⟩ <;> decide +kernel

end PredictionMarket.Logger

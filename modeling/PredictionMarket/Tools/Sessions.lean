import PredictionMarket.Tools.Replay
import Mathlib.Tactic.NormNum

/-! The main loop of `record_polymarket.py`. Sessions follow one another until a stop is requested;
one that cannot connect, or that ends with an exception, is reported and followed by the next.
Whatever ends a session, the lines written before stay. -/
namespace PredictionMarket.Tools.Recorder
open Foundation.Journal

def backoffInitial : ℚ := 1 / 2

def backoffMax : ℚ := 30

/-- A call of `_record_once`: it raises before the file is opened, or receives messages until the
connection closes or a stop is requested. -/
inductive Session where
  | refused
  | ran (received : List (Message × Int64))

/-- When a stop is requested: before the session is over, in the delay behind it, or later. -/
inductive Stop where
  | during
  | behind
  | later
  deriving DecidableEq

/-- The variables of the main loop, with the delays it has announced. -/
structure Main where
  file : Text
  backoff : ℚ
  waits : List ℚ

section Loop
variable (py : Python)

/-- The file behind a session, closed in every case. -/
def Session.file (file : Text) : Session → Text
  | refused => file
  | ran received => (recordOnce py file received).2

def recordMain (m : Main) : List (Session × Stop) → Main
  | [] => m
  | (session,stop) :: rest =>
    let m := { m with file := session.file py m.file }
    if stop = .during then m
    else
      let m := { m with backoff := min (m.backoff * 2) backoffMax, waits := m.waits ++ [m.backoff] }
      if stop = .behind then m else recordMain m rest

/-- The events of a session before the one that ends it with an exception, if one does. -/
def recordable (received : List (Message × Int64)) : List (Message × Int64) :=
  received.takeWhile fun event => !raises py event

def Session.recordable : Session → List (Message × Int64)
  | refused => []
  | ran received => Recorder.recordable py received

end Loop

/-- The sessions that take place. -/
def happened : List (Session × Stop) → List (Session × Stop)
  | [] => []
  | (session,stop) :: rest => (session,stop) :: if stop = .later then happened rest else []

section Written
variable {py : Python} {r next : Recording} {journal : List Text}

/-- The file holds the journal, and the writer's count says how much of it is not flushed. -/
private structure Written (journal : List Text) (r : Recording) : Prop where
  content : r.f.content = journal.flatten
  recent : r.linesSinceFlush < flushEveryNLines
  counted : ∃ k, Durable journal r.f.flushed k ∧ journal.length = k + r.linesSinceFlush

private theorem Written.append (h : Written journal r) {line : Text} {msgLen : Nat}
    (hs : r.append line msgLen = some next) : Written (journal ++ [line ++ newline]) next := by
  have hcontent := append_eq_some hs
  rw [h.content, ← List.flatten_singleton (l := line ++ newline), ← List.flatten_append] at hcontent
  simp only [Recording.append, Option.bind_eq_bind, Option.bind_eq_some_iff, TextFile.write_eq_some_iff] at hs
  obtain ⟨f,⟨_,rfl⟩,g,⟨_,rfl⟩,hs⟩ := hs
  obtain ⟨k,hdurable,hk⟩ := h.counted
  split_ifs at hs with hflush <;> cases hs
  · refine ⟨hcontent,Nat.zero_lt_succ _,_,.flushed ?_,rfl⟩
    rw [← hcontent, TextFile.flush_content]
    exact List.prefix_rfl
  · refine ⟨hcontent,Nat.not_le.mp hflush,k,hdurable.mono _ List.prefix_rfl,?_⟩
    rw [List.length_append, List.length_singleton, hk, Nat.add_assoc]

variable (py) in
private theorem Written.loop (h : Written journal r) (received : List (Message × Int64)) :
    Written (journal ++ (lines py (recordable py received)).map (· ++ newline)) (recordLoop py r received).1 := by
  induction received generalizing r journal with
  | nil => exact (List.append_nil _).symm ▸ h
  | cons event rest ih =>
    rw [recordLoop, recordable]
    cases hi : iteration py r event.1 event.2 with
    | none =>
      rw [List.takeWhile_cons_of_neg (by rw [iteration_raises_iff.mp hi]; exact Bool.false_ne_true)]
      exact (List.append_nil _).symm ▸ h
    | some next =>
      have hgoing : raises py event = false := by
        rw [← Bool.not_eq_true, ← iteration_raises_iff (r := r), hi]
        exact Option.some_ne_none next
      rw [List.takeWhile_cons_of_pos (by rw [hgoing]; rfl)]
      rcases iteration_lines hi (recordable py rest) with ⟨_,rfl,hlines⟩ | ⟨line,_,_,happend,hlines⟩
      · exact (congrArg (fun ls => Written (journal ++ ls.map (· ++ newline)) _) hlines).mpr (ih h)
      · have hnext := ih (h.append happend)
        rw [List.append_assoc, List.singleton_append, ← List.map_cons (f := (· ++ newline)), ← hlines] at hnext
        exact hnext

private theorem Written.start (file : Text) : Written [file] ⟨⟨file,[]⟩,⟨0,0⟩,0⟩ :=
  ⟨by simp [TextFile.content],Nat.zero_lt_succ _,1,.flushed (by simp),rfl⟩

private theorem Written.moments (h : Written journal r) {event : Message × Int64} {f : TextFile}
    (hf : f ∈ moments py r event.1 event.2) {ls : List Text}
    (hls : ls = (lines py (recordable py [event])).map (· ++ newline)) :
    f.content <+: (journal ++ ls).flatten ∧
      ∃ k, Durable (journal ++ ls) f.flushed k ∧ (journal ++ ls).length ≤ k + 200 := by
  -- At any point of an iteration the file holds no more than its line behind the journal, and so one
  -- line more than the count says may be missing on the disk.
  obtain ⟨k,hdurable,hk⟩ := h.counted
  have hone : ls.length ≤ 1 := by
    rw [hls, List.length_map]
    exact (List.length_filterMap_le _ _).trans (List.takeWhile_sublist _).length_le
  have hcount : (journal ++ ls).length ≤ k + 200 := by
    have hrecent : r.linesSinceFlush < 200 := h.recent
    rw [List.length_append]
    omega
  have hfile : f.content <+: (journal ++ ls).flatten ∧ r.f.flushed <+: f.flushed := by
    rw [List.flatten_append, ← h.content]
    unfold Recorder.moments at hf
    rcases List.mem_cons.mp hf with rfl | hf
    · exact ⟨List.prefix_append _ _,List.prefix_rfl⟩
    split_ifs at hf with hp
    · cases hf
    cases hline : recordedLine py event.1 event.2 with
    | none =>
      rw [hline] at hf
      cases hf
    | some line =>
      simp only [hline] at hf
      obtain ⟨hs,hcontent,hflushed⟩ := mem_calls hf
      have hgoing : raises py event = false := by
        rw [← List.any_eq_true, Bool.not_eq_true] at hs
        simp only [raises, hline, hs, Bool.and_false]
      have hlines : ls.flatten = line ++ newline := by
        rw [hls, recordable, List.takeWhile_cons_of_pos (by rw [hgoing]; rfl), lines, List.takeWhile_nil,
          List.filterMap_cons, if_neg hp, hline]
        exact List.flatten_singleton
      rw [hlines]
      exact ⟨hcontent,hflushed⟩
  exact ⟨hfile.1,k,hdurable.mono ls hfile.2,hcount⟩

end Written

section Results
variable {py : Python}

private theorem recordable_append {handled : List (Message × Int64)} (going : ∀ event ∈ handled, raises py event = false)
    (more : List (Message × Int64)) : recordable py (handled ++ more) = handled ++ recordable py more := by
  refine List.takeWhile_append_of_pos fun event he => ?_
  rw [going event he]
  rfl

variable (py) in
/-- What can be recorded goes through. -/
theorem recordable_going (sessions : List (Session × Stop)) :
    ∀ event ∈ (happened sessions).flatMap (fun s => s.1.recordable py), raises py event = false := by
  intro event he
  obtain ⟨⟨session,_⟩,_,he⟩ := List.mem_flatMap.mp he
  cases session with
  | refused => cases he
  | ran received =>
    have hgoing := List.mem_takeWhile_imp (p := fun event => !raises py event) he
    rwa [Bool.not_eq_true'] at hgoing

/-- The file in the middle of its second line, which is written but not ended. -/
def unended : TextFile := ⟨[],dumps (.dict (wrapped Replay.greeting 9 "non-JSON payload")) ++ newline ++
  dumps (.dict (wrapped Replay.arrayText 7 "non-object JSON payload"))⟩

private theorem Session.file_eq (file : Text) (session : Session) :
    session.file py file = file ++ (lines py (session.recordable py)).flatMap (· ++ newline) := by
  cases session with
  | refused => exact (List.append_nil _).symm
  | ran received =>
    have h := ((Written.start file).loop py received).content
    rw [List.singleton_append, List.flatten_cons, ← List.flatMap_def] at h
    rw [Session.file, recordOnce]
    exact (TextFile.flush_content _).trans h

/-- The main loop appends the lines of the sessions that take place, as far as they can be recorded.
-/
theorem recordMain_file (m : Main) (sessions : List (Session × Stop)) :
    (recordMain py m sessions).file = m.file ++
      (lines py ((happened sessions).flatMap fun s => s.1.recordable py)).flatMap (· ++ newline) := by
  induction sessions generalizing m with
  | nil => exact (List.append_nil _).symm
  | cons session rest ih =>
    obtain ⟨session,stop⟩ := session
    cases stop with
    | during =>
      simp only [recordMain, happened, if_true, reduceCtorEq, if_false, List.flatMap_cons, List.flatMap_nil,
        List.append_nil]
      exact Session.file_eq m.file session
    | behind =>
      simp only [recordMain, happened, if_true, reduceCtorEq, if_false, List.flatMap_cons, List.flatMap_nil,
        List.append_nil]
      exact Session.file_eq m.file session
    | later =>
      simp only [recordMain, happened, if_true, reduceCtorEq, if_false, List.flatMap_cons]
      rw [ih, Session.file_eq, lines, lines, lines, List.filterMap_append, List.flatMap_append, List.append_assoc]

/-- The delay before the attempt with this number. -/
def delay (i : Nat) : ℚ := min (backoffInitial * 2^i) backoffMax

private theorem delay_succ (i : Nat) : min (delay i * 2) backoffMax = delay (i + 1) := by
  have hdouble : min (backoffInitial * 2^i) backoffMax * 2 = min (backoffInitial * 2^i * 2) (backoffMax * 2) :=
    min_mul_of_nonneg _ _ (by norm_num)
  have hmax : min (backoffMax * 2) backoffMax = backoffMax := by
    unfold backoffMax
    norm_num
  rw [delay, delay, hdouble, min_assoc, hmax, pow_succ, mul_assoc]

/-- How many delays follow these sessions: one each, unless a stop comes before. -/
def delays (sessions : List (Session × Stop)) : Nat := sessions.countP fun s => s.2 ≠ .during

variable (py) in
private theorem recordMain_waits (file : Text) (waits : List ℚ) (i : Nat) (sessions : List (Session × Stop)) :
    (recordMain py ⟨file,delay i,waits⟩ sessions).waits =
      waits ++ (List.range (delays (happened sessions))).map fun k => delay (i + k) := by
  induction sessions generalizing file waits i with
  | nil => exact (List.append_nil _).symm
  | cons session rest ih =>
    obtain ⟨session,stop⟩ := session
    cases stop with
    | during =>
      simp only [recordMain, happened, if_true, reduceCtorEq, if_false, delays]
      exact (List.append_nil _).symm
    | behind =>
      simp only [recordMain, happened, if_true, reduceCtorEq, if_false, delays]
      rfl
    | later =>
      have hone : delays ((session,Stop.later) :: happened rest) = delays (happened rest) + 1 :=
        List.countP_cons_of_pos (by simp)
      simp only [recordMain, happened, if_true, reduceCtorEq, if_false, delay_succ, hone]
      rw [ih (session.file py file) (waits ++ [delay i]) (i + 1), List.range_succ_eq_map, List.map_cons,
        List.map_map, List.append_assoc]
      have hshift : (fun k => delay (i + k)) ∘ Nat.succ = fun k => delay (i + 1 + k) := by
        funext k
        exact congrArg delay (Nat.add_right_comm i k 1)
      rw [hshift]
      rfl

end Results
end PredictionMarket.Tools.Recorder

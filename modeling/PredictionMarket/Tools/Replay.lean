import PredictionMarket.Tools.Recorder
import Mathlib.Data.List.DropRight
import Mathlib.Data.Rat.Defs
import Mathlib.Algebra.Order.Ring.Rat

/-! The replay loop of `replay_server.py` over a recorded file. A line is decoded by the
shape it has, and every shape the recorder writes leads back to the message. A line that nobody has
recorded can end the handler with an exception. -/
namespace PredictionMarket.Tools

def lineFeed : CodePoint := .ofChar '\n'

def carriageReturn : CodePoint := .ofChar '\r'

/-- Reading in text mode: every line end becomes a line feed. -/
def universalNewlines (afterReturn : Bool) : Text → Text
  | [] => []
  | c :: rest =>
    if c = lineFeed ∧ afterReturn then universalNewlines false rest
    else if c = carriageReturn then lineFeed :: universalNewlines true rest
    else c :: universalNewlines false rest

/-- The lines of an open file, each with its line feed. -/
def fileLines : Text → List Text
  | [] => []
  | c :: rest =>
    if c = lineFeed then [c] :: fileLines rest
    else match fileLines rest with
      | [] => [[c]]
      | line :: lines => (c :: line) :: lines

private theorem universalNewlines_oneLine {line : Text} (h : Recorder.OneLine line) (rest : Text)
    (afterReturn : Bool) (hne : line ≠ [] ∨ afterReturn = false) :
    universalNewlines afterReturn (line ++ newline ++ rest) =
      line ++ newline ++ universalNewlines false rest := by
  induction line generalizing afterReturn with
  | nil =>
    obtain rfl := hne.resolve_left (absurd rfl)
    rfl
  | cons c line ih =>
    have hc := h c List.mem_cons_self
    have hlf : c ≠ lineFeed := fun he => hc.1 (he ▸ rfl)
    have hcr : c ≠ carriageReturn := fun he => hc.2 (he ▸ rfl)
    simp only [List.cons_append, universalNewlines, hlf, hcr, false_and, if_false]
    rw [ih (fun d hd => h d (List.mem_cons_of_mem _ hd)) false (.inr rfl)]

private theorem fileLines_oneLine {line : Text} (h : Recorder.OneLine line) (rest : Text) :
    fileLines (line ++ newline ++ rest) = (line ++ newline) :: fileLines rest := by
  induction line with
  | nil => rfl
  | cons c line ih =>
    have hlf : c ≠ lineFeed := fun he => (h c List.mem_cons_self).1 (he ▸ rfl)
    simp only [List.cons_append, fileLines, hlf, if_false]
    rw [ih fun d hd => h d (List.mem_cons_of_mem _ hd)]

/-- A file of whole lines is read back line by line. -/
theorem fileLines_flatMap {lines : List Text} (h : ∀ line ∈ lines, Recorder.OneLine line) :
    fileLines (universalNewlines false (lines.flatMap (· ++ newline))) = lines.map (· ++ newline) := by
  induction lines with
  | nil => rfl
  | cons line lines ih =>
    rw [List.forall_mem_cons] at h
    rw [List.flatMap_cons, universalNewlines_oneLine h.1 _ false (.inr rfl), fileLines_oneLine h.1,
      ih h.2, List.map_cons]

/-- `raw_line.rstrip("\n")` -/
def rstrip (rawLine : Text) : Text := rawLine.rdropWhile fun c => c = lineFeed

private theorem rstrip_newline {line : Text} (h : Recorder.OneLine line) : rstrip (line ++ newline) = line := by
  have hend : rstrip (line ++ newline) = line.rdropWhile fun c => c = lineFeed :=
    List.rdropWhile_concat_pos _ _ _ (decide_eq_true rfl)
  rw [hend, List.rdropWhile_eq_self_iff]
  intro hne hlast
  exact (h _ (List.getLast_mem hne)).1 (of_decide_eq_true hlast ▸ rfl)

namespace Replay

/-- `isinstance(v, str) and v` -/
def nonEmptyStr : Option Value → Option Text
  | some (.str s) => if s = [] then none else some s
  | _ => none

/-- What `int(v)` comes to: a number, a `TypeError` or `ValueError`, or an `OverflowError`. -/
inductive Converted where
  | value (n : Int)
  | refused
  | overflow

/-- The part before the decimal point. -/
def toInt : PyFloat → Converted
  | .finite x _ _ => .value (x.num.tdiv x.den)
  | .infinity _ => .overflow
  | .nan => .refused

section Extraction
variable (py : Python)

/-- `int(v)` -/
def int : Value → Converted
  | .bool b => .value (if b then 1 else 0)
  | .int n => .value n
  | .float x => toInt x
  | .str s =>
    match py.intOfStr s with
    | some n => .value n
    | none => .refused
  | .none => .refused
  | .list _ => .refused
  | .dict _ => .refused

/-- There is no result at all if an exception is not caught. -/
def extractLocalTimestampNs (line : Text) : Option (Option Int) :=
  match py.loads line with
  | .raised => none
  | .value (.dict obj) =>
    match Dict.get obj (text "local_timestamp_ns") with
    | none => some none
    | some .none => some none
    | some ts =>
      match int py ts with
      | .value n => some (some n)
      | .refused => some none
      | .overflow => none
  | _ => some none

def extractReplayPayload (line : Text) : Option Text :=
  match py.loads line with
  | .raised => none
  | .value (.dict obj) =>
    match nonEmptyStr (Dict.get obj (text "raw_message")) with
    | some rawMessage => some rawMessage
    | none =>
      match nonEmptyStr (Dict.get obj (text "raw")) with
      | some raw => some raw
      | none => some line
  | _ => some line

end Extraction

/-- What the handler does on the connection. -/
inductive Action where
  | sleep (seconds : ℚ)
  | send (payload : Text)
  deriving DecidableEq

def Action.sent : Action → Option Text
  | send payload => some payload
  | sleep _ => none

/-- An `int` from here on is no `float` any more. -/
def floatLimit : Int := 2^1024 - 2^970

/-- The pause between two timestamps, capped; the division raises on too long a time. -/
def pause (replayMaxSleep : ℚ) : Option Int → Option Int → Option (List Action)
  | some prevTsNs, some tsNs =>
    let deltaNs := tsNs - prevTsNs
    if deltaNs > 0 then
      if deltaNs < floatLimit then some [.sleep (min (deltaNs / 1000000000) replayMaxSleep)] else none
    else some []
  | _, _ => some []

section Handler
variable (py : Python) (replayMaxSleep : ℚ)

/-- One line: what is done about it and, unless an exception comes, the timestamp for the next. A
payload with a surrogate cannot be sent. -/
def replayLine (prevTsNs : Option Int) (line : Text) : List Action × Option (Option Int) :=
  match extractLocalTimestampNs py line with
  | none => ([],none)
  | some tsNs =>
    match pause replayMaxSleep prevTsNs tsNs with
    | none => ([],none)
    | some paused =>
      match extractReplayPayload py line with
      | none => (paused,none)
      | some payload =>
        if payload.any CodePoint.isSurrogate then (paused,none)
        else (paused ++ [.send payload],some (tsNs.or prevTsNs))

/-- The loop over the lines of the file, and whether it ended with an exception. -/
def replayLines (prevTsNs : Option Int) : List Text → List Action × Bool
  | [] => ([],false)
  | rawLine :: rest =>
    let line := rstrip rawLine
    if line = [] then replayLines prevTsNs rest
    else
      match replayLine py replayMaxSleep prevTsNs line with
      | (actions,none) => (actions,true)
      | (actions,some prevTsNs) =>
        let (later,raised) := replayLines prevTsNs rest
        (actions ++ later,raised)

/-- One pass over the file. -/
def replayPass (file : Text) : List Action × Bool :=
  replayLines py replayMaxSleep none (fileLines (universalNewlines false file))

end Handler

section Fidelity
open Recorder
variable {py : Python} {replayMaxSleep : ℚ} {m : Text × Int64} {line : Text}

/-- A line from which the handler reads this message. -/
structure ReadBack (py : Python) (m : Text × Int64) (line : Text) : Prop where
  oneLine : OneLine line
  nonempty : line ≠ []
  timestamp : extractLocalTimestampNs py line = some (some m.2.toInt)
  payload : extractReplayPayload py line = some m.1
  scalars : m.1.any CodePoint.isSurrogate = false

/-- The pause between two messages. -/
def waited (replayMaxSleep : ℚ) (prev : Option Int64) (now : Int64) : List Action :=
  match prev with
  | none => []
  | some prev =>
    if prev.toInt < now.toInt then [.sleep (min ((now.toInt - prev.toInt : Int) / 1000000000) replayMaxSleep)] else []

/-- What a pass over the lines of these messages does. -/
def repeated (replayMaxSleep : ℚ) (prev : Option Int64) : List (Text × Int64) → List Action
  | [] => []
  | m :: messages => waited replayMaxSleep prev m.2 ++ .send m.1 :: repeated replayMaxSleep (some m.2) messages

private theorem pause_stamps (prev : Option Int64) (now : Int64) :
    pause replayMaxSleep (prev.map Int64.toInt) (some now.toInt) = some (waited replayMaxSleep prev now) := by
  cases prev with
  | none => rfl
  | some prev =>
    have hlow := prev.le_toInt
    have hhigh := now.toInt_lt
    have hroom : (2^64 : Int) ≤ floatLimit := by decide +kernel
    have hfits : now.toInt - prev.toInt < floatLimit := by omega
    have hlt : now.toInt - prev.toInt > 0 ↔ prev.toInt < now.toInt := Int.sub_pos
    simp only [Option.map_some, pause, waited, hlt, if_pos hfits]
    split_ifs <;> rfl

private theorem replayLines_readBack {messages : List (Text × Int64)} {lines : List Text}
    (h : List.Forall₂ (ReadBack py) messages lines) (prev : Option Int64) :
    replayLines py replayMaxSleep (prev.map Int64.toInt) (lines.map (· ++ newline)) =
      (repeated replayMaxSleep prev messages,false) := by
  induction h generalizing prev with
  | nil => rfl
  | @cons m line messages lines hread _ ih =>
    have hline : replayLine py replayMaxSleep (prev.map Int64.toInt) line =
        (waited replayMaxSleep prev m.2 ++ [.send m.1],some ((some m.2).map Int64.toInt)) := by
      simp only [replayLine, hread.timestamp, pause_stamps, hread.payload, hread.scalars, Bool.false_eq_true,
        if_false, Option.some_or, Option.map_some]
    rw [List.map_cons, replayLines]
    simp only [rstrip_newline hread.oneLine, if_neg hread.nonempty, hline, ih]
    rw [List.append_assoc, List.singleton_append]
    rfl

/-- A pass over a file of lines that are read back. -/
theorem replayPass_readBack {messages : List (Text × Int64)} {lines : List Text}
    (h : List.Forall₂ (ReadBack py) messages lines) :
    replayPass py replayMaxSleep (lines.flatMap (· ++ newline)) = (repeated replayMaxSleep none messages,false) := by
  have hones : ∀ line ∈ lines, OneLine line := by
    induction h with
    | nil => exact nofun
    | cons hread _ ih => exact List.forall_mem_cons.mpr ⟨hread.oneLine,ih⟩
  rw [replayPass, fileLines_flatMap hones]
  exact replayLines_readBack h none

/-- What is sent again are the texts. -/
theorem repeated_sent (prev : Option Int64) (messages : List (Text × Int64)) :
    (repeated replayMaxSleep prev messages).filterMap Action.sent = messages.map Prod.fst := by
  induction messages generalizing prev with
  | nil => rfl
  | cons m messages ih =>
    have hsilent : (waited replayMaxSleep prev m.2).filterMap Action.sent = [] := by
      unfold waited
      split
      · rfl
      · split_ifs <;> rfl
    rw [repeated, List.filterMap_append, hsilent, List.nil_append, List.map_cons, ← ih (some m.2)]
    rfl

/-- What the recorder makes of a text is decoded to itself. -/
def RoundTrip (py : Python) (m : Text × Int64) : Prop :=
  ∀ payload, recordedText py m.1 m.2 = some payload → py.loads (dumps (.dict payload)) = .value (.dict payload)

private theorem recordedText_cases {payload : List (Text × Value)} (h : recordedText py m.1 m.2 = some payload) :
    (∃ fields, payload = enriched fields m.1 m.2) ∨ ∃ note, payload = wrapped m.1 m.2 note := by
  unfold recordedText at h
  split at h
  · exact .inl ⟨_,(Option.some.inj h).symm⟩
  · exact .inr ⟨_,(Option.some.inj h).symm⟩
  · exact .inr ⟨_,(Option.some.inj h).symm⟩
  · cases h

/-- Whatever fields the text has itself, its own time is in the line and the text is found again. -/
theorem recordedText_fields {payload : List (Text × Value)} (h : recordedText py m.1 m.2 = some payload)
    (nonempty : m.1 ≠ []) : Dict.get payload (text "local_timestamp_ns") = some (.int m.2.toInt) ∧
      ((nonEmptyStr (Dict.get payload (text "raw_message"))).or
        (nonEmptyStr (Dict.get payload (text "raw")))) = some m.1 ∧
      ∃ key, (key,.str m.1) ∈ payload := by
  have hmsg : nonEmptyStr (some (.str m.1)) = some m.1 := if_neg nonempty
  rcases recordedText_cases h with ⟨fields,rfl⟩ | ⟨note,rfl⟩
  · have hraw : Dict.get (enriched fields m.1 m.2) (text "raw_message") = some (.str m.1) :=
      Dict.get_set_self _ _ _
    refine ⟨?_,by rw [hraw, hmsg, Option.some_or],text "raw_message",Dict.mem_set.mpr (.inl rfl)⟩
    change Dict.get (Dict.set (Dict.set (Dict.set _ _ _) _ _) _ _) _ = _
    rw [Dict.get_set_ne _ _ (by decide), Dict.get_set_ne _ _ (by decide), Dict.get_set_self]
  · have habsent : Dict.get (wrapped m.1 m.2 note) (text "raw_message") = none := rfl
    have hraw : Dict.get (wrapped m.1 m.2 note) (text "raw") = some (.str m.1) := rfl
    have hnone : nonEmptyStr none = none := rfl
    exact ⟨rfl,by rw [habsent, hraw, hmsg, hnone, Option.none_or],text "raw",by simp [wrapped]⟩

/-- The line of a text message is read back, whatever the message holds. -/
theorem recordedLine_readBack (nonempty : m.1 ≠ []) (roundTrip : RoundTrip py m)
    (hline : recordedLine py (.str m.1) m.2 = some line) (hs : line.any CodePoint.isSurrogate = false) :
    ReadBack py m line := by
  obtain ⟨payload,hpayload,hcompact⟩ := Option.bind_eq_some_iff.mp hline
  obtain rfl := compactJson_eq_some hcompact
  have hloads := roundTrip payload hpayload
  obtain ⟨hts,hfound,key,hmem⟩ := recordedText_fields hpayload nonempty
  refine ⟨recordedLine_oneLine hline,List.cons_ne_nil _ _,?_,?_,?_⟩
  · rw [extractLocalTimestampNs, hloads]
    simp only [hts]
    rfl
  · rw [extractReplayPayload, hloads]
    simp only []
    cases hr : nonEmptyStr (Dict.get payload (text "raw_message")) with
    | some raw => rwa [hr, Option.some_or] at hfound
    | none =>
      rw [hr, Option.none_or] at hfound
      simp only [hfound]
  · rw [← Bool.not_eq_true, List.any_eq_true] at hs ⊢
    rintro ⟨c,hc,hsur⟩
    have hstring : m.1 ∈ (Value.dict payload).strings :=
      mem_entryStrings.mpr ⟨_,hmem,List.mem_cons_of_mem _ (List.mem_singleton_self _)⟩
    exact hs ((dumps_surrogate_iff _).mpr ⟨m.1,hstring,c,hc,hsur⟩)

/-- Text messages with the times of their receipt. -/
def received (messages : List (Text × Int64)) : List (Message × Int64) :=
  messages.map fun m => (.str m.1,m.2)

/-- The lines of text messages that could all be recorded are read back, "PONG" left out. -/
theorem lines_readBack {messages : List (Text × Int64)} (nonempty : ∀ m ∈ messages, m.1 ≠ [])
    (roundTrip : ∀ m ∈ messages, m.1 ≠ pong → RoundTrip py m)
    (going : ∀ event ∈ received messages, raises py event = false) :
    List.Forall₂ (ReadBack py) (messages.filter fun m => m.1 ≠ pong) (lines py (received messages)) := by
  induction messages with
  | nil => exact .nil
  | cons m messages ih =>
    rw [List.forall_mem_cons] at nonempty roundTrip
    rw [received, List.map_cons, List.forall_mem_cons] at going
    have hrest := ih nonempty.2 roundTrip.2 going.2
    change List.Forall₂ _ _ (lines py ((.str m.1,m.2) :: received messages))
    by_cases hp : m.1 = pong
    · have hskip : lines py ((.str m.1,m.2) :: received messages) = lines py (received messages) := by
        rw [lines, List.filterMap_cons, if_pos (congrArg Message.str hp), lines]
      rwa [List.filter_cons_of_neg (by simpa using hp), hskip]
    · have hne : Message.str m.1 ≠ .str pong := fun h => hp (Message.str.inj h)
      have hone := going.1
      cases hline : recordedLine py (.str m.1) m.2 with
      | none => simp [raises, hne, hline] at hone
      | some line =>
        have hcons : lines py ((.str m.1,m.2) :: received messages) = line :: lines py (received messages) := by
          rw [lines, List.filterMap_cons, if_neg hne, hline, lines]
        have hs : line.any CodePoint.isSurrogate = false := by simpa [raises, hne, hline] using hone
        rw [List.filter_cons_of_pos (by simpa using hp), hcons]
        exact .cons (recordedLine_readBack nonempty.1 (roundTrip.1 hp) hline hs) hrest

/-- One pass over a recording sends the text messages of all its sessions again, exactly
and in order, "PONG" left out, and nothing else; and it gets to the end of the file. -/
theorem replay_reproduces (py : Python) (replayMaxSleep : ℚ) (sessions : List (List (Text × Int64)))
    (nonempty : ∀ messages ∈ sessions, ∀ m ∈ messages, m.1 ≠ [])
    (roundTrip : ∀ messages ∈ sessions, ∀ m ∈ messages, m.1 ≠ pong → RoundTrip py m)
    (file : Text) (written : recordSessions py [] (sessions.map received) = some file) :
    (replayPass py replayMaxSleep file).1.filterMap Action.sent =
      (sessions.flatten.map Prod.fst).filter (fun msg => msg ≠ pong) ∧
    (replayPass py replayMaxSleep file).2 = false := by
  obtain ⟨hgoing,hfile⟩ := recordSessions_file written
  have hflatten : (sessions.map received).flatten = received sessions.flatten := by
    rw [received, List.map_flatten]
    rfl
  rw [hflatten] at hgoing hfile
  have hread : List.Forall₂ (ReadBack py) (sessions.flatten.filter fun m => m.1 ≠ pong)
      (lines py (received sessions.flatten)) := by
    refine lines_readBack ?_ ?_ hgoing
    · intro m hm
      obtain ⟨messages,hmessages,hm⟩ := List.mem_flatten.mp hm
      exact nonempty messages hmessages m hm
    · intro m hm
      obtain ⟨messages,hmessages,hm⟩ := List.mem_flatten.mp hm
      exact roundTrip messages hmessages m hm
  rw [hfile, List.nil_append, replayPass_readBack hread]
  refine ⟨?_,rfl⟩
  rw [repeated_sent, List.filter_map]
  rfl

/-- An object with a field of the recorder's name, an array, and a text that is no JSON. -/
def mimicText : Text := text "\x7b\"raw_message\":\"x\"\x7d"

def mimic : List (Text × Value) := [(text "raw_message",.str (text "x"))]

def arrayText : Text := text "[1]"

def greeting : Text := text "hello"

def twoSessions : List (List (Text × Int64)) := [[(mimicText,5),(pong,6),(arrayText,7)],[(greeting,9)]]

/-- An interpreter that knows the messages and the lines of these sessions. -/
def twoSessionsPython : Python := .knowing [(mimicText,.dict mimic),(arrayText,.list [.int 1]),
  (dumps (.dict (enriched mimic mimicText 5)),.dict (enriched mimic mimicText 5)),
  (dumps (.dict (wrapped arrayText 7 "non-object JSON payload")),
    .dict (wrapped arrayText 7 "non-object JSON payload")),
  (dumps (.dict (wrapped greeting 9 "non-JSON payload")),.dict (wrapped greeting 9 "non-JSON payload"))]

theorem twoSessions_replayed : ∃ file,
    recordSessions twoSessionsPython [] (twoSessions.map received) = some file ∧
      (replayPass twoSessionsPython (1/2) file).1.filterMap Action.sent = [mimicText,arrayText,greeting] ∧
      (replayPass twoSessionsPython (1/2) file).2 = false := by
  have hwritten : (recordSessions twoSessionsPython [] (twoSessions.map received)).isSome = true := by
    decide +kernel
  refine ⟨_,(Option.some_get hwritten).symm,?_⟩
  apply replay_reproduces twoSessionsPython (1/2) twoSessions
  · decide
  · simp only [twoSessions, List.forall_mem_cons, List.not_mem_nil, false_implies, implies_true, and_true]
    refine ⟨⟨fun _ => ?_,fun h => absurd rfl h,fun _ => ?_⟩,fun _ => ?_⟩ <;> rintro _ ⟨⟩ <;> rfl
  · exact (Option.some_get hwritten).symm

end Fidelity
end Replay
end PredictionMarket.Tools

import PredictionMarket.Tools.PythonJson
import PredictionMarket.Foundation.Journal

/-! The recording loop of `record_polymarket.py`. Each message becomes one line of the
output file; an exception other than a `JSONDecodeError` leaves the loop. The exceptions are those of
`json.loads` and `json.dumps`, and that of the file on a text that is no utf-8. -/
namespace PredictionMarket.Tools

def newline : Text := text "\n"

/-- A file opened for writing: what has been flushed, and what the writer still holds. -/
structure TextFile where
  flushed : Text
  pending : Text
  deriving DecidableEq

namespace TextFile

def content (f : TextFile) : Text := f.flushed ++ f.pending

/-- `f.write(s)` with the encoding utf-8; there is no result if it raises. -/
def write (f : TextFile) (s : Text) : Option TextFile :=
  if s.any CodePoint.isSurrogate then none else some { f with pending := f.pending ++ s }

def flush (f : TextFile) : TextFile := ⟨f.content,[]⟩

/-- What the disk may hold: a full buffer is handed on before any flush, up to any byte. -/
def OnDisk (f : TextFile) (bytes : List UInt8) : Prop :=
  Foundation.Journal.OnDisk CodePoint.utf8 f.flushed f.content bytes

/-- A write raises on a surrogate and is pending otherwise. -/
theorem write_eq_some_iff {f g : TextFile} {s : Text} : f.write s = some g ↔
    (¬ ∃ c ∈ s, c.isSurrogate = true) ∧ g = { f with pending := f.pending ++ s } := by
  unfold write
  split_ifs with h
  · rw [List.any_eq_true] at h
    exact iff_of_false (nomatch ·) fun hn => hn.1 h
  · rw [List.any_eq_true] at h
    rw [Option.some_inj, eq_comm]
    exact (and_iff_right h).symm

private theorem write_scalars (f : TextFile) {s : Text} (h : ¬ ∃ c ∈ s, c.isSurrogate = true) :
    f.write s = some { f with pending := f.pending ++ s } := write_eq_some_iff.mpr ⟨h,rfl⟩

@[simp] theorem flush_content (f : TextFile) : f.flush.content = f.content := List.append_nil _

end TextFile

namespace Recorder

structure RecorderStats where
  messages : Nat
  bytes : Nat

def includeRawMessage : Bool := true

def flushEveryNLines : Nat := 200

/-- What `ws.recv()` returns. -/
inductive Message where
  | str (msg : Text)
  | bytes (msg : List UInt8)
  deriving DecidableEq

def Message.length : Message → Nat
  | str msg => msg.length
  | bytes msg => msg.length

/-- `msg.hex()` -/
def hex (msg : List UInt8) : Text :=
  msg.flatMap fun b => [hexDigit (b.toNat / 16),hexDigit (b.toNat % 16)]

def pong : Text := text "PONG"

section Encoding

/-- An object keeps its fields and gains the recorder's. The time is that of `time.time_ns()`,
which has 64 bits. -/
def enriched (payload : List (Text × Value)) (msg : Text) (now : Int64) : List (Text × Value) :=
  let payload := Dict.set payload (text "local_timestamp_ns") (.int now.toInt)
  let payload := Dict.set payload (text "raw_is_bytes") (.bool false)
  if includeRawMessage then Dict.set payload (text "raw_message") (.str msg) else payload

/-- Any other text is wrapped. -/
def wrapped (msg : Text) (now : Int64) (note : String) : List (Text × Value) :=
  [(text "local_timestamp_ns",.int now.toInt),(text "raw",.str msg),(text "raw_is_bytes",.bool false),
    (text "note",.str (text note))]

/-- And so is a binary message. -/
def wrappedBytes (msg : List UInt8) (now : Int64) : List (Text × Value) :=
  [(text "local_timestamp_ns",.int now.toInt),(text "raw_bytes",.str (hex msg)),(text "raw_is_bytes",.bool true)]

variable (py : Python)

/-- The object recorded for a text; there is none if `json.loads` raises what the loop does not
catch. -/
def recordedText (msg : Text) (now : Int64) : Option (List (Text × Value)) :=
  match py.loads msg with
  | .value (.dict payload) => some (enriched payload msg now)
  | .value _ => some (wrapped msg now "non-object JSON payload")
  | .decodeError => some (wrapped msg now "non-JSON payload")
  | .raised => none

/-- The line recorded for a message; there is none if an exception comes before it. -/
def recordedLine (msg : Message) (now : Int64) : Option Text :=
  match msg with
  | .str msg => (recordedText py msg now).bind fun payload => py.compactJson (.dict payload)
  | .bytes msg => py.compactJson (.dict (wrappedBytes msg now))

end Encoding

/-- The variables of the loop. -/
structure Recording where
  f : TextFile
  stats : RecorderStats
  linesSinceFlush : Nat

/-- The end of the loop body. -/
def Recording.append (r : Recording) (line : Text) (msgLen : Nat) : Option Recording := do
  let f ← r.f.write line
  let f ← f.write newline
  let stats := ⟨r.stats.messages + 1,r.stats.bytes + msgLen⟩
  let linesSinceFlush := r.linesSinceFlush + 1
  return if linesSinceFlush ≥ flushEveryNLines then ⟨f.flush,stats,0⟩ else ⟨f,stats,linesSinceFlush⟩

/-- One iteration: a message and the time of its receipt. -/
def iteration (py : Python) (r : Recording) (msg : Message) (now : Int64) : Option Recording :=
  if msg = .str pong then some r
  else (recordedLine py msg now).bind fun line => r.append line msg.length

/-- The file behind each call that the end of the loop body makes on it. -/
def Recording.calls (r : Recording) (line : Text) : List TextFile :=
  match r.f.write line with
  | none => []
  | some f =>
    match f.write newline with
    | none => [f]
    | some g => if r.linesSinceFlush + 1 ≥ flushEveryNLines then [f,g,g.flush] else [f,g]

/-- The file at every point of an iteration. -/
def moments (py : Python) (r : Recording) (msg : Message) (now : Int64) : List TextFile :=
  r.f :: if msg = .str pong then [] else
    match recordedLine py msg now with
    | none => []
    | some line => r.calls line

/-- The loop until the connection closes, and whether it ended with an exception. -/
def recordLoop (py : Python) : Recording → List (Message × Int64) → Recording × Bool
  | r, [] => (r, false)
  | r, (msg,now) :: rest =>
    match iteration py r msg now with
    | none => (r, true)
    | some r => recordLoop py r rest

/-- `_record_once` from the subscription on: its result, unless it raises, and the file. -/
def recordOnce (py : Python) (file : Text) (received : List (Message × Int64)) :
    Option RecorderStats × Text :=
  let (r, raised) := recordLoop py ⟨⟨file,[]⟩,⟨0,0⟩,0⟩ received
  (if raised then none else some r.stats, r.f.flush.content)

/-- No character of the text ends a line. -/
def OneLine (line : Text) : Prop := ∀ c ∈ line, c.val ≠ 0x0A ∧ c.val ≠ 0x0D

private theorem newline_scalars : ¬ ∃ c ∈ newline, c.isSurrogate = true := by decide

section Append
variable {r next : Recording} {line : Text} {msgLen : Nat}

/-- Writing a line puts it at the end of the file with a line break behind it. -/
theorem append_eq_some (h : r.append line msgLen = some next) :
    next.f.content = r.f.content ++ (line ++ newline) := by
  simp only [Recording.append, Option.bind_eq_bind, Option.bind_eq_some_iff, TextFile.write_eq_some_iff] at h
  obtain ⟨f,⟨_,rfl⟩,g,⟨_,rfl⟩,h⟩ := h
  split_ifs at h
  · cases h
    simp only [TextFile.content, TextFile.flush, List.append_assoc, List.append_nil]
  · cases h
    simp only [TextFile.content, List.append_assoc]

/-- Writing a line raises exactly if it holds a surrogate. -/
theorem append_isSome_iff : (∃ next, r.append line msgLen = some next) ↔
    ¬ ∃ c ∈ line, c.isSurrogate = true := by
  constructor
  · rintro ⟨next,h⟩
    simp only [Recording.append, Option.bind_eq_bind, Option.bind_eq_some_iff,
      TextFile.write_eq_some_iff] at h
    obtain ⟨f,⟨hline,_⟩,_⟩ := h
    exact hline
  · intro h
    simp only [Recording.append, TextFile.write_scalars _ h, TextFile.write_scalars _ newline_scalars,
      Option.bind_eq_bind, Option.bind_some]
    exact ⟨_,rfl⟩

/-- A call adds a part of the line at most, and nothing is lost of what had been flushed. -/
theorem mem_calls {f : TextFile} (h : f ∈ r.calls line) : (¬ ∃ c ∈ line, c.isSurrogate = true) ∧
    f.content <+: r.f.content ++ (line ++ newline) ∧ r.f.flushed <+: f.flushed := by
  unfold Recording.calls at h
  cases hf : r.f.write line with
  | none =>
    rw [hf] at h
    cases h
  | some f₁ =>
    obtain ⟨hs,rfl⟩ := TextFile.write_eq_some_iff.mp hf
    have hwritten : TextFile.content ⟨r.f.flushed,r.f.pending ++ line⟩ <+: r.f.content ++ (line ++ newline) :=
      ⟨newline,by simp only [TextFile.content, List.append_assoc]⟩
    have hended : TextFile.content ⟨r.f.flushed,r.f.pending ++ line ++ newline⟩ = r.f.content ++ (line ++ newline) := by
      simp only [TextFile.content, List.append_assoc]
    simp only [hf, TextFile.write_scalars _ newline_scalars] at h
    have hkept : r.f.flushed <+: r.f.content ++ (line ++ newline) :=
      (List.prefix_append _ _).trans (List.prefix_append _ _)
    split_ifs at h <;> simp only [List.mem_cons, List.not_mem_nil, or_false] at h
    · rcases h with rfl | rfl | rfl
      · exact ⟨hs,hwritten,List.prefix_rfl⟩
      · exact ⟨hs,hended ▸ List.prefix_rfl,List.prefix_rfl⟩
      · rw [TextFile.flush_content, TextFile.flush, hended]
        exact ⟨hs,List.prefix_rfl,hkept⟩
    · rcases h with rfl | rfl
      · exact ⟨hs,hwritten,List.prefix_rfl⟩
      · exact ⟨hs,hended ▸ List.prefix_rfl,List.prefix_rfl⟩

end Append

/-- No code point of these strings is a surrogate. -/
def Scalar (strings : List Text) : Prop := ∀ s ∈ strings, ∀ c ∈ s, c.isSurrogate = false

/-- The keys of the entries that an object gains. -/
def ownKeys : List Text := [text "local_timestamp_ns",text "raw_is_bytes",text "raw_message"]

/-- The entries that an object keeps have no string with a surrogate in it, and `json.dumps` gets
through their nesting. -/
def Encodable (py : Python) (payload : List (Text × Value)) : Prop := ∀ entry ∈ payload, entry.1 ∉ ownKeys →
  Scalar (memberStrings entry) ∧ entry.2.depth < py.deepest

/-- Such an object becomes a line of the file. -/
private structure Storable (py : Python) (payload : List (Text × Value)) : Prop where
  shallow : ∀ entry ∈ payload, entry.2.depth < py.deepest
  scalars : ∀ entry ∈ payload, Scalar (memberStrings entry)

private theorem scalar_append {strings more : List Text} :
    Scalar (strings ++ more) ↔ Scalar strings ∧ Scalar more := List.forall_mem_append

private theorem scalar_entryStrings {payload : List (Text × Value)} :
    Scalar (entryStrings payload) ↔ ∀ entry ∈ payload, Scalar (memberStrings entry) := by
  induction payload with
  | nil => exact iff_of_true nofun nofun
  | cons entry rest ih => rw [entryStrings, scalar_append, ih, List.forall_mem_cons]

private theorem scalar_iff (strings : List Text) :
    Scalar strings ↔ ¬ ∃ s ∈ strings, ∃ c ∈ s, c.isSurrogate = true := by
  simp only [Scalar, not_exists, not_and, Bool.not_eq_true]

section Storing
variable {py : Python} {payload : List (Text × Value)} {msg : Text} {now : Int64}

private theorem compactJson_storable : (∃ line, py.compactJson (.dict payload) = some line ∧
    ¬ ∃ c ∈ line, c.isSurrogate = true) ↔ Storable py payload := by
  have hdepth : (Value.dict payload).depth ≤ py.deepest ↔ ∀ entry ∈ payload, entry.2.depth < py.deepest := by
    rw [Value.depth, Nat.succ_le_iff, ← Nat.le_sub_one_iff_lt py.deepest_pos, entriesDepth_le]
    simp only [Nat.le_sub_one_iff_lt py.deepest_pos]
  have hscalars : (¬ ∃ c ∈ dumps (.dict payload), c.isSurrogate = true) ↔
      ∀ entry ∈ payload, Scalar (memberStrings entry) := by
    rw [dumps_surrogate_iff, ← scalar_iff]
    exact scalar_entryStrings
  unfold Python.compactJson
  split_ifs with h
  · refine ⟨?_,fun hs => ⟨_,rfl,hscalars.mpr hs.scalars⟩⟩
    rintro ⟨line,⟨⟩,hline⟩
    exact ⟨hdepth.mp h,hscalars.mp hline⟩
  · refine iff_of_false ?_ fun hs => h (hdepth.mpr hs.shallow)
    rintro ⟨line,⟨⟩,_⟩

private theorem mem_enriched {entry : Text × Value} : entry ∈ enriched payload msg now ↔
    entry = (text "raw_message",.str msg) ∨ entry = (text "raw_is_bytes",.bool false) ∨
      entry = (text "local_timestamp_ns",.int now.toInt) ∨ entry ∈ payload ∧ entry.1 ∉ ownKeys := by
  have hkeys : text "raw_is_bytes" ≠ text "raw_message" ∧ text "local_timestamp_ns" ≠ text "raw_message" ∧
      text "local_timestamp_ns" ≠ text "raw_is_bytes" := by decide
  change entry ∈ Dict.set (Dict.set (Dict.set payload _ _) _ _) _ _ ↔ _
  rw [Dict.mem_set, Dict.mem_set, Dict.mem_set]
  simp only [ownKeys, List.mem_cons, List.not_mem_nil, or_false, not_or]
  constructor
  · rintro (h | ⟨h | ⟨h | ⟨h,hts⟩,hbytes⟩,hraw⟩)
    · exact .inl h
    · exact .inr (.inl h)
    · exact .inr (.inr (.inl h))
    · exact .inr (.inr (.inr ⟨h,hts,hbytes,hraw⟩))
  · rintro (h | rfl | rfl | ⟨h,hts,hbytes,hraw⟩)
    · exact .inl h
    · exact .inr ⟨.inl rfl,hkeys.1⟩
    · exact .inr ⟨.inr ⟨.inl rfl,hkeys.2.2⟩,hkeys.2.1⟩
    · exact .inr ⟨.inr ⟨.inr ⟨h,hts⟩,hbytes⟩,hraw⟩

private theorem wrapped_storable {note : String} (hmsg : Scalar [msg]) (hnote : Scalar [text note]) :
    Storable py (wrapped msg now note) := by
  have hkeys : Scalar [text "local_timestamp_ns",text "raw",text "raw_is_bytes",text "note"] := by
    unfold Scalar
    decide
  constructor
  · simp only [wrapped, List.forall_mem_cons, List.not_mem_nil, false_implies, implies_true, and_true, Value.depth]
    exact ⟨py.deepest_pos,py.deepest_pos,py.deepest_pos,py.deepest_pos⟩
  · simp only [Scalar, List.forall_mem_cons, List.not_mem_nil, false_implies, implies_true, and_true, wrapped,
      memberStrings, Value.strings] at *
    exact ⟨hkeys.1,⟨hkeys.2.1,hmsg⟩,hkeys.2.2.1,hkeys.2.2.2,hnote⟩

private theorem enriched_storable_iff (hmsg : Scalar [msg]) :
    Storable py (enriched payload msg now) ↔ Encodable py payload := by
  have hkeys : Scalar ownKeys := by
    unfold Scalar
    decide
  simp only [Scalar, ownKeys, List.forall_mem_cons, List.not_mem_nil, false_implies, implies_true, and_true]
    at hkeys hmsg
  constructor
  · intro h entry he hown
    have hm : entry ∈ enriched payload msg now := mem_enriched.mpr (.inr (.inr (.inr ⟨he,hown⟩)))
    exact ⟨h.scalars entry hm,h.shallow entry hm⟩
  · intro h
    constructor <;> intro entry he <;> rcases mem_enriched.mp he with rfl | rfl | rfl | ⟨he,hown⟩
    · exact py.deepest_pos
    · exact py.deepest_pos
    · exact py.deepest_pos
    · exact (h entry he hown).2
    · simpa [Scalar, memberStrings, Value.strings] using ⟨hkeys.2.2,hmsg⟩
    · simpa [Scalar, memberStrings, Value.strings] using hkeys.2.1
    · simpa [Scalar, memberStrings, Value.strings] using hkeys.1
    · exact (h entry he hown).1

/-- A text of scalar values makes a line of the file exactly if the interpreter has a result for
it and the object that it denotes, if any, can be encoded. -/
theorem recordedLine_iff (py : Python) (now : Int64) (hmsg : Scalar [msg]) :
    (∃ line, recordedLine py (.str msg) now = some line ∧ ¬ ∃ c ∈ line, c.isSurrogate = true) ↔
      py.loads msg ≠ .raised ∧ ∀ payload, py.loads msg = .value (.dict payload) → Encodable py payload := by
  have hobject : Scalar [text "non-object JSON payload"] := by
    unfold Scalar
    decide
  have hjson : Scalar [text "non-JSON payload"] := by
    unfold Scalar
    decide
  have hline {payload : List (Text × Value)} (h : recordedText py msg now = some payload) :
      (∃ line, recordedLine py (.str msg) now = some line ∧ ¬ ∃ c ∈ line, c.isSurrogate = true) ↔
        Storable py payload := by
    rw [recordedLine, h, Option.bind_some]
    exact compactJson_storable
  cases hl : py.loads msg with
  | raised =>
    have hnone : recordedLine py (.str msg) now = none := by rw [recordedLine, recordedText, hl, Option.bind_none]
    simp [hnone]
  | decodeError =>
    have htext : recordedText py msg now = some (wrapped msg now "non-JSON payload") := by rw [recordedText, hl]
    refine iff_of_true ((hline htext).mpr (wrapped_storable hmsg hjson)) ⟨?_,?_⟩ <;> simp
  | value v =>
    cases v with
    | dict payload =>
      have htext : recordedText py msg now = some (enriched payload msg now) := by rw [recordedText, hl]
      rw [hline htext, enriched_storable_iff hmsg]
      simp
    | _ =>
      have htext : recordedText py msg now = some (wrapped msg now "non-object JSON payload") := by
        rw [recordedText, hl]
      refine iff_of_true ((hline htext).mpr (wrapped_storable hmsg hobject)) ⟨?_,?_⟩ <;> simp

end Storing

private theorem dumps_ownLine (v : Value) : OneLine (dumps v) := by
  intro c hc
  have := dumps_oneLine v c hc
  omega

/-- A line that can be made is that of `json.dumps`. -/
theorem compactJson_eq_some {py : Python} {obj : Value} {line : Text} (h : py.compactJson obj = some line) :
    line = dumps obj := by
  unfold Python.compactJson at h
  split_ifs at h
  exact (Option.some.inj h).symm

/-- A recorded line has no line break in it. -/
theorem recordedLine_oneLine {py : Python} {msg : Message} {now : Int64} {line : Text}
    (h : recordedLine py msg now = some line) : OneLine line := by
  cases msg with
  | str msg =>
    obtain ⟨payload,_,hline⟩ := Option.bind_eq_some_iff.mp h
    exact compactJson_eq_some hline ▸ dumps_ownLine _
  | bytes msg => exact compactJson_eq_some h ▸ dumps_ownLine _

/-- The line of this event cannot be made or cannot be encoded. -/
def raises (py : Python) (event : Message × Int64) : Bool :=
  event.1 ≠ .str pong && match recordedLine py event.1 event.2 with
    | none => true
    | some line => line.any CodePoint.isSurrogate

/-- An iteration has no result exactly if its event raises. -/
theorem iteration_raises_iff {py : Python} {r : Recording} {event : Message × Int64} :
    iteration py r event.1 event.2 = none ↔ raises py event = true := by
  unfold iteration raises
  by_cases hp : event.1 = .str pong
  · simp [hp]
  cases hl : recordedLine py event.1 event.2 with
  | none => simp [hp]
  | some line =>
    have hsome : (∃ next, r.append line event.1.length = some next) ↔ ¬ ∃ c ∈ line, c.isSurrogate = true :=
      append_isSome_iff
    have happend : r.append line event.1.length = none ↔ ∃ c ∈ line, c.isSurrogate = true := by
      rw [← not_iff_not, ← hsome, Option.eq_none_iff_forall_ne_some]
      simp only [ne_eq, not_forall, not_not]
    simp [hp, happend]

/-- One iteration on a text message goes through, with one line more unless the text is
"PONG", exactly when `json.loads` does not raise beyond a `JSONDecodeError` and nothing that an
object keeps stands in the way of `json.dumps` or of utf-8. -/
theorem iteration_appends_iff (py : Python) (r : Recording) (msg : Text) (now : Int64)
    (scalars : Scalar [msg]) :
    (∃ next, iteration py r (.str msg) now = some next ∧
      if msg = pong then next.f.content = r.f.content
      else ∃ line, OneLine line ∧ next.f.content = r.f.content ++ (line ++ newline)) ↔
    msg = pong ∨ (py.loads msg ≠ .raised ∧
      ∀ payload, py.loads msg = .value (.dict payload) → Encodable py payload) := by
  by_cases hp : msg = pong
  · refine iff_of_true ?_ (.inl hp)
    simp only [iteration, hp, if_true]
    exact ⟨r,rfl,rfl⟩
  · have hne : Message.str msg ≠ .str pong := fun h => hp (Message.str.inj h)
    simp only [iteration, if_neg hne, if_neg hp, or_iff_right hp]
    rw [← recordedLine_iff py now scalars]
    constructor
    · rintro ⟨next,h,_⟩
      obtain ⟨line,hline,happend⟩ := Option.bind_eq_some_iff.mp h
      exact ⟨line,hline,append_isSome_iff.mp ⟨next,happend⟩⟩
    · rintro ⟨line,hline,hs⟩
      obtain ⟨next,happend⟩ := append_isSome_iff.mpr hs
      exact ⟨next,Option.bind_eq_some_iff.mpr ⟨line,hline,happend⟩,line,recordedLine_oneLine hline,
        append_eq_some happend⟩

/-- The loop at its start, on an empty file. -/
def opened : Recording := ⟨⟨[],[]⟩,⟨0,0⟩,0⟩

/-- The escape of half a surrogate pair, and the object it stands in. -/
def halfPairText : Text := text "\x7b\"a\":\"\\ud800\"\x7d"

def halfPair : Value := .dict [(text "a",.str [⟨0xD800,by decide⟩])]

/-- Half a surrogate pair in a field leaves the loop with an exception. -/
theorem halfPair_raises : ¬ ∀ r msg now, Scalar [msg] →
    ∃ next, iteration (.knowing [(halfPairText,halfPair)]) r (.str msg) now = some next ∧
      if msg = pong then next.f.content = r.f.content
      else ∃ line, OneLine line ∧ next.f.content = r.f.content ++ (line ++ newline) := by
  intro h
  have hscalar : Scalar [halfPairText] := by
    unfold Scalar
    decide
  have hraises : (iteration (.knowing [(halfPairText,halfPair)]) opened (.str halfPairText) 0).isNone = true := by
    decide
  obtain ⟨next,hnext,_⟩ := h opened halfPairText 0 hscalar
  rw [hnext] at hraises
  cases hraises

/-- The same escape where the recorder puts its own value. -/
def replacedText : Text := text "\x7b\"raw_message\":\"\\ud800\"\x7d"

def replaced : List (Text × Value) := [(text "raw_message",.str [⟨0xD800,by decide⟩])]

theorem replaced_appends : ∃ next,
    iteration (.knowing [(replacedText,.dict replaced)]) opened (.str replacedText) 1700000000 = some next ∧
      if replacedText = pong then next.f.content = opened.f.content
      else ∃ line, OneLine line ∧ next.f.content = opened.f.content ++ (line ++ newline) := by
  have hscalar : Scalar [replacedText] := by
    unfold Scalar
    decide
  have hloads : (Python.knowing [(replacedText,.dict replaced)]).loads replacedText = .value (.dict replaced) := rfl
  apply (iteration_appends_iff (.knowing [(replacedText,.dict replaced)]) opened replacedText 1700000000 hscalar).mpr
  right
  rw [hloads]
  refine ⟨by simp,?_⟩
  rintro _ ⟨⟩
  unfold Encodable Scalar
  decide

/-- The lines recorded for what a session receives. -/
def lines (py : Python) (received : List (Message × Int64)) : List Text :=
  received.filterMap fun event => if event.1 = .str pong then none else recordedLine py event.1 event.2

/-- A keepalive leaves no line, and what the loop gets through leaves its own. -/
theorem iteration_lines {py : Python} {r next : Recording} {event : Message × Int64}
    (h : iteration py r event.1 event.2 = some next) (rest : List (Message × Int64)) :
    (event.1 = .str pong ∧ next = r ∧ lines py (event :: rest) = lines py rest) ∨
      ∃ line, event.1 ≠ .str pong ∧ recordedLine py event.1 event.2 = some line ∧
        r.append line event.1.length = some next ∧ lines py (event :: rest) = line :: lines py rest := by
  unfold iteration at h
  split_ifs at h with hp
  · exact .inl ⟨hp,(Option.some.inj h).symm,by rw [lines, List.filterMap_cons, if_pos hp, lines]⟩
  · obtain ⟨line,hline,happend⟩ := Option.bind_eq_some_iff.mp h
    exact .inr ⟨line,hp,hline,happend,by rw [lines, List.filterMap_cons, if_neg hp, hline, lines]⟩

/-- A session whose loop has not raised has appended its lines. -/
theorem recordLoop_file {py : Python} {r : Recording} {received : List (Message × Int64)}
    (h : (recordLoop py r received).2 = false) : (recordLoop py r received).1.f.content =
      r.f.content ++ (lines py received).flatMap (· ++ newline) := by
  induction received generalizing r with
  | nil => exact (List.append_nil _).symm
  | cons event rest ih =>
    rw [recordLoop] at h ⊢
    cases hi : iteration py r event.1 event.2 with
    | none =>
      rw [hi] at h
      cases h
    | some next =>
      rw [hi] at h
      simp only [ih h]
      rcases iteration_lines hi rest with ⟨_,rfl,hlines⟩ | ⟨line,_,_,happend,hlines⟩
      · rw [hlines]
      · rw [hlines, append_eq_some happend, List.flatMap_cons, List.append_assoc]

/-- A session that ends without an exception has appended its lines. -/
theorem recordOnce_file {py : Python} {file : Text} {received : List (Message × Int64)} {stats : RecorderStats}
    (h : (recordOnce py file received).1 = some stats) : (recordOnce py file received).2 =
      file ++ (lines py received).flatMap (· ++ newline) := by
  simp only [recordOnce] at h ⊢
  split_ifs at h with hraised
  rw [TextFile.flush_content, recordLoop_file (Bool.not_eq_true _ ▸ hraised)]
  simp only [TextFile.content, List.append_nil]

/-- Sessions appended to one file one after another; there is no result if one raises. -/
def recordSessions (py : Python) : Text → List (List (Message × Int64)) → Option Text
  | file, [] => some file
  | file, received :: sessions =>
    match recordOnce py file received with
    | (some _, file) => recordSessions py file sessions
    | (none, _) => none

/-- A loop that has gone through has met no event that raises. -/
theorem recordLoop_going {py : Python} {r : Recording} {received : List (Message × Int64)}
    (h : (recordLoop py r received).2 = false) : ∀ event ∈ received, raises py event = false := by
  induction received generalizing r with
  | nil => exact nofun
  | cons event rest ih =>
    rw [recordLoop] at h
    cases hi : iteration py r event.1 event.2 with
    | none =>
      rw [hi] at h
      cases h
    | some next =>
      rw [hi] at h
      rw [List.forall_mem_cons, ← Bool.not_eq_true, ← iteration_raises_iff (r := r), hi]
      exact ⟨nofun,ih h⟩

/-- Sessions that were recorded append the lines of all their events. -/
theorem recordSessions_file {py : Python} {file result : Text} {sessions : List (List (Message × Int64))}
    (h : recordSessions py file sessions = some result) :
    (∀ event ∈ sessions.flatten, raises py event = false) ∧
      result = file ++ (lines py sessions.flatten).flatMap (· ++ newline) := by
  induction sessions generalizing file with
  | nil =>
    cases h
    exact ⟨nofun,(List.append_nil _).symm⟩
  | cons received sessions ih =>
    rw [recordSessions] at h
    rcases ho : recordOnce py file received with ⟨_ | stats,next⟩ <;> rw [ho] at h
    · cases h
    · have hone := congrArg Prod.fst ho
      have hfile : next = file ++ (lines py received).flatMap (· ++ newline) := by
        have hwritten := recordOnce_file hone
        rwa [ho] at hwritten
      have hgoing : (recordLoop py ⟨⟨file,[]⟩,⟨0,0⟩,0⟩ received).2 = false := by
        simp only [recordOnce] at hone
        split_ifs at hone with hraised
        exact Bool.not_eq_true _ ▸ hraised
      obtain ⟨hrest,hresult⟩ := ih h
      refine ⟨?_,?_⟩
      · rw [List.flatten_cons, List.forall_mem_append]
        exact ⟨recordLoop_going hgoing,hrest⟩
      · rw [hresult, hfile, List.flatten_cons, lines, lines, lines, List.filterMap_append, List.flatMap_append,
          List.append_assoc]

end Recorder
end PredictionMarket.Tools

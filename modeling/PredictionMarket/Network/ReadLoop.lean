import PredictionMarket.Market.ParserQueue

/-! The read loop of `websocket_client.cpp`, from the subscription on. One read is in
flight at a time; its completion hands the message to the parser, empties the buffer
and starts the next read, and a read that fails starts none. -/
namespace PredictionMarket.Network
open Market MarketParser

def kReadBufferBytes : Nat := 16384

/-- `flat_static_buffer`: its readable bytes never exceed the storage. -/
structure FlatStaticBuffer (capacity : Nat) where
  readable : ByteString
  fits : readable.length ≤ capacity

namespace FlatStaticBuffer
variable {capacity : Nat}

def empty : FlatStaticBuffer capacity := ⟨[],Nat.zero_le _⟩

def consume (buffer : FlatStaticBuffer capacity) (n : Nat) : FlatStaticBuffer capacity where
  readable := buffer.readable.drop n
  fits := by
    rw [List.length_drop]
    exact (Nat.sub_le _ _).trans buffer.fits

/-- A buffer that is consumed whole is empty. -/
theorem consume_all (buffer : FlatStaticBuffer capacity) :
    buffer.consume buffer.readable.length = empty := by
  simp only [consume, empty, List.drop_length]

end FlatStaticBuffer

/-- `boost::beast::error_code`, as far as a read without a network error sets it. -/
inductive ErrorCode where
  | success
  | bufferOverflow
  deriving DecidableEq

/-- What a completed `async_read` passes to `on_read`, and the buffer it leaves. -/
structure Completion where
  ec : ErrorCode
  bytesTransferred : Nat
  readBuffer : FlatStaticBuffer kReadBufferBytes

/-- Reading one whole message into a buffer. -/
abbrev AsyncRead := FlatStaticBuffer kReadBufferBytes → ByteString → Completion

/-- What the library promises of a read that meets no network error. -/
structure Documented (asyncRead : AsyncRead) : Prop where
  appends : ∀ buffer message, buffer.readable.length + message.length ≤ kReadBufferBytes →
    (asyncRead buffer message).ec = .success ∧
    (asyncRead buffer message).bytesTransferred = message.length ∧
    (asyncRead buffer message).readBuffer.readable = buffer.readable ++ message
  overflows : ∀ buffer message, kReadBufferBytes < buffer.readable.length + message.length →
    (asyncRead buffer message).ec = .bufferOverflow

structure WebSocketClient (Q : Type) where
  readBuffer : FlatStaticBuffer kReadBufferBytes
  parser : MarketParser
  queue : Q
  /-- A read is outstanding. -/
  reading : Bool
  /-- `parse_tick` has ended the process. -/
  terminated : Bool
  /-- What `fail` has written. -/
  failures : List (String × ErrorCode)
  /-- The views that `parse_tick` has been called with. -/
  calls : List ByteString

namespace WebSocketClient
section Loop
variable {Q : Type} (push : Q → MarketTick → Bool × Q) (iterate : ByteString → Option Json)
  (asyncRead : AsyncRead)

def fail (c : WebSocketClient Q) (what : String) (ec : ErrorCode) : WebSocketClient Q :=
  { c with failures := c.failures ++ [(what,ec)] }

def doRead (c : WebSocketClient Q) : WebSocketClient Q := { c with reading := true }

/-- `parse_tick`; its result is discarded, unless there is none. -/
def parse (c : WebSocketClient Q) (jsonPayload : ByteString) : WebSocketClient Q :=
  let (verdict, queue) := parseTick push iterate c.parser jsonPayload c.queue
  { c with queue, calls := c.calls ++ [jsonPayload], terminated := decide (verdict = .terminated) }

/-- The data of a static buffer is never null. -/
def onRead (c : WebSocketClient Q) (ec : ErrorCode) (bytesTransferred : Nat) : WebSocketClient Q :=
  if ec ≠ .success then c.fail "read" ec
  else
    let len := bytesTransferred
    let c := if len ≠ 0 then c.parse push iterate (c.readBuffer.readable.take len) else c
    if c.terminated then c
    else { c with readBuffer := c.readBuffer.consume c.readBuffer.readable.length }.doRead

/-- The peer's next message: nobody takes it unless a read is outstanding. -/
def message (c : WebSocketClient Q) (m : ByteString) : WebSocketClient Q :=
  if c.reading = true ∧ c.terminated = false then
    let done := asyncRead c.readBuffer m
    { c with readBuffer := done.readBuffer, reading := false }.onRead push iterate done.ec
      done.bytesTransferred
  else c

def messages (c : WebSocketClient Q) (ms : List ByteString) : WebSocketClient Q :=
  ms.foldl (message push iterate asyncRead) c

end Loop

/-- The invariant of the loop: a read is outstanding, into a buffer without a leftover. -/
structure Awaits {Q : Type} (c : WebSocketClient Q) : Prop where
  reading : c.reading = true
  alive : c.terminated = false
  empty : c.readBuffer = .empty

section Delivery
variable {Q : Type} {push : Q → MarketTick → Bool × Q} {iterate : ByteString → Option Json}
  {asyncRead : AsyncRead}

variable (push iterate) in
/-- `parse_tick` has a result for this payload. -/
def Returns (parser : MarketParser) (jsonPayload : ByteString) : Prop :=
  ∀ q, ∃ ok, (parseTick push iterate parser jsonPayload q).1 = .returned ok

variable (push iterate) in
/-- The effect of payloads on the queue, parsed one after another. -/
def parseAll (parser : MarketParser) (q : Q) (payloads : List ByteString) : Q :=
  payloads.foldl (fun q jsonPayload => (parseTick push iterate parser jsonPayload q).2) q

private theorem onRead_delivers (c : WebSocketClient Q) {len : Nat} (hlen : len ≠ 0)
    (returns : Returns push iterate c.parser (c.readBuffer.readable.take len)) :
    c.onRead push iterate .success len = { c with
      readBuffer := .empty
      queue := (parseTick push iterate c.parser (c.readBuffer.readable.take len) c.queue).2
      reading := true
      terminated := false
      calls := c.calls ++ [c.readBuffer.readable.take len] } := by
  obtain ⟨ok,hok⟩ := returns c.queue
  have halive : (c.parse push iterate (c.readBuffer.readable.take len)).terminated = false := by
    simp only [parse, hok]
    rfl
  unfold onRead
  rw [if_neg (not_not_intro rfl)]
  simp only [if_pos hlen, halive]
  rw [if_neg Bool.false_ne_true]
  simp only [doRead, parse, FlatStaticBuffer.consume_all, hok]

/-- A message that fits is handed over whole, and the loop is ready for the next. -/
theorem message_fits (documented : Documented asyncRead) {c : WebSocketClient Q} (awaits : c.Awaits)
    {m : ByteString} (nonempty : m ≠ []) (fits : m.length ≤ kReadBufferBytes)
    (returns : Returns push iterate c.parser m) :
    c.message push iterate asyncRead m = { c with
      queue := (parseTick push iterate c.parser m c.queue).2
      calls := c.calls ++ [m] } := by
  have hroom : c.readBuffer.readable.length + m.length ≤ kReadBufferBytes := by
    rw [awaits.empty]
    exact (Nat.zero_add _).trans_le fits
  obtain ⟨hec,hbytes,hbuffer⟩ := documented.appends c.readBuffer m hroom
  have hview : (asyncRead c.readBuffer m).readBuffer.readable.take m.length = m := by
    rw [hbuffer, awaits.empty]
    exact List.take_length
  have hlen : m.length ≠ 0 := fun h => nonempty (List.length_eq_zero_iff.mp h)
  rw [message, if_pos ⟨awaits.reading,awaits.alive⟩]
  simp only [hec, hbytes]
  rw [onRead_delivers _ hlen (by simp only [hview]; exact returns)]
  simp only [hview, ← awaits.empty, ← awaits.alive, ← awaits.reading]

/-- A message that does not fit is reported, and no further read is started. -/
theorem message_overflows (documented : Documented asyncRead) {c : WebSocketClient Q} (awaits : c.Awaits)
    {m : ByteString} (long : kReadBufferBytes < m.length) :
    c.message push iterate asyncRead m = { c with
      readBuffer := (asyncRead c.readBuffer m).readBuffer
      reading := false
      failures := c.failures ++ [("read",.bufferOverflow)] } := by
  have hroom : kReadBufferBytes < c.readBuffer.readable.length + m.length := by
    rw [awaits.empty]
    exact long.trans_eq (Nat.zero_add _).symm
  have hec := documented.overflows c.readBuffer m hroom
  rw [message, if_pos ⟨awaits.reading,awaits.alive⟩]
  simp only [hec, onRead]
  rfl

private theorem messages_stopped {c : WebSocketClient Q} (stopped : c.reading = false) (ms : List ByteString) :
    c.messages push iterate asyncRead ms = c := by
  induction ms with
  | nil => rfl
  | cons m ms ih =>
    have hm : c.message push iterate asyncRead m = c :=
      if_neg fun h => Bool.false_ne_true (stopped.symm.trans h.1)
    change (c.message push iterate asyncRead m).messages push iterate asyncRead ms = c
    rw [hm, ih]

/-- Messages that fit are handed over one by one. -/
theorem messages_fit (documented : Documented asyncRead) {c : WebSocketClient Q} (awaits : c.Awaits)
    {ms : List ByteString} (nonempty : ∀ m ∈ ms, m ≠ []) (fit : ∀ m ∈ ms, m.length ≤ kReadBufferBytes)
    (returns : ∀ m ∈ ms, Returns push iterate c.parser m) :
    c.messages push iterate asyncRead ms = { c with
      queue := parseAll push iterate c.parser c.queue ms
      calls := c.calls ++ ms } := by
  induction ms generalizing c with
  | nil => simp [messages, parseAll]
  | cons m ms ih =>
    rw [List.forall_mem_cons] at nonempty fit returns
    have hm := message_fits documented awaits nonempty.1 fit.1 returns.1
    have hnext : (c.message push iterate asyncRead m).Awaits := by
      rw [hm]
      exact ⟨awaits.reading,awaits.alive,awaits.empty⟩
    change (c.message push iterate asyncRead m).messages push iterate asyncRead ms = _
    rw [ih hnext nonempty.2 fit.2 (by rw [hm]; exact returns.2), hm]
    simp only [List.append_assoc, List.singleton_append]
    rfl

/-- The messages that come before the first one longer than the buffer. -/
def fitting (ms : List ByteString) : List ByteString := ms.takeWhile fun m => m.length ≤ kReadBufferBytes

private theorem fitting_fit {ms : List ByteString} : ∀ m ∈ fitting ms, m ∈ ms ∧ m.length ≤ kReadBufferBytes := by
  intro m hm
  have hf := List.mem_takeWhile_imp hm
  exact ⟨List.takeWhile_subset _ hm,of_decide_eq_true hf⟩

private theorem fitting_cons (m : ByteString) (ms : List ByteString) :
    fitting (m :: ms) = if m.length ≤ kReadBufferBytes then m :: fitting ms else [] := by
  rw [fitting, List.takeWhile_cons]
  simp only [decide_eq_true_iff]
  rfl

private theorem fitting_cases (ms : List ByteString) : fitting ms = ms ∨
    ∃ m rest, ms = fitting ms ++ m :: rest ∧ kReadBufferBytes < m.length := by
  induction ms with
  | nil => exact .inl rfl
  | cons m ms ih =>
    rw [fitting_cons]
    split_ifs with hm
    · rcases ih with he | ⟨long,rest,he,hlong⟩
      · exact .inl (congrArg (m :: ·) he)
      · exact .inr ⟨long,rest,congrArg (m :: ·) he,hlong⟩
    · exact .inr ⟨m,ms,rfl,Nat.not_le.mp hm⟩

private theorem take_fitting {ms : List ByteString} {n : Nat} (h : n ≤ (fitting ms).length) :
    ms.take n = (fitting ms).take n := by
  rcases fitting_cases ms with he | ⟨m,rest,he,_⟩
  · rw [he]
  · rw [← List.take_append_of_le_length h, ← he]

variable (push iterate asyncRead) in
/-- Messages are handed over exactly, once each and in order, with the next read started,
up to the first that does not fit the buffer. That one ends the reading for good. -/
theorem delivers_until_overflow (documented : Documented asyncRead) (c : WebSocketClient Q)
    (awaits : c.Awaits) (ms : List ByteString) (nonempty : ∀ m ∈ ms, m ≠ [])
    (returns : ∀ m ∈ ms, m.length ≤ kReadBufferBytes → Returns push iterate c.parser m) :
    (∀ n ≤ (fitting ms).length,
      let after := c.messages push iterate asyncRead (ms.take n)
      after.calls = c.calls ++ ms.take n ∧ after.Awaits ∧
        after.queue = parseAll push iterate c.parser c.queue (ms.take n)) ∧
    (fitting ms ≠ ms →
      let after := c.messages push iterate asyncRead ms
      after.calls = c.calls ++ fitting ms ∧ after.reading = false ∧ after.terminated = false ∧
        after.failures = c.failures ++ [("read",.bufferOverflow)]) := by
  have hnonempty (k : Nat) : ∀ m ∈ (fitting ms).take k, m ≠ [] := fun m hm =>
    nonempty m (fitting_fit m (List.mem_of_mem_take hm)).1
  have hreturns (k : Nat) : ∀ m ∈ (fitting ms).take k, Returns push iterate c.parser m := fun m hm =>
    returns m (fitting_fit m (List.mem_of_mem_take hm)).1 (fitting_fit m (List.mem_of_mem_take hm)).2
  have hfit (k : Nat) : ∀ m ∈ (fitting ms).take k, m.length ≤ kReadBufferBytes := fun m hm =>
    (fitting_fit m (List.mem_of_mem_take hm)).2
  constructor
  · intro n hn
    rw [take_fitting hn, messages_fit documented awaits (hnonempty n) (hfit n) (hreturns n)]
    exact ⟨rfl,⟨awaits.reading,awaits.alive,awaits.empty⟩,rfl⟩
  · intro hne
    obtain ⟨m,rest,he,hlong⟩ := (fitting_cases ms).resolve_left hne
    have hall := messages_fit documented awaits (hnonempty (fitting ms).length) (hfit _) (hreturns _)
    rw [List.take_length] at hall
    have hawaits : (c.messages push iterate asyncRead (fitting ms)).Awaits := by
      rw [hall]
      exact ⟨awaits.reading,awaits.alive,awaits.empty⟩
    have hstop : c.messages push iterate asyncRead ms =
        (c.messages push iterate asyncRead (fitting ms)).message push iterate asyncRead m := by
      conv_lhs => rw [he, messages, List.foldl_append, List.foldl_cons]
      apply messages_stopped
      change ((c.messages push iterate asyncRead (fitting ms)).message push iterate asyncRead m).reading = false
      rw [message_overflows documented hawaits hlong]
    rw [hstop, message_overflows documented hawaits hlong, hall]
    exact ⟨rfl,rfl,awaits.alive,rfl⟩

end Delivery

/-- After the subscription has been written. -/
def subscribed {Q : Type} (q : Q) : WebSocketClient Q :=
  ⟨.empty,construct true,q,true,false,[],[]⟩

/-- The library on a connection without errors. -/
def beast : AsyncRead := fun buffer message =>
  if h : (buffer.readable ++ message).length ≤ kReadBufferBytes then
    ⟨.success,message.length,⟨buffer.readable ++ message,h⟩⟩
  else ⟨.bufferOverflow,0,buffer⟩

private theorem beast_documented : Documented beast where
  appends buffer message h := by
    rw [← List.length_append] at h
    rw [beast, dif_pos h]
    exact ⟨rfl,rfl,rfl⟩
  overflows buffer message h := by
    rw [← List.length_append] at h
    rw [beast, dif_neg (Nat.not_le.mpr h)]

/-- A snapshot of one level, with blanks behind it. -/
def longText : ByteString := oneLevelText ++ List.replicate kReadBufferBytes 32

private theorem longText_length : longText.length = kReadBufferBytes + 26 := by
  rw [longText, List.length_append, List.length_replicate, Nat.add_comm]
  rfl

private theorem long_stops {Q : Type} (push : Q → MarketTick → Bool × Q) (iterate : ByteString → Option Json)
    (q : Q) {m : ByteString} (long : kReadBufferBytes < m.length) :
    ((subscribed q).messages push iterate beast [m]).reading = false := by
  rw [messages, List.foldl_cons, List.foldl_nil,
    message_overflows beast_documented (c := subscribed q) ⟨rfl,rfl,rfl⟩ long]

/-- The parser would take a message that the read buffer cannot hold. -/
theorem longText_undelivered : ¬ ∀ ms : List ByteString,
    (∀ m ∈ ms, 1 ≤ m.length ∧ m.length ≤ kMaxPayloadBytes) →
    let after := (subscribed []).messages record (Json.only longText oneLevel) beast ms
    after.calls = ms ∧ after.reading = true := by
  intro h
  have hlong : kReadBufferBytes < longText.length := by
    rw [longText_length]
    exact Nat.lt_add_of_pos_right (by decide)
  have hsized : ∀ m ∈ [longText], 1 ≤ m.length ∧ m.length ≤ kMaxPayloadBytes := by
    intro m hm
    rw [List.mem_singleton.mp hm, longText_length]
    decide
  exact Bool.false_ne_true ((long_stops record _ [] hlong).symm.trans (h [longText] hsized).2)

/-- Of three messages the second is too long: the first is delivered, the third is not. -/
def threeMessages : List ByteString := [oneLevelText,longText,oneLevelText]

theorem threeMessages_delivered : fitting threeMessages = [oneLevelText] ∧
    (∀ n ≤ (fitting threeMessages).length,
      let after := (subscribed []).messages record (Json.only oneLevelText oneLevel) beast
        (threeMessages.take n)
      after.calls = threeMessages.take n ∧ after.Awaits ∧
        after.queue = parseAll record (Json.only oneLevelText oneLevel) (construct true) []
          (threeMessages.take n)) ∧
    (fitting threeMessages ≠ threeMessages →
      let after := (subscribed []).messages record (Json.only oneLevelText oneLevel) beast threeMessages
      after.calls = fitting threeMessages ∧ after.reading = false ∧ after.terminated = false ∧
        after.failures = [("read",.bufferOverflow)]) := by
  have hlong : ¬ longText.length ≤ kReadBufferBytes := by
    rw [longText_length]
    decide
  refine ⟨?_,?_⟩
  · rw [threeMessages, fitting_cons, if_pos (by decide), fitting_cons, if_neg hlong]
  · apply delivers_until_overflow record (Json.only oneLevelText oneLevel) beast beast_documented
      (subscribed []) ⟨rfl,rfl,rfl⟩ threeMessages
    · intro m hm
      simp only [threeMessages, List.mem_cons, List.not_mem_nil, or_false] at hm
      rcases hm with rfl | rfl | rfl <;> exact List.cons_ne_nil _ _
    · intro m hm hfits q
      simp only [threeMessages, List.mem_cons, List.not_mem_nil, or_false] at hm
      have hone : (script (Json.only oneLevelText oneLevel) (construct true) oneLevelText).run.1 =
          .returned true := by decide
      rcases hm with rfl | rfl | rfl
      · exact ⟨true,(congrArg Prod.fst (parseTick_eq _ _ _ _ _)).trans hone⟩
      · exact absurd hfits hlong
      · exact ⟨true,(congrArg Prod.fst (parseTick_eq _ _ _ _ _)).trans hone⟩

end WebSocketClient
end PredictionMarket.Network

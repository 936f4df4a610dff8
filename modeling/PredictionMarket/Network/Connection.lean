import PredictionMarket.Network.ReadLoop
import PredictionMarket.Foundation.Transition

/-! The whole life of a connection in `websocket_client.cpp`: asynchronous operations, each of
which is started by the handler of the one before, and `close`, which may come at any time. What
an operation comes to is the network's choice. -/
namespace PredictionMarket.Network
open Market MarketParser Foundation.Transition

/-- An asynchronous operation with the arguments it is started with. -/
inductive Operation where
  | resolve (host port : ByteString)
  | connect
  | sslHandshake
  | wsHandshake (hostHeader target : ByteString)
  | write (payload : ByteString)
  | read
  | close
  deriving DecidableEq

def kSubscriptionPayload : ByteString :=
  ascii "\x7b\"assets\":[\"0x0000000000000000000000000000000000000000\"],\"type\":\"market\"\x7d"

/-- The client, over the error codes `E` of the libraries. The part that reads and parses is
that of the read loop. -/
structure Connection (E Q : Type) where
  host : ByteString
  port : ByteString
  target : ByteString
  hostHeader : ByteString
  /-- Seconds after which the TCP stream expires. -/
  expiry : Option Nat
  /-- Operations that have been started and have not completed. -/
  outstanding : List Operation
  started : List Operation
  /-- What `fail` has written. -/
  reported : List (String × E)
  client : WebSocketClient Q

/-- The completion of an operation, with its error if it has one, or a call of `close`. -/
inductive Completed (E : Type) where
  | resolve (ec : Option E)
  /-- The second error is that of `SSL_set_tlsext_host_name`. -/
  | connect (ec sni : Option E)
  | sslHandshake (ec : Option E)
  | wsHandshake (ec : Option E)
  | write (ec : Option E)
  | read (ec : Option E) (bytesTransferred : Nat) (readBuffer : FlatStaticBuffer kReadBufferBytes)
  | closed (ec : Option E)
  | close

namespace Connection
variable {E Q : Type}

def start (c : Connection E Q) (op : Operation) : Connection E Q :=
  { c with outstanding := c.outstanding ++ [op], started := c.started ++ [op] }

def fail (c : Connection E Q) (what : String) (ec : E) : Connection E Q :=
  { c with reported := c.reported ++ [(what,ec)] }

def construct (q : Q) : Connection E Q where
  host := []
  port := []
  target := []
  hostHeader := []
  expiry := none
  outstanding := []
  started := []
  reported := []
  client := ⟨.empty,MarketParser.construct true,q,false,false,[],[]⟩

def colonByte : UInt8 := 58

def run (c : Connection E Q) (host port target : ByteString) : Connection E Q :=
  { c with host, port, target, hostHeader := host ++ [colonByte] ++ port }.start (.resolve host port)

def onResolve (c : Connection E Q) : Option E → Connection E Q
  | some ec => c.fail "resolve" ec
  | none => { c with expiry := some 30 }.start .connect

def onConnect (c : Connection E Q) (ec sni : Option E) : Connection E Q :=
  match ec with
  | some ec => c.fail "connect" ec
  | none =>
    match sni with
    | some sniEc => c.fail "sni" sniEc
    | none => c.start .sslHandshake

def onSslHandshake (c : Connection E Q) : Option E → Connection E Q
  | some ec => c.fail "ssl_handshake" ec
  | none => { c with expiry := none }.start (.wsHandshake c.hostHeader c.target)

def doSubscribe (c : Connection E Q) : Connection E Q := c.start (.write kSubscriptionPayload)

def onWsHandshake (c : Connection E Q) : Option E → Connection E Q
  | some ec => c.fail "ws_handshake" ec
  | none => c.doSubscribe

def doRead (c : Connection E Q) : Connection E Q := { c with client := c.client.doRead }.start .read

/-- The handler of the subscription's write. -/
def onWrite (c : Connection E Q) : Option E → Connection E Q
  | some ec => c.fail "subscribe_write" ec
  | none => c.doRead

def onClose (c : Connection E Q) : Option E → Connection E Q
  | some ec => c.fail "close" ec
  | none => c

def close (c : Connection E Q) : Connection E Q := c.start .close

/-- The handler of an outstanding operation runs. -/
def complete (c : Connection E Q) (op : Operation) (handler : Connection E Q → Connection E Q) :
    Option (Connection E Q) :=
  if op ∈ c.outstanding then some (handler { c with outstanding := c.outstanding.erase op }) else none

section Step
variable (push : Q → MarketTick → Bool × Q) (iterate : ByteString → Option Json)

/-- The successful part is `on_read` of the read loop, which starts the next read unless the
parser has ended the process. -/
def onRead (c : Connection E Q) (ec : Option E) (bytesTransferred : Nat)
    (readBuffer : FlatStaticBuffer kReadBufferBytes) : Connection E Q :=
  let client := { c.client with readBuffer, reading := false }
  match ec with
  | some ec => { c with client }.fail "read" ec
  | none =>
    let client := client.onRead push iterate .success bytesTransferred
    if client.reading then { c with client }.start .read else { c with client }

def step (c : Connection E Q) (l : Completed E) : Option (Connection E Q) :=
  if c.client.terminated then none
  else match l with
    | .resolve ec => c.complete (.resolve c.host c.port) (onResolve · ec)
    | .connect ec sni => c.complete .connect (onConnect · ec sni)
    | .sslHandshake ec => c.complete .sslHandshake (onSslHandshake · ec)
    | .wsHandshake ec => c.complete (.wsHandshake c.hostHeader c.target) (onWsHandshake · ec)
    | .write ec => c.complete (.write kSubscriptionPayload) (onWrite · ec)
    | .read ec bytesTransferred readBuffer =>
      c.complete .read (onRead push iterate · ec bytesTransferred readBuffer)
    | .closed ec => c.complete .close (onClose · ec)
    | .close => some c.close

end Step

/-- The operations that follow from one another; `close` does not. -/
def chain (ops : List Operation) : List Operation := ops.filter (· ≠ .close)

/-- What is reported of them. -/
def chainReports (c : Connection E Q) : List (String × E) := c.reported.filter (·.1 ≠ "close")

section Stages
variable (host port target : ByteString)

/-- The operations in the order in which they have to come. -/
def stage : Nat → Operation
  | 0 => .resolve host port
  | 1 => .connect
  | 2 => .sslHandshake
  | 3 => .wsHandshake (host ++ [colonByte] ++ port) target
  | 4 => .write kSubscriptionPayload
  | _ + 5 => .read

/-- What is reported when a stage fails. -/
def stageNames : Nat → List String
  | 0 => ["resolve"]
  | 1 => ["connect","sni"]
  | 2 => ["ssl_handshake"]
  | 3 => ["ws_handshake"]
  | 4 => ["subscribe_write"]
  | _ + 5 => ["read"]

/-- Operations up to the stage with this number have been started, each once and in order, and
nothing else but `close`. -/
structure Reached (n : Nat) (c : Connection E Q) : Prop where
  named : c.host = host ∧ c.port = port ∧ c.target = target ∧ c.hostHeader = host ++ [colonByte] ++ port
  started : chain c.started = (List.range (n + 1)).map (stage host port target)
  /-- The stream expires from the start of the connect to the end of the TLS handshake. -/
  expiry : c.expiry = if n = 1 ∨ n = 2 then some 30 else none

/-- The operation of the stage is outstanding, and none has failed. Nothing is parsed before a
read behind the subscription has completed. -/
structure Under (n : Nat) (c : Connection E Q) : Prop where
  outstanding : chain c.outstanding = [stage host port target n]
  reported : c.chainReports = []
  alive : c.client.terminated = false
  empty : c.client.readBuffer = .empty
  reading : c.client.reading = decide (5 ≤ n)
  parsed : c.client.calls.length ≤ n - 5

/-- Nothing is outstanding: the stage has failed, which has been reported once and under its
name, or the parser has ended the process. -/
structure Over (n : Nat) (c : Connection E Q) : Prop where
  outstanding : chain c.outstanding = []
  cause : (c.client.terminated = true ∧ c.chainReports = []) ∨
    ∃ what ec, c.chainReports = [(what,ec)] ∧ what ∈ stageNames n
  parsed : c.client.calls.length ≤ n - 4

end Stages

section Handlers
variable {host port target : ByteString} {n : Nat} {c c' : Connection E Q}

private theorem chain_append (ops : List Operation) {op : Operation} (hop : op ≠ .close) :
    chain (ops ++ [op]) = chain ops ++ [op] := by
  simp [chain, hop]

private theorem chain_erase (ops : List Operation) (op : Operation) :
    chain (ops.erase op) = (chain ops).erase op := List.erase_filter.symm

private theorem mem_chain {ops : List Operation} {op : Operation} (hop : op ≠ .close) (h : op ∈ ops) :
    op ∈ chain ops := List.mem_filter.mpr ⟨h,decide_eq_true hop⟩

private theorem stage_ne_close (n : Nat) : stage host port target n ≠ .close := by
  match n with
  | 0 | 1 | 2 | 3 | 4 | _ + 5 => nofun

private theorem stage_read (k : Nat) : stage host port target (k + 5) = .read := rfl

private theorem stage_inv {op : Operation} (h : stage host port target n = op) : match op with
    | .resolve _ _ => n = 0
    | .connect => n = 1
    | .sslHandshake => n = 2
    | .wsHandshake _ _ => n = 3
    | .write _ => n = 4
    | .read => ∃ k, n = k + 5
    | .close => False := by
  subst h
  match n with
  | 0 | 1 | 2 | 3 | 4 => rfl
  | k + 5 => exact ⟨k,rfl⟩

private theorem stageNames_ne_close {what : String} (h : what ∈ stageNames n) : what ≠ "close" := by
  rintro rfl
  match n with
  | 0 | 1 | 2 | 3 | 4 | _ + 5 => simp [stageNames] at h

/-- The operation of the stage has completed and its handler has not yet run. -/
private structure Handling (host port target : ByteString) (n : Nat) (c : Connection E Q) : Prop where
  reached : Reached host port target n c
  outstanding : chain c.outstanding = []
  reported : c.chainReports = []
  alive : c.client.terminated = false
  empty : c.client.readBuffer = .empty
  reading : c.client.reading = decide (5 ≤ n)
  parsed : c.client.calls.length ≤ n - 5

private theorem Handling.starts (h : Handling host port target n c) (expiry : Option Nat)
    (client : WebSocketClient Q) {op : Operation} (hop : stage host port target (n + 1) = op)
    (hexpiry : expiry = if n = 0 ∨ n = 1 then some 30 else none) (halive : client.terminated = false)
    (hempty : client.readBuffer = .empty) (hreading : client.reading = decide (5 ≤ n + 1))
    (hparsed : client.calls.length ≤ n + 1 - 5) :
    Reached host port target (n + 1) ({ c with expiry, client }.start op) ∧
      Under host port target (n + 1) ({ c with expiry, client }.start op) := by
  have hne : op ≠ .close := hop ▸ stage_ne_close (n + 1)
  refine ⟨⟨h.reached.named,?_,?_⟩,⟨?_,h.reported,halive,hempty,hreading,hparsed⟩⟩
  · simp only [start]
    rw [chain_append _ hne, h.reached.started, List.range_succ (n := n + 1), List.map_append,
      List.map_singleton, hop]
  · simp only [start, hexpiry, Nat.add_eq_right, Nat.reduceEqDiff]
  · simp only [start]
    rw [chain_append _ hne, h.outstanding, hop, List.nil_append]

private theorem Handling.fails (h : Handling host port target n c) (client : WebSocketClient Q) {what : String}
    (hwhat : what ∈ stageNames n) (ec : E) (hparsed : client.calls.length ≤ n - 4) :
    Reached host port target n ({ c with client }.fail what ec) ∧ Over n ({ c with client }.fail what ec) := by
  refine ⟨⟨h.reached.named,h.reached.started,h.reached.expiry⟩,
    ⟨h.outstanding,.inr ⟨what,ec,?_,hwhat⟩,hparsed⟩⟩
  have hlast : [(what,ec)].filter (·.1 ≠ "close") = [(what,ec)] :=
    List.filter_cons_of_pos (decide_eq_true (stageNames_ne_close hwhat))
  rw [chainReports, fail, List.filter_append, hlast]
  exact congrArg (· ++ [(what,ec)]) h.reported

private theorem aside (hreached : Reached host port target n c)
    (hfields : c' = { c with outstanding := c'.outstanding, started := c'.started, reported := c'.reported })
    (houtstanding : chain c'.outstanding = chain c.outstanding) (hstarted : chain c'.started = chain c.started)
    (hreported : c'.chainReports = c.chainReports) :
    Reached host port target n c' ∧ (Under host port target n c → Under host port target n c') ∧
      (Over n c → Over n c') := by
  generalize c'.outstanding = outstanding, c'.started = started, c'.reported = reported at hfields
  subst hfields
  refine ⟨⟨hreached.named,hstarted.trans hreached.started,hreached.expiry⟩,fun hunder => ?_,fun hover => ?_⟩
  · exact ⟨houtstanding.trans hunder.outstanding,hreported.trans hunder.reported,hunder.alive,hunder.empty,
      hunder.reading,hunder.parsed⟩
  · refine ⟨houtstanding.trans hover.outstanding,?_,hover.parsed⟩
    rw [hreported]
    exact hover.cause

end Handlers

section Lifecycle
variable {push : Q → MarketTick → Bool × Q} {iterate : ByteString → Option Json}
  {host port target : ByteString} {n : Nat} {c c' : Connection E Q}

variable (push iterate) in
private theorem client_onRead (client : WebSocketClient Q) (hidle : client.reading = false) (len : Nat) :
    let after := client.onRead push iterate .success len
    after.calls.length ≤ client.calls.length + 1 ∧
      (after.terminated = true ∧ after.reading = false ∨
        after.terminated = false ∧ after.reading = true ∧ after.readBuffer = .empty) := by
  -- A read that has brought something either ends the process or leaves an empty buffer.
  have hparsed (parsed : WebSocketClient Q) (hcalls : parsed.calls.length ≤ client.calls.length + 1)
      (hreading : parsed.reading = false) :
      let after := if parsed.terminated then parsed
        else { parsed with readBuffer := parsed.readBuffer.consume parsed.readBuffer.readable.length }.doRead
      after.calls.length ≤ client.calls.length + 1 ∧
        (after.terminated = true ∧ after.reading = false ∨
          after.terminated = false ∧ after.reading = true ∧ after.readBuffer = .empty) := by
    cases hterminated : parsed.terminated with
    | true => exact ⟨hcalls,.inl ⟨hterminated,hreading⟩⟩
    | false => exact ⟨hcalls,.inr ⟨rfl,rfl,FlatStaticBuffer.consume_all _⟩⟩
  unfold WebSocketClient.onRead
  rw [if_neg (not_not_intro rfl)]
  by_cases hlen : len = 0
  · simp only [hlen, ne_eq, not_true_eq_false, if_false]
    exact hparsed client (Nat.le_succ _) hidle
  · simp only [ne_eq, hlen, not_false_eq_true, if_true]
    refine hparsed _ ?_ hidle
    rw [WebSocketClient.parse, List.length_append, List.length_singleton]

private theorem Under.completes (hunder : Under host port target n c) (hreached : Reached host port target n c)
    {op : Operation} {handler : Connection E Q → Connection E Q} (h : c.complete op handler = some c')
    (hop : op ≠ .close) :
    stage host port target n = op ∧ ∃ mid, Handling host port target n mid ∧ handler mid = c' := by
  unfold complete at h
  split_ifs at h with hmem
  have hstage : op = stage host port target n := by
    have hin := mem_chain hop hmem
    rw [hunder.outstanding] at hin
    exact List.mem_singleton.mp hin
  refine ⟨hstage.symm,{ c with outstanding := c.outstanding.erase op },?_,Option.some.inj h⟩
  refine ⟨⟨hreached.named,hreached.started,hreached.expiry⟩,?_,hunder.reported,hunder.alive,hunder.empty,
    hunder.reading,hunder.parsed⟩
  rw [chain_erase, hunder.outstanding, hstage]
  exact List.erase_cons_head ..

private theorem Over.refuses (hover : Over n c) {op : Operation} {handler : Connection E Q → Connection E Q}
    (h : c.complete op handler = some c') (hop : op ≠ .close) : False := by
  unfold complete at h
  split_ifs at h with hmem
  have hin := mem_chain hop hmem
  rw [hover.outstanding] at hin
  exact List.not_mem_nil hin

private theorem closed_step (hreached : Reached host port target n c) {ec : Option E}
    (h : c.complete .close (onClose · ec) = some c') :
    Reached host port target n c' ∧ (Under host port target n c → Under host port target n c') ∧
      (Over n c → Over n c') := by
  unfold complete at h
  split_ifs at h with hmem
  obtain rfl := Option.some.inj h
  have herase : chain (c.outstanding.erase .close) = chain c.outstanding := by
    rw [chain_erase]
    exact List.erase_of_not_mem fun hin => of_decide_eq_true (List.mem_filter.mp hin).2 rfl
  cases ec with
  | none => exact aside hreached rfl herase rfl rfl
  | some ec =>
    refine aside hreached rfl herase rfl ?_
    simp [onClose, fail, chainReports]

private theorem close_step (hreached : Reached host port target n c) :
    Reached host port target n c.close ∧ (Under host port target n c → Under host port target n c.close) ∧
      (Over n c → Over n c.close) :=
  aside hreached rfl (by simp [close, start, chain]) (by simp [close, start, chain]) rfl

/-- Nothing comes after the end but calls of `close`. -/
theorem over_step (hreached : Reached host port target n c) (hover : Over n c) {l : Completed E}
    (h : step push iterate c l = some c') : Reached host port target n c' ∧ Over n c' := by
  unfold step at h
  split_ifs at h with hterminated
  cases l with
  | resolve ec => exact (hover.refuses h nofun).elim
  | connect ec sni => exact (hover.refuses h nofun).elim
  | sslHandshake ec => exact (hover.refuses h nofun).elim
  | wsHandshake ec => exact (hover.refuses h nofun).elim
  | write ec => exact (hover.refuses h nofun).elim
  | read ec bytesTransferred readBuffer => exact (hover.refuses h nofun).elim
  | closed ec =>
    obtain ⟨h1,_,h2⟩ := closed_step hreached h
    exact ⟨h1,h2 hover⟩
  | close =>
    obtain rfl := Option.some.inj h
    obtain ⟨h1,_,h2⟩ := close_step hreached
    exact ⟨h1,h2 hover⟩

/-- A stage under way, or over. -/
private def Stands (host port target : ByteString) (c : Connection E Q) : Prop :=
  ∃ n, Reached host port target n c ∧ (Under host port target n c ∨ Over n c)

private theorem Handling.gives_up (h : Handling host port target n c) {what : String}
    (hwhat : what ∈ stageNames n) (ec : E) : Stands host port target (c.fail what ec) :=
  have hparsed := h.parsed.trans (Nat.sub_le_sub_left (Nat.le_succ 4) n)
  ⟨n,(h.fails c.client hwhat ec hparsed).1,.inr (h.fails c.client hwhat ec hparsed).2⟩

private theorem Handling.goes_on (h : Handling host port target n c) (expiry : Option Nat) {op : Operation}
    (hop : stage host port target (n + 1) = op) (hexpiry : expiry = if n = 0 ∨ n = 1 then some 30 else none)
    (hn : n < 4) : Stands host port target ({ c with expiry }.start op) := by
  have hreading : c.client.reading = decide (5 ≤ n + 1) := by
    rw [h.reading, decide_eq_false (by omega), decide_eq_false (by omega)]
  have hstart := h.starts expiry c.client hop hexpiry h.alive h.empty hreading
    (h.parsed.trans (Nat.sub_le_sub_right (Nat.le_succ n) 5))
  exact ⟨n + 1,hstart.1,.inl hstart.2⟩

private theorem Handling.reads (h : Handling host port target (n + 5) c) (ec : Option E) (bytesTransferred : Nat)
    (readBuffer : FlatStaticBuffer kReadBufferBytes) :
    Stands host port target (c.onRead push iterate ec bytesTransferred readBuffer) := by
  have hparsed : c.client.calls.length + 1 ≤ n + 5 - 4 := Nat.succ_le_succ h.parsed
  cases ec with
  | some ec =>
    have hfails := h.fails { c.client with readBuffer, reading := false } (List.mem_singleton.mpr rfl) ec
      ((Nat.le_succ _).trans hparsed)
    exact ⟨n + 5,hfails.1,.inr hfails.2⟩
  | none =>
    obtain ⟨hcalls,hends | ⟨halive,hreading,hempty⟩⟩ := client_onRead push iterate
      { c.client with readBuffer, reading := false } rfl bytesTransferred
    · simp only [onRead, hends.2, Bool.false_eq_true, if_false]
      refine ⟨n + 5,⟨h.reached.named,h.reached.started,h.reached.expiry⟩,.inr ?_⟩
      exact ⟨h.outstanding,.inl ⟨hends.1,h.reported⟩,hcalls.trans hparsed⟩
    · simp only [onRead, hreading, if_true]
      have hstart := h.starts c.expiry _ (stage_read (n + 1)) (h.reached.expiry.trans (by simp)) halive hempty
        (hreading.trans (decide_eq_true (by omega)).symm) (hcalls.trans hparsed)
      exact ⟨n + 5 + 1,hstart.1,.inl hstart.2⟩

/-- A stage under way stays so, fails, or is followed by the next one. -/
theorem under_step (hreached : Reached host port target n c) (hunder : Under host port target n c)
    {l : Completed E} (h : step push iterate c l = some c') : Stands host port target c' := by
  unfold step at h
  rw [if_neg (by rw [hunder.alive]; exact Bool.false_ne_true)] at h
  cases l with
  | resolve ec =>
    obtain ⟨hstage,mid,handling,rfl⟩ := hunder.completes hreached h nofun
    obtain rfl : n = 0 := stage_inv hstage
    cases ec with
    | some ec => exact handling.gives_up (List.mem_singleton.mpr rfl) ec
    | none => exact handling.goes_on (some 30) rfl rfl (by decide)
  | connect ec sni =>
    obtain ⟨hstage,mid,handling,rfl⟩ := hunder.completes hreached h nofun
    obtain rfl : n = 1 := stage_inv hstage
    cases ec with
    | some ec => exact handling.gives_up (List.mem_cons_self ..) ec
    | none => cases sni with
      | some sni => exact handling.gives_up (List.mem_cons_of_mem _ (List.mem_singleton.mpr rfl)) sni
      | none => exact handling.goes_on mid.expiry rfl handling.reached.expiry (by decide)
  | sslHandshake ec =>
    obtain ⟨hstage,mid,handling,rfl⟩ := hunder.completes hreached h nofun
    obtain rfl : n = 2 := stage_inv hstage
    cases ec with
    | some ec => exact handling.gives_up (List.mem_singleton.mpr rfl) ec
    | none =>
      obtain ⟨_,_,htarget,hheader⟩ := handling.reached.named
      exact handling.goes_on none (by rw [htarget, hheader]; rfl) rfl (by decide)
  | wsHandshake ec =>
    obtain ⟨hstage,mid,handling,rfl⟩ := hunder.completes hreached h nofun
    obtain rfl : n = 3 := stage_inv hstage
    cases ec with
    | some ec => exact handling.gives_up (List.mem_singleton.mpr rfl) ec
    | none => exact handling.goes_on mid.expiry rfl handling.reached.expiry (by decide)
  | write ec =>
    obtain ⟨hstage,mid,handling,rfl⟩ := hunder.completes hreached h nofun
    obtain rfl : n = 4 := stage_inv hstage
    cases ec with
    | some ec => exact handling.gives_up (List.mem_singleton.mpr rfl) ec
    | none =>
      have hstart := handling.starts mid.expiry mid.client.doRead (stage_read 0)
        handling.reached.expiry handling.alive handling.empty rfl handling.parsed
      exact ⟨5,hstart.1,.inl hstart.2⟩
  | read ec bytesTransferred readBuffer =>
    obtain ⟨hstage,mid,handling,rfl⟩ := hunder.completes hreached h nofun
    obtain ⟨n,rfl⟩ : ∃ k, n = k + 5 := stage_inv hstage
    exact handling.reads ec bytesTransferred readBuffer
  | closed ec =>
    obtain ⟨h1,h2,_⟩ := closed_step hreached h
    exact ⟨n,h1,.inl (h2 hunder)⟩
  | close =>
    obtain rfl := Option.some.inj h
    obtain ⟨h1,h2,_⟩ := close_step hreached
    exact ⟨n,h1,.inl (h2 hunder)⟩

private theorem run_stands (q : Q) : Stands (E := E) host port target ((construct q).run host port target) :=
  ⟨0,⟨⟨rfl,rfl,rfl,rfl⟩,rfl,rfl⟩,.inl ⟨rfl,rfl,rfl,rfl,rfl,Nat.le_refl 0⟩⟩

private theorem oneLevelText_fits : oneLevelText.length ≤ kReadBufferBytes := by decide

/-- A message is read; a `close` meets an error, and so does the second read. -/
def session : List (Completed Nat) :=
  [.resolve none,.connect none none,.sslHandshake none,.wsHandshake none,.write none,
    .read none oneLevelText.length ⟨oneLevelText,oneLevelText_fits⟩,.close,.closed (some 125),
    .read (some 1) 0 .empty]

def sessionStart : Connection Nat (List MarketTick) :=
  (construct []).run (ascii "localhost") (ascii "9002") (ascii "/")

end Lifecycle

end Connection
end PredictionMarket.Network

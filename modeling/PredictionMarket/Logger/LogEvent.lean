import PredictionMarket.Market.NumberText
import PredictionMarket.Strategy.PositionManager
import Mathlib.Data.Rat.Defs

/-! The calls of `AsyncLogger`, the events they queue and the rows that the worker makes
of them. How the stream spells a number is left to the stream. -/
namespace PredictionMarket.Logger
open Market Strategy

/-- `std::array<char, 16>` as the calls fill it: a zero byte ends the text inside it. -/
structure StrategyName where
  chars : Vector UInt8 16
  terminated : 0 ∈ chars
  deriving DecidableEq

structure LogEvent where
  timestampUs : UInt64
  eventType : UInt8
  price : ℚ
  size : CInt
  realizedPnl : ℚ
  latencyUs : UInt64
  strategy : StrategyName
  deriving DecidableEq

namespace StrategyName

/-- `ev.strategy.data()` as an operand of `<<`. -/
def text (name : StrategyName) : ByteString := name.chars.toList.takeWhile (· ≠ 0)

/-- `strategy[i] = c` for consecutive `i`. -/
def copyFrom (chars : Vector UInt8 16) (i : Nat) : ByteString → Vector UInt8 16
  | [] => chars
  | c :: rest => copyFrom (chars.setIfInBounds i c) (i + 1) rest

/-- There is a zero where one has been set. -/
theorem mem_set (chars : Vector UInt8 16) {n : Nat} (hn : n < 16) : 0 ∈ chars.setIfInBounds n 0 := by
  have hget : (chars.setIfInBounds n 0)[n] = 0 := by simp
  exact Vector.mem_of_getElem hget

/-- `LogEvent ev{}` with `strategy[0] = '\0'`. -/
def none : StrategyName :=
  ⟨(Vector.replicate 16 0).setIfInBounds 0 0,mem_set _ (by decide)⟩

def copied (name : ByteString) : Nat := if name.length < 16 - 1 then name.length else 16 - 1

private theorem copied_eq (name : ByteString) : copied name = min name.length 15 := by
  unfold copied
  split_ifs <;> omega

private theorem copied_lt (name : ByteString) : copied name < 16 := by
  rw [copied_eq]
  omega

/-- The array after `log_active_strategy` has filled it. -/
def ofText (name : ByteString) : StrategyName :=
  ⟨(copyFrom (Vector.replicate 16 0) 0 (name.take (copied name))).setIfInBounds (copied name) 0,
    mem_set _ (copied_lt name)⟩

private theorem copyFrom_toList (chars : Vector UInt8 16) (i : Nat) (name : ByteString)
    (h : i + name.length ≤ 16) : (copyFrom chars i name).toList =
      chars.toList.take i ++ name ++ chars.toList.drop (i + name.length) := by
  induction name generalizing chars i with
  | nil => simp [copyFrom]
  | cons c rest ih =>
    rw [List.length_cons] at h
    have hi : i < chars.toList.length := by
      rw [Vector.length_toList]
      omega
    have htake : (chars.toList.set i c).take (i + 1) = chars.toList.take i ++ [c] := by
      rw [List.take_add_one, List.take_set_of_le (Nat.le_refl i), List.getElem?_set_self hi]
      rfl
    have hdrop : (chars.toList.set i c).drop (i + 1 + rest.length) =
        chars.toList.drop (i + 1 + rest.length) := List.drop_set_of_lt (by omega)
    rw [copyFrom, ih _ _ (by omega), Vector.toList_setIfInBounds, htake, hdrop, List.length_cons,
      Nat.add_right_comm i 1, Nat.add_assoc i]
    simp

private theorem takeWhile_terminated (bytes rest : ByteString) :
    (bytes ++ 0 :: rest).takeWhile (· ≠ 0) = bytes.takeWhile (· ≠ 0) := by
  have hrest : (0 :: rest : ByteString).takeWhile (· ≠ 0) = [] := rfl
  rw [List.takeWhile_append, hrest, List.append_nil]
  split_ifs with h
  · exact ((List.takeWhile_prefix _).eq_of_length h).symm
  · rfl

/-- What a row shows of a name: at most 15 bytes, and none behind a zero byte. -/
theorem text_ofText (name : ByteString) : (ofText name).text = (name.take 15).takeWhile (· ≠ 0) := by
  have hn := copied_lt name
  have hlen : (name.take (copied name)).length = copied name := by
    rw [List.length_take, copied_eq]
    omega
  have htake : name.take (copied name) = name.take 15 := by
    rw [copied_eq, Nat.min_comm, ← List.take_take, List.take_length]
  obtain ⟨rest,hrest⟩ : ∃ rest, (Vector.replicate 16 (0 : UInt8)).toList.drop (copied name) = 0 :: rest := by
    rw [Vector.toList_replicate, List.drop_replicate]
    exact ⟨_,(congrArg (List.replicate · 0) (by omega : 16 - copied name = 15 - copied name + 1))⟩
  have hset : (name.take (copied name) ++ 0 :: rest).set (copied name) 0 =
      name.take (copied name) ++ 0 :: rest := by
    rw [List.set_append_right _ _ hlen.le, hlen, Nat.sub_self]
    rfl
  rw [text, ofText, Vector.toList_setIfInBounds, copyFrom_toList _ _ _ (by omega), List.take_zero,
    List.nil_append, Nat.zero_add, hlen, hrest, hset, takeWhile_terminated, htake]

end StrategyName

/-- A call with its arguments. -/
inductive Call where
  | logEvent (timestampUs : UInt64) (eventType : UInt8) (price : ℚ) (size : CInt) (realizedPnl : ℚ)
      (latencyUs : UInt64)
  | logActiveStrategy (strategyName : ByteString)
  deriving DecidableEq

def metaByte : UInt8 := 77

/-- The event that the call hands to `push`. -/
def Call.event : Call → LogEvent
  | .logEvent timestampUs eventType price size realizedPnl latencyUs =>
    ⟨timestampUs,eventType,price,size,realizedPnl,latencyUs,.none⟩
  | .logActiveStrategy strategyName => ⟨0,metaByte,0,.zero 32,0,0,.ofText strategyName⟩

/-- One operand of `<<`. -/
inductive Operand where
  | text (bytes : ByteString)
  | char (c : UInt8)
  | unsigned (n : UInt64)
  | int (n : CInt)
  | double (x : ℚ)
  deriving DecidableEq

def comma : Operand := .char 44

def newline : Operand := .char 10

def header : List Operand :=
  [.text (ascii "timestamp_us,event_type,price,size,realized_pnl,latency_us,strategy\n")]

/-- The statement that writes an event. -/
def row (ev : LogEvent) : List Operand :=
  [.unsigned ev.timestampUs,comma,.char ev.eventType,comma,.double ev.price,comma,.int ev.size,comma,
    .double ev.realizedPnl,comma,.unsigned ev.latencyUs,comma,.text ev.strategy.text,newline]

/-- What can be seen of an event: all of it but the bytes behind the end of the name. -/
structure Shown where
  timestampUs : UInt64
  eventType : UInt8
  price : ℚ
  size : CInt
  realizedPnl : ℚ
  latencyUs : UInt64
  strategy : ByteString
  deriving DecidableEq

def LogEvent.shown (ev : LogEvent) : Shown :=
  ⟨ev.timestampUs,ev.eventType,ev.price,ev.size,ev.realizedPnl,ev.latencyUs,ev.strategy.text⟩

/-- Rows read by their columns, if they are rows. -/
def readRows : List Operand → Option (List Shown)
  | [] => some []
  | .unsigned timestampUs :: c₁ :: .char eventType :: c₂ :: .double price :: c₃ :: .int size :: c₄ ::
      .double realizedPnl :: c₅ :: .unsigned latencyUs :: c₆ :: .text strategy :: c₇ :: rest =>
    if [c₁,c₂,c₃,c₄,c₅,c₆,c₇] = [comma,comma,comma,comma,comma,comma,newline] then
      (readRows rest).map (⟨timestampUs,eventType,price,size,realizedPnl,latencyUs,strategy⟩ :: ·)
    else none
  | _ => none

/-- A log is its header and rows. -/
def readLog : List Operand → Option (List Shown)
  | [] => none
  | first :: rest => if [first] = header then readRows rest else none

private theorem readRows_rows (events : List LogEvent) :
    readRows (events.flatMap row) = some (events.map LogEvent.shown) := by
  induction events with
  | nil => rfl
  | cons ev events ih =>
    rw [List.flatMap_cons, row]
    simp only [List.cons_append, List.nil_append, readRows, if_true, ih, Option.map_some]
    rfl

/-- The events can be read off a log, in their order and with nothing between them. -/
theorem readLog_rows (events : List LogEvent) :
    readLog (header ++ events.flatMap row) = some (events.map LogEvent.shown) := by
  change (if header = header then readRows (events.flatMap row) else none) = _
  rw [if_pos rfl, readRows_rows]

/-- `std::ofstream` on the truncated file: what the file is known to hold, and what the stream has
taken but not handed over. Operands are handed over whole; how far the bytes of the next one may have
come by themselves is for `OnDisk` to say. -/
structure OutFile where
  disk : List Operand
  buffered : List Operand

namespace OutFile

def opened : OutFile := ⟨[],[]⟩

/-- All that was written to the stream. -/
def written (out : OutFile) : List Operand := out.disk ++ out.buffered

def insert (out : OutFile) (operands : List Operand) : OutFile :=
  { out with buffered := out.buffered ++ operands }

/-- The stream hands over the first `n` operands it holds. -/
def spill (out : OutFile) (n : Nat) : OutFile :=
  ⟨out.disk ++ out.buffered.take n,out.buffered.drop n⟩

def flush (out : OutFile) : OutFile := ⟨out.disk ++ out.buffered,[]⟩

@[simp] theorem written_opened : opened.written = [] := rfl

@[simp] theorem written_insert (out : OutFile) (operands : List Operand) :
    (out.insert operands).written = out.written ++ operands := by
  simp [insert, written]

@[simp] theorem written_spill (out : OutFile) (n : Nat) : (out.spill n).written = out.written := by
  simp [spill, written]

@[simp] theorem written_flush (out : OutFile) : out.flush.written = out.written := by
  simp [flush, written]

/-- Nothing is left in the stream: the file holds all that was written. -/
theorem disk_eq_written {out : OutFile} (h : out.buffered = []) : out.disk = out.written := by
  rw [written, h, List.append_nil]

end OutFile

end PredictionMarket.Logger

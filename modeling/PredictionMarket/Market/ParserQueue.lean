import PredictionMarket.Market.ParserRun
import PredictionMarket.Market.ScriptOutcome
import PredictionMarket.Queue.SpscQueue

/-! `parse_tick` on a real queue in any state: whether it returns, what a rejected payload
leaves behind, and what of an accepted one is enqueued. -/
namespace PredictionMarket.Market
open Queue

/-- `engine_config::kTickQueueSize` -/
def kTickQueueSize : Size := ⟨65536,by decide,by decide,by decide⟩

namespace Script

/-- Iteration runs into an error element that no defect of its message precedes. -/
def ReachesError : Script → Prop
  | refused => False
  | message items => ∃ passed, StopsAt items passed .malformed
  | batch messages => none ∈ messages ∨
      ∃ items, some items ∈ messages ∧ ∃ passed, StopsAt items passed .malformed

/-- A message that is not part of a batch has a defect behind a tick. -/
def DefectAfterTick : Script → Prop
  | message items => ∃ passed, StopsAt items passed .defect ∧ passed.flatten ≠ []
  | _ => False

/-- All ticks of a message; in a batch, the ticks of each message before its first defect. -/
def announced : Script → List MarketTick
  | refused => []
  | message items => items.flatMap Item.ticks
  | batch messages => messages.flatMap fun m => m.elim [] ticksBeforeDefect

private theorem run_terminated_iff (s : Script) : s.run.1 = .terminated ↔ s.ReachesError := by
  cases s with
  | refused => simp [run, ReachesError]
  | message items => exact runItems_terminated_iff items
  | batch messages => simp only [run, ReachesError, runBatch_terminated_iff, runItems_terminated_iff]

/-- Only a message on its own is rejected with ticks already out. -/
theorem run_rejected_iff (s : Script) :
    s.run.1 = .returned false ∧ s.run.2 ≠ [] ↔ s.DefectAfterTick := by
  cases s with
  | refused => simp [run, DefectAfterTick]
  | message items =>
    constructor
    · rintro ⟨hf,ht⟩
      obtain ⟨passed,hs⟩ := (runItems_false_iff items).mp hf
      rw [run, runItems_defect hs] at ht
      exact ⟨passed,hs,ht⟩
    · rintro ⟨passed,hs,ht⟩
      rw [run, runItems_defect hs]
      exact ⟨rfl,ht⟩
  | batch messages =>
    apply iff_of_false ?_ id
    intro h
    rw [run] at h
    have hreturned : (runBatch messages).1 ≠ .terminated := by
      rw [h.1]
      exact Verdict.returned_ne_terminated false
    rw [runBatch_eq hreturned] at h
    cases h.1

/-- An accepted payload has announced everything it emitted. -/
theorem run_accepted {s : Script} (h : s.run.1 = .returned true) : s.run.2 = s.announced := by
  cases s with
  | refused => cases h
  | message items =>
    obtain ⟨passed,rfl⟩ := (runItems_true_iff items).mp h
    rw [run, runItems_passed, announced, List.flatMap_map]
    exact List.flatMap_id.symm
  | batch messages =>
    have hreturned : (runBatch messages).1 ≠ .terminated := by
      rw [← run, h]
      exact Verdict.returned_ne_terminated true
    rw [run, runBatch_eq hreturned]
    rfl

end Script

namespace MarketParser
variable {size : Size} (iterate : ByteString → Option Json) (parser : MarketParser)
  (jsonPayload : ByteString)

/-- `parse_tick` into a queue. -/
def parseInto (q : SpscQueue size MarketTick) : Verdict × SpscQueue size MarketTick :=
  parseTick SpscQueue.push iterate parser jsonPayload q

private theorem parseInto_verdict (q : SpscQueue size MarketTick) :
    (parseInto iterate parser jsonPayload q).1 = (script iterate parser jsonPayload).run.1 := by
  rw [parseInto, parseTick_eq]
  rfl

/-- The queue receives what fits of the ticks. -/
theorem parseInto_represents (st : QueueState size MarketTick) :
    (parseInto iterate parser jsonPayload st.queue).2.Represents (st.contents ++
      (script iterate parser jsonPayload).run.2.take (size.value - st.contents.length)) := by
  rw [parseInto, parseTick_eq]
  exact st.represents.pushAll _

/-- `parse_tick` returns exactly when iteration reaches no error element. -/
theorem parseTick_returns_iff (q : SpscQueue size MarketTick) :
    (∃ ok, (parseInto iterate parser jsonPayload q).1 = .returned ok) ↔
      ¬ (script iterate parser jsonPayload).ReachesError := by
  rw [← Script.run_terminated_iff, parseInto_verdict]
  cases (script iterate parser jsonPayload).run.1 <;> simp

/-- A level of the internal feed. -/
def pair (price size : String) : Option Json :=
  some (.array [some (.string (ascii price)),some (.string (ascii size))])

def missingCommaText : ByteString := ascii "\x7b\"bids\":[[\"0.57\",\"1200\"] [\"0.56\",\"300\"]]\x7d"

/-- The second element of the array is the error of the missing comma. -/
def missingComma : Json := .object [some (ascii "bids",.array [pair "0.57" "1200",none])]

/-- A missing comma between two levels ends the process. -/
theorem missingComma_terminates : ¬ ∃ ok, (parseInto (Json.only missingCommaText missingComma)
    (construct true) missingCommaText (SpscQueue.new kTickQueueSize MarketTick 0)).1 = .returned ok := by
  decide

/-- A rejected payload leaves the queue alone exactly when no tick could be pushed before
the defect that rejects it. -/
theorem rejected_unchanged_iff (st : QueueState size MarketTick) :
    ((parseInto iterate parser jsonPayload st.queue).1 = .returned false →
      (parseInto iterate parser jsonPayload st.queue).2.Represents st.contents) ↔
    (st.contents.length = size.value ∨ ¬ (script iterate parser jsonPayload).DefectAfterTick) := by
  have hq := parseInto_represents iterate parser jsonPayload st
  rw [parseInto_verdict, ← Script.run_rejected_iff]
  generalize (script iterate parser jsonPayload).run = run at hq
  constructor
  · intro h
    by_contra hc
    rw [not_or, not_not] at hc
    have he := hq.unique (h hc.2.1)
    have hroom : st.contents.length < size.value := Nat.lt_of_le_of_ne st.represents.stored.fits hc.1
    have hlen := congrArg List.length he
    rw [List.length_append, List.length_take] at hlen
    have := List.length_pos_iff.mpr hc.2.2
    omega
  · intro h hf
    suffices ht : run.2.take (size.value - st.contents.length) = [] by
      rwa [ht, List.append_nil] at hq
    rcases h with hfull | hn
    · rw [hfull, Nat.sub_self, List.take_zero]
    · rw [not_and, not_not] at hn
      rw [hn hf, List.take_nil]

def lateDefectText : ByteString := ascii "\x7b\"bids\":[[\"0.57\",\"1200\"]],\"asks\":5\x7d"

def lateDefect : Json := .object [some (ascii "bids",.array [pair "0.57" "1200"]),some (ascii "asks",.scalar)]

def newQueue : QueueState kTickQueueSize MarketTick := ⟨.new kTickQueueSize MarketTick 0,[],.new 0⟩

/-- The asks reject the message when its bid is already enqueued. -/
theorem lateDefect_enqueues :
    (parseInto (Json.only lateDefectText lateDefect) (construct true) lateDefectText newQueue.queue).1 =
      .returned false ∧
    ¬ (parseInto (Json.only lateDefectText lateDefect) (construct true) lateDefectText
      newQueue.queue).2.Represents newQueue.contents := by
  have hv : (parseInto (Json.only lateDefectText lateDefect) (construct true) lateDefectText
      newQueue.queue).1 = .returned false := by decide
  have hq := parseInto_represents (Json.only lateDefectText lateDefect) (construct true) lateDefectText
    newQueue
  have ht : (script (Json.only lateDefectText lateDefect) (construct true) lateDefectText).run.2 =
      [⟨57,1200,true⟩] := by decide
  rw [ht] at hq
  exact ⟨hv,fun h => List.cons_ne_nil _ _ (hq.unique h)⟩

/-- An accepted payload enqueues as many of its ticks as there are free slots, in order,
so nothing is lost exactly when they all fit. -/
theorem accepted_delivered (st : QueueState size MarketTick)
    (h : (parseInto iterate parser jsonPayload st.queue).1 = .returned true) :
    (parseInto iterate parser jsonPayload st.queue).2.Represents (st.contents ++
      (script iterate parser jsonPayload).announced.take (size.value - st.contents.length)) ∧
    ((parseInto iterate parser jsonPayload st.queue).2.Represents
        (st.contents ++ (script iterate parser jsonPayload).announced) ↔
      st.contents.length + (script iterate parser jsonPayload).announced.length ≤ size.value) := by
  rw [parseInto_verdict] at h
  have hq := parseInto_represents iterate parser jsonPayload st
  rw [Script.run_accepted h] at hq
  refine ⟨hq,?_,?_⟩
  · intro hall
    rw [← List.length_append]
    exact hall.stored.fits
  · intro hfits
    rwa [List.take_of_length_le (by omega)] at hq

def oneLevelText : ByteString := ascii "\x7b\"bids\":[[\"0.57\",\"1200\"]]\x7d"

def oneLevel : Json := .object [some (ascii "bids",.array [pair "0.57" "1200"])]

/-- A queue without a free slot. -/
def fullQueue : QueueState kTickQueueSize MarketTick :=
  newQueue.pushAll (List.replicate kTickQueueSize.value ⟨50,1,true⟩)

private theorem fullQueue_length : fullQueue.contents.length = kTickQueueSize.value := by
  simp [fullQueue, QueueState.pushAll, newQueue]

/-- A batch whose only message has a defect before its level. -/
def defectInBatchText : ByteString := ascii "[\x7b\"bids\":[5,[\"0.57\",\"1200\"]]\x7d]"

def defectInBatch : Json :=
  .array [some (.object [some (ascii "bids",.array [some .scalar,pair "0.57" "1200"])])]

/-- Two payloads that are reported as parsed and lose a valid level: one finds the queue
full, the other is a batch that discards the rejection of its message. -/
theorem acceptance_loses :
    ((parseInto (Json.only oneLevelText oneLevel) (construct true) oneLevelText fullQueue.queue).1 =
        .returned true ∧
      (script (Json.only oneLevelText oneLevel) (construct true) oneLevelText).announced =
        [⟨57,1200,true⟩] ∧
      ¬ (parseInto (Json.only oneLevelText oneLevel) (construct true) oneLevelText
        fullQueue.queue).2.Represents (fullQueue.contents ++ [⟨57,1200,true⟩])) ∧
    ((parseInto (Json.only defectInBatchText defectInBatch) (construct true) defectInBatchText
        newQueue.queue).1 = .returned true ∧
      (pair "0.57" "1200").map (levelItem true) = some (.emits [⟨57,1200,true⟩]) ∧
      (parseInto (Json.only defectInBatchText defectInBatch) (construct true) defectInBatchText
        newQueue.queue).2.Represents []) := by
  refine ⟨⟨?_,by decide,?_⟩,by decide,by decide,?_⟩
  · rw [parseInto_verdict]
    decide
  · intro h
    have hfits := h.stored.fits
    rw [List.length_append, fullQueue_length, List.length_singleton] at hfits
    omega
  · have hq := parseInto_represents (Json.only defectInBatchText defectInBatch) (construct true)
      defectInBatchText newQueue
    have ht : (script (Json.only defectInBatchText defectInBatch) (construct true)
        defectInBatchText).run.2 = [] := by decide
    rwa [ht] at hq

def twoLevelsText : ByteString := ascii "\x7b\"bids\":[[\"0.57\",\"1200\"],[\"0.56\",\"300\"]]\x7d"

def twoLevels : Json := .object [some (ascii "bids",.array [pair "0.57" "1200",pair "0.56" "300"])]

/-- A queue with a single free slot. -/
def nearlyFullQueue : QueueState kTickQueueSize MarketTick :=
  newQueue.pushAll (List.replicate (kTickQueueSize.value - 1) ⟨50,1,true⟩)

private theorem nearlyFullQueue_room : kTickQueueSize.value - nearlyFullQueue.contents.length = 1 := by
  have hlength : nearlyFullQueue.contents.length = kTickQueueSize.value - 1 := by
    rw [nearlyFullQueue, QueueState.pushAll, List.length_append, List.length_take, List.length_replicate]
    exact (Nat.zero_add _).trans (min_eq_right (Nat.sub_le _ 1))
  have hpos : 0 < kTickQueueSize.value := by decide
  omega

/-- Of two levels the first takes the only slot, and the second is lost. -/
theorem nearlyFullQueue_delivered :
    (parseInto (Json.only twoLevelsText twoLevels) (construct true) twoLevelsText
      nearlyFullQueue.queue).2.Represents (nearlyFullQueue.contents ++ [⟨57,1200,true⟩]) ∧
    ¬ (parseInto (Json.only twoLevelsText twoLevels) (construct true) twoLevelsText
      nearlyFullQueue.queue).2.Represents (nearlyFullQueue.contents ++ [⟨57,1200,true⟩,⟨56,300,true⟩]) := by
  have hv : (parseInto (Json.only twoLevelsText twoLevels) (construct true) twoLevelsText
      nearlyFullQueue.queue).1 = .returned true := by
    rw [parseInto_verdict]
    decide
  have ht : (script (Json.only twoLevelsText twoLevels) (construct true) twoLevelsText).announced =
      [⟨57,1200,true⟩,⟨56,300,true⟩] := by decide
  have h := accepted_delivered (Json.only twoLevelsText twoLevels) (construct true) twoLevelsText
    nearlyFullQueue hv
  rw [ht, nearlyFullQueue_room] at h
  refine ⟨h.1,fun hall => ?_⟩
  have hfits := h.2.mp hall
  have hroom := nearlyFullQueue_room
  rw [List.length_cons, List.length_singleton] at hfits
  omega

end MarketParser
end PredictionMarket.Market

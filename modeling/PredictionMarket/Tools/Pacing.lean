import PredictionMarket.Tools.Sessions
import PredictionMarket.Foundation.Pacing

/-! When a replay sends what it sends. The pauses are taken from the timestamps that the recorder
has put into the lines, so a pass follows the recording message by message. A sleep may last longer
than asked for, so that of the real times only lower bounds are known. -/
namespace PredictionMarket.Tools.Replay
open Recorder Foundation.Pacing

/-- What is sent, with the time that has been asked to sleep before it. -/
def requested (elapsed : ℚ) : List Action → List (ℚ × Text)
  | [] => []
  | .sleep seconds :: rest => requested (elapsed + seconds) rest
  | .send payload :: rest => (elapsed,payload) :: requested elapsed rest

/-- What is sent, with the real times, from some time on. A sleep lasts as long as asked for or
longer, and a text is sent at any time behind what was done before. -/
inductive Timed : ℚ → List Action → List (ℚ × Text) → Prop where
  | done (now : ℚ) : Timed now [] []
  | slept {now later seconds : ℚ} {rest : List Action} {sent : List (ℚ × Text)} (asleep : now + seconds ≤ later)
      (after : Timed later rest sent) : Timed now (.sleep seconds :: rest) sent
  | sent {now time : ℚ} {payload : Text} {rest : List Action} {sent : List (ℚ × Text)} (reached : now ≤ time)
      (after : Timed time rest sent) : Timed now (.send payload :: rest) ((time,payload) :: sent)

namespace Timed
variable {now : ℚ} {actions : List Action} {texts : List (ℚ × Text)}

/-- What is sent in a real run is what the pass sends. -/
theorem payloads (h : Timed now actions texts) (elapsed : ℚ) :
    texts.map Prod.snd = (requested elapsed actions).map Prod.snd := by
  induction h generalizing elapsed with
  | done => rfl
  | slept _ _ ih => exact ih _
  | sent _ _ ih => exact congrArg (List.cons _) (ih elapsed)

private theorem behind (h : Timed now actions texts) (elapsed : ℚ) :
    ∀ p ∈ ((requested elapsed actions).map Prod.fst).zip (texts.map Prod.fst), p.1 - elapsed ≤ p.2 - now := by
  induction h generalizing elapsed with
  | done => exact nofun
  | slept hasleep _ ih =>
    intro p hp
    have := ih _ p hp
    linarith
  | sent hreached _ ih =>
    rw [requested, List.map_cons, List.map_cons, List.zip_cons_cons, List.forall_mem_cons]
    refine ⟨by linarith,fun p hp => ?_⟩
    have := ih elapsed p hp
    linarith

/-- In no run is a text closer to another one than the sleeps between them. -/
theorem notFaster (h : Timed now actions texts) (elapsed : ℚ) :
    NotFaster ((requested elapsed actions).map Prod.fst) (texts.map Prod.fst) := by
  induction h generalizing elapsed with
  | done => exact .nil
  | slept _ _ ih => exact ih _
  | sent _ after ih => exact (ih elapsed).cons (after.behind elapsed)

end Timed

/-- A timestamp in seconds. -/
def seconds (now : Int64) : ℚ := now.toInt / 1000000000

section Timing
variable {replayMaxSleep : ℚ}

private theorem requested_waited (elapsed : ℚ) (prev next : Int64) (rest : List Action) :
    requested elapsed (waited replayMaxSleep (some prev) next ++ rest) =
      requested (elapsed + gap replayMaxSleep (seconds prev) (seconds next)) rest := by
  have hlt : prev.toInt < next.toInt ↔ seconds prev < seconds next := by
    unfold seconds
    rw [div_lt_div_iff_of_pos_right (by norm_num), Int.cast_lt]
  unfold waited gap
  simp only [hlt]
  split_ifs
  · have hseconds : ((next.toInt - prev.toInt : Int) : ℚ) / 1000000000 = seconds next - seconds prev := by
      unfold seconds
      rw [Int.cast_sub, sub_div]
    rw [hseconds]
    rfl
  · rw [add_zero]
    rfl

private theorem requested_repeated (elapsed : ℚ) (prev : Int64) (messages : List (Text × Int64)) :
    requested elapsed (repeated replayMaxSleep (some prev) messages) =
      (offsets replayMaxSleep elapsed (seconds prev) (messages.map fun m => seconds m.2)).zip
        (messages.map Prod.fst) := by
  induction messages generalizing elapsed prev with
  | nil => rfl
  | cons m messages ih =>
    rw [repeated, requested_waited, requested, ih]
    rfl

private theorem requested_pass (first : Text × Int64) (rest : List (Text × Int64)) :
    requested 0 (repeated replayMaxSleep none (first :: rest)) =
      (0 :: offsets replayMaxSleep 0 (seconds first.2) (rest.map fun m => seconds m.2)).zip
        ((first :: rest).map Prod.fst) := by
  rw [repeated, waited, List.nil_append, requested, requested_repeated]
  rfl

/-- The times of receipt, with no gap longer than the cap. -/
def Gapless (replayMaxSleep : ℚ) (heard : List (Text × Int64)) : Prop :=
  (heard.map fun m => seconds m.2).IsChain fun a b => a ≤ b ∧ b - a ≤ replayMaxSleep

/-- What is said of the pauses of a pass that repeats these messages. -/
structure Paced (replayMaxSleep : ℚ) (asked : List (ℚ × Text)) (heard : List (Text × Int64)) : Prop where
  texts : asked.map Prod.snd = heard.map Prod.fst
  steady : (asked.map Prod.fst).IsChain fun a b => a ≤ b ∧ b ≤ a + replayMaxSleep
  prompt : (heard.map fun m => seconds m.2).IsChain (· ≤ ·) → ∀ first ∈ heard.head?,
    List.Forall₂ (fun t m => t ≤ seconds m.2 - seconds first.2) (asked.map Prod.fst) heard
  exact : Gapless replayMaxSleep heard → ∀ first ∈ heard.head?,
    asked.map Prod.fst = heard.map fun m => seconds m.2 - seconds first.2

private theorem repeated_paced (nonneg : 0 ≤ replayMaxSleep) (heard : List (Text × Int64)) :
    Paced replayMaxSleep (requested 0 (repeated replayMaxSleep none heard)) heard := by
  cases heard with
  | nil => exact ⟨rfl,.nil,nofun,nofun⟩
  | cons first rest =>
    rw [requested_pass]
    have hlength : (0 :: offsets replayMaxSleep 0 (seconds first.2) (rest.map fun m => seconds m.2)).length =
        ((first :: rest).map Prod.fst).length := by
      simp only [List.length_cons, List.length_map, offsets_length]
    have htimes := List.map_fst_zip hlength.le
    refine ⟨List.map_snd_zip hlength.ge,?_,fun sorted => ?_,fun short => ?_⟩
    · rw [htimes]
      exact offsets_chain nonneg 0 _ _
    · rintro _ ⟨⟩
      rw [htimes]
      have hle := offsets_le replayMaxSleep 0 sorted
      rw [List.forall₂_map_right_iff] at hle
      refine .cons (sub_self _).ge (hle.imp fun t m h => ?_)
      rwa [zero_add] at h
    · rintro _ ⟨⟩
      rw [htimes, offsets_eq short, List.map_map, List.map_cons, sub_self]
      congr 1
      apply List.map_congr_left
      intro m _
      exact zero_add _

/-- In no run of such a pass are two texts closer to one another than they were received. -/
theorem paced_notFaster {asked : List (ℚ × Text)} {heard : List (Text × Int64)} {times : List ℚ}
    (h : Paced replayMaxSleep asked heard) (short : Gapless replayMaxSleep heard)
    (slower : NotFaster (asked.map Prod.fst) times) : NotFaster (heard.map fun m => seconds m.2) times := by
  cases heard with
  | nil => exact .nil
  | cons first rest =>
    have hshifted : NotFaster (((first :: rest).map fun m => seconds m.2).map (· - seconds first.2)) times := by
      rw [List.map_map]
      rwa [h.exact short first rfl] at slower
    exact hshifted.shift

end Timing

/-- The second session ends with an exception behind its first message. -/
def interrupted : List (Session × Stop) :=
  [(.ran (received [(mimicText,5),(pong,6)]),.later),(.refused,.later),
    (.ran (received [(greeting,400000005),(halfPairText,400000006),(arrayText,7)]),.during)]

/-- An interpreter that knows what these sessions receive and record. -/
def interruptedPython : Python := .knowing [(mimicText,.dict mimic),(arrayText,.list [.int 1]),
  (halfPairText,halfPair),(dumps (.dict (enriched mimic mimicText 5)),.dict (enriched mimic mimicText 5)),
  (dumps (.dict (wrapped greeting 400000005 "non-JSON payload")),
    .dict (wrapped greeting 400000005 "non-JSON payload"))]

/-- A run over the recording in which the sleep has lasted half a second. -/
def overslept : List (ℚ × Text) := [(7,mimicText),(15/2,greeting)]

/-- The messages that are replayed. -/
def interruptedHeard : List (Text × Int64) := [(mimicText,5),(greeting,400000005)]

/-- The pass over the recording. -/
def interruptedPass : List Action × Bool :=
  replayPass interruptedPython (1/2) (recordMain interruptedPython ⟨[],backoffInitial,[]⟩ interrupted).file

end PredictionMarket.Tools.Replay

import Mathlib.Algebra.Order.Ring.Defs
import Mathlib.Data.List.Forall2
import Mathlib.Data.List.Chain
import Mathlib.Tactic.Linarith
import Mathlib.Tactic.Ring

/-! Events repeated with the gaps they had, none longer than a cap. The times at which they are
repeated are the recorded ones as long as no gap is cut, and never behind them. Who waits longer than
asked for keeps the events at least as far apart. -/
namespace PredictionMarket.Foundation.Pacing
variable {K : Type} [CommRing K] [LinearOrder K] [IsStrictOrderedRing K] (cap : K)

/-- How long is waited between events of these two times. -/
def gap (earlier later : K) : K := if earlier < later then min (later - earlier) cap else 0

/-- The times of the events, from one at `elapsed` that had the time `prev`. -/
def offsets (elapsed prev : K) : List K → List K
  | [] => []
  | t :: ts => (elapsed + gap cap prev t) :: offsets (elapsed + gap cap prev t) t ts

variable {cap}

omit [IsStrictOrderedRing K] in
/-- There is one time for each event. -/
theorem offsets_length (elapsed prev : K) (ts : List K) : (offsets cap elapsed prev ts).length = ts.length := by
  induction ts generalizing elapsed prev with
  | nil => rfl
  | cons t ts ih => rw [offsets, List.length_cons, ih, List.length_cons]

private theorem gap_bounds (nonneg : 0 ≤ cap) (earlier later : K) :
    0 ≤ gap cap earlier later ∧ gap cap earlier later ≤ cap := by
  unfold gap
  split_ifs with h
  · exact ⟨le_min (sub_nonneg.mpr h.le) nonneg,min_le_right _ _⟩
  · exact ⟨le_refl _,nonneg⟩

variable (cap) in
private theorem gap_le {earlier later : K} (h : earlier ≤ later) : gap cap earlier later ≤ later - earlier := by
  unfold gap
  split_ifs
  · exact min_le_left _ _
  · exact sub_nonneg.mpr h

omit [IsStrictOrderedRing K] in
private theorem gap_eq {earlier later : K} (h : earlier ≤ later) (short : later - earlier ≤ cap) :
    gap cap earlier later = later - earlier := by
  unfold gap
  split_ifs with hlt
  · exact min_eq_left short
  · rw [le_antisymm h (not_lt.mp hlt), sub_self]

/-- The order is kept, and no wait is longer than the cap. -/
theorem offsets_chain (nonneg : 0 ≤ cap) (elapsed prev : K) (ts : List K) :
    (elapsed :: offsets cap elapsed prev ts).IsChain fun a b => a ≤ b ∧ b ≤ a + cap := by
  induction ts generalizing elapsed prev with
  | nil => exact .singleton _
  | cons t ts ih =>
    obtain ⟨hlow,hhigh⟩ := gap_bounds nonneg prev t
    refine .cons_cons ⟨?_,?_⟩ (ih _ t)
    · linarith
    · linarith

variable (cap) in
/-- Events recorded in order come no later than they did. -/
theorem offsets_le (elapsed : K) {prev : K} {ts : List K} (sorted : (prev :: ts).IsChain (· ≤ ·)) :
    List.Forall₂ (fun offset t => offset ≤ elapsed + (t - prev)) (offsets cap elapsed prev ts) ts := by
  induction ts generalizing elapsed prev with
  | nil => exact .nil
  | cons t ts ih =>
    obtain ⟨h,hrest⟩ := List.isChain_cons_cons.mp sorted
    have hgap := gap_le cap h
    refine .cons (by linarith) ((ih (elapsed + gap cap prev t) hrest).imp fun offset u hu => ?_)
    linarith

omit [IsStrictOrderedRing K] in
/-- Without a gap beyond the cap they come exactly when they did. -/
theorem offsets_eq {elapsed prev : K} {ts : List K}
    (short : (prev :: ts).IsChain fun a b => a ≤ b ∧ b - a ≤ cap) :
    offsets cap elapsed prev ts = ts.map fun t => elapsed + (t - prev) := by
  induction ts generalizing elapsed prev with
  | nil => rfl
  | cons t ts ih =>
    obtain ⟨h,hrest⟩ := List.isChain_cons_cons.mp short
    rw [offsets, ih hrest, gap_eq h.1 h.2, List.map_cons]
    congr 1
    apply List.map_congr_left
    intro u _
    ring

/-- No two events are closer to one another than they were asked for. -/
def NotFaster (asked actual : List K) : Prop :=
  (asked.zip actual).Pairwise fun a b => b.1 - a.1 ≤ b.2 - a.2

omit [IsStrictOrderedRing K] in
/-- One more event may go in front if the others are at least as far behind it as asked for. -/
theorem NotFaster.cons {a b : K} {asked actual : List K} (h : NotFaster asked actual)
    (hbehind : ∀ p ∈ asked.zip actual, p.1 - a ≤ p.2 - b) : NotFaster (a :: asked) (b :: actual) :=
  List.pairwise_cons.mpr ⟨hbehind,h⟩

omit [IsStrictOrderedRing K] in
/-- It is only the distances that are asked for. -/
theorem NotFaster.shift {asked actual : List K} {start : K} (h : NotFaster (asked.map (· - start)) actual) :
    NotFaster asked actual := by
  rw [NotFaster, List.zip_map_left, List.pairwise_map] at h
  refine h.imp fun {a b} hab => ?_
  rwa [Prod.map_fst, Prod.map_fst, Prod.map_snd, Prod.map_snd, sub_sub_sub_cancel_right] at hab

end PredictionMarket.Foundation.Pacing

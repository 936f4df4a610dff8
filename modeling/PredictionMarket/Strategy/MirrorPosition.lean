import PredictionMarket.Strategy.PositionManager

/-! Fills of the other outcome: opposite size at the complementary price. They keep the
position opposite, the realized profit equal and the entry prices complementary. -/
namespace PredictionMarket.Strategy.PositionManager

/-- The position managers of the two outcomes. -/
structure Mirrored (pm pm' : PositionManager) : Prop where
  position : pm'.positionSize.val = -pm.positionSize.val
  realized : pm'.realizedPnl = pm.realizedPnl
  average : pm.positionSize.val ≠ 0 → pm.averageEntryPrice + pm'.averageEntryPrice = 1

/-- A fresh position is its own mirror. -/
theorem Mirrored.fresh : Mirrored fresh fresh := ⟨rfl,rfl,fun h => absurd rfl h⟩

private theorem averages {a a' p P Q : ℚ} (ha : a + a' = 1) (hne : P + Q ≠ 0) :
    (a * P + p * Q) / (P + Q) + (a' * -P + (1 - p) * -Q) / (-P + -Q) = 1 := by
  obtain rfl : a' = 1 - a := by linarith
  have hneg : -P + -Q = -(P + Q) := by ring
  rw [hneg]
  field_simp
  ring

private theorem Mirrored.booked {pm pm' r r' : PositionManager} {q q' : CInt} {p : ℚ}
    (h : Mirrored pm pm') (hq : q'.val = -q.val) (hr : Booked pm q p r)
    (hr' : Booked pm' q' (1 - p) r') : Mirrored r r' := by
  obtain ⟨hpos,hreal,havg⟩ := h
  have hposQ : (pm'.positionSize.val : ℚ) = -pm.positionSize.val := by exact_mod_cast hpos
  have hqQ : (q'.val : ℚ) = -q.val := by exact_mod_cast hq
  have hsize {size size' : CInt} (total : size.val = pm.positionSize.val + q.val)
      (total' : size'.val = pm'.positionSize.val + q'.val) : size'.val = -size.val := by omega
  cases hr with
  | ignored none =>
    cases hr' with
    | ignored _ => exact ⟨hpos,hreal,havg⟩
    | _ => omega
  | opened some flat =>
    cases hr' with
    | opened _ _ => exact ⟨hq,hreal,fun _ => by ring⟩
    | _ => omega
  | increased size total same =>
    cases hr' with
    | increased size' total' _ =>
      have hP : pm.positionSize.val ≠ 0 := by omega
      have hne : (pm.positionSize.val : ℚ) + q.val ≠ 0 := by
        have : pm.positionSize.val + q.val ≠ 0 := by omega
        exact_mod_cast this
      refine ⟨hsize total total',hreal,fun _ => ?_⟩
      rw [hposQ, hqQ]
      exact averages (havg hP) hne
    | _ => omega
  | reduced size total kept =>
    cases hr' with
    | reduced size' total' _ =>
      have ha := havg (by omega)
      refine ⟨hsize total total',?_,fun _ => ha⟩
      rw [hqQ, hreal, eq_sub_of_add_eq' ha]
      ring
    | _ => omega
  | closed size total held flat =>
    cases hr' with
    | closed size' total' _ _ =>
      refine ⟨hsize total total',?_,fun hs => absurd flat hs⟩
      rw [hposQ, hreal, eq_sub_of_add_eq' (havg held)]
      ring
    | _ => omega
  | flipped size total crossed =>
    cases hr' with
    | flipped size' total' _ =>
      refine ⟨hsize total total',?_,fun _ => by ring⟩
      rw [hposQ, hreal, eq_sub_of_add_eq' (havg (by omega))]
      ring
    | _ => omega

private theorem Fits.neg {pos pos' q q' : Int} (h : Fits pos q) (hpos : pos' = -pos) (hq : q' = -q) :
    Fits pos' q' := by
  intro hq' hpos'
  obtain ⟨h1,h2,h3⟩ := h (by omega) (by omega)
  rw [hpos, hq, abs_neg, abs_neg, ← neg_add, abs_neg]
  exact ⟨h1,h2,h3⟩

/-- Mirrored fills overflow together and otherwise leave mirrored positions. -/
theorem Mirrored.addFill {pm pm' : PositionManager} (h : Mirrored pm pm') {q q' : CInt}
    (hq : q'.val = -q.val) (p : ℚ) : Option.Rel Mirrored (pm.addFill q p) (pm'.addFill q' (1 - p)) := by
  have hpos' : pm.positionSize.val = -pm'.positionSize.val := by rw [h.position, neg_neg]
  have hq' : q.val = -q'.val := by rw [hq, neg_neg]
  cases hr : pm.addFill q p with
  | none =>
    cases hr' : pm'.addFill q' (1 - p) with
    | none => exact .none
    | some r' =>
      obtain ⟨r,hs⟩ := addFill_of_fits (p := p) (Fits.neg (addFill_booked hr').2 hpos' hq')
      rw [hr] at hs
      cases hs
  | some r =>
    obtain ⟨hb,hf⟩ := addFill_booked hr
    obtain ⟨r',hr'⟩ := addFill_of_fits (p := 1 - p) (Fits.neg hf h.position hq)
    rw [hr']
    exact .some (h.booked hq hb (addFill_booked hr').1)

/-- Marked at complementary prices, the two positions are worth the same. -/
theorem Mirrored.equity {pm pm' : PositionManager} (h : Mirrored pm pm') (mid : ℚ) :
    pm'.realizedPnl + pm'.getUnrealizedPnl (1 - mid) = pm.realizedPnl + pm.getUnrealizedPnl mid := by
  have hposQ : (pm'.positionSize.val : ℚ) = -pm.positionSize.val := by exact_mod_cast h.position
  rw [getUnrealizedPnl, getUnrealizedPnl, hposQ, h.realized]
  by_cases hz : pm.positionSize.val = 0
  · simp [hz]
  · rw [eq_sub_of_add_eq' (h.average hz)]
    ring

end PredictionMarket.Strategy.PositionManager

import PredictionMarket.Strategy.FillSplit

/-! What the entry price says about the fills behind the position: it lies within the
prices paid in the position's direction since that position was opened. -/
namespace PredictionMarket.Strategy.PositionManager
open Foundation Foundation.WeightedMean Foundation.AverageCost Foundation.Transition

/-- After `before` there was no position of this sign yet, and after each fill of `held` there was. -/
structure HeldSince (before held : List (CInt × ℚ)) (pm : PositionManager) : Prop where
  opened : ∃ start, fresh.addFills before = some start ∧
    ¬ SameSign start.positionSize.val pm.positionSize.val
  kept : ∀ n, 0 < n → n ≤ held.length → ∃ s, fresh.addFills (before ++ held.take n) = some s ∧
    SameSign s.positionSize.val pm.positionSize.val

/-- Prices of the fills in the direction of the position. -/
def paidPrices (pm : PositionManager) (held : List (CInt × ℚ)) : List ℚ :=
  (held.filter fun fill => sameDirection pm.positionSize.val fill.1.val).map Prod.snd

/-- The position keeps its sign under an opposite fill. -/
def OnlyReduces (pos q : Int) : Prop := (0 < pos + q ∧ q < 0) ∨ (pos + q < 0 ∧ 0 < q)

private theorem addFill_only_reduces {pm r : PositionManager} {q : CInt} {p : ℚ} (h : pm.addFill q p = some r)
    (reduces : OnlyReduces pm.positionSize.val q.val) : r.averageEntryPrice = pm.averageEntryPrice := by
  unfold OnlyReduces at reduces
  cases (addFill_booked h).1 with
  | ignored none => rfl
  | opened some flat => omega
  | increased size total same => omega
  | reduced size total kept => rfl
  | closed size total held flat => omega
  | flipped size total crossed => omega

private theorem addFills_prefix {pm r : PositionManager} {fills more : List (CInt × ℚ)}
    (h : pm.addFills (fills ++ more) = some r) : ∃ s, pm.addFills fills = some s := by
  rw [addFills, exec_append] at h
  obtain ⟨s,hs,_⟩ := Option.bind_eq_some_iff.mp h
  exact ⟨s,hs⟩

private theorem positionSize_net {fills : List (CInt × ℚ)} {pm : PositionManager} (h : fresh.addFills fills = some pm) :
    (pm.positionSize.val : ℚ) = net (sized fills) := by
  have hp := position_addFills h
  rw [position_fresh] at hp
  rw [← holding_trades, ← hp]
  rfl

private theorem averageEntryPrice_trades {fills : List (CInt × ℚ)} {pm : PositionManager}
    (h : fresh.addFills fills = some pm) :
    pm.averageEntryPrice = (Position.flat.trades (sized fills)).entry := by
  have hp := position_addFills h
  rw [position_fresh] at hp
  rw [← hp]
  rfl

private theorem heldSince_of_episode {before held : List (CInt × ℚ)} {pm : PositionManager}
    (h : fresh.addFills (before ++ held) = some pm) (episode : Episode (sized before) (sized held)) :
    HeldSince before held pm := by
  have hsized (fills more : List (CInt × ℚ)) : sized fills ++ sized more = sized (fills ++ more) :=
    List.map_append.symm
  have hpm := positionSize_net h
  constructor
  · obtain ⟨start,hstart⟩ := addFills_prefix h
    refine ⟨start,hstart,fun hs => episode.opened ?_⟩
    rw [hsized, ← hpm, ← positionSize_net hstart]
    exact sameSign_cast.mpr hs
  · intro n hn hle
    have hsplit : before ++ held = before ++ held.take n ++ held.drop n := by
      rw [List.append_assoc, List.take_append_drop]
    obtain ⟨s,hs⟩ := addFills_prefix (hsplit ▸ h)
    refine ⟨s,hs,?_⟩
    have hk := episode.kept n hn (by rwa [sized, List.length_map])
    have htake : (sized held).take n = sized (held.take n) := List.map_take.symm
    rw [htake, hsized, hsized, ← hpm, ← positionSize_net hs] at hk
    exact sameSign_cast.mp hk

private theorem mem_paidPrices {pm : PositionManager} {held : List (CInt × ℚ)} {fill : ℚ × ℚ}
    (hm : fill ∈ sized held) (same : SameSign (pm.positionSize.val : ℚ) fill.1) :
    fill.2 ∈ pm.paidPrices held := by
  obtain ⟨paid,hpaid,rfl⟩ := List.mem_map.mp hm
  have hdir := sameSign_cast.mp same
  exact List.mem_map_of_mem (List.mem_filter.mpr ⟨hpaid,by simpa [sameDirection, SameSign] using hdir⟩)

private theorem paidPrices_bounds {pm : PositionManager} {held : List (CInt × ℚ)}
    (h : Bracketed (pm.positionSize.val : ℚ) pm.averageEntryPrice (sized held)) :
    ∃ lo hi, (pm.paidPrices held).min? = some lo ∧ (pm.paidPrices held).max? = some hi ∧
      lo ≤ pm.averageEntryPrice ∧ pm.averageEntryPrice ≤ hi := by
  obtain ⟨low,hlow,hls,hle⟩ := h.low
  obtain ⟨high,hhigh,hhs,hge⟩ := h.high
  have hlm := mem_paidPrices hlow hls
  have hhm := mem_paidPrices hhigh hhs
  obtain ⟨lo,hlo⟩ := Option.isSome_iff_exists.mp (List.isSome_min?_of_mem hlm)
  obtain ⟨hi,hhi⟩ := Option.isSome_iff_exists.mp (List.isSome_max?_of_mem hhm)
  exact ⟨lo,hi,hlo,hhi,((List.min?_eq_some_iff.mp hlo).2 _ hlm).trans hle,
    hge.trans ((List.max?_eq_some_iff.mp hhi).2 _ hhm)⟩

/-- Flat, the entry price is zero. Otherwise it lies between the least and the greatest
price paid in the position's direction since it was opened, and a reduction leaves it. -/
theorem entry_within_paid {fills : List (CInt × ℚ)} {pm : PositionManager} (h : fresh.addFills fills = some pm) :
    (pm.positionSize.val = 0 → pm.averageEntryPrice = 0) ∧
    (pm.positionSize.val ≠ 0 → ∃ before held lo hi, fills = before ++ held ∧ HeldSince before held pm ∧
      (pm.paidPrices held).min? = some lo ∧ (pm.paidPrices held).max? = some hi ∧
      lo ≤ pm.averageEntryPrice ∧ pm.averageEntryPrice ≤ hi) ∧
    ∀ q p r, OnlyReduces pm.positionSize.val q.val → pm.addFill q p = some r →
      r.averageEntryPrice = pm.averageEntryPrice := by
  have hnet := positionSize_net h
  have hpaid := entryPaid_trades (sized fills)
  rw [← averageEntryPrice_trades h] at hpaid
  refine ⟨?_,?_,fun q p r hr ha => addFill_only_reduces ha hr⟩
  · intro hflat
    cases hpaid with
    | flat gone none => exact none
    | holding split episode paid =>
      rw [← hnet, hflat, Int.cast_zero] at paid
      exact absurd paid.sameSign_self not_sameSign_zero
  · intro hheld
    cases hpaid with
    | flat gone none => exact absurd (Int.cast_eq_zero.mp (hnet.trans gone)) hheld
    | @holding before held split episode paid =>
      obtain ⟨before,held,rfl,rfl,rfl⟩ := List.map_eq_append_iff.mp split
      obtain ⟨lo,hi,hbounds⟩ := paidPrices_bounds (hnet ▸ paid)
      exact ⟨before,held,lo,hi,rfl,heldSince_of_episode h episode,hbounds⟩

/-- Short three at a half, bought back and flipped, increased, and reduced. -/
def flippedFills : List (CInt × ℚ) :=
  [(sold 3,1/2), (bought 8,2/5), (bought 5,3/5), (sold 4,9/10)]

/-- Five of the eight opened the long position, so its entry is half way between the two buys. -/
def flippedPosition : PositionManager := ⟨bought 6,19/10,1/2⟩

theorem flipped_within_paid : ∃ before held lo hi, flippedFills = before ++ held ∧
    HeldSince before held flippedPosition ∧ (flippedPosition.paidPrices held).min? = some lo ∧
    (flippedPosition.paidPrices held).max? = some hi ∧ lo ≤ 1/2 ∧ 1/2 ≤ hi := by
  have h : fresh.addFills flippedFills = some flippedPosition := by decide +kernel
  exact (entry_within_paid h).2.1 (by decide)

end PredictionMarket.Strategy.PositionManager

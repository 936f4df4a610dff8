import PredictionMarket.Strategy.Baseline

/-! The ensemble against momentum alone. Order flow scores within one, so the average
reaches the threshold only where the momentum signal does by itself. -/
namespace PredictionMarket.Strategy
open Market Foundation

/-- A clamp keeps within its bounds. -/
theorem clamp_bounds (x : ℚ) : -1 ≤ clamp x (-1) 1 ∧ clamp x (-1) 1 ≤ 1 := by
  unfold clamp
  split_ifs <;> constructor <;> linarith

/-- The score of the order flow is between -1 and 1. -/
theorem flowSince_bounds (last : Option Quote) (q : Quote) :
    -1 ≤ flowSince last q ∧ flowSince last q ≤ 1 := by
  cases last with
  | none => exact ⟨by norm_num [flowSince],by norm_num [flowSince]⟩
  | some p => exact clamp_bounds _

/-- The momentum signal is sure or silent. -/
theorem moveSince_values (last : Option Quote) (q : Quote) :
    moveSince last q = 1 ∨ moveSince last q = -1 ∨ moveSince last q = 0 := by
  cases last with
  | none => exact .inr (.inr rfl)
  | some p =>
    simp only [moveSince, Option.elim_some, MomentumAlpha.moveScore]
    split_ifs
    · exact .inl rfl
    · exact .inr (.inl rfl)
    · exact .inr (.inr rfl)

namespace StrategyEngine

/-- Behind the same quote the ensemble orders nothing else than momentum does. -/
theorem orderOn_both {last : Option Quote} {q : Quote} {order : Order}
    (h : orderOn .both last q = some order) : orderOn .momentum last q = some order := by
  obtain ⟨hlow,hhigh⟩ := flowSince_bounds last q
  have hvalues := moveSince_values last q
  apply decideFill_eq_some_iff.mpr
  rcases decideFill_eq_some_iff.mp h with ⟨hscore,rfl⟩ | ⟨hscore,rfl⟩
  · change 60 / 100 ≤ (moveSince last q + flowSince last q) / 2 at hscore
    have hm : moveSince last q = 1 := by
      rcases hvalues with hm | hm | hm
      · exact hm
      · linarith
      · linarith
    refine .inl ⟨?_,rfl⟩
    change 60 / 100 ≤ moveSince last q
    linarith
  · change (moveSince last q + flowSince last q) / 2 ≤ -(60 / 100) at hscore
    have hm : moveSince last q = -1 := by
      rcases hvalues with hm | hm | hm
      · linarith
      · exact hm
      · linarith
    refine .inr ⟨?_,rfl⟩
    change moveSince last q ≤ -(60 / 100)
    linarith

/-- The two runs stay on the same book and behind the same quote. -/
theorem outputs_both (book : LimitOrderBook) (last : Option Quote) (ticks : List MarketTick) :
    List.Forall₂ (fun o o' : Option Order => ∀ order, o = some order → o' = some order)
      (Transducer.outputs View.step (.behind .both book last) ticks)
      (Transducer.outputs View.step (.behind .momentum book last) ticks) := by
  apply Transducer.lockstep (R := fun v w => ∃ book last, v = .behind .both book last ∧ w = .behind .momentum book last)
  · rintro _ _ tick ⟨book,last,rfl,rfl⟩
    rw [View.step_behind, View.step_behind]
    refine ⟨?_,_,_,rfl,rfl⟩
    intro order h
    obtain ⟨q,hq,ho⟩ := Option.bind_eq_some_iff.mp h
    exact Option.bind_eq_some_iff.mpr ⟨q,hq,orderOn_both ho⟩
  · exact ⟨book,last,rfl,rfl⟩

/-- On the same ticks every fill of the ensemble is a fill of momentum alone, with the
same size at the same price. -/
theorem ensemble_refines_momentum (ticks : List MarketTick) (steps steps' : List Step)
    (h : (construct .both).runTicks ticks = some steps)
    (h' : (construct .momentum).runTicks ticks = some steps') :
    List.Forall₂ (fun s s' => ∀ fill, s.fill = some fill → s'.fill = some fill) steps steps' := by
  have hfills := (runTicks_view h).1
  have hfills' := (runTicks_view h').1
  rw [construct_view] at hfills hfills'
  have hmaps : List.Forall₂ (fun o o' : Option Fill => ∀ fill, o = some fill → o' = some fill)
      (steps.map Step.fill) (steps'.map Step.fill) := by
    rw [hfills, hfills', List.forall₂_map_left_iff, List.forall₂_map_right_iff]
    apply (outputs_both .empty none ticks).imp
    intro o o' ho fill hfill
    obtain ⟨order,horder,rfl⟩ := Option.map_eq_some_iff.mp hfill
    rw [ho order horder]
    rfl
  rwa [List.forall₂_map_left_iff, List.forall₂_map_right_iff] at hmaps

/-- A two-sided book whose bid jumps by eighteen cents: both selections buy at sixty. -/
def surge : List MarketTick := [⟨40,10,true⟩,⟨60,10,false⟩,⟨58,10,true⟩]

theorem surge_both : ∃ steps steps', (construct .both).runTicks surge = some steps ∧
    (construct .momentum).runTicks surge = some steps' ∧ steps.map Step.fill = [none,none,some ⟨10,3/5⟩] ∧
    List.Forall₂ (fun s s' => ∀ fill, s.fill = some fill → s'.fill = some fill) steps steps' := by
  have hboth : ((construct .both).runTicks surge).map (List.map Step.fill) =
      some [none,none,some ⟨10,3/5⟩] := by decide +kernel
  have hmomentum : ((construct .momentum).runTicks surge).isSome = true := by decide +kernel
  obtain ⟨steps,hs,hfill⟩ := Option.map_eq_some_iff.mp hboth
  obtain ⟨steps',hs'⟩ := Option.isSome_iff_exists.mp hmomentum
  exact ⟨steps,steps',hs,hs',hfill,ensemble_refines_momentum surge steps steps' hs hs'⟩

end StrategyEngine
end PredictionMarket.Strategy

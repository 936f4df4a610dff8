import PredictionMarket.Strategy.Baseline
import PredictionMarket.Strategy.Accounting
import PredictionMarket.Market.BookHistory

/-! How far the position can go. The engine has no limit of its own: the position is the sum
of the orders, and the `int` operations stay in range as long as that sum does. -/
namespace PredictionMarket.Strategy
open Market Foundation

/-- Signed size of what a pass orders. -/
def orderSize (order : Option Order) : Int := order.elim 0 fun order => order.1.val

/-- Signed size of what a pass fills. -/
def fillSize (fill : Option Fill) : Int := fill.elim 0 Fill.size

private theorem fillSize_ofOrder (order : Option Order) : fillSize (order.map Fill.ofOrder) = orderSize order := by
  cases order <;> rfl

namespace PositionManager

private theorem addFill_size {pm r : PositionManager} {size : CInt} {price : ℚ} (h : pm.addFill size price = some r) :
    r.positionSize.val = pm.positionSize.val + size.val := by
  have hholding := congrArg CashLedger.Account.holding (addFill_booked h).1.account
  have hcast : (r.positionSize.val : ℚ) = pm.positionSize.val + size.val := hholding
  exact_mod_cast hcast

private theorem placed_size {pm r : PositionManager} {order : Option Order} (h : pm.placed order = some r) :
    r.positionSize.val = pm.positionSize.val + orderSize order := by
  cases order with
  | none =>
    cases h
    exact (add_zero _).symm
  | some order => exact addFill_size h

/-- A position of whole trades is never the lowest `int`. -/
theorem position_lt {pm : PositionManager} (hpos : 10 ∣ pm.positionSize.val) :
    |pm.positionSize.val| < 2^31 := by
  have hlower := pm.positionSize.lower
  have hupper := pm.positionSize.upper
  rw [abs_lt]
  omega

/-- Only the sum of the position and an order can leave the range. -/
theorem exists_placed_iff {pm : PositionManager} (hpos : 10 ∣ pm.positionSize.val) {order : Option Order}
    (horder : orderSize order = 0 ∨ orderSize order = 10 ∨ orderSize order = -10) :
    (∃ r, pm.placed order = some r) ↔ |pm.positionSize.val + orderSize order| < 2^31 := by
  cases order with
  | none =>
    constructor
    · intro _
      exact (add_zero pm.positionSize.val).symm ▸ position_lt hpos
    · exact fun _ => ⟨pm,rfl⟩
  | some order =>
    obtain ⟨size,price⟩ := order
    change size.val = 0 ∨ size.val = 10 ∨ size.val = -10 at horder
    have hsize : |size.val| < 2^31 := by
      rw [abs_lt]
      omega
    change (∃ r, pm.addFill size price = some r) ↔ |pm.positionSize.val + size.val| < 2^31
    constructor
    · rintro ⟨r,h⟩
      by_cases hnone : size.val = 0
      · rw [hnone, add_zero]
        exact position_lt hpos
      by_cases hflat : pm.positionSize.val = 0
      · rwa [hflat, zero_add]
      · exact ((addFill_booked h).2 hnone hflat).2.2
    · intro hsum
      apply addFill_of_fits
      intro _ _
      exact ⟨position_lt hpos,hsize,hsum⟩

end PositionManager

namespace StrategyEngine

/-- A pass orders ten lots either way, or nothing. -/
theorem step_orderSize (v : View) (tick : MarketTick) : orderSize (v.step tick).1 = 0 ∨
    orderSize (v.step tick).1 = 10 ∨ orderSize (v.step tick).1 = -10 := by
  cases hq : evaluatedQuote? (v.book.applyTick tick) with
  | none =>
    rw [View.step_skipped hq]
    exact .inl rfl
  | some q =>
    rw [View.step_evaluated hq]
    cases horder : decideFill (combinedScore (updateSignals (v.book.applyTick tick) tick 0 v.signals))
        (priceByte q.bid) (priceByte q.ask) with
    | none => exact .inl rfl
    | some order =>
      rcases decideFill_eq_some_iff.mp horder with ⟨_,rfl⟩ | ⟨_,rfl⟩
      · exact .inr (.inl rfl)
      · exact .inr (.inr rfl)

/-- A run exists as long as no partial sum of its orders leaves the range. -/
theorem exists_runTicks_iff {e : StrategyEngine} (hpos : 10 ∣ e.positionManager.positionSize.val)
    (ticks : List MarketTick) : (∃ steps, e.runTicks ticks = some steps) ↔
      ∀ before, before <+: Transducer.outputs View.step e.view ticks →
        |e.positionManager.positionSize.val + (before.map orderSize).sum| < 2^31 := by
  induction ticks generalizing e with
  | nil =>
    constructor
    · intro _ before hbefore
      rw [List.prefix_nil.mp hbefore, List.map_nil, List.sum_nil, add_zero]
      exact PositionManager.position_lt hpos
    · exact fun _ => ⟨[],rfl⟩
  | cons tick ticks ih =>
    have horder := step_orderSize e.view tick
    have hplaced := PositionManager.exists_placed_iff hpos horder
    -- what a pass, once it is there, hands over to the rest of the run
    have hrest {step : Step} (hstep : e.loopBody tick = some step) :
        (∃ steps, step.engine.runTicks ticks = some steps) ↔
          ∀ before, before <+: Transducer.outputs View.step (e.view.step tick).2 ticks →
            |e.positionManager.positionSize.val + orderSize (e.view.step tick).1 +
              (before.map orderSize).sum| < 2^31 := by
      obtain ⟨_,hview,hpm⟩ := loopBody_view hstep
      have hsize := PositionManager.placed_size hpm
      have hdvd : 10 ∣ step.engine.positionManager.positionSize.val := by
        rw [hsize]
        omega
      rw [← hsize, ← hview]
      exact ih hdvd
    constructor
    · rintro ⟨steps,h⟩ before hbefore
      obtain ⟨step,hstep,htail⟩ := Option.bind_eq_some_iff.mp h
      obtain ⟨rest,hrun,_⟩ := Option.map_eq_some_iff.mp htail
      rcases List.prefix_cons_iff.mp hbefore with rfl | ⟨tail,rfl,htail⟩
      · rw [List.map_nil, List.sum_nil, add_zero]
        exact PositionManager.position_lt hpos
      · rw [List.map_cons, List.sum_cons, ← add_assoc]
        exact (hrest hstep).mp ⟨rest,hrun⟩ tail htail
    · intro h
      have hfirst := h [(e.view.step tick).1] (List.prefix_cons_iff.mpr (.inr ⟨[],rfl,List.nil_prefix⟩))
      rw [List.map_singleton, List.sum_singleton] at hfirst
      obtain ⟨pm,hpm⟩ := hplaced.mpr hfirst
      obtain ⟨step,hstep⟩ := loopBody_of_placed hpm
      obtain ⟨rest,hrun⟩ := (hrest hstep).mpr (by
        intro tail htail
        have hsum := h _ (List.prefix_cons_iff.mpr (.inr ⟨tail,rfl,htail⟩))
        rwa [List.map_cons, List.sum_cons, ← add_assoc] at hsum)
      exact ⟨step :: rest,by rw [runTicks, hstep, Option.bind_some, hrun, Option.map_some]⟩

/-- The position is the sum of the fills. -/
theorem after_position {e : StrategyEngine} {ticks : List MarketTick} {steps : List Step}
    (h : e.runTicks ticks = some steps) : (e.after steps).positionManager.positionSize.val =
      e.positionManager.positionSize.val + (steps.map fun step => fillSize step.fill).sum := by
  apply runTicks_induction (P := fun _ steps => (e.after steps).positionManager.positionSize.val =
    e.positionManager.positionSize.val + (steps.map fun step => fillSize step.fill).sum) ?_ ?_ h
  · exact (add_zero _).symm
  · intro ticks steps tick step _ hstep ih
    obtain ⟨hfill,_,hpm⟩ := loopBody_view hstep
    rw [after_snoc, PositionManager.placed_size hpm, ih, List.map_append, List.sum_append,
      List.map_singleton, List.sum_singleton, hfill, fillSize_ofOrder, add_assoc]

/-- What the passes of a selection order. -/
def orders (selection : StrategySelection) (ticks : List MarketTick) : List (Option Order) :=
  Transducer.outputs View.step (.behind selection .empty none) ticks

private theorem construct_runs_iff (selection : StrategySelection) (ticks : List MarketTick) :
    (∃ steps, (construct selection).runTicks ticks = some steps) ↔
      ∀ before, before <+: orders selection ticks → |(before.map orderSize).sum| < 2^31 := by
  have hflat : (construct selection).positionManager.positionSize.val = 0 := rfl
  have hiff := exists_runTicks_iff (e := construct selection) (by rw [hflat]; exact dvd_zero _) ticks
  simp only [hflat, zero_add, construct_view] at hiff
  exact hiff

/-- The position is at all times the sum of the fills, and the `int` operations stay in range
exactly as long as the sum of the orders does. -/
theorem position_is_sum_while_in_range (selection : StrategySelection) (ticks : List MarketTick) :
    (∀ steps, (construct selection).runTicks ticks = some steps →
      ((construct selection).after steps).positionManager.positionSize.val =
        (steps.map fun step => fillSize step.fill).sum) ∧
    ((∃ steps, (construct selection).runTicks ticks = some steps) ↔
      ∀ before, before <+: orders selection ticks → |(before.map orderSize).sum| < 2^31) := by
  constructor
  · intro steps h
    rw [after_position h]
    exact zero_add _
  · exact construct_runs_iff selection ticks

/-- However many ticks, each moves the position by ten lots at most. -/
theorem orders_sum_le (v : View) (ticks : List MarketTick) : ∀ before,
    before <+: Transducer.outputs View.step v ticks → |(before.map orderSize).sum| ≤ 10 * ticks.length := by
  induction ticks generalizing v with
  | nil =>
    intro before hbefore
    rw [List.prefix_nil.mp hbefore]
    simp
  | cons tick ticks ih =>
    intro before hbefore
    rcases List.prefix_cons_iff.mp hbefore with rfl | ⟨tail,rfl,htail⟩
    · simp only [List.map_nil, List.sum_nil, abs_zero]
      positivity
    · have hone := step_orderSize v tick
      have hrest := abs_le.mp (ih _ tail htail)
      rw [List.map_cons, List.sum_cons, List.length_cons, abs_le]
      push_cast
      omega

/-- Runs of fewer than some 214 million ticks exist. -/
theorem exists_runTicks_of_length (selection : StrategySelection) {ticks : List MarketTick}
    (short : 10 * ticks.length < 2^31) : ∃ steps, (construct selection).runTicks ticks = some steps := by
  rw [construct_runs_iff]
  intro before hbefore
  refine (orders_sum_le _ ticks before hbefore).trans_lt ?_
  exact_mod_cast short

section Climb

/-- Ten lots offered at sixty cents, and a bid of this size at forty. -/
def slopeBook (size : UInt32) : LimitOrderBook := LimitOrderBook.empty.applyTicks [⟨60,10,false⟩,⟨40,size,true⟩]

def slopeQuote (size : UInt32) : Quote := ⟨(40 : Fin 101),(60 : Fin 101),size,10⟩

/-- The bid grows at once and shrinks in two steps, so the microprice moves up by more than
a cent and down by less than a cent at a time. -/
def round : List MarketTick := [⟨40,13,true⟩,⟨40,11,true⟩,⟨40,10,true⟩]

def climb (rounds : Nat) : List MarketTick :=
  [⟨60,10,false⟩,⟨40,10,true⟩] ++ (List.replicate rounds round).flatten

private theorem slopeBook_applyTick (size next : UInt32) :
    (slopeBook size).applyTick ⟨40,next,true⟩ = slopeBook next := by
  have hlevel : MarketTick.level? ⟨40,next,true⟩ = MarketTick.level? ⟨40,size,true⟩ := rfl
  exact LimitOrderBook.applyTick_overwrite _ hlevel

private theorem slope_start : Transducer.final View.step (.behind .momentum .empty none)
    [⟨60,10,false⟩,⟨40,10,true⟩] = .behind .momentum (slopeBook 10) (some (slopeQuote 10)) := by
  have hquotes : evaluatedQuotes .empty [⟨60,10,false⟩,⟨40,10,true⟩] = [slopeQuote 10] := by decide +kernel
  rw [View.final_behind, hquotes]
  rfl

private theorem slope_setup :
    ((Transducer.outputs View.step (.behind .momentum .empty none) [⟨60,10,false⟩,⟨40,10,true⟩]).map
      orderSize).sum = 0 := by decide +kernel

/-- A round ends where it began, and buys once. -/
theorem slope_round :
    Transducer.final View.step (.behind .momentum (slopeBook 10) (some (slopeQuote 10))) round =
      .behind .momentum (slopeBook 10) (some (slopeQuote 10)) ∧
    (Transducer.outputs View.step (.behind .momentum (slopeBook 10) (some (slopeQuote 10))) round).map orderSize =
      [10,0,0] := by
  constructor
  · have hbook : (slopeBook 10).applyTicks round = slopeBook 10 := by
      change (((slopeBook 10).applyTick ⟨40,13,true⟩).applyTick ⟨40,11,true⟩).applyTick ⟨40,10,true⟩ = _
      rw [slopeBook_applyTick, slopeBook_applyTick, slopeBook_applyTick]
    have hquotes : evaluatedQuotes (slopeBook 10) round = [slopeQuote 13,slopeQuote 11,slopeQuote 10] := by
      decide +kernel
    rw [View.final_behind, hbook, hquotes]
    rfl
  · decide +kernel

/-- Every round adds a trade to the position, so some number of rounds overflows it. -/
theorem climb_overflows {rounds : Nat} (h : 2^31 ≤ 10 * rounds) :
    (construct .momentum).runTicks (climb rounds) = none := by
  have hsum : ((orders .momentum (climb rounds)).map orderSize).sum = 10 * (rounds : Int) := by
    obtain ⟨hback,hround⟩ := slope_round
    rw [orders, climb, Transducer.outputs_append, slope_start, Transducer.outputs_replicate hback,
      List.map_append, List.sum_append, slope_setup, List.map_flatten, List.map_replicate, hround,
      List.sum_flatten, List.map_replicate, List.sum_replicate, zero_add, nsmul_eq_mul, mul_comm]
    rfl
  by_contra hsome
  obtain ⟨steps,hsteps⟩ := Option.ne_none_iff_exists'.mp hsome
  have hrange := (construct_runs_iff .momentum (climb rounds)).mp ⟨steps,hsteps⟩ _ (List.prefix_refl _)
  rw [hsum, abs_of_nonneg (by omega)] at hrange
  omega

/-- Some 644 million ticks. -/
theorem momentum_overflows : (construct .momentum).runTicks (climb 214748365) = none :=
  climb_overflows (by norm_num)

end Climb

end StrategyEngine
end PredictionMarket.Strategy

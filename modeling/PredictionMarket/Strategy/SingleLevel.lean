import PredictionMarket.Strategy.Ensemble
import PredictionMarket.Strategy.StaticTop
import PredictionMarket.Market.BookHistory

/-! Feeds that keep one level a side: each turn clears a level and sets the next one, first among
the bids and then among the asks. The strategy sees two quotes in a turn. -/
namespace PredictionMarket.Strategy
open Market Foundation Foundation.LastWrite StrategyEngine

/-- The sizes on a side with at most one level. -/
def onlyLevel (level : Option (Fin LimitOrderBook.kLevels × UInt32)) (p : Fin LimitOrderBook.kLevels) : UInt32 :=
  level.elim 0 fun level => if p = level.1 then level.2 else 0

/-- The book has these levels and no others. -/
def Shows (book : LimitOrderBook) (levels : Bool → Option (Fin LimitOrderBook.kLevels × UInt32)) : Prop :=
  ∀ side p, book.sizeAt (side,p) = onlyLevel (levels side) p

namespace Shows
variable {book : LimitOrderBook} {levels : Bool → Option (Fin LimitOrderBook.kLevels × UInt32)}

/-- The empty book shows no level. -/
theorem empty : Shows .empty fun _ => none := fun side p => LimitOrderBook.sizeAt_empty (side,p)

private theorem sizeAt_tick (book : LimitOrderBook) (side : Bool) (p : Fin LimitOrderBook.kLevels) (size : UInt32) :
    (book.applyTick ⟨priceByte p,size,side⟩).sizeAt = Function.update book.sizeAt (side,p) size := by
  have hlevel : (⟨priceByte p,size,side⟩ : MarketTick).level? = some (side,p) :=
    (MarketTick.level?_eq_some_iff _ side p).mpr ⟨rfl,rfl⟩
  rw [LimitOrderBook.sizeAt_applyTick, MarketTick.write?, hlevel]
  rfl

private theorem clear (h : Shows book levels) (side : Bool) (p : Fin LimitOrderBook.kLevels)
    (hp : ∀ level, levels side = some level → level.1 = p) :
    Shows (book.applyTick ⟨priceByte p,0,side⟩) (Function.update levels side none) := by
  intro s q
  rw [sizeAt_tick, Function.update_apply, Function.update_apply]
  by_cases hs : s = side
  · subst hs
    rw [if_pos rfl]
    split_ifs with hq
    · rfl
    · rw [h s q]
      cases hl : levels s with
      | none => rfl
      | some level =>
        have hne : q ≠ level.1 := fun he => hq (Prod.ext rfl (he.trans (hp level hl)))
        exact if_neg hne
  · rw [if_neg hs, if_neg fun he => hs (congrArg Prod.fst he)]
    exact h s q

/-- A tick on a side with no other level sets that level. -/
theorem set (h : Shows book levels) {side : Bool} (hnone : levels side = none) (p : Fin LimitOrderBook.kLevels)
    (size : UInt32) :
    Shows (book.applyTick ⟨priceByte p,size,side⟩) (Function.update levels side (some (p,size))) := by
  intro s q
  rw [sizeAt_tick, Function.update_apply, Function.update_apply]
  by_cases hs : s = side
  · subst hs
    rw [if_pos rfl, h s q, hnone]
    simp [onlyLevel, Prod.ext_iff]
  · rw [if_neg hs, if_neg fun he => hs (congrArg Prod.fst he)]
    exact h s q

/-- Without one of the sides nothing is evaluated. -/
theorem evaluates_none (h : Shows book levels) (side : Bool) (hnone : levels side = none) :
    evaluatedQuote? book = none := by
  have hempty (p : Fin LimitOrderBook.kLevels) : book.sizeAt (side,p) = 0 := by
    rw [h side p, hnone]
    rfl
  have hquote : book.quote? = none := by
    rw [LimitOrderBook.quote?]
    cases side with
    | true => rw [(LimitOrderBook.bestBid?_eq_none_iff book).mpr hempty, Option.bind_none]
    | false =>
      rw [(LimitOrderBook.bestAsk?_eq_none_iff book).mpr hempty]
      cases book.bestBid? <;> rfl
  rw [evaluatedQuote?, hquote]
  rfl

private theorem evaluates (h : Shows book levels) {bid ask : Fin LimitOrderBook.kLevels} {bidSize askSize : UInt32}
    (hbid : levels true = some (bid,bidSize)) (hask : levels false = some (ask,askSize))
    (hb : bidSize ≠ 0) (ha : askSize ≠ 0) (hsum : bidSize + askSize ≠ 0) :
    evaluatedQuote? book = some ⟨bid,ask,bidSize,askSize⟩ := by
  have hbids (p : Fin LimitOrderBook.kLevels) : book.sizeAt (true,p) = if p = bid then bidSize else 0 := by
    rw [h true p, hbid]
    rfl
  have hasks (p : Fin LimitOrderBook.kLevels) : book.sizeAt (false,p) = if p = ask then askSize else 0 := by
    rw [h false p, hask]
    rfl
  have hbest : book.bestBid? = some bid := by
    refine (LimitOrderBook.bestBid?_eq_some_iff book bid).mpr ⟨?_,fun p hp => ?_⟩
    · change book.sizeAt (true,bid) ≠ 0
      rwa [hbids, if_pos rfl]
    · by_contra hne
      exact hp (by rw [hbids, if_neg fun he => hne he.le])
  have hbest' : book.bestAsk? = some ask := by
    refine (LimitOrderBook.bestAsk?_eq_some_iff book ask).mpr ⟨?_,fun p hp => ?_⟩
    · change book.sizeAt (false,ask) ≠ 0
      rwa [hasks, if_pos rfl]
    · by_contra hne
      exact hp (by rw [hasks, if_neg fun he => hne he.ge])
  refine evaluatedQuote?_eq_some_iff.mpr ⟨?_,hsum⟩
  rw [LimitOrderBook.quote?, hbest, Option.bind_some, hbest', Option.map_some, hbids, hasks, if_pos rfl, if_pos rfl]

end Shows

/-- The two levels of a quote. -/
def quoteLevels (q : Quote) (side : Bool) : Option (Fin LimitOrderBook.kLevels × UInt32) :=
  some (if side then (q.bid,q.bidSize) else (q.ask,q.askSize))

/-- A quote that is evaluated wherever it is shown. -/
structure Sized (q : Quote) : Prop where
  bid : q.bidSize ≠ 0
  ask : q.askSize ≠ 0
  sum : q.bidSize + q.askSize ≠ 0

private theorem Shows.evaluates_quote {book : LimitOrderBook} {q : Quote} (h : Shows book (quoteLevels q)) (hs : Sized q) :
    evaluatedQuote? book = some q := h.evaluates rfl rfl hs.bid hs.ask hs.sum

/-- The ticks that take the levels of one quote away and put up those of the next. -/
def turn (p q : Quote) : List MarketTick :=
  [⟨priceByte p.bid,0,true⟩,⟨priceByte q.bid,q.bidSize,true⟩,⟨priceByte p.ask,0,false⟩,
    ⟨priceByte q.ask,q.askSize,false⟩]

/-- The quote in the middle of a turn: the bid is new and the ask is not. -/
def halfway (p q : Quote) : Quote := ⟨q.bid,p.ask,q.bidSize,p.askSize⟩

section Turn
variable {book : LimitOrderBook} {levels : Bool → Option (Fin LimitOrderBook.kLevels × UInt32)} {p q : Quote}

/-- The books of a turn, if the levels that it takes away are the only ones. -/
theorem turn_shows (h : Shows book levels) (hbid : ∀ level, levels true = some level → level.1 = p.bid)
    (hask : ∀ level, levels false = some level → level.1 = p.ask) (q : Quote) : ∃ b₁ b₂ b₃ b₄,
      b₁ = book.applyTick ⟨priceByte p.bid,0,true⟩ ∧ b₂ = b₁.applyTick ⟨priceByte q.bid,q.bidSize,true⟩ ∧
      b₃ = b₂.applyTick ⟨priceByte p.ask,0,false⟩ ∧ b₄ = b₃.applyTick ⟨priceByte q.ask,q.askSize,false⟩ ∧
      evaluatedQuote? b₁ = none ∧ Shows b₂ (Function.update levels true (some (q.bid,q.bidSize))) ∧
      evaluatedQuote? b₃ = none ∧ Shows b₄ (quoteLevels q) := by
  have h₁ := h.clear true p.bid hbid
  have h₂ := h₁.set (Function.update_self ..) q.bid q.bidSize
  rw [Function.update_idem] at h₂
  have h₃ := h₂.clear false p.ask hask
  have h₄ := h₃.set (Function.update_self ..) q.ask q.askSize
  refine ⟨_,_,_,_,rfl,rfl,rfl,rfl,h₁.evaluates_none true (Function.update_self ..),h₂,
    h₃.evaluates_none false (Function.update_self ..),?_⟩
  intro side level
  rw [h₄ side level]
  cases side <;> rfl

/-- The first turn has no quote to compare with. -/
theorem first_turn (selection : StrategySelection) (hs : Sized q) :
    Transducer.outputs View.step (.behind selection .empty none) (turn q q) = [none,none,none,none] ∧
    ∃ book, Transducer.final View.step (.behind selection .empty none) (turn q q) = .behind selection book (some q) ∧
      Shows book (quoteLevels q) := by
  obtain ⟨b₁,b₂,b₃,b₄,e₁,e₂,e₃,e₄,n₁,h₂,n₃,h₄⟩ := turn_shows Shows.empty (p := q)
    (fun _ h => by cases h) (fun _ h => by cases h) q
  have n₂ : evaluatedQuote? b₂ = none := h₂.evaluates_none false rfl
  have s₄ := h₄.evaluates_quote hs
  have hfresh : orderOn selection none q = none := by
    apply decideFill_eq_none
    cases selection <;> norm_num [scoreSince, moveSince, flowSince]
  simp only [turn, Transducer.outputs, Transducer.final, View.step_behind, ← e₁, ← e₂, ← e₃, ← e₄, n₁, n₂, n₃, s₄,
    Option.bind_none, Option.bind_some, Option.none_or, Option.some_or, hfresh, true_and]
  exact ⟨b₄,rfl,h₄⟩

/-- Any other turn compares its middle with the quote that it takes away, and its end with
its middle. -/
theorem next_turn (selection : StrategySelection) (h : Shows book (quoteLevels p)) (hs : Sized q) (hh : Sized (halfway p q)) :
    Transducer.outputs View.step (.behind selection book (some p)) (turn p q) =
      [none,orderOn selection (some p) (halfway p q),none,orderOn selection (some (halfway p q)) q] ∧
    ∃ book', Transducer.final View.step (.behind selection book (some p)) (turn p q) =
      .behind selection book' (some q) ∧ Shows book' (quoteLevels q) := by
  obtain ⟨b₁,b₂,b₃,b₄,e₁,e₂,e₃,e₄,n₁,h₂,n₃,h₄⟩ := turn_shows h (p := p)
    (fun _ h => by cases h; rfl) (fun _ h => by cases h; rfl) q
  have s₂ : evaluatedQuote? b₂ = some (halfway p q) := h₂.evaluates rfl rfl hh.bid hh.ask hh.sum
  have s₄ := h₄.evaluates_quote hs
  simp only [turn, Transducer.outputs, Transducer.final, View.step_behind, ← e₁, ← e₂, ← e₃, ← e₄, n₁, s₂, n₃, s₄,
    Option.bind_none, Option.bind_some, Option.none_or, Option.some_or, true_and]
  exact ⟨b₄,rfl,h₄⟩

end Turn

section Feed
variable (selection : StrategySelection) (quotes : Nat → Quote)

/-- The first turn of a feed takes away what is not there. -/
def turnTicks (i : Nat) : List MarketTick := turn (quotes (i - 1)) (quotes i)

def turnOrders : Nat → List (Option Order)
  | 0 => [none,none,none,none]
  | i + 1 => [none,orderOn selection (some (quotes i)) (halfway (quotes i) (quotes (i + 1))),none,
      orderOn selection (some (halfway (quotes i) (quotes (i + 1)))) (quotes (i + 1))]

variable (sized : ∀ i, Sized (quotes i)) (half : ∀ i, Sized (halfway (quotes i) (quotes (i + 1))))
include sized half

/-- What is ordered in each turn depends on the turn before it only. -/
theorem feed_run (turns : Nat) :
    Transducer.outputs View.step (.behind selection .empty none)
        ((List.range (turns + 1)).flatMap (turnTicks quotes)) =
      (List.range (turns + 1)).flatMap (turnOrders selection quotes) ∧
    ∃ book, Transducer.final View.step (.behind selection .empty none)
        ((List.range (turns + 1)).flatMap (turnTicks quotes)) = .behind selection book (some (quotes turns)) ∧
      Shows book (quoteLevels (quotes turns)) := by
  induction turns with
  | zero => exact first_turn selection (sized 0)
  | succ n ih =>
    obtain ⟨houtputs,book,hfinal,hbook⟩ := ih
    obtain ⟨hturn,hnext⟩ := next_turn selection hbook (sized (n + 1)) (half n)
    rw [List.range_succ, List.flatMap_append, List.flatMap_singleton, Transducer.outputs_append,
      Transducer.final_append, hfinal, houtputs, List.flatMap_append, List.flatMap_singleton]
    exact ⟨congrArg _ hturn,hnext⟩

end Feed

section Steps
variable {p q : Quote} (hp : ExactSizes p) (hsizes : q.bidSize = p.bidSize ∧ q.askSize = p.askSize)
  (hbid : |(q.bid.val : ℚ) - p.bid.val| ≤ 1) (hask : |(q.ask.val : ℚ) - p.ask.val| ≤ 1)
include hp hsizes hbid hask

/-- Steps of a cent between the same sizes move the microprice by a cent at most. -/
theorem microprice_step : |quoteMicroprice q - quoteMicroprice p| ≤ 1 := by
  have hne := hp.lots_ne_zero
  have hs : 0 ≤ lots p.bidSize := Nat.cast_nonneg _
  have ht : 0 ≤ lots p.askSize := Nat.cast_nonneg _
  have hsum : 0 < lots p.bidSize + lots p.askSize := lt_of_le_of_ne (add_nonneg hs ht) hne.symm
  rw [quoteMicroprice, quoteMicroprice, microprice, microprice, hsizes.1, hsizes.2, lots_add hp.2, cents_priceByte,
    cents_priceByte, cents_priceByte, cents_priceByte, ← sub_div, abs_le, le_div_iff₀ hsum, div_le_iff₀ hsum]
  rw [abs_le] at hbid hask
  have hb := mul_le_mul_of_nonneg_right hbid.2 ht
  have hb' := mul_le_mul_of_nonneg_right hbid.1 ht
  have ha := mul_le_mul_of_nonneg_right hask.2 hs
  have ha' := mul_le_mul_of_nonneg_right hask.1 hs
  constructor <;> linarith

/-- Momentum sees nothing in such steps, and order flow alone does not decide. -/
theorem orderOn_step {selection : StrategySelection} (hofi : selection ≠ .ofi) :
    orderOn selection (some p) q = none := by
  have hmicro := abs_le.mp (microprice_step hp hsizes hbid hask)
  have hmove : moveSince (some p) q = 0 := by
    rw [moveSince, Option.elim_some, MomentumAlpha.moveScore, if_neg (not_lt.mpr hmicro.2),
      if_neg (not_lt.mpr hmicro.1)]
  obtain ⟨hlow,hhigh⟩ := flowSince_bounds (some p) q
  apply decideFill_eq_none
  cases selection with
  | momentum =>
    change |moveSince (some p) q| < _
    rw [hmove]
    norm_num
  | ofi => exact absurd rfl hofi
  | both =>
    change |(moveSince (some p) q + flowSince (some p) q) / 2| < _
    rw [hmove, zero_add, abs_lt]
    constructor <;> linarith

/-- Neither half of such a turn orders anything. -/
theorem turn_quiet {selection : StrategySelection} (hofi : selection ≠ .ofi) :
    orderOn selection (some p) (halfway p q) = none ∧ orderOn selection (some (halfway p q)) q = none := by
  have hhalf : ExactSizes (halfway p q) := by
    rw [ExactSizes, halfway, hsizes.1]
    exact hp
  have hstays (x : Fin LimitOrderBook.kLevels) : |(x.val : ℚ) - x.val| ≤ 1 := by
    rw [sub_self, abs_zero]
    exact zero_le_one
  constructor
  · exact orderOn_step (p := p) (q := halfway p q) hp ⟨hsizes.1,rfl⟩ hbid (hstays p.ask) hofi
  · exact orderOn_step (p := halfway p q) (q := q) hhalf ⟨rfl,hsizes.2⟩ (hstays q.bid) hask hofi

end Steps

end PredictionMarket.Strategy

import PredictionMarket.Strategy.StrategyEngine
import PredictionMarket.Strategy.MirrorSignals
import PredictionMarket.Strategy.MirrorPosition
import Mathlib.Data.List.Forall2

/-! The engine on the ticks of the other outcome. A step of one run is matched by a step
of the other, so the strategy has no preference between YES and NO. -/
namespace PredictionMarket.Strategy
open Market Foundation.Transition

/-- The best sizes add up within their word wherever the loop goes on to evaluate. -/
def SizesFit (book : LimitOrderBook) : Prop :=
  book.getBestBid ≠ LimitOrderBook.kNoBid → book.getBestAsk ≠ LimitOrderBook.kNoAsk →
    book.getBidSize book.getBestBid + book.getAskSize book.getBestAsk ≠ 0 →
    (book.getBidSize book.getBestBid).toNat + (book.getAskSize book.getBestAsk).toNat < 2^32

instance (book : LimitOrderBook) : Decidable (SizesFit book) :=
  inferInstanceAs (Decidable (_ → _ → _ → _ < _))

/-- The same after each of the ticks. -/
def AllSizesFit (book : LimitOrderBook) (ticks : List MarketTick) : Prop :=
  ∀ k < ticks.length, SizesFit (book.applyTicks (ticks.take (k + 1)))

instance (book : LimitOrderBook) (ticks : List MarketTick) : Decidable (AllSizesFit book ticks) :=
  inferInstanceAs (Decidable (∀ k < ticks.length, SizesFit (book.applyTicks (ticks.take (k + 1)))))

def Fill.mirror (fill : Fill) : Fill := ⟨-fill.size,1 - fill.price⟩

def LogEvent.mirror (event : LogEvent) : LogEvent :=
  { event with price := 1 - event.price, size := -event.size }

/-- Corresponding steps of the two runs. -/
structure Step.Mirrored (s s' : Step) : Prop where
  fill : s'.fill = s.fill.map Fill.mirror
  position : s'.engine.positionManager.positionSize.val = -s.engine.positionManager.positionSize.val
  realized : s'.engine.positionManager.realizedPnl = s.engine.positionManager.realizedPnl
  equity : s'.engine.equity? = s.engine.equity?
  average : s.engine.positionManager.positionSize.val ≠ 0 →
    s.engine.positionManager.averageEntryPrice + s'.engine.positionManager.averageEntryPrice = 1
  events : s'.events = s.events.map LogEvent.mirror

inductive Signal.Mirrored : Signal → Signal → Prop
  | momentum {a a' : MomentumAlpha} (h : a.Mirrored a') : Mirrored (.momentum a) (.momentum a')
  | ofi {a a' : OFIAlpha} (h : a.Mirrored a') : Mirrored (.ofi a) (.ofi a')

/-- A signal on the mirrored book scores the opposite and stays mirrored. -/
theorem Signal.Mirrored.update {s s' : Signal} (hm : s.Mirrored s') {book : LimitOrderBook} {q : Quote}
    (h : book.quote? = some q) (hq : ExactSizes q) (tick tick' : MarketTick) :
    (s'.update book.mirror tick').1 = -(s.update book tick).1 ∧
      Mirrored (s.update book tick).2 (s'.update book.mirror tick').2 := by
  cases hm with
  | momentum ha =>
    have h' := LimitOrderBook.quote?_mirror_some h
    have hd : q.mirror.bidSize + q.mirror.askSize ≠ 0 := by
      rw [q.mirror_sizes]
      exact hq.1
    have hu := ha.onMicroprice (quoteMicroprice q)
    rw [← microprice_mirror hq, ← MomentumAlpha.update_quoted _ h hq.1 tick,
      ← MomentumAlpha.update_quoted _ h' hd tick'] at hu
    simp only [Signal.update]
    exact ⟨hu.1,.momentum hu.2⟩
  | ofi ha =>
    have hu := ha.update h hq tick tick'
    simp only [Signal.update]
    exact ⟨hu.1,.ofi hu.2⟩

namespace StrategyEngine

structure Mirrored (e e' : StrategyEngine) : Prop where
  book : e'.book = e.book.mirror
  positionManager : e.positionManager.Mirrored e'.positionManager
  signals : List.Forall₂ Signal.Mirrored e.signals e'.signals
  emittedInitialP : e'.emittedInitialP = e.emittedInitialP
  ticksProcessed : e'.ticksProcessed = e.ticksProcessed

/-- An engine at the start is its own mirror. -/
theorem Mirrored.construct (selection : StrategySelection) :
    Mirrored (construct selection) (construct selection) where
  book := LimitOrderBook.mirror_empty.symm
  positionManager := .fresh
  signals := by
    cases selection with
    | momentum => exact .cons (.momentum (.unseen 0 0)) .nil
    | ofi => exact .cons (.ofi (.unseen rfl rfl)) .nil
    | both => exact .cons (.momentum (.unseen 0 0)) (.cons (.ofi (.unseen rfl rfl)) .nil)
  emittedInitialP := rfl
  ticksProcessed := rfl

/-- Scores add up to opposite sums. -/
theorem updateSignals_mirrored {book : LimitOrderBook} {q : Quote} (h : book.quote? = some q)
    (hq : ExactSizes q) (tick tick' : MarketTick) {xs ys : List Signal}
    (hs : List.Forall₂ Signal.Mirrored xs ys) (sum : ℚ) :
    (updateSignals book.mirror tick' (-sum) ys).1 = -(updateSignals book tick sum xs).1 ∧
      List.Forall₂ Signal.Mirrored (updateSignals book tick sum xs).2
        (updateSignals book.mirror tick' (-sum) ys).2 := by
  induction hs generalizing sum with
  | nil => exact ⟨rfl,.nil⟩
  | cons hx _ ih =>
    obtain ⟨hscore,hsignal⟩ := hx.update h hq tick tick'
    simp only [updateSignals, hscore, ← neg_add]
    exact ⟨(ih _).1,.cons hsignal (ih _).2⟩

private theorem centsToPrice_rev (p : Fin LimitOrderBook.kLevels) :
    centsToPrice (priceByte p.rev) = 1 - centsToPrice (priceByte p) := by
  rw [centsToPrice, cents_rev, centsToPrice]
  ring

private theorem midPrice_rev (bid ask : Fin LimitOrderBook.kLevels) :
    midPrice (priceByte ask.rev) (priceByte bid.rev) = 1 - midPrice (priceByte bid) (priceByte ask) := by
  rw [midPrice, centsToPrice_rev, centsToPrice_rev, midPrice]
  ring

private theorem decideFill_mirrored (score : ℚ) (bid ask : Fin LimitOrderBook.kLevels) :
    Option.Rel (fun f f' : CInt × ℚ => f'.1.val = -f.1.val ∧ f'.2 = 1 - f.2)
      (decideFill score (priceByte bid) (priceByte ask))
      (decideFill (-score) (priceByte ask.rev) (priceByte bid.rev)) := by
  unfold decideFill kTradeThreshold
  by_cases hbuy : score ≥ 60 / 100
  · rw [if_pos hbuy, if_neg (by linarith), if_pos (by linarith)]
    exact .some ⟨rfl,centsToPrice_rev ask⟩
  · rw [if_neg hbuy]
    by_cases hsell : score ≤ -(60 / 100)
    · rw [if_pos hsell, if_pos (by linarith)]
      exact .some ⟨rfl,centsToPrice_rev bid⟩
    · rw [if_neg hsell, if_neg (by linarith), if_neg (by linarith)]
      exact .none

private theorem markEvent_mirrored {pm pm' : PositionManager} (h : pm.Mirrored pm') (mid : ℚ) :
    markEvent pm' (1 - mid) = (markEvent pm mid).mirror := by
  rw [markEvent, h.equity, h.position]
  rfl

private theorem equity?_quoted (e : StrategyEngine) {q : Quote} (h : e.book.quote? = some q) :
    e.equity? = some (markEvent e.positionManager (midPrice (priceByte q.bid) (priceByte q.ask))).pnl := by
  obtain ⟨hb,ha,_,_⟩ := LimitOrderBook.of_quote h
  rw [equity?, if_neg (LimitOrderBook.not_oneSided h), hb, ha]

/-- Mirrored engines have the same equity. -/
theorem Mirrored.equity {e e' : StrategyEngine} (h : Mirrored e e') : e'.equity? = e.equity? := by
  have hquote : e'.book.quote? = e.book.quote?.map Quote.mirror := by
    rw [h.book, LimitOrderBook.quote?_mirror]
  cases hq : e.book.quote? with
  | none =>
    rw [hq] at hquote
    rw [equity?, if_pos ((LimitOrderBook.oneSided_iff _).mpr hquote), equity?,
      if_pos ((LimitOrderBook.oneSided_iff _).mpr hq)]
  | some q =>
    rw [hq] at hquote
    have hpnl := congrArg LogEvent.pnl (markEvent_mirrored h.positionManager
      (midPrice (priceByte q.bid) (priceByte q.ask)))
    rw [← midPrice_rev] at hpnl
    rw [equity?_quoted e hq, equity?_quoted e' hquote]
    exact congrArg some hpnl

/-- Mirrored steps that leave mirrored engines behind. -/
def Matched (s s' : Step) : Prop := s.Mirrored s' ∧ Mirrored s.engine s'.engine

private theorem matched {s s' : Step} (h : Mirrored s.engine s'.engine)
    (fill : s'.fill = s.fill.map Fill.mirror) (events : s'.events = s.events.map LogEvent.mirror) :
    Matched s s' :=
  ⟨⟨fill,h.positionManager.position,h.positionManager.realized,h.equity,h.positionManager.average,events⟩,h⟩

private theorem average_neg (sum : ℚ) {n n' : Nat} (hn : n' = n) :
    (if n' = 0 then 0 else -sum / n') = -(if n = 0 then 0 else sum / n) := by
  rw [hn]
  split_ifs
  · exact neg_zero.symm
  · exact neg_div _ _

private theorem markIf_mirrored {pm pm' : PositionManager} (h : pm.Mirrored pm') (mid : ℚ) (c : Prop)
    [Decidable c] : (if c then [markEvent pm' (1 - mid)] else []) =
      (if c then [markEvent pm mid] else []).map LogEvent.mirror := by
  split_ifs
  · rw [markEvent_mirrored h]
    rfl
  · rfl

private theorem events_mirrored {e e' : StrategyEngine} (h : Mirrored e e') {pm pm' : PositionManager}
    (hpm : pm.Mirrored pm') (mid : ℚ) (trade : List LogEvent) (c : Prop) [Decidable c] :
    ((if e'.emittedInitialP then [] else [markEvent e'.positionManager (1 - mid)]) ++
        trade.map LogEvent.mirror ++ if c then [markEvent pm' (1 - mid)] else []) =
      ((if e.emittedInitialP then [] else [markEvent e.positionManager mid]) ++ trade ++
        if c then [markEvent pm mid] else []).map LogEvent.mirror := by
  have hinitial := markIf_mirrored h.positionManager mid (¬ e.emittedInitialP = true)
  rw [ite_not, ite_not] at hinitial
  rw [List.map_append, List.map_append, ← hinitial, ← markIf_mirrored hpm, h.emittedInitialP]

private theorem evaluate_mirrored {e e' : StrategyEngine} (h : Mirrored e e') {book : LimitOrderBook}
    {q : Quote} (hquote : book.quote? = some q) (hq : ExactSizes q) (tick tick' : MarketTick) (n : UInt64) :
    Option.Rel Matched
      (e.evaluate book tick n (priceByte q.bid) (priceByte q.ask))
      (e'.evaluate book.mirror tick' n (priceByte q.mirror.bid) (priceByte q.mirror.ask)) := by
  obtain ⟨hsum,hsignals⟩ := updateSignals_mirrored hquote hq tick tick' h.signals 0
  rw [neg_zero] at hsum hsignals
  have hmid : midPrice (priceByte q.mirror.bid) (priceByte q.mirror.ask) =
      1 - midPrice (priceByte q.bid) (priceByte q.ask) := midPrice_rev q.bid q.ask
  unfold evaluate
  generalize updateSignals book tick 0 e.signals = r at hsum hsignals ⊢
  generalize updateSignals book.mirror tick' 0 e'.signals = r' at hsum hsignals ⊢
  obtain ⟨sum,signals⟩ := r
  obtain ⟨sum',signals'⟩ := r'
  obtain rfl : sum' = -sum := hsum
  have hscore := average_neg sum hsignals.length_eq.symm
  have hdecide := decideFill_mirrored (if signals.length = 0 then 0 else sum / signals.length) q.bid q.ask
  simp only [hscore, hmid]
  generalize decideFill _ (priceByte q.bid) (priceByte q.ask) = d at hdecide ⊢
  change Option.Rel _ d (decideFill _ (priceByte q.mirror.bid) (priceByte q.mirror.ask)) at hdecide
  generalize decideFill _ (priceByte q.mirror.bid) (priceByte q.mirror.ask) = d' at hdecide ⊢
  cases hdecide with
  | none =>
    refine .some (matched ⟨rfl,h.positionManager,hsignals,rfl,rfl⟩ rfl ?_)
    exact events_mirrored h h.positionManager _ [] (n % 1000 = 0)
  | @some f f' hf =>
    obtain ⟨fillSize,fillPrice⟩ := f
    obtain ⟨fillSize',fillPrice'⟩ := f'
    obtain ⟨hsize,rfl⟩ : fillSize'.val = -fillSize.val ∧ fillPrice' = 1 - fillPrice := hf
    apply rel_map (h.positionManager.addFill hsize fillPrice)
    intro pm pm' hpm
    refine matched ⟨rfl,hpm,hsignals,rfl,rfl⟩ ?_ ?_
    · rw [hsize]
      rfl
    · rw [hsize, hpm.realized]
      exact events_mirrored h hpm _ [⟨'T',fillPrice,fillSize.val,pm.realizedPnl⟩] (n % 1000 = 0)

/-- One pass of the loop on a tick is mirrored by the pass on the mirrored tick. -/
theorem loopBody_mirrored {e e' : StrategyEngine} (h : Mirrored e e') (tick : MarketTick)
    (hfits : SizesFit (e.book.applyTick tick)) :
    Option.Rel Matched (e.loopBody tick) (e'.loopBody tick.mirror) := by
  have hbook : e'.book.applyTick tick.mirror = (e.book.applyTick tick).mirror := by
    rw [h.book, LimitOrderBook.mirror_applyTick]
  -- What both runs do where the loop goes on to the next tick at once.
  have hskip : Option.Rel Matched
      (some ⟨{ e with book := e.book.applyTick tick, ticksProcessed := e.ticksProcessed + 1 },none,[]⟩)
      (some ⟨{ e' with
        book := (e.book.applyTick tick).mirror, ticksProcessed := e'.ticksProcessed + 1 },none,[]⟩) :=
    .some (matched ⟨rfl,h.positionManager,h.signals,h.emittedInitialP,
      congrArg (· + 1) h.ticksProcessed⟩ rfl rfl)
  unfold loopBody
  rw [hbook]
  simp only [LimitOrderBook.oneSided_iff, LimitOrderBook.quote?_mirror, Option.map_eq_none_iff]
  cases hq : (e.book.applyTick tick).quote? with
  | none => simpa only [if_true] using hskip
  | some q =>
    have hq' := LimitOrderBook.quote?_mirror_some hq
    obtain ⟨hb,ha,hbs,has⟩ := LimitOrderBook.of_quote hq
    obtain ⟨hb',ha',hbs',has'⟩ := LimitOrderBook.of_quote hq'
    rw [SizesFit, hb, ha, hbs, has] at hfits
    rw [hb, ha, hbs, has, hb', ha', hbs', has']
    rw [q.mirror_sizes, if_neg (Option.some_ne_none q), if_neg (Option.some_ne_none q)]
    by_cases hd : q.bidSize + q.askSize = 0
    · rw [if_pos hd, if_pos hd]
      exact hskip
    · rw [if_neg hd, if_neg hd, h.ticksProcessed]
      exact evaluate_mirrored h hq ⟨hd,hfits (priceByte_ne_none _) (priceByte_ne_none _) hd⟩ _ _ _

/-- Mirrored ticks take mirrored engines through mirrored steps. -/
theorem runTicks_mirrored (ticks : List MarketTick) {e e' : StrategyEngine} (h : Mirrored e e')
    (hfits : AllSizesFit e.book ticks) : Option.Rel (List.Forall₂ Step.Mirrored)
      (e.runTicks ticks) (e'.runTicks (ticks.map MarketTick.mirror)) := by
  induction ticks generalizing e e' with
  | nil => exact .some .nil
  | cons tick ticks ih =>
    rw [List.map_cons, runTicks, runTicks]
    apply rel_bind (loopBody_mirrored h tick (hfits 0 (Nat.succ_pos _)))
    intro step step' hs _ hm
    have hrest : AllSizesFit step.engine.book ticks := by
      rw [loopBody_book hs]
      exact fun k hk => hfits (k + 1) (Nat.succ_lt_succ hk)
    exact rel_map (ih hm.2 hrest) fun _ _ hsteps => .cons hm.1 hsteps

/-- The strategy treats the two outcomes alike: on mirrored ticks it trades at the same
ticks with opposite fills at complementary prices, holds the opposite position, and makes
the same profit. -/
theorem mirror_symmetry (selection : StrategySelection) (ticks : List MarketTick)
    (hfits : AllSizesFit .empty ticks) : Option.Rel (List.Forall₂ Step.Mirrored)
      ((construct selection).runTicks ticks)
      ((construct selection).runTicks (ticks.map MarketTick.mirror)) :=
  runTicks_mirrored ticks (.construct selection) hfits

/-- A two-sided book whose bid jumps by eighteen cents, with a tick off the book. -/
def jump : List MarketTick := [⟨40,10,true⟩,⟨60,10,false⟩,⟨200,5,true⟩,⟨58,10,true⟩]

/-- The momentum strategy buys ten at sixty cents on the last tick, and its mirror image
sells ten at forty. -/
theorem jump_mirrored : ∃ steps steps', (construct .momentum).runTicks jump = some steps ∧
    (construct .momentum).runTicks (jump.map MarketTick.mirror) = some steps' ∧
    steps.map Step.fill = [none,none,none,some ⟨10,3/5⟩] ∧
    steps'.map Step.fill = [none,none,none,some ⟨-10,2/5⟩] ∧ List.Forall₂ Step.Mirrored steps steps' := by
  have hrel := mirror_symmetry .momentum jump (by decide +kernel)
  have hfill : ((construct .momentum).runTicks jump).map (List.map Step.fill) =
      some [none,none,none,some ⟨10,3/5⟩] := by decide +kernel
  have hfill' : ((construct .momentum).runTicks (jump.map MarketTick.mirror)).map (List.map Step.fill) =
      some [none,none,none,some ⟨-10,2/5⟩] := by decide +kernel
  obtain ⟨steps,hs,hf⟩ := Option.map_eq_some_iff.mp hfill
  obtain ⟨steps',hs',hf'⟩ := Option.map_eq_some_iff.mp hfill'
  rw [hs, hs'] at hrel
  cases hrel with
  | some hsteps => exact ⟨steps,steps',hs,hs',hf,hf',hsteps⟩

end StrategyEngine
end PredictionMarket.Strategy

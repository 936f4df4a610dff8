import PredictionMarket.Strategy.Baseline
import PredictionMarket.Strategy.Accounting
import PredictionMarket.Market.BookHistory

/-! The event log as a ledger. Its trades, replayed on an empty account, give at every mark
the position and the profit that are logged there. -/
namespace PredictionMarket.Strategy
open Market Foundation Foundation.CashLedger

/-- Trades between two points of a log. -/
def tradesOf (log : List LogEvent) : List LogEvent := log.filter (·.type = 'T')

/-- An account behind an event. -/
def bookEvent (a : Account ℚ) (event : LogEvent) : Account ℚ :=
  if event.type = 'T' then a.trade event.size event.price else a

def replay (a : Account ℚ) (log : List LogEvent) : Account ℚ := log.foldl bookEvent a

private theorem replay_append (a : Account ℚ) (xs ys : List LogEvent) :
    replay a (xs ++ ys) = replay (replay a xs) ys := List.foldl_append

private theorem replay_eq (a : Account ℚ) (log : List LogEvent) :
    replay a log = a.trades ((tradesOf log).map fun trade => ((trade.size : ℚ), trade.price)) := by
  induction log generalizing a with
  | nil => rfl
  | cons event log ih =>
    change replay (bookEvent a event) log = _
    rw [ih, tradesOf, tradesOf, List.filter_cons, bookEvent]
    by_cases h : event.type = 'T'
    · rw [if_pos h, if_pos (by simpa using h)]
      rfl
    · rw [if_neg h, if_neg (by simpa using h)]

/-- A mark states what the account holds and is worth at its price. -/
def Marks (a : Account ℚ) (event : LogEvent) : Prop :=
  event.type = 'P' → (event.size : ℚ) = a.holding ∧ event.pnl = a.worth event.price

/-- Every mark agrees with the trades before it. -/
def Faithful (a : Account ℚ) : List LogEvent → Prop
  | [] => True
  | event :: log => Marks a event ∧ Faithful (bookEvent a event) log

private theorem faithful_append (a : Account ℚ) (xs ys : List LogEvent) :
    Faithful a (xs ++ ys) ↔ Faithful a xs ∧ Faithful (replay a xs) ys := by
  induction xs generalizing a with
  | nil => exact (true_and _).symm.to_iff
  | cons event xs ih =>
    rw [List.cons_append, Faithful, ih, Faithful, and_assoc]
    rfl

/-- A log whose marks agree leads from one account to another. -/
def Leads (a : Account ℚ) (log : List LogEvent) (b : Account ℚ) : Prop := Faithful a log ∧ replay a log = b

/-- Logs that lead on from one another lead from the first account to the last. -/
theorem Leads.append {a b c : Account ℚ} {xs ys : List LogEvent} (h : Leads a xs b) (h' : Leads b ys c) :
    Leads a (xs ++ ys) c := by
  obtain ⟨hxs,rfl⟩ := h
  exact ⟨(faithful_append a xs ys).mpr ⟨hxs,h'.1⟩,(replay_append a xs ys).trans h'.2⟩

namespace StrategyEngine

private theorem markEvent_marks (pm : PositionManager) (mid : ℚ) : Marks pm.account (markEvent pm mid) :=
  fun _ => ⟨rfl,(pm.worth_account mid).symm⟩

private theorem mark_leads (pm : PositionManager) (mid : ℚ) (c : Prop) [Decidable c] :
    Leads pm.account (if c then [markEvent pm mid] else []) pm.account := by
  split_ifs
  · exact ⟨⟨markEvent_marks pm mid,trivial⟩,rfl⟩
  · exact ⟨trivial,rfl⟩

/-- A trade event books what the position manager has booked. -/
theorem trade_leads {pm r : PositionManager} {order : Option Order} (h : pm.placed order = some r) :
    Leads pm.account (order.map fun order => tradeEvent order r).toList r.account := by
  cases order with
  | none =>
    cases h
    exact ⟨trivial,rfl⟩
  | some order =>
    refine ⟨⟨fun hp => absurd hp (by change 'T' ≠ 'P'; decide),trivial⟩,?_⟩
    exact (PositionManager.addFill_booked h).1.account.symm

/-- The events of a pass lead from the position before it to the one behind it. -/
theorem loopBody_leads {e : StrategyEngine} {tick : MarketTick} {step : Step} (h : e.loopBody tick = some step) :
    Leads e.positionManager.account step.events step.engine.positionManager.account := by
  rcases loopBody_cases h with ⟨_,rfl⟩ | ⟨q,pm,_,hpm,rfl⟩
  · exact ⟨trivial,rfl⟩
  · have hevents : (e.pass tick q pm).events =
        (if e.emittedInitialP = false then [markEvent e.positionManager (quoteMidPrice q)] else []) ++
          ((e.view.step tick).1.map fun order => tradeEvent order pm).toList ++
          if (e.ticksProcessed + 1) % 1000 = 0 then [markEvent pm (quoteMidPrice q)] else [] := by
      unfold pass
      cases e.emittedInitialP <;> rfl
    rw [hevents]
    apply Leads.append
    · exact (mark_leads e.positionManager (quoteMidPrice q) _).append (trade_leads hpm)
    · exact mark_leads pm (quoteMidPrice q) _

private theorem runTicks_leads {e : StrategyEngine} {ticks : List MarketTick} {steps : List Step}
    (h : e.runTicks ticks = some steps) :
    Leads e.positionManager.account (steps.flatMap Step.events) (e.after steps).positionManager.account := by
  apply runTicks_induction (P := fun _ steps => Leads e.positionManager.account (steps.flatMap Step.events)
    (e.after steps).positionManager.account) ?_ ?_ h
  · exact ⟨trivial,rfl⟩
  · intro ticks steps tick step _ hstep ih
    rw [List.flatMap_append, List.flatMap_singleton, after_snoc]
    exact ih.append (loopBody_leads hstep)

/-- A buy at the best ask, or a sale at the best bid. -/
def AtTouch (book : LimitOrderBook) (trade : LogEvent) : Prop :=
  (0 < trade.size ∧ trade.price = centsToPrice book.getBestAsk) ∨
    (trade.size < 0 ∧ trade.price = centsToPrice book.getBestBid)

private theorem decideFill_atTouch {book : LimitOrderBook} {q : Quote} (hq : book.quote? = some q) {score : ℚ}
    {order : Order} (h : decideFill score (priceByte q.bid) (priceByte q.ask) = some order) (pm : PositionManager) :
    AtTouch book (tradeEvent order pm) := by
  obtain ⟨hbid,hask,_⟩ := LimitOrderBook.of_quote hq
  rw [AtTouch, hbid, hask]
  rcases decideFill_eq_some_iff.mp h with ⟨_,rfl⟩ | ⟨_,rfl⟩
  · exact .inl ⟨(by decide : (0 : Int) < 10),rfl⟩
  · exact .inr ⟨(by decide : (-10 : Int) < 0),rfl⟩

private theorem loopBody_atTouch {e : StrategyEngine} {tick : MarketTick} {step : Step} (h : e.loopBody tick = some step) :
    ∀ event ∈ step.events, event.type = 'T' → AtTouch (e.book.applyTick tick) event := by
  intro event hmem htrade
  rcases loopBody_cases h with ⟨_,rfl⟩ | ⟨q,pm,hq,_,rfl⟩
  · cases hmem
  · have hmark (pm : PositionManager) : event ≠ markEvent pm (quoteMidPrice q) := by
      rintro rfl
      exact absurd htrade (by change 'P' ≠ 'T'; decide)
    have horder : (e.view.step tick).1 = _ := congrArg Prod.fst (View.step_evaluated (v := e.view) hq)
    rcases List.mem_append.mp hmem with hmem | hmem
    · rcases List.mem_append.mp hmem with hmem | hmem
      · split_ifs at hmem
        · cases hmem
        · exact absurd (List.mem_singleton.mp hmem) (hmark _)
      · obtain ⟨order,ho,rfl⟩ := Option.map_eq_some_iff.mp (Option.mem_toList.mp hmem)
        rw [horder] at ho
        exact decideFill_atTouch (evaluatedQuote?_eq_some_iff.mp hq).1 ho pm
    · split_ifs at hmem
      · exact absurd (List.mem_singleton.mp hmem) (hmark _)
      · cases hmem

private theorem runTicks_atTouch {e : StrategyEngine} {ticks : List MarketTick} {steps : List Step}
    (h : e.runTicks ticks = some steps) :
    List.Forall₂ (fun book step => ∀ event ∈ step.events, event.type = 'T' → AtTouch book event)
      (e.book.books ticks) steps := by
  induction ticks generalizing e steps with
  | nil =>
    cases h
    exact .nil
  | cons tick ticks ih =>
    obtain ⟨head,hhead,hrest⟩ := Option.bind_eq_some_iff.mp h
    obtain ⟨rest,hrun,rfl⟩ := Option.map_eq_some_iff.mp hrest
    have hih := ih hrun
    rw [loopBody_book hhead] at hih
    exact .cons (loopBody_atTouch hhead) hih

/-- On every run each trade is made at the touch of the book behind the ticks so far, and each
mark shows the position and the profit that follow from the trades before it. -/
theorem event_log_is_ledger (selection : StrategySelection) (ticks : List MarketTick) (steps : List Step)
    (h : (construct selection).runTicks ticks = some steps) :
    List.Forall₂ (fun book step => ∀ event ∈ step.events, event.type = 'T' → AtTouch book event)
      (LimitOrderBook.empty.books ticks) steps ∧
    ∀ before event after, steps.flatMap Step.events = before ++ event :: after → event.type = 'P' →
      event.size = ((tradesOf before).map LogEvent.size).sum ∧
      event.pnl = ((tradesOf before).map fun trade => (trade.size : ℚ) * (event.price - trade.price)).sum := by
  refine ⟨runTicks_atTouch h,?_⟩
  intro before event after hlog hmark
  have hfaithful := (runTicks_leads h).1
  rw [hlog, faithful_append] at hfaithful
  obtain ⟨hsize,hpnl⟩ := hfaithful.2.1 hmark
  have hopen : (construct selection).positionManager.account = Account.opening := PositionManager.account_fresh
  rw [hopen, replay_eq] at hsize hpnl
  rw [Account.holding_trades, List.map_map] at hsize
  rw [Account.worth_trades, List.map_map] at hpnl
  constructor
  · have hcast : (((tradesOf before).map LogEvent.size).sum : ℚ) =
        ((tradesOf before).map fun trade => (trade.size : ℚ)).sum := by
      rw [Int.cast_list_sum, List.map_map]
      rfl
    have hsum : (event.size : ℚ) = ((tradesOf before).map LogEvent.size).sum := by
      rw [hcast, hsize]
      exact zero_add _
    exact_mod_cast hsum
  · rw [hpnl]
    simp [Account.opening, Account.worth, Function.comp_def]

/-- Passes over one tick that leaves a one-sided book as it is are only counted. -/
theorem runTicks_repeated {e : StrategyEngine} {tick : MarketTick} (hbook : e.book.applyTick tick = e.book)
    (hone : e.book.getBestBid = LimitOrderBook.kNoBid ∨ e.book.getBestAsk = LimitOrderBook.kNoAsk)
    (n : Nat) (ticks : List MarketTick) :
    (e.runTicks (List.replicate n tick ++ ticks)).map (List.flatMap Step.events) =
      ({ e with ticksProcessed := e.ticksProcessed + UInt64.ofNat n }.runTicks ticks).map
        (List.flatMap Step.events) := by
  induction n generalizing e with
  | zero => simp
  | succ n ih =>
    have hstep : e.loopBody tick = some ⟨{ e with ticksProcessed := e.ticksProcessed + 1 },none,[]⟩ := by
      rw [loopBody, hbook]
      exact if_pos hone
    rw [List.replicate_succ, List.cons_append, runTicks, hstep, Option.bind_some, Option.map_map]
    refine (ih (e := { e with ticksProcessed := e.ticksProcessed + 1 }) hbook hone).trans ?_
    rw [show e.ticksProcessed + UInt64.ofNat (n + 1) = e.ticksProcessed + 1 + UInt64.ofNat n by
      rw [UInt64.ofNat_add, UInt64.add_assoc, UInt64.add_comm (UInt64.ofNat n)]; rfl]

/-- A bid that is there alone for long, an ask, and a bid that makes the strategy buy shortly
before the thousandth tick. -/
def thousandTicks : List MarketTick :=
  List.replicate 996 ⟨40,10,true⟩ ++ [⟨60,10,false⟩,⟨58,10,true⟩,⟨58,10,true⟩,⟨58,10,true⟩]

/-- A first mark at fifty cents, ten lots bought at sixty, and a periodic mark a cent below. -/
def thousandEvents : List LogEvent := [⟨'P',1/2,0,0⟩,⟨'T',3/5,10,0⟩,⟨'P',59/100,10,-1/10⟩]

/-- The engine behind the first of the thousand ticks. -/
private def firstBid : StrategyEngine :=
  { construct .momentum with book := LimitOrderBook.empty.applyTick ⟨40,10,true⟩, ticksProcessed := 1 }

private theorem firstBid_stays : firstBid.book.applyTick ⟨40,10,true⟩ = firstBid.book := by
  apply LimitOrderBook.ext_sizeAt
  funext level
  rcases level with ⟨_ | _,p⟩ <;> revert p <;> decide +kernel

private theorem thousandTicks_logged :
    ((construct .momentum).runTicks thousandTicks).map (List.flatMap Step.events) = some thousandEvents := by
  have hfirst : (construct .momentum).loopBody ⟨40,10,true⟩ = some ⟨firstBid,none,[]⟩ := by
    rw [loopBody]
    exact if_pos (by decide +kernel)
  rw [thousandTicks, List.replicate_succ, List.cons_append, runTicks, hfirst, Option.bind_some, Option.map_map]
  refine (runTicks_repeated firstBid_stays (by decide +kernel) 995 _).trans ?_
  decide +kernel

/-- The periodic mark shows the ten lots, and the ten cents they have lost. -/
theorem thousandTicks_ledger : ∃ steps, (construct .momentum).runTicks thousandTicks = some steps ∧
    steps.flatMap Step.events = thousandEvents ∧
    List.Forall₂ (fun book step => ∀ event ∈ step.events, event.type = 'T' → AtTouch book event)
      (LimitOrderBook.empty.books thousandTicks) steps ∧
    (10 : ℤ) = ((tradesOf (thousandEvents.take 2)).map LogEvent.size).sum ∧
    (-1/10 : ℚ) = ((tradesOf (thousandEvents.take 2)).map fun trade =>
      (trade.size : ℚ) * (59/100 - trade.price)).sum := by
  obtain ⟨steps,hs,hevents⟩ := Option.map_eq_some_iff.mp thousandTicks_logged
  obtain ⟨htouch,hledger⟩ := event_log_is_ledger .momentum thousandTicks steps hs
  exact ⟨steps,hs,hevents,htouch,hledger (thousandEvents.take 2) ⟨'P',59/100,10,-1/10⟩ [] hevents rfl⟩

end StrategyEngine
end PredictionMarket.Strategy

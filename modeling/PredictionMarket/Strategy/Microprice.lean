import PredictionMarket.Foundation.WeightedMean
import PredictionMarket.Strategy.MirrorSignals
import PredictionMarket.Market.BookHistory
import Mathlib.Data.List.Induction

/-! The microprice that the signals compute against the size-weighted mean of the best
prices. The weights are added as a word, so the two differ once the sum wraps. -/
namespace PredictionMarket.Strategy
open Market Foundation

/-- The mean of the best prices over the integers, each weighted with the other side's size. -/
def trueMicroprice (q : Quote) : ℚ :=
  WeightedMean.mean (q.bid.val : ℚ) (q.askSize.toNat : ℚ) (q.ask.val : ℚ) (q.bidSize.toNat : ℚ)

/-- The sizes add up within their word; at two prices of zero any sum that is a number will do. -/
def Unwrapped (q : Quote) : Prop := q.bidSize.toNat + q.askSize.toNat < 2^32 ∨
  (q.bid.val = 0 ∧ q.ask.val = 0 ∧ q.bidSize + q.askSize ≠ 0)

/-- The microprice inside `OFIAlpha::update`. -/
def OFIAlpha.micropriceCents (q : Quote) : ℚ :=
  if q.bidSize + q.askSize = 0 then quoteMid q else quoteMicroprice q

/-- The score of an order-flow signal with the baseline `p`, at this microprice. -/
def OFIAlpha.scoreAt (micropriceCents : ℚ) (p q : Quote) : ℚ :=
  clamp (65 / 100 * flowScore p q + 35 / 100 * clamp ((micropriceCents - quoteMid q) /
    max 1 ((((priceByte q.ask).toNat - (priceByte q.bid).toNat : Int) : ℚ))) (-1) 1) (-1) 1

private theorem OFIAlpha.update_baseline (p : Quote) {book : LimitOrderBook} {q : Quote} (h : book.quote? = some q)
    (tick : MarketTick) : (seen p).update book tick = (scoreAt (micropriceCents q) p q, seen q) := by
  obtain ⟨hb,ha,hbs,has⟩ := LimitOrderBook.of_quote h
  rw [update, if_neg (LimitOrderBook.not_oneSided h), hb, ha, hbs, has]
  rfl

/-- Both signals compute the true microprice of the book, which lies between its best prices. -/
structure MicropriceTrue (book : LimitOrderBook) (q : Quote) : Prop where
  momentum : ∀ (alpha : MomentumAlpha) (tick : MarketTick),
    (alpha.update book tick).2 = ⟨true,trueMicroprice q⟩
  ofi : OFIAlpha.micropriceCents q = trueMicroprice q
  /-- What the order-flow signal computes goes into its score. -/
  scored : ∀ (p : Quote) (tick : MarketTick),
    (OFIAlpha.seen p).update book tick = (OFIAlpha.scoreAt (OFIAlpha.micropriceCents q) p q, OFIAlpha.seen q)
  between : min (q.bid.val : ℚ) q.ask.val ≤ OFIAlpha.micropriceCents q ∧
    OFIAlpha.micropriceCents q ≤ max (q.bid.val : ℚ) q.ask.val

/-- The numerator of both quotients. -/
private def numerator (q : Quote) : ℚ :=
  cents (priceByte q.bid) * lots q.askSize + cents (priceByte q.ask) * lots q.bidSize

private theorem trueMicroprice_eq (q : Quote) :
    trueMicroprice q = numerator q / ((q.bidSize.toNat + q.askSize.toNat : Nat) : ℚ) := by
  rw [trueMicroprice, WeightedMean.mean, numerator, cents_priceByte, cents_priceByte, lots, lots,
    Nat.cast_add, add_comm (q.askSize.toNat : ℚ)]

/-- The code divides by the residue of the sum. -/
theorem quoteMicroprice_eq (q : Quote) : quoteMicroprice q =
    numerator q / (((q.bidSize.toNat + q.askSize.toNat) % 2^32 : Nat) : ℚ) := by
  have hsum : lots (q.bidSize + q.askSize) = (((q.bidSize.toNat + q.askSize.toNat) % 2^32 : Nat) : ℚ) :=
    congrArg Nat.cast (UInt32.toNat_add _ _)
  rw [quoteMicroprice, microprice, hsum, numerator]

section Quoted
variable {book : LimitOrderBook} {q : Quote} (h : book.quote? = some q)
include h

private theorem sizes_pos : 0 < q.bidSize.toNat ∧ 0 < q.askSize.toNat := by
  obtain ⟨bid,hb,hrest⟩ := Option.bind_eq_some_iff.mp h
  obtain ⟨ask,ha,rfl⟩ := Option.map_eq_some_iff.mp hrest
  have hbid := ((LimitOrderBook.bestBid?_eq_some_iff book bid).mp hb).1
  have hask := ((LimitOrderBook.bestAsk?_eq_some_iff book ask).mp ha).1
  exact ⟨Nat.pos_of_ne_zero fun hz => hbid (UInt32.toNat.inj hz),
    Nat.pos_of_ne_zero fun hz => hask (UInt32.toNat.inj hz)⟩

private theorem sameSign : WeightedMean.SameSign (q.askSize.toNat : ℚ) (q.bidSize.toNat : ℚ) := by
  have hp := sizes_pos h
  exact .inl ⟨by exact_mod_cast hp.2,by exact_mod_cast hp.1⟩

private theorem trueMicroprice_between : min (q.bid.val : ℚ) q.ask.val ≤ trueMicroprice q ∧
    trueMicroprice q ≤ max (q.bid.val : ℚ) q.ask.val :=
  ⟨WeightedMean.le_mean (sameSign h) (min_le_left _ _) (min_le_right _ _),
    WeightedMean.mean_le (sameSign h) (le_max_left _ _) (le_max_right _ _)⟩

private theorem numerator_eq_zero_iff : numerator q = 0 ↔ q.bid.val = 0 ∧ q.ask.val = 0 := by
  obtain ⟨hbs,has⟩ := sizes_pos h
  have hnat : numerator q = ((q.bid.val * q.askSize.toNat + q.ask.val * q.bidSize.toNat : Nat) : ℚ) := by
    rw [numerator, cents_priceByte, cents_priceByte, lots, lots]
    push_cast
    rfl
  rw [hnat, Nat.cast_eq_zero, Nat.add_eq_zero_iff, Nat.mul_eq_zero, Nat.mul_eq_zero, or_iff_left has.ne',
    or_iff_left hbs.ne']

private theorem microprice_true_iff (hne : q.bidSize + q.askSize ≠ 0) :
    quoteMicroprice q = trueMicroprice q ↔ Unwrapped q := by
  obtain ⟨hbs,has⟩ := sizes_pos h
  have hub := q.bidSize.toNat_lt
  have hua := q.askSize.toNat_lt
  rw [quoteMicroprice_eq, trueMicroprice_eq, Unwrapped]
  by_cases hfits : q.bidSize.toNat + q.askSize.toNat < 2^32
  · rw [Nat.mod_eq_of_lt hfits]
    exact iff_of_true rfl (.inl hfits)
  have hwrapped : (q.bidSize.toNat + q.askSize.toNat) % 2^32 ≠ 0 := by
    intro hz
    apply hne
    rw [← UInt32.toNat_inj, UInt32.toNat_add]
    exact hz
  have hless : (q.bidSize.toNat + q.askSize.toNat) % 2^32 ≠ q.bidSize.toNat + q.askSize.toNat := by
    intro he
    exact hfits (he ▸ Nat.mod_lt _ (by decide))
  have hsum : q.bidSize.toNat + q.askSize.toNat ≠ 0 := by omega
  rw [or_iff_right hfits, div_eq_div_iff (Nat.cast_ne_zero.mpr hwrapped) (Nat.cast_ne_zero.mpr hsum),
    mul_eq_mul_left_iff, Nat.cast_inj, or_iff_right hless.symm, numerator_eq_zero_iff h]
  exact ⟨fun hz => ⟨hz.1,hz.2,hne⟩,fun hz => ⟨hz.1,hz.2.1⟩⟩

private theorem unwrapped_sum_ne (hu : Unwrapped q) : q.bidSize + q.askSize ≠ 0 := by
  rcases hu with hfits | hzero
  · intro hz
    have hn := congrArg UInt32.toNat hz
    rw [UInt32.toNat_add] at hn
    change (q.bidSize.toNat + q.askSize.toNat) % 2^32 = 0 at hn
    rw [Nat.mod_eq_of_lt hfits] at hn
    have := sizes_pos h
    omega
  · exact hzero.2.2

private theorem micropriceTrue_iff : MicropriceTrue book q ↔ Unwrapped q := by
  constructor
  · intro ht
    by_cases hne : q.bidSize + q.askSize = 0
    · have hstays : (MomentumAlpha.fresh.update book ⟨0,0,true⟩).2 = .fresh := by
        obtain ⟨hb,ha,hbs,has⟩ := LimitOrderBook.of_quote h
        rw [MomentumAlpha.update, if_neg (LimitOrderBook.not_oneSided h), hb, ha, hbs, has, if_pos hne]
      have hmoved := ht.momentum .fresh ⟨0,0,true⟩
      rw [hstays] at hmoved
      cases hmoved
    · have hm := ht.ofi
      rw [OFIAlpha.micropriceCents, if_neg hne] at hm
      exact (microprice_true_iff h hne).mp hm
  · intro hu
    have hne := unwrapped_sum_ne h hu
    have htrue := (microprice_true_iff h hne).mpr hu
    have hofi : OFIAlpha.micropriceCents q = trueMicroprice q := by
      rw [OFIAlpha.micropriceCents, if_neg hne, htrue]
    refine ⟨fun alpha tick => ?_,hofi,fun p => OFIAlpha.update_baseline p h,hofi ▸ trueMicroprice_between h⟩
    rw [MomentumAlpha.update_quoted alpha h hne, htrue]
    obtain ⟨hasPrev,prev⟩ := alpha
    cases hasPrev <;> rfl

end Quoted

/-- The last book of a run of updates that had both sides. -/
def lastQuote (updates : List (LimitOrderBook × MarketTick)) : Option Quote :=
  (updates.filterMap fun u => u.1.quote?).getLast?

/-- A fresh momentum signal behind a run of updates. -/
def MomentumAlpha.afterUpdates (updates : List (LimitOrderBook × MarketTick)) : MomentumAlpha :=
  updates.foldl (fun alpha u => (alpha.update u.1 u.2).2) fresh

/-- Every book of the run that has both sides meets the condition on its sizes. -/
def AllUnwrapped (updates : List (LimitOrderBook × MarketTick)) : Prop :=
  ∀ u ∈ updates, ∀ q, u.1.quote? = some q → Unwrapped q

/-- The signal remembers the true microprice of the last book with both sides. -/
theorem afterUpdates_eq {updates : List (LimitOrderBook × MarketTick)} (h : AllUnwrapped updates) :
    MomentumAlpha.afterUpdates updates =
      (lastQuote updates).elim .fresh fun p => ⟨true,trueMicroprice p⟩ := by
  induction updates using List.reverseRecOn with
  | nil => rfl
  | append_singleton updates u ih =>
    have hu := h u (List.mem_append_right _ (List.mem_singleton_self u))
    have hi := ih fun u' hm => h u' (List.mem_append_left _ hm)
    have hstep : MomentumAlpha.afterUpdates (updates ++ [u]) =
        ((MomentumAlpha.afterUpdates updates).update u.1 u.2).2 := List.foldl_concat _ _ _ _
    rw [hstep, lastQuote, List.filterMap_append, List.getLast?_append]
    cases hq : u.1.quote? with
    | none =>
      rw [MomentumAlpha.update, if_pos ((LimitOrderBook.oneSided_iff u.1).mpr hq), hi, lastQuote]
      simp only [List.filterMap_cons, hq, List.filterMap_nil, List.getLast?_nil, Option.none_or]
    | some q =>
      rw [((micropriceTrue_iff hq).mpr (hu q hq)).momentum]
      simp only [List.filterMap_cons, hq, List.filterMap_nil, List.getLast?_singleton, Option.some_or,
        Option.elim_some]

private theorem moveScore_iff (delta : ℚ) : (MomentumAlpha.moveScore delta = 1 ↔ delta > 1) ∧
    (MomentumAlpha.moveScore delta = -1 ↔ delta < -1) := by
  unfold MomentumAlpha.moveScore
  split_ifs with h1 h2 <;> constructor <;> constructor <;> intro h <;> linarith

/-- The microprice is the true one exactly on the books whose best sizes add up within
their word, and over such books the momentum signal is right about its moves. -/
theorem microprice_true_while_unwrapped (updates : List (LimitOrderBook × MarketTick))
    {book : LimitOrderBook} {q : Quote} (h : book.quote? = some q) (tick : MarketTick) :
    (MicropriceTrue book q ↔ Unwrapped q) ∧
    (AllUnwrapped updates → Unwrapped q →
      let score := ((MomentumAlpha.afterUpdates updates).update book tick).1
      (score = 1 ↔ ∃ p, lastQuote updates = some p ∧ trueMicroprice q - trueMicroprice p > 1) ∧
      (score = -1 ↔ ∃ p, lastQuote updates = some p ∧ trueMicroprice q - trueMicroprice p < -1)) := by
  refine ⟨micropriceTrue_iff h,?_⟩
  intro hall hu
  have hne := unwrapped_sum_ne h hu
  rw [MomentumAlpha.update_quoted _ h hne, (microprice_true_iff h hne).mpr hu, afterUpdates_eq hall]
  cases lastQuote updates with
  | none => simp [MomentumAlpha.onMicroprice, MomentumAlpha.fresh]
  | some p =>
    have hm := moveScore_iff (trueMicroprice q - trueMicroprice p)
    simpa [MomentumAlpha.onMicroprice] using hm

/-- Bids of 40 cents against asks of 60. -/
def wideTicks (bidSize askSize : UInt32) : List MarketTick := [⟨40,bidSize,true⟩, ⟨60,askSize,false⟩]

def wideBook (bidSize askSize : UInt32) : LimitOrderBook :=
  LimitOrderBook.empty.applyTicks (wideTicks bidSize askSize)

private theorem wide_levels : 40 < LimitOrderBook.kLevels ∧ 60 < LimitOrderBook.kLevels := by decide

def wideQuote (bidSize askSize : UInt32) : Quote := ⟨⟨40,wide_levels.1⟩,⟨60,wide_levels.2⟩,bidSize,askSize⟩

/-- Two lots against a full word: the sum wraps to one. -/
theorem wrapped_microprice_false : ¬ ∀ ticks q,
    (LimitOrderBook.empty.applyTicks ticks).quote? = some q →
      MicropriceTrue (LimitOrderBook.empty.applyTicks ticks) q := by
  intro hall
  have hq : (wideBook 4294967295 2).quote? = some (wideQuote 4294967295 2) := by decide +kernel
  have hu := (micropriceTrue_iff hq).mp (hall _ _ hq)
  revert hu
  unfold Unwrapped
  decide

/-- The true microprice rises from 50 to 52 cents. -/
theorem wide_microprice_rises :
    (MicropriceTrue (wideBook 15 10) (wideQuote 15 10) ↔ Unwrapped (wideQuote 15 10)) ∧
    (((MomentumAlpha.afterUpdates [(wideBook 10 10,⟨60,10,false⟩)]).update (wideBook 15 10) ⟨40,15,true⟩).1 = 1 ↔
      ∃ p, lastQuote [(wideBook 10 10,⟨60,10,false⟩)] = some p ∧
        trueMicroprice (wideQuote 15 10) - trueMicroprice p > 1) := by
  have heven : (wideBook 10 10).quote? = some (wideQuote 10 10) := by decide +kernel
  have hheavier : (wideBook 15 10).quote? = some (wideQuote 15 10) := by decide +kernel
  have hall : AllUnwrapped [(wideBook 10 10,⟨60,10,false⟩)] := by
    intro u hm q hq
    cases List.mem_singleton.mp hm
    cases heven.symm.trans hq
    exact .inl (by decide)
  have hrises := microprice_true_while_unwrapped [(wideBook 10 10,⟨60,10,false⟩)] hheavier ⟨40,15,true⟩
  exact ⟨hrises.1,(hrises.2 hall (.inl (by decide))).1⟩

end PredictionMarket.Strategy

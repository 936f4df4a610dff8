import PredictionMarket.Strategy.Alphas
import PredictionMarket.Market.Quote
import Mathlib.Tactic.FieldSimp
import Mathlib.Tactic.Linarith
import Mathlib.Tactic.Ring

/-! The signals on a mirrored quote. Both are odd: they score the other outcome with the
opposite sign, provided that the two sizes add up within their word. -/
namespace PredictionMarket.Strategy
open Market

/-- The two sizes have a nonzero sum that does not wrap. -/
def ExactSizes (q : Quote) : Prop :=
  q.bidSize + q.askSize ≠ 0 ∧ q.bidSize.toNat + q.askSize.toNat < 2^32

/-- The cents of a price of the book. -/
theorem cents_priceByte (p : Fin LimitOrderBook.kLevels) : cents (priceByte p) = p.val := by
  rw [cents, priceByte_toNat]

/-- The cents of a mirrored price are what is missing to a dollar. -/
theorem cents_rev (p : Fin LimitOrderBook.kLevels) :
    cents (priceByte p.rev) = 100 - cents (priceByte p) := by
  have h : p.rev.val + p.val = 100 := by
    have := LimitOrderBook.price_le p
    rw [Fin.val_rev]
    change 101 - (p.val + 1) + p.val = 100
    omega
  have hq : (p.rev.val : ℚ) + p.val = 100 := by exact_mod_cast h
  rw [cents_priceByte, cents_priceByte]
  linarith

/-- Lots that do not wrap add up. -/
theorem lots_add {a b : UInt32} (h : a.toNat + b.toNat < 2^32) : lots (a + b) = lots a + lots b := by
  rw [lots, UInt32.toNat_add, Nat.mod_eq_of_lt h, Nat.cast_add]
  rfl

/-- A quote whose sizes do not wrap has some lots. -/
theorem ExactSizes.lots_ne_zero {q : Quote} (h : ExactSizes q) : lots q.bidSize + lots q.askSize ≠ 0 := by
  rw [← lots_add h.2]
  exact fun hz => h.1 (UInt32.toNat.inj (Nat.cast_eq_zero.mp hz))

/-- The microprice of a quote. -/
def quoteMicroprice (q : Quote) : ℚ := microprice (priceByte q.bid) (priceByte q.ask) q.bidSize q.askSize

/-- With exact sizes the microprice of the other outcome is the complement. -/
theorem microprice_mirror {q : Quote} (h : ExactSizes q) :
    quoteMicroprice q.mirror = 100 - quoteMicroprice q := by
  have hne := h.lots_ne_zero
  have hadd := lots_add h.2
  have hadd' : lots (q.askSize + q.bidSize) = lots q.bidSize + lots q.askSize := by
    rw [UInt32.add_comm, hadd]
  simp only [quoteMicroprice, microprice, Quote.mirror, hadd, hadd', cents_rev]
  field_simp
  ring

private theorem clamp_neg (x : ℚ) : clamp (-x) (-1) 1 = -clamp x (-1) 1 := by
  unfold clamp
  split_ifs <;> linarith

namespace MomentumAlpha

/-- The score of a move of the microprice. -/
def moveScore (delta : ℚ) : ℚ := if delta > 1 then 1 else if delta < -1 then -1 else 0

private theorem moveScore_neg (delta : ℚ) : moveScore (-delta) = -moveScore delta := by
  unfold moveScore
  split_ifs <;> linarith

/-- The update once the microprice is known. -/
def onMicroprice (alpha : MomentumAlpha) (m : ℚ) : ℚ × MomentumAlpha :=
  if alpha.hasPrev = false then (0, ⟨true,m⟩)
  else (moveScore (m - alpha.prevMicropriceCents), { alpha with prevMicropriceCents := m })

/-- On a book with a quote the momentum signal works on the microprice. -/
theorem update_quoted (alpha : MomentumAlpha) {book : LimitOrderBook} {q : Quote}
    (h : book.quote? = some q) (hd : q.bidSize + q.askSize ≠ 0) (tick : MarketTick) :
    alpha.update book tick = alpha.onMicroprice (quoteMicroprice q) := by
  obtain ⟨hb,ha,hbs,has⟩ := LimitOrderBook.of_quote h
  rw [update, if_neg (LimitOrderBook.not_oneSided h), hb, ha, hbs, has, if_neg hd]
  rw [← quoteMicroprice]
  unfold onMicroprice moveScore
  dsimp only
  split_ifs <;> rfl

/-- Signals of the two outcomes that have seen complementary microprices. -/
inductive Mirrored : MomentumAlpha → MomentumAlpha → Prop
  | unseen (m m' : ℚ) : Mirrored ⟨false,m⟩ ⟨false,m'⟩
  | seen (m : ℚ) : Mirrored ⟨true,m⟩ ⟨true,100 - m⟩

/-- Mirrored microprices have opposite scores. -/
theorem Mirrored.onMicroprice {a a' : MomentumAlpha} (h : Mirrored a a') (m : ℚ) :
    (a'.onMicroprice (100 - m)).1 = -(a.onMicroprice m).1 ∧
      Mirrored (a.onMicroprice m).2 (a'.onMicroprice (100 - m)).2 := by
  cases h with
  | unseen prev prev' => exact ⟨neg_zero.symm,.seen m⟩
  | seen prev =>
    have hd : 100 - m - (100 - prev) = -(m - prev) := by ring
    refine ⟨?_,.seen m⟩
    simp only [MomentumAlpha.onMicroprice, hd, moveScore_neg, Bool.true_eq_false, if_false]

end MomentumAlpha

namespace OFIAlpha

/-- A signal that has last seen this quote. -/
def seen (q : Quote) : OFIAlpha := ⟨true,priceByte q.bid,priceByte q.ask,q.bidSize,q.askSize⟩

/-- Normalised order flow since another quote. -/
def flowScore (p q : Quote) : ℚ :=
  clamp ((0 + (seen p).bidFlow (priceByte q.bid) q.bidSize -
    (seen p).askFlow (priceByte q.ask) q.askSize) / max 1 (lots (q.bidSize + q.askSize))) (-1) 1

def quoteMid (q : Quote) : ℚ := (cents (priceByte q.bid) + cents (priceByte q.ask)) * (1 / 2)

/-- Where the microprice lies within the spread. -/
def pressureScore (q : Quote) : ℚ :=
  clamp ((quoteMicroprice q - quoteMid q) /
    max 1 ((((priceByte q.ask).toNat - (priceByte q.bid).toNat : Int) : ℚ))) (-1) 1

/-- The order-flow signal weighs the flow since its baseline and the pressure of the quote. -/
theorem update_seen (p : Quote) {book : LimitOrderBook} {q : Quote} (h : book.quote? = some q)
    (hd : q.bidSize + q.askSize ≠ 0) (tick : MarketTick) :
    (seen p).update book tick =
      (clamp (65 / 100 * flowScore p q + 35 / 100 * pressureScore q) (-1) 1, seen q) := by
  obtain ⟨hb,ha,hbs,has⟩ := LimitOrderBook.of_quote h
  rw [update, if_neg (LimitOrderBook.not_oneSided h), hb, ha, hbs, has]
  simp only [if_neg hd]
  rfl

/-- Without a baseline the order-flow signal scores zero. -/
theorem update_unseen {alpha : OFIAlpha} (hi : alpha.initialized = false) {book : LimitOrderBook}
    {q : Quote} (h : book.quote? = some q) (tick : MarketTick) :
    alpha.update book tick = (0, seen q) := by
  obtain ⟨hb,ha,hbs,has⟩ := LimitOrderBook.of_quote h
  rw [update, if_neg (LimitOrderBook.not_oneSided h), hb, ha, hbs, has]
  exact if_pos hi

private theorem flow_mirror (p q : Quote) :
    (seen p.mirror).askFlow (priceByte q.mirror.ask) q.mirror.askSize =
      (seen p).bidFlow (priceByte q.bid) q.bidSize ∧
    (seen p.mirror).bidFlow (priceByte q.mirror.bid) q.mirror.bidSize =
      (seen p).askFlow (priceByte q.ask) q.askSize := by
  simp only [askFlow, bidFlow, seen, Quote.mirror, gt_iff_lt, priceByte_lt, priceByte_inj, Fin.rev_lt_rev,
    Fin.rev_inj, and_self]

private theorem flowScore_mirror (p q : Quote) : flowScore p.mirror q.mirror = -flowScore p q := by
  obtain ⟨hask,hbid⟩ := flow_mirror p q
  rw [flowScore, hask, hbid, q.mirror_sizes, flowScore, ← clamp_neg]
  congr 1
  ring

private theorem pressureScore_mirror {q : Quote} (h : ExactSizes q) :
    pressureScore q.mirror = -pressureScore q := by
  have hmid : quoteMid q.mirror = 100 - quoteMid q := by
    simp only [quoteMid, Quote.mirror, cents_rev]
    ring
  have hspread : (((priceByte q.mirror.ask).toNat - (priceByte q.mirror.bid).toNat : Int) : ℚ) =
      (((priceByte q.ask).toNat - (priceByte q.bid).toNat : Int) : ℚ) := by
    have ha := cents_rev q.ask
    have hb := cents_rev q.bid
    simp only [cents] at ha hb
    push_cast
    simp only [Quote.mirror]
    linarith
  rw [pressureScore, microprice_mirror h, hmid, hspread, pressureScore, ← clamp_neg]
  congr 1
  ring

/-- Signals of the two outcomes that have last seen mirrored quotes. -/
inductive Mirrored : OFIAlpha → OFIAlpha → Prop
  | unseen {a a' : OFIAlpha} (h : a.initialized = false) (h' : a'.initialized = false) : Mirrored a a'
  | seen (p : Quote) : Mirrored (seen p) (seen p.mirror)

/-- An order-flow signal on the mirrored book scores the opposite and stays mirrored. -/
theorem Mirrored.update {a a' : OFIAlpha} (hm : Mirrored a a') {book : LimitOrderBook} {q : Quote}
    (h : book.quote? = some q) (hq : ExactSizes q) (tick tick' : MarketTick) :
    (a'.update book.mirror tick').1 = -(a.update book tick).1 ∧
      Mirrored (a.update book tick).2 (a'.update book.mirror tick').2 := by
  have h' := LimitOrderBook.quote?_mirror_some h
  cases hm with
  | unseen hi hi' =>
    rw [update_unseen hi h, update_unseen hi' h']
    exact ⟨neg_zero.symm,.seen q⟩
  | seen p =>
    have hd : q.mirror.bidSize + q.mirror.askSize ≠ 0 := by
      rw [q.mirror_sizes]
      exact hq.1
    have hodd (x y : ℚ) : 65 / 100 * -x + 35 / 100 * -y = -(65 / 100 * x + 35 / 100 * y) := by ring
    rw [update_seen p h hq.1, update_seen p.mirror h' hd, flowScore_mirror, pressureScore_mirror hq,
      hodd, clamp_neg]
    exact ⟨rfl,.seen q⟩

end OFIAlpha
end PredictionMarket.Strategy

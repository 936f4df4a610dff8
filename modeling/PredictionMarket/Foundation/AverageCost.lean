import PredictionMarket.Foundation.CashLedger
import PredictionMarket.Foundation.WeightedMean
import Mathlib.Data.List.Induction

/-! Average-cost accounting over any ordered field. Units of one sign are carried at the
mean of what they cost; trading against them leaves that mean alone until they are gone. -/
namespace PredictionMarket.Foundation.AverageCost
open CashLedger WeightedMean
variable {K : Type} [Field K]

/-- Units and cash, and the average price of the units. -/
@[ext] structure Position (K : Type) where
  account : Account K
  entry : K

/-- Units held after the fills of a flat start. -/
def net (fills : List (K × K)) : K := (fills.map Prod.fst).sum

private theorem net_append (fills : List (K × K)) (quantity price : K) :
    net (fills ++ [(quantity,price)]) = net fills + quantity := by
  simp [net]

variable [LinearOrder K]

/-- The units that a trade in their own direction adds to. -/
def carried (units quantity : K) : K := if SameSign units quantity then units else 0

/-- The average after a trade. Units that end in the trade's direction are those carried
and those bought, and a position that ends against it was only reduced. -/
def nextEntry (units entry quantity price : K) : K :=
  if quantity = 0 then entry
  else if SameSign (units + quantity) quantity then
    mean entry (carried units quantity) price (units + quantity - carried units quantity)
  else if units + quantity = 0 then 0
  else entry

namespace Position

def flat : Position K := ⟨Account.opening,0⟩

def trade (x : Position K) (quantity price : K) : Position K :=
  ⟨x.account.trade quantity price,nextEntry x.account.holding x.entry quantity price⟩

def trades (x : Position K) (fills : List (K × K)) : Position K :=
  fills.foldl (fun x fill => x.trade fill.1 fill.2) x

private theorem trades_append (x : Position K) (fills more : List (K × K)) :
    x.trades (fills ++ more) = (x.trades fills).trades more := List.foldl_append

private theorem account_trades (x : Position K) (fills : List (K × K)) :
    (x.trades fills).account = x.account.trades fills := by
  induction fills generalizing x with
  | nil => rfl
  | cons fill fills ih => exact ih (x.trade fill.1 fill.2)

end Position

private theorem nextEntry_pos {units quantity : K} (entry price : K) (hq : 0 < quantity) :
    nextEntry units entry quantity price =
      if 0 < units + quantity then
        if 0 < units then mean entry units price quantity else price
      else if units + quantity = 0 then 0
      else entry := by
  have hsame (x : K) : SameSign x quantity ↔ 0 < x :=
    ⟨fun h => h.elim And.left fun hn => absurd hq hn.2.not_gt,fun hx => .inl ⟨hx,hq⟩⟩
  rw [nextEntry, if_neg hq.ne', carried]
  simp only [hsame]
  split_ifs with htotal hunits
  · rw [add_sub_cancel_left]
  · rw [sub_zero, mean_zero_left htotal.ne']
  · rfl
  · rfl

section Chopping
variable [IsStrictOrderedRing K]

private theorem carried_neg (units quantity : K) : carried (-units) (-quantity) = -carried units quantity := by
  unfold carried
  simp only [SameSign, Left.neg_pos_iff, Left.neg_neg_iff, or_comm]
  split
  · rfl
  · exact neg_zero.symm

/-- Nothing changes with every sign turned around. -/
theorem nextEntry_neg (units entry quantity price : K) :
    nextEntry (-units) entry (-quantity) price = nextEntry units entry quantity price := by
  have hsum : -units + -quantity = -(units + quantity) := (neg_add _ _).symm
  have hrest : -(units + quantity) - -carried units quantity = -(units + quantity - carried units quantity) := by
    rw [neg_sub_neg, neg_sub]
  have hsame : SameSign (-(units + quantity)) (-quantity) ↔ SameSign (units + quantity) quantity := by
    simp only [SameSign, Left.neg_pos_iff, Left.neg_neg_iff, or_comm]
  unfold nextEntry
  simp only [hsum, carried_neg, hrest, mean_neg, hsame, neg_eq_zero]

/-- Buying in two goes at one price is buying at once, wherever zero lies. -/
theorem nextEntry_buy {q r : K} (units entry price : K) (hq : 0 < q) (hr : 0 < r) :
    nextEntry (units + q) (nextEntry units entry q price) r price =
      nextEntry units entry (q + r) price := by
  rw [nextEntry_pos _ _ hr, nextEntry_pos _ _ hq, nextEntry_pos _ _ (add_pos hq hr), ← add_assoc]
  by_cases hmid : 0 < units + q
  · have htotal : 0 < units + q + r := add_pos hmid hr
    rw [if_pos hmid, if_pos htotal, if_pos hmid, if_pos htotal]
    by_cases hunits : 0 < units
    · -- an increase by both
      rw [if_pos hunits, if_pos hunits, mean_mean hmid.ne']
    · -- opened or flipped by the first, increased by the second at the same price
      rw [if_neg hunits, if_neg hunits, mean_self htotal.ne']
  · have hunits : ¬ 0 < units := fun h => hmid (add_pos h hq)
    by_cases htotal : 0 < units + q + r
    · -- the second opens or flips
      rw [if_pos htotal, if_pos htotal, if_neg hmid, if_neg hunits]
    · -- both reduce, and the second may close
      have hne : units + q ≠ 0 := by
        intro hz
        rw [hz, zero_add] at htotal
        exact htotal hr
      rw [if_neg htotal, if_neg htotal, if_neg hmid, if_neg hne]

private theorem nextEntry_split {q r : K} (h : SameSign q r) (units entry price : K) :
    nextEntry (units + q) (nextEntry units entry q price) r price =
      nextEntry units entry (q + r) price := by
  rcases h with ⟨hq,hr⟩ | ⟨hq,hr⟩
  · exact nextEntry_buy units entry price hq hr
  · have hb := nextEntry_buy (-units) entry price (neg_pos.mpr hq) (neg_pos.mpr hr)
    rw [← neg_add, ← neg_add, nextEntry_neg, nextEntry_neg, nextEntry_neg] at hb
    exact hb

namespace Position

/-- Two trades in one direction at one price are one trade. -/
theorem trade_split {q r : K} (h : SameSign q r) (x : Position K) (price : K) :
    (x.trade q price).trade r price = x.trade (q + r) price := by
  apply Position.ext
  · apply Account.ext
    · exact add_assoc _ _ _
    · simp only [trade, Account.trade]
      ring
  · exact nextEntry_split h x.account.holding x.entry price

/-- Fills that chop each execution, a size at a price, into parts of one direction. -/
inductive Chopped : List (K × K) → List (K × K) → Prop where
  | nil : Chopped [] []
  | cons {fills executions : List (K × K)} (sizes : List K) (direction price : K)
    (oneWay : ∀ q ∈ sizes, SameSign direction q) (rest : Chopped fills executions) :
    Chopped (sizes.map (fun q => (q,price)) ++ fills) ((sizes.sum,price) :: executions)

private theorem sum_oneWay {direction : K} {sizes : List K} (h : ∀ q ∈ sizes, SameSign direction q) :
    sizes = [] ∨ SameSign direction sizes.sum := by
  induction sizes with
  | nil => exact .inl rfl
  | cons q sizes ih =>
    right
    have hq := h q List.mem_cons_self
    rcases ih fun r hr => h r (List.mem_cons_of_mem _ hr) with rfl | hs
    · rwa [List.sum_singleton]
    · rw [List.sum_cons]
      exact hq.add hs

private theorem trades_parts {direction : K} {sizes : List K} (h : ∀ q ∈ sizes, SameSign direction q)
    (x : Position K) (price : K) :
    x.trades (sizes.map fun q => (q,price)) = x.trade sizes.sum price := by
  induction sizes generalizing x with
  | nil => simp [trades, trade, Account.trade, nextEntry]
  | cons q sizes ih =>
    have hrest := fun r hr => h r (List.mem_cons_of_mem _ hr)
    change (x.trade q price).trades (sizes.map fun q => (q,price)) = _
    rw [ih hrest, List.sum_cons]
    rcases sum_oneWay hrest with rfl | hs
    · simp [trade, Account.trade, nextEntry]
    · exact trade_split ((h q List.mem_cons_self).symm.trans hs) x price

/-- However the executions are chopped, they leave one position. -/
theorem trades_chopped {fills executions : List (K × K)} (h : Chopped fills executions)
    (x : Position K) : x.trades fills = x.trades executions := by
  induction h generalizing x with
  | nil => rfl
  | cons sizes direction price oneWay rest ih =>
    rw [trades_append, trades_parts oneWay, ih]
    rfl

end Position
end Chopping
section Episodes

/-- The fills `held` are those of the present holding: before them there were no units of
its sign, and after each of them there were. -/
structure Episode (before held : List (K × K)) : Prop where
  opened : ¬ SameSign (net before) (net (before ++ held))
  kept : ∀ n, 0 < n → n ≤ held.length → SameSign (net (before ++ held.take n)) (net (before ++ held))

/-- The entry lies between two prices paid in the direction of the units. -/
structure Bracketed (units entry : K) (held : List (K × K)) : Prop where
  low : ∃ fill ∈ held, SameSign units fill.1 ∧ fill.2 ≤ entry
  high : ∃ fill ∈ held, SameSign units fill.1 ∧ entry ≤ fill.2

/-- A fill that opens a position on its own begins an episode. -/
theorem Episode.start {before : List (K × K)} {fill : K × K}
    (opened : ¬ SameSign (net before) (net (before ++ [fill])))
    (some : SameSign (net (before ++ [fill])) (net (before ++ [fill]))) : Episode before [fill] := by
  refine ⟨opened,fun n hn hle => ?_⟩
  obtain rfl : n = 1 := Nat.le_antisymm hle hn
  exact some

private theorem Episode.extend {before held : List (K × K)} (h : Episode before held) {fill : K × K}
    (kept : SameSign (net (before ++ held)) (net (before ++ (held ++ [fill])))) :
    Episode before (held ++ [fill]) := by
  refine ⟨fun hs => h.opened (hs.trans kept.symm),fun n hn hle => ?_⟩
  rw [List.length_append, List.length_singleton] at hle
  rcases Nat.lt_or_eq_of_le hle with hlt | rfl
  · rw [List.take_append_of_le_length (Nat.le_of_lt_succ hlt)]
    exact (h.kept n hn (Nat.le_of_lt_succ hlt)).trans kept
  · rw [List.take_of_length_le (by simp)]
    exact kept.symm.trans kept

private theorem Bracketed.extend {units units' entry : K} {held : List (K × K)} (h : Bracketed units entry held)
    (same : SameSign units units') (fill : K × K) : Bracketed units' entry (held ++ [fill]) := by
  obtain ⟨low,hlow,hls,hle⟩ := h.low
  obtain ⟨high,hhigh,hhs,hge⟩ := h.high
  exact ⟨⟨low,List.mem_append_left _ hlow,same.symm.trans hls,hle⟩,
    ⟨high,List.mem_append_left _ hhigh,same.symm.trans hhs,hge⟩⟩

/-- Flat at no entry, or holding units at an entry between prices paid for them. -/
inductive EntryPaid (fills : List (K × K)) (entry : K) : Prop where
  | flat (gone : net fills = 0) (none : entry = 0) : EntryPaid fills entry
  | holding {before held : List (K × K)} (split : fills = before ++ held) (episode : Episode before held)
    (paid : Bracketed (net fills) entry held) : EntryPaid fills entry

/-- A bracketed holding has some units. -/
theorem Bracketed.sameSign_self {units entry : K} {held : List (K × K)} (h : Bracketed units entry held) :
    SameSign units units := by
  obtain ⟨low,_,hs,_⟩ := h.low
  exact hs.trans hs.symm

/-- A trade that leaves some units of the same sign belongs to the same holding. -/
theorem EntryPaid.stay {fills : List (K × K)} {entry : K} (h : EntryPaid fills entry) {fill : K × K}
    (kept : SameSign (net fills) (net (fills ++ [fill]))) : EntryPaid (fills ++ [fill]) entry := by
  cases h with
  | flat gone none =>
    rw [gone] at kept
    exact absurd kept not_sameSign_zero
  | @holding before held split episode paid =>
    subst split
    rw [List.append_assoc] at kept ⊢
    exact .holding rfl (episode.extend kept) (paid.extend kept fill)

/-- What an account holds behind some fills is their sum. -/
theorem holding_trades (fills : List (K × K)) : (Position.flat.trades fills).account.holding = net fills := by
  rw [Position.account_trades, Account.holding_trades]
  exact zero_add _

private theorem EntryPaid.idle {fills : List (K × K)} {entry : K} (h : EntryPaid fills entry) (price : K) :
    EntryPaid (fills ++ [(0,price)]) entry := by
  have hnet : net (fills ++ [(0,price)]) = net fills := by rw [net_append, add_zero]
  cases h with
  | flat gone none => exact .flat (hnet.trans gone) none
  | @holding before held split episode paid =>
    apply (EntryPaid.holding split episode paid).stay
    rw [hnet]
    exact paid.sameSign_self

private theorem EntryPaid.begin (fills : List (K × K)) {quantity : K}
    (ends : SameSign (net fills + quantity) quantity) (fresh : ¬ SameSign (net fills) quantity) (price : K) :
    EntryPaid (fills ++ [(quantity,price)]) price := by
  rw [← net_append fills quantity price] at ends
  have hepisode : Episode fills [(quantity,price)] :=
    .start (fun hs => fresh (hs.trans ends)) (ends.trans ends.symm)
  have hm := List.mem_singleton_self (quantity,price)
  exact .holding rfl hepisode ⟨⟨_,hm,ends,le_rfl⟩,⟨_,hm,ends,le_rfl⟩⟩

variable [IsStrictOrderedRing K]

/-- What a trade does to the average, with the signs worked out. -/
inductive Traded (units entry quantity price : K) : K → Prop where
  | ignored (none : quantity = 0) : Traded units entry quantity price entry
  | increased (same : SameSign units quantity) :
    Traded units entry quantity price (mean entry units price quantity)
  | opened (ends : SameSign (units + quantity) quantity) (fresh : ¬ SameSign units quantity) :
    Traded units entry quantity price price
  | closed (gone : units + quantity = 0) : Traded units entry quantity price 0
  | reduced (kept : SameSign units (units + quantity)) : Traded units entry quantity price entry

private theorem reduced_sign {units quantity : K} (hne : units + quantity ≠ 0)
    (against : ¬ SameSign (units + quantity) quantity) : SameSign units (units + quantity) := by
  rcases lt_or_gt_of_ne hne with hneg | hpos
  · have hq : 0 ≤ quantity := le_of_not_gt fun hq => against (.inr ⟨hneg,hq⟩)
    exact .inr ⟨(le_add_of_nonneg_right hq).trans_lt hneg,hneg⟩
  · have hq : quantity ≤ 0 := le_of_not_gt fun hq => against (.inl ⟨hpos,hq⟩)
    exact .inl ⟨hpos.trans_le (add_le_of_nonpos_right hq),hpos⟩

private theorem nextEntry_traded (units entry quantity price : K) :
    Traded units entry quantity price (nextEntry units entry quantity price) := by
  unfold nextEntry carried
  split_ifs with hnone hends hsame hgone
  · exact .ignored hnone
  · rw [add_sub_cancel_left]
    exact .increased hsame
  · rw [sub_zero, mean_zero_left]
    · exact .opened hends hsame
    · rcases hends with ⟨h,_⟩ | ⟨h,_⟩
      · exact h.ne'
      · exact h.ne
  · exact .closed hgone
  · exact .reduced (reduced_sign hgone hends)

/-- The new mean lies between the old one and the new price. -/
theorem Bracketed.increase {units entry quantity : K} {held : List (K × K)} (h : Bracketed units entry held)
    (same : SameSign units quantity) (price : K) :
    Bracketed (units + quantity) (mean entry units price quantity) (held ++ [(quantity,price)]) := by
  have hunits : SameSign (units + quantity) units :=
    (SameSign.add (same.trans same.symm) same).symm
  have hnew : (quantity,price) ∈ held ++ [(quantity,price)] := by simp
  constructor
  · obtain ⟨low,hlow,hls,hle⟩ := h.low
    rcases le_total low.2 price with hp | hp
    · exact ⟨low,List.mem_append_left _ hlow,hunits.trans hls,le_mean same hle hp⟩
    · exact ⟨_,hnew,hunits.trans same,le_mean same (hp.trans hle) le_rfl⟩
  · obtain ⟨high,hhigh,hhs,hge⟩ := h.high
    rcases le_total price high.2 with hp | hp
    · exact ⟨high,List.mem_append_left _ hhigh,hunits.trans hhs,mean_le same hge hp⟩
    · exact ⟨_,hnew,hunits.trans same,mean_le same (hge.trans hp) le_rfl⟩

private theorem EntryPaid.grow {fills : List (K × K)} {entry quantity : K} (h : EntryPaid fills entry)
    (same : SameSign (net fills) quantity) (price : K) :
    EntryPaid (fills ++ [(quantity,price)]) (mean entry (net fills) price quantity) := by
  cases h with
  | flat gone none =>
    rw [gone] at same
    exact absurd same not_sameSign_zero
  | @holding before held split episode paid =>
    have hkept : SameSign (net fills) (net fills + quantity) := (same.trans same.symm).add same
    rw [← net_append fills quantity price] at hkept
    have hpaid := paid.increase same price
    rw [← net_append fills quantity price] at hpaid
    subst split
    rw [List.append_assoc] at hkept hpaid ⊢
    exact .holding rfl (episode.extend hkept) hpaid

/-- The entry price stays paid for through a trade, whatever the trade does to the holding. -/
theorem EntryPaid.trade {fills : List (K × K)} {entry : K} (h : EntryPaid fills entry) (quantity price : K) :
    EntryPaid (fills ++ [(quantity,price)]) (nextEntry (net fills) entry quantity price) := by
  have ht := nextEntry_traded (net fills) entry quantity price
  generalize nextEntry (net fills) entry quantity price = next at ht ⊢
  cases ht with
  | ignored none =>
    subst none
    exact h.idle price
  | increased same => exact h.grow same price
  | opened ends fresh => exact .begin fills ends fresh price
  | closed gone => exact .flat ((net_append fills quantity price).trans gone) rfl
  | reduced kept => exact h.stay (net_append fills quantity price ▸ kept)

/-- Whatever was traded, the entry was paid for by the present holding. -/
theorem entryPaid_trades (fills : List (K × K)) : EntryPaid fills (Position.flat.trades fills).entry := by
  induction fills using List.reverseRecOn with
  | nil => exact .flat rfl rfl
  | append_singleton fills fill ih =>
    have ht := ih.trade fill.1 fill.2
    rw [← holding_trades] at ht
    rwa [Position.trades_append]

end Episodes
end PredictionMarket.Foundation.AverageCost

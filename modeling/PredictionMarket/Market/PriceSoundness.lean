import PredictionMarket.Market.PriceText

/-! When the price of a tick is the price its text denotes. The range test comes after
the 32-bit arithmetic, so a dollar amount that wraps into the range passes it. -/
namespace PredictionMarket.Market
open Foundation.Decimal MarketParser

/-- The ticks made from a price text, as the price of a level or as a hint. -/
inductive PricedBy (priceSv : ByteString) (tick : MarketTick) : Prop where
  | level (sizeSv : ByteString) (isBid : Bool) (h : levelTick priceSv sizeSv isBid = some tick)
  | hint (isBid : Bool) (h : hintTick priceSv isBid = some tick)

/-- Every tick made from the text has the price that the text denotes, at most a dollar. -/
def PriceSound (priceSv : ByteString) : Prop := ∀ tick, PricedBy priceSv tick →
  ∃ t : PriceText, t.text = priceSv ∧ tick.price.toNat = t.exact ∧ t.AtMostDollar

/-- The integer part fits the word and the price in cents does not, and its residue is
a price of the book. -/
def PriceWraps (priceSv : ByteString) : Prop := ∃ t : PriceText, t.text = priceSv ∧
  value t.whole < UInt32.size ∧ UInt32.size ≤ t.exact ∧ t.exact % UInt32.size ≤ 100

/-- The range test asks for at most a hundred cents. -/
theorem inPriceRange_iff (cents : UInt32) : inPriceRange cents = true ↔ cents.toNat ≤ 100 := by
  rw [inPriceRange, Bool.and_eq_true, decide_eq_true_iff, decide_eq_true_iff]
  simp only [UInt32.le_iff_toNat_le]
  exact ⟨fun h => h.2,fun h => ⟨Nat.zero_le _,h⟩⟩

private theorem toUInt8_price {cents : UInt32} (h : cents.toNat ≤ 100) :
    cents.toUInt8.toNat = cents.toNat := by
  rw [UInt32.toNat_toUInt8]
  exact Nat.mod_eq_of_lt (by omega)

/-- A level that becomes a tick has a price in range and a size. -/
theorem levelTick_eq_some {priceSv sizeSv : ByteString} {isBid : Bool} {tick : MarketTick}
    (h : levelTick priceSv sizeSv isBid = some tick) :
    ∃ cents size, parsePriceCents priceSv 0 = (true, cents) ∧ cents.toNat ≤ 100 ∧
      parseSizeU32 sizeSv 0 = (true, size) ∧ tick = ⟨cents.toUInt8,size,isBid⟩ := by
  unfold levelTick at h
  split at h
  · cases h
  · rename_i cents hp
    split at h
    · rename_i hr
      split at h
      · cases h
      · rename_i size hs
        exact ⟨cents,size,hp,(inPriceRange_iff cents).mp hr,hs,(Option.some.inj h).symm⟩
    · cases h

/-- A hint that becomes a tick has a price in range, and the size is one. -/
theorem hintTick_eq_some {bestSv : ByteString} {isBid : Bool} {tick : MarketTick}
    (h : hintTick bestSv isBid = some tick) :
    ∃ cents, parsePriceCents bestSv 0 = (true, cents) ∧ cents.toNat ≤ 100 ∧
      tick = ⟨cents.toUInt8,1,isBid⟩ := by
  unfold hintTick at h
  split at h
  · cases h
  · rename_i cents hp
    split at h
    · rename_i hr
      exact ⟨cents,hp,(inPriceRange_iff cents).mp (Bool.and_eq_true_iff.mp hr).1,(Option.some.inj h).symm⟩
    · cases h

/-- The price of an emitted tick is the stored number, which is in range. -/
theorem PricedBy.stored {priceSv : ByteString} {tick : MarketTick} (h : PricedBy priceSv tick) :
    ∃ cents, parsePriceCents priceSv 0 = (true, cents) ∧ cents.toNat ≤ 100 ∧
      tick.price.toNat = cents.toNat := by
  cases h with
  | level sizeSv isBid h =>
    obtain ⟨cents,size,hp,hr,_,rfl⟩ := levelTick_eq_some h
    exact ⟨cents,hp,hr,toUInt8_price hr⟩
  | hint isBid h =>
    obtain ⟨cents,hp,hr,rfl⟩ := hintTick_eq_some h
    exact ⟨cents,hp,hr,toUInt8_price hr⟩

private theorem PriceText.atMostDollar {t : PriceText} (h : t.exact ≤ 100) : t.AtMostDollar := by
  cases t with
  | cents digits _ _ => exact h
  | dollars n _ =>
    have hlt : 100 * n.number + 1/2 < (101 : Nat) :=
      (Nat.floor_lt' (by norm_num)).mp (Nat.lt_succ_of_le h)
    change n.number < 1005 / 1000
    push_cast at hlt
    linarith

/-- A text whose price does not fit the word becomes a tick at a wrong price as soon as
the residue is in range. -/
theorem PriceWraps.not_sound {priceSv : ByteString} (h : PriceWraps priceSv) :
    ¬ PriceSound priceSv := by
  obtain ⟨t,rfl,hw,hbig,hr⟩ := h
  intro hs
  have hp : parsePriceCents t.text 0 = (true, UInt32.ofNat t.exact) := by
    rw [t.parse_text, if_pos hw]
  have hres : (UInt32.ofNat t.exact).toNat ≤ 100 := by
    rw [UInt32.toNat_ofNat']
    exact hr
  have htick : levelTick t.text (ascii "1") true = some ⟨(UInt32.ofNat t.exact).toUInt8,1,true⟩ := by
    have hone : parseSizeU32 (ascii "1") 0 = (true, 1) := by decide
    simp only [levelTick, hp, hone, (inPriceRange_iff _).mpr hres, if_true]
  obtain ⟨t',ht,he,_⟩ := hs _ (.level _ _ htick)
  obtain rfl := PriceText.text_injective ht
  have hle : t'.exact ≤ 100 := by
    rw [← he, toUInt8_price hres]
    exact hres
  exact absurd (hbig.trans hle) (by decide)

/-- Ticks have the denoted price for exactly the texts whose price in cents does not wrap
around the word into the range of the book. -/
theorem price_sound_iff (priceSv : ByteString) : PriceSound priceSv ↔ ¬ PriceWraps priceSv := by
  constructor
  · intro hs hw
    exact hw.not_sound hs
  · intro hw tick htick
    obtain ⟨cents,hp,hr,hprice⟩ := htick.stored
    obtain ⟨t,ht,hfits,rfl⟩ := (PriceText.accepted_iff _ _ _).mp hp
    rw [UInt32.toNat_ofNat'] at hr hprice
    have hsmall : t.exact < UInt32.size := by
      by_contra hbig
      exact hw ⟨t,ht,hfits,not_lt.mp hbig,hr⟩
    rw [Nat.mod_eq_of_lt hsmall] at hr hprice
    exact ⟨t,ht,hprice,PriceText.atMostDollar hr⟩

/-- 42949673 dollars are 2^32 + 4 cents and are booked at four cents. -/
theorem wrapped_price_booked : ¬ PriceSound (ascii "42949673.00") := by
  refine PriceWraps.not_sound ⟨.dollars ⟨ascii "42949673",ascii "00",by decide,by decide⟩ (by decide),
    by decide,?_,?_,?_⟩
  all_goals decide +kernel

end PredictionMarket.Market

import PredictionMarket.Market.PriceSoundness

/-! Different spellings of one price. A point decides between dollars and cents, so the
spelling matters exactly where both readings of a number are prices of the book. -/
namespace PredictionMarket.Market
open Foundation.Decimal MarketParser

namespace PriceText

/-- The number as it is written, in dollars or in cents. -/
def number : PriceText → ℚ
  | cents digits _ _ => value digits
  | dollars n _ => n.number

end PriceText

/-- The text is a price text that spells this number. -/
def Spells (sv : ByteString) (v : ℚ) : Prop := ∃ t : PriceText, t.text = sv ∧ t.number = v

/-- The text is read, and as a price of the book. -/
def ReadAs (sv : ByteString) (cents : UInt32) : Prop :=
  parsePriceCents sv 0 = (true, cents) ∧ inPriceRange cents = true

namespace ReadAs

private theorem of_text {t : PriceText} {cents : UInt32} (h : ReadAs t.text cents) :
    value t.whole < UInt32.size ∧ cents = UInt32.ofNat t.exact ∧ cents.toNat ≤ 100 := by
  obtain ⟨hparse,hrange⟩ := h
  rw [t.parse_text] at hparse
  split_ifs at hparse with hw
  · exact ⟨hw,(Prod.mk.inj hparse).2.symm,(inPriceRange_iff _).mp hrange⟩
  · cases hparse

private theorem eq_of_exact {s t : PriceText} {a b : UInt32} (ha : ReadAs s.text a) (hb : ReadAs t.text b)
    (same : s.exact = t.exact) : a = b := by
  rw [ha.of_text.2.1, hb.of_text.2.1, same]

private theorem mixed {digits : ByteString} {hne : digits ≠ []} {hd : AllDigits digits} {n : Numeral}
    {hf : n.fraction ≠ []} {a b : UInt32} (ha : ReadAs (PriceText.cents digits hne hd).text a)
    (hb : ReadAs (PriceText.dollars n hf).text b) (same : n.number = value digits) :
    (a = b ↔ ¬ (value digits : ℚ) = 1) := by
  obtain ⟨hfits,rfl,hla⟩ := of_text ha
  obtain ⟨_,rfl,hlb⟩ := of_text hb
  have hexact : PriceText.exact (.dollars n hf) = 100 * value digits := by
    rw [PriceText.exact, same, Nat.floor_eq_iff (by positivity)]
    push_cast
    constructor <;> linarith
  change value digits < UInt32.size at hfits
  have hcents : PriceText.exact (.cents digits hne hd) = value digits := rfl
  rw [hcents, UInt32.toNat_ofNat_of_lt' hfits] at hla
  have hfits' : 100 * value digits < UInt32.size := by
    rw [UInt32.size]
    omega
  rw [hexact, UInt32.toNat_ofNat_of_lt' hfits'] at hlb
  rw [hcents, hexact, ← UInt32.toNat_inj, UInt32.toNat_ofNat_of_lt' hfits, UInt32.toNat_ofNat_of_lt' hfits',
    Nat.cast_eq_one]
  omega

end ReadAs

private theorem point_mem (n : Numeral) (hf : n.fraction ≠ []) : dotByte ∈ (PriceText.dollars n hf).text :=
  List.mem_append_right _ List.mem_cons_self

/-- Two spellings of one number are one price of the book, unless the number is 1 and one
of the spellings has a point: it is a cent without and a dollar with it. -/
theorem same_level_iff (sv tv : ByteString) (a b : UInt32) (v : ℚ) (ha : ReadAs sv a) (hb : ReadAs tv b)
    (hs : Spells sv v) (ht : Spells tv v) :
    a = b ↔ ¬ (v = 1 ∧ ¬ (dotByte ∈ sv ↔ dotByte ∈ tv)) := by
  obtain ⟨s,rfl,rfl⟩ := hs
  obtain ⟨t,rfl,same⟩ := ht
  cases s with
  | cents digits hne hd =>
    have hs : dotByte ∉ (PriceText.cents digits hne hd).text := PriceText.dot_not_digit hd
    cases t with
    | cents digits' hne' hd' =>
      have ht : dotByte ∉ (PriceText.cents digits' hne' hd').text := PriceText.dot_not_digit hd'
      have hexact : value digits' = value digits := Nat.cast_injective same
      refine iff_of_true (ha.eq_of_exact hb hexact.symm) fun h => h.2 (iff_of_false hs ht)
    | dollars n hf =>
      rw [ha.mixed hb same]
      exact not_congr (iff_self_and.mpr fun _ h => hs (h.mpr (point_mem n hf)))
  | dollars n hf =>
    cases t with
    | cents digits hne hd =>
      have ht : dotByte ∉ (PriceText.cents digits hne hd).text := PriceText.dot_not_digit hd
      rw [eq_comm, hb.mixed ha same.symm]
      change ¬ (value digits : ℚ) = 1 ↔ _
      rw [show (value digits : ℚ) = n.number from same]
      exact not_congr (iff_self_and.mpr fun _ h => ht (h.mp (point_mem n hf)))
    | dollars n' hf' =>
      have hnumber : n'.number = n.number := same
      have hexact : PriceText.exact (.dollars n hf) = PriceText.exact (.dollars n' hf') := by
        rw [PriceText.exact, PriceText.exact, hnumber]
      refine iff_of_true (ha.eq_of_exact hb hexact) fun h => h.2 (iff_of_true ?_ ?_)
      · exact point_mem n hf
      · exact point_mem n' hf'

/-- The price 1 of the venue, without and with a fraction. -/
theorem one_on_two_levels : ¬ ∀ (sv tv : ByteString) (a b : UInt32) (v : ℚ), ReadAs sv a → ReadAs tv b →
    Spells sv v → Spells tv v → a = b := by
  intro h
  have hs : Spells (ascii "1") 1 := ⟨.cents (ascii "1") (by decide) (by decide),rfl,by decide +kernel⟩
  have ht : Spells (ascii "1.0") 1 :=
    ⟨.dollars ⟨ascii "1",ascii "0",by decide,by decide⟩ (by decide),rfl,by decide +kernel⟩
  exact absurd (h (ascii "1") (ascii "1.0") 1 100 1 ⟨by decide,by decide⟩ ⟨by decide,by decide⟩ hs ht) (by decide)

theorem half_on_one_level : (50 : UInt32) = 50 ↔
    ¬ ((1 / 2 : ℚ) = 1 ∧ ¬ (dotByte ∈ ascii ".5" ↔ dotByte ∈ ascii "0.500")) := by
  apply same_level_iff (ascii ".5") (ascii "0.500")
  · exact ⟨by decide,by decide⟩
  · exact ⟨by decide,by decide⟩
  · exact ⟨.dollars ⟨ascii "",ascii "5",by decide,by decide⟩ (by decide),rfl,by decide +kernel⟩
  · exact ⟨.dollars ⟨ascii "0",ascii "500",by decide,by decide⟩ (by decide),rfl,by decide +kernel⟩

end PredictionMarket.Market

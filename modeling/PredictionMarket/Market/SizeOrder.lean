import PredictionMarket.Market.SizeText

/-! What the stored sizes say about the numbers they come from: when they keep the order
of the numbers, and when a stored zero, which deletes a level, means the number zero. -/
namespace PredictionMarket.Market
open Foundation.Decimal MarketParser

/-- Where `b` is read `a` is read too, and nothing larger is stored for it. -/
def RespectsOrder (a b : ByteString) : Prop := ∀ sizeB, parseSizeU32 b 0 = (true, sizeB) →
  ∃ sizeA, parseSizeU32 a 0 = (true, sizeA) ∧ sizeA ≤ sizeB

/-- Millionths of one number against whole units of the other, which is stored as less. -/
def Inverted (va vb : ℚ) : Prop :=
  va.den ≠ 1 ∧ vb.den = 1 ∧ ⌊vb⌋₊ < UInt32.size ∧ ⌊vb⌋₊ < ⌊10^6 * va⌋₊

/-- Within one unit, and from whole units up to millionths, larger numbers are stored as larger ones. -/
theorem units_mono {va vb : ℚ} (h : va ≤ vb) (hb : 0 ≤ vb) (same : va.den = 1 ∨ vb.den ≠ 1) :
    units va ≤ units vb := by
  unfold units
  split_ifs with h1 h2
  · exact Nat.floor_mono h
  · apply (Nat.floor_mono h).trans
    apply Nat.floor_mono
    linarith
  · exact absurd same (by tauto)
  · apply Nat.floor_mono
    linarith

private theorem ofNat_le {m n : Nat} (hm : m < UInt32.size) (hn : n < UInt32.size) :
    UInt32.ofNat m ≤ UInt32.ofNat n ↔ m ≤ n := by
  rw [UInt32.le_iff_toNat_le, UInt32.toNat_ofNat_of_lt' hm, UInt32.toNat_ofNat_of_lt' hn]

private theorem respectsOrder_iff (a b : SizeText) : RespectsOrder a.text b.text ↔
    (units b.number < UInt32.size → units a.number ≤ units b.number) := by
  by_cases hb : units b.number < UInt32.size
  · have hparse : parseSizeU32 b.text 0 = (true, UInt32.ofNat (units b.number)) :=
      (b.parse_text 0).trans (if_pos hb)
    rw [RespectsOrder, hparse, a.parse_text]
    constructor
    · intro h _
      obtain ⟨sizeA,hA,hle⟩ := h _ rfl
      split_ifs at hA with ha
      · rw [← (Prod.mk.inj hA).2] at hle
        exact (ofNat_le ha hb).mp hle
      · cases hA
    · rintro h sizeB ⟨⟩
      have ha := (h hb).trans_lt hb
      exact ⟨_,if_pos ha,(ofNat_le ha hb).mpr (h hb)⟩
  · have hparse : parseSizeU32 b.text 0 = (false, 0) := (b.parse_text 0).trans (if_neg hb)
    refine iff_of_true (fun sizeB h => ?_) fun h => absurd h hb
    rw [hparse] at h
    cases h

/-- The reader keeps the order of two numbers unless it stores the smaller one in millionths
and the larger one in too few whole units; spellings of one number it treats alike. -/
theorem size_order (a b : SizeText) :
    (a.number ≤ b.number → (RespectsOrder a.text b.text ↔ ¬ Inverted a.number b.number)) ∧
      (a.number = b.number → ∀ out, parseSizeU32 a.text out = parseSizeU32 b.text out) := by
  constructor
  · intro h
    rw [respectsOrder_iff]
    by_cases same : a.number.den = 1 ∨ b.number.den ≠ 1
    · refine iff_of_true (fun _ => units_mono h b.number_nonneg same) ?_
      rintro ⟨ha,hb,_⟩
      exact same.elim ha fun hne => hne hb
    · rw [not_or, not_not] at same
      rw [units, units, if_neg same.1, if_pos same.2, Inverted]
      simp only [same, ne_eq, not_false_eq_true, true_and, not_and, Nat.not_lt]
  · intro h out
    rw [a.parse_text, b.parse_text, h]

private theorem ten_digits : AllDigits (ascii "10") := by decide

def tenAndHalf : SizeText := .decimal ⟨ascii "10",ascii "5",ten_digits,by decide⟩

def eleven : SizeText := .integer (ascii "11") (by decide) (by decide)

/-- 10.5 is stored as ten and a half million, and 11 as eleven. -/
theorem tenAndHalf_above_eleven : ¬ ∀ a b : SizeText, a.number ≤ b.number → RespectsOrder a.text b.text := by
  intro h
  have hle : tenAndHalf.number ≤ eleven.number := by decide +kernel
  have hhalf : parseSizeU32 tenAndHalf.text 0 = (true, 10500000) := by decide
  have heleven : parseSizeU32 eleven.text 0 = (true, 11) := by decide
  obtain ⟨sizeA,hA,hsize⟩ := h tenAndHalf eleven hle 11 heleven
  rw [hhalf] at hA
  cases hA
  exact absurd hsize (by decide)

def elevenQuarter : SizeText := .decimal ⟨ascii "11",ascii "25",by decide,by decide⟩

def elevenPoint : SizeText := .decimal ⟨ascii "11",ascii "00",by decide,by decide⟩

theorem decimals_ordered : RespectsOrder tenAndHalf.text elevenQuarter.text ∧
    parseSizeU32 eleven.text 0 = parseSizeU32 elevenPoint.text 0 := by
  have hle : tenAndHalf.number ≤ elevenQuarter.number := by decide +kernel
  have heq : eleven.number = elevenPoint.number := by decide +kernel
  have hden : elevenQuarter.number.den ≠ 1 := by decide +kernel
  refine ⟨((size_order tenAndHalf elevenQuarter).1 hle).mpr ?_,(size_order eleven elevenPoint).2 heq 0⟩
  exact fun h => hden h.2.1

/-- A stored zero comes from a numeral with a digit that denotes zero. -/
def DeletesAtZero (sv : ByteString) : Prop := ∀ out, parseSizeU32 sv out = (true, 0) →
  ∃ t : SizeText, t.text = sv ∧ t.HasDigit ∧ t.number = 0

private theorem units_eq_zero_iff {v : ℚ} (h : 0 ≤ v) : units v = 0 ↔ v < 1 / 10^6 := by
  unfold units
  split_ifs with hd
  · have hv : ((v.num.toNat : Nat) : ℚ) = v := by
      have hnum : (v.num : ℚ) = v := (Rat.den_eq_one_iff v).mp hd
      have hnn : 0 ≤ v.num := Rat.num_nonneg.mpr h
      rw [← hnum]
      exact_mod_cast Int.toNat_of_nonneg hnn
    rw [← hv, Nat.floor_natCast]
    constructor
    · intro hz
      rw [hz]
      norm_num
    · intro hlt
      have : ((v.num.toNat : Nat) : ℚ) < (1 : Nat) := hlt.trans (by norm_num)
      have := Nat.cast_lt.mp this
      omega
  · rw [Nat.floor_eq_zero, lt_div_iff₀' (by norm_num)]

/-- Zero is stored for the numbers below a millionth. -/
theorem stored_zero_iff (sv : ByteString) (out : UInt32) : parseSizeU32 sv out = (true, 0) ↔
    ∃ t : SizeText, t.text = sv ∧ t.number < 1 / 10^6 := by
  rw [SizeText.accepted_iff]
  constructor
  · rintro ⟨t,rfl,hu,hzero⟩
    refine ⟨t,rfl,(units_eq_zero_iff t.number_nonneg).mp ?_⟩
    have hn := congrArg UInt32.toNat hzero
    rw [UInt32.toNat_ofNat_of_lt' hu] at hn
    exact hn.symm
  · rintro ⟨t,rfl,hlt⟩
    have hzero := (units_eq_zero_iff t.number_nonneg).mpr hlt
    refine ⟨t,rfl,?_,?_⟩
    · rw [hzero, UInt32.size]
      decide
    · rw [hzero]
      rfl

/-- A point with nothing around it. -/
def lonePoint : SizeText := .decimal ⟨[],[],by decide,by decide⟩

private theorem hasDigit_or (t : SizeText) : t.HasDigit ∨ t = lonePoint := by
  cases t with
  | integer _ _ _ => exact .inl trivial
  | decimal n =>
    by_cases h : n.whole ≠ [] ∨ n.fraction ≠ []
    · exact .inl h
    · rw [not_or, not_not, not_not] at h
      exact .inr (congrArg SizeText.decimal (Numeral.ext h.1 h.2))

/-- The only zeros that are stored for something else are those of a lone point and of a
positive number below a millionth. -/
theorem deletion_sound_iff (sv : ByteString) : DeletesAtZero sv ↔
    ¬ (sv = ascii "." ∨ ∃ t : SizeText, t.text = sv ∧ 0 < t.number ∧ t.number < 1 / 10^6) := by
  constructor
  · rintro h (rfl | ⟨t,rfl,hpos,hlt⟩)
    · have hnumber : lonePoint.number < 1 / 10^6 := by decide +kernel
      obtain ⟨t,ht,hdigit,_⟩ := h 0 ((stored_zero_iff _ 0).mpr ⟨lonePoint,rfl,hnumber⟩)
      obtain rfl : t = lonePoint := SizeText.text_injective ht
      exact hdigit.elim (absurd rfl) (absurd rfl)
    · obtain ⟨t',ht,_,hzero⟩ := h 0 ((stored_zero_iff _ 0).mpr ⟨t,rfl,hlt⟩)
      rw [SizeText.text_injective ht] at hzero
      exact hpos.ne' hzero
  · intro h out hp
    obtain ⟨t,rfl,hlt⟩ := (stored_zero_iff sv out).mp hp
    rw [not_or] at h
    refine ⟨t,rfl,?_,?_⟩
    · apply (hasDigit_or t).resolve_right
      rintro rfl
      exact h.1 rfl
    · by_contra hne
      exact h.2 ⟨t,rfl,lt_of_le_of_ne t.number_nonneg (Ne.symm hne),hlt⟩

/-- A tenth of a millionth deletes its level. -/
theorem tinySize_deletes : ¬ ∀ sv : ByteString, DeletesAtZero sv := by
  intro h
  have hparse : parseSizeU32 (ascii "0.0000001") 0 = (true, 0) := by decide
  obtain ⟨t,ht,_,hzero⟩ := h _ 0 hparse
  have htiny : t = .decimal ⟨ascii "0",ascii "0000001",by decide,by decide⟩ := SizeText.text_injective ht
  rw [htiny] at hzero
  exact absurd hzero (by decide +kernel)

end PredictionMarket.Market

import PredictionMarket.Foundation.CheckedWord
import PredictionMarket.Market.SizeText

/-! The number readers against their grammars: which byte strings each of them accepts,
what it stores for them, and why the scaling of a size never wraps on the way. -/
namespace PredictionMarket.Market
open Foundation.Decimal
open Foundation.CheckedWord

/-- The price reader accepts its grammar and nothing else, rounds half up if the result
fits the word, and leaves the output alone on rejection. -/
theorem price_grammar (sv : ByteString) (out : UInt32) :
    ((MarketParser.parsePriceCents sv out).1 = true ↔
      ∃ t : PriceText, t.text = sv ∧ value t.whole < UInt32.size) ∧
    ((MarketParser.parsePriceCents sv out).1 = false → (MarketParser.parsePriceCents sv out).2 = out) ∧
    ∀ t : PriceText, t.text = sv → (MarketParser.parsePriceCents sv out).1 = true →
      t.exact < UInt32.size → (MarketParser.parsePriceCents sv out).2.toNat = t.exact := by
  refine ⟨⟨?_,?_⟩,PriceText.rejected,?_⟩
  · intro h
    obtain ⟨t,ht,hw,-⟩ := (PriceText.accepted_iff sv out _).mp (Prod.ext h rfl)
    exact ⟨t,ht,hw⟩
  · rintro ⟨t,rfl,hw⟩
    rw [t.parse_text, if_pos hw]
  · rintro t rfl h hfits
    rw [t.parse_text] at h ⊢
    split_ifs at h ⊢
    exact UInt32.toNat_ofNat_of_lt' hfits

/-- A third decimal of five rounds up. -/
theorem half_cent_up : (MarketParser.parsePriceCents (ascii "0.575") 0).2.toNat = 58 := by
  have htext : (PriceText.dollars ⟨ascii "0",ascii "575",by decide,by decide⟩ (by decide)).text =
      ascii "0.575" := by decide
  have hexact : (PriceText.dollars ⟨ascii "0",ascii "575",by decide,by decide⟩ (by decide)).exact = 58 := by
    decide +kernel
  rw [← hexact]
  exact (price_grammar (ascii "0.575") 0).2.2 _ htext (by decide +kernel) (by decide +kernel)

namespace MarketParser

/-- A digit of the fraction, which must not be below the digit zero. -/
def digit32? (c : UInt8) : Option UInt32 := if zeroByte ≤ c then some (c - zeroByte).toUInt32 else none

/-- One round of the first scaling loop. -/
def takeDigit? (acc : UInt32) (c : UInt8) : Option UInt32 := do
  let shifted ← mul32? acc 10
  let d ← digit32? c
  add32? shifted d

/-- The scaling loops of a size, with no result if an operation wraps. -/
def scaleFraction? (fracPart : ByteString) : Option UInt32 := do
  let taken ← (fracPart.take 6).foldlM takeDigit? 0
  (List.replicate (6 - fracPart.length) ()).foldlM (fun acc _ => mul32? acc 10) taken

/-- The reader of a size, with no result if an operation of the scaling wraps or its
last narrowing loses a bit. -/
def parseSizeU32? (sv : ByteString) (out : UInt32) : Option (Bool × UInt32) :=
  if sv.isEmpty then some (false, out)
  else match sv.idxOf? dotByte with
    | none => some (parseU32 sv out)
    | some dot =>
      let intPart := sv.take dot
      let fracPart := sv.drop (dot + 1)
      match parseWhole intPart with
      | (false, _) => some (false, out)
      | (true, whole) =>
        if fracPart.isEmpty then some (true, whole)
        else match scanFraction fracPart false with
          | none => some (false, out)
          | some false => some (true, whole)
          | some true => do
            let fracScaled ← scaleFraction? fracPart
            let millionths ← mul64? whole.toUInt64 1000000
            let scaled ← add64? millionths fracScaled.toUInt64
            if scaled > 4294967295 then some (false, out)
            else do
              let size ← narrow? scaled
              some (true, size)

/-- The word holds a number of at most `k` decimal digits. -/
def AtMostDigits (k : Nat) (acc : UInt32) : Prop := acc.toNat < 10^k

private theorem AtMostDigits.room {k : Nat} {acc : UInt32} (h : AtMostDigits k acc) (hk : k < 6) :
    acc.toNat * (10 : UInt32).toNat + 9 < UInt32.size := by
  have hpow : 10^k ≤ 10^5 := Nat.pow_le_pow_right (by decide) (by omega)
  change acc.toNat < 10^k at h
  change acc.toNat * 10 + 9 < 4294967296
  omega

private theorem AtMostDigits.pad {k : Nat} {acc : UInt32} (h : AtMostDigits k acc) (hk : k < 6) :
    mul32? acc 10 = some (acc * 10) ∧ AtMostDigits (k + 1) (acc * 10) := by
  have hroom := h.room hk
  refine ⟨mul32?_eq (by omega),?_⟩
  rw [AtMostDigits, toNat_mul32 (by omega), pow_succ]
  exact Nat.mul_lt_mul_of_pos_right h (by decide)

private theorem digit32?_eq {c : UInt8} (hc : isDigit c = true) :
    digit32? c = some (c - zeroByte).toUInt32 ∧ (c - zeroByte).toUInt32.toNat ≤ 9 := by
  refine ⟨if_pos (zeroByte_le hc),?_⟩
  rw [toNat_digit hc]
  exact digit_le hc

private theorem AtMostDigits.take {k : Nat} {acc : UInt32} {c : UInt8} (h : AtMostDigits k acc)
    (hk : k < 6) (hc : isDigit c = true) :
    takeDigit? acc c = some (acc * 10 + (c - zeroByte).toUInt32) ∧
      AtMostDigits (k + 1) (acc * 10 + (c - zeroByte).toUInt32) := by
  have hroom := h.room hk
  obtain ⟨hmul,-⟩ := h.pad hk
  obtain ⟨hdigit,hnine⟩ := digit32?_eq hc
  have hshift : (acc * 10).toNat = acc.toNat * (10 : UInt32).toNat := toNat_mul32 (by omega)
  have hten : (10 : UInt32).toNat = 10 := rfl
  constructor
  · rw [takeDigit?, hmul, hdigit]
    exact add32?_eq (by omega)
  · change acc.toNat < 10^k at h
    rw [AtMostDigits, toNat_add32 (by omega), hshift, hten, pow_succ]
    omega

private theorem scaleFraction?_eq {fracPart : ByteString} (hd : AllDigits fracPart) :
    scaleFraction? fracPart = some (scaleFraction fracPart) ∧
      AtMostDigits 6 (scaleFraction fracPart) := by
  -- Both loops together put six digits into the word.
  have hlen : 0 + (fracPart.take 6).length + (6 - fracPart.length) = 6 := by
    rw [List.length_take]
    omega
  have hzero : AtMostDigits 0 0 := Nat.zero_lt_one
  obtain ⟨htake,htaken⟩ := foldlM_checked (fracPart.take 6)
    (fun k acc c hc hk hacc => hacc.take hk (hd c (List.mem_of_mem_take hc))) (by omega) hzero
  obtain ⟨hpad,hpadded⟩ := foldlM_checked (List.replicate (6 - fracPart.length) ())
    (fun k acc _ _ hk hacc => hacc.pad hk) (by rw [List.length_replicate]; omega) htaken
  rw [List.length_replicate, hlen] at hpadded
  constructor
  · rw [scaleFraction?, htake]
    exact hpad
  · exact hpadded

private theorem millionths_fit (whole : UInt32) {frac : UInt32} (h : AtMostDigits 6 frac) :
    mul64? whole.toUInt64 1000000 = some (whole.toUInt64 * 1000000) ∧
      add64? (whole.toUInt64 * 1000000) frac.toUInt64 = some (whole.toUInt64 * 1000000 + frac.toUInt64) := by
  have hroom := millionths_room whole
  refine ⟨mul64?_eq (by omega),add64?_eq ?_⟩
  rw [toNat_mul64 (by omega), UInt32.toNat_toUInt64 frac]
  exact (Nat.add_lt_add_left h _).trans_le hroom

/-- The scaling of a size runs as written: no operation on the way wraps. -/
theorem parseSizeU32?_eq (sv : ByteString) (out : UInt32) :
    parseSizeU32? sv out = some (parseSizeU32 sv out) := by
  rw [parseSizeU32?, parseSizeU32]
  by_cases hsv : sv.isEmpty = true
  · rw [if_pos hsv, if_pos hsv]
  rw [if_neg hsv, if_neg hsv]
  cases sv.idxOf? dotByte with
  | none => rfl
  | some dot =>
    simp only
    generalize sv.drop (dot + 1) = fracPart
    obtain ⟨read,whole⟩ := parseWhole (sv.take dot)
    cases read with
    | false => rfl
    | true =>
      by_cases hf : fracPart.isEmpty = true
      · simp only [if_pos hf]
      simp only [if_neg hf]
      cases hscan : scanFraction fracPart false with
      | none => rfl
      | some anyNonzero =>
        cases anyNonzero with
        | false => rfl
        | true =>
          obtain ⟨hfrac,hsix⟩ := scaleFraction?_eq (digits_of_scan hscan)
          obtain ⟨hmul,hadd⟩ := millionths_fit whole hsix
          change (scaleFraction? fracPart).bind _ = _
          rw [hfrac, Option.bind_some]
          change (mul64? whole.toUInt64 1000000).bind _ = _
          rw [hmul, Option.bind_some]
          change (add64? _ _).bind _ = _
          rw [hadd, Option.bind_some]
          by_cases hlimit : whole.toUInt64 * 1000000 + (scaleFraction fracPart).toUInt64 > 4294967295
          · simp only [if_pos hlimit]
          · have hfits := narrow?_eq (not_not.mp (mt over_limit_iff.mpr hlimit))
            simp only [if_neg hlimit, hfits, Option.bind_eq_bind, Option.bind_some]

end MarketParser

namespace SizeText
open MarketParser

/-- The fraction has no digit other than zero. -/
def ZeroFraction (n : Numeral) : Prop := ∀ b ∈ n.fraction, b = zeroByte

instance (n : Numeral) : Decidable (ZeroFraction n) := List.decidableBAll _ n.fraction

/-- What a size must satisfy to be stored: the integer part fits the word, and so does
the whole part of the number of millionths unless the fraction is zero. -/
def Fits : SizeText → Prop
  | integer digits _ _ => value digits < UInt32.size
  | decimal n => value n.whole < UInt32.size ∧ (ZeroFraction n ∨ ⌊10^6 * n.number⌋₊ < UInt32.size)

/-- What is stored for it: the integer part if the fraction is zero, millionths otherwise. -/
def scaled : SizeText → Nat
  | integer digits _ _ => value digits
  | decimal n => if ZeroFraction n then value n.whole else ⌊10^6 * n.number⌋₊

private theorem zeroFraction_iff (n : Numeral) : ZeroFraction n ↔ value n.fraction = 0 := by
  rw [← not_iff_not, ← ne_eq (value n.fraction), ← any_nonzero_iff n.fractionDigits, List.any_eq_true,
    ZeroFraction]
  simp

private theorem units_number (t : SizeText) : units t.number = t.scaled := by
  cases t with
  | integer digits _ _ => exact units_natCast (value digits)
  | decimal n =>
    change units n.number = if ZeroFraction n then value n.whole else ⌊10^6 * n.number⌋₊
    by_cases hzero : value n.fraction = 0
    · rw [units_whole hzero, if_pos ((zeroFraction_iff n).mpr hzero)]
    · rw [units_scaled hzero, if_neg (mt (zeroFraction_iff n).mp hzero), n.floor_shift]

/-- A size fits exactly if what is stored for it does. -/
theorem fits_iff (t : SizeText) : t.Fits ↔ t.scaled < UInt32.size := by
  cases t with
  | integer digits _ _ => exact Iff.rfl
  | decimal n =>
    rw [Fits, scaled]
    by_cases hzero : ZeroFraction n
    · rw [if_pos hzero]
      exact ⟨And.left,fun h => ⟨h,.inl hzero⟩⟩
    · rw [if_neg hzero]
      refine ⟨fun h => h.2.resolve_left hzero,fun h => ⟨?_,.inr h⟩⟩
      rw [n.floor_shift] at h
      omega

end SizeText

/-- The size reader accepts its grammar and nothing else, stores the integer part or
the millionths rounded down, never wraps on the way, and leaves the output alone on
rejection. A text without any digit, the single point, is no exception. -/
theorem size_grammar (sv : ByteString) (out : UInt32) :
    ((MarketParser.parseSizeU32 sv out).1 = true ↔ ∃ t : SizeText, t.text = sv ∧ t.Fits) ∧
    (∀ t : SizeText, t.text = sv → (MarketParser.parseSizeU32 sv out).1 = true →
      (MarketParser.parseSizeU32 sv out).2.toNat = t.scaled) ∧
    MarketParser.parseSizeU32? sv out = some (MarketParser.parseSizeU32 sv out) ∧
    ((MarketParser.parseSizeU32 sv out).1 = false → (MarketParser.parseSizeU32 sv out).2 = out) := by
  refine ⟨⟨?_,?_⟩,?_,MarketParser.parseSizeU32?_eq sv out,SizeText.rejected⟩
  · intro h
    obtain ⟨t,ht,hu,-⟩ := (SizeText.accepted_iff sv out _).mp (Prod.ext h rfl)
    rw [t.units_number] at hu
    exact ⟨t,ht,t.fits_iff.mpr hu⟩
  · rintro ⟨t,rfl,hfits⟩
    rw [t.parse_text, t.units_number, if_pos (t.fits_iff.mp hfits)]
  · rintro t rfl h
    rw [t.parse_text, t.units_number] at h ⊢
    split_ifs at h ⊢ with hu
    exact UInt32.toNat_ofNat_of_lt' hu

/-- The largest decimal size, with digits after the sixth that are dropped. -/
theorem largest_size : (MarketParser.parseSizeU32 (ascii "4294.9672959") 0).2.toNat = 4294967295 := by
  have htext : (SizeText.decimal ⟨ascii "4294",ascii "9672959",by decide,by decide⟩).text =
      ascii "4294.9672959" := by decide
  have hscaled : (SizeText.decimal ⟨ascii "4294",ascii "9672959",by decide,by decide⟩).scaled = 4294967295 := by
    decide +kernel
  rw [← hscaled]
  exact (size_grammar (ascii "4294.9672959") 0).2.1 _ htext (by decide +kernel)

end PredictionMarket.Market

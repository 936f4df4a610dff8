import PredictionMarket.Foundation.CheckedWord
import PredictionMarket.Market.PriceText

/-! Which size texts are accepted and what is stored for them. A number without a
fractional part is stored as it is and any other in millionths, both if they fit the
word, so the result depends on the number only and not on its spelling. -/
namespace PredictionMarket.Market
open Foundation.Decimal
open Foundation.CheckedWord

namespace MarketParser

private theorem scanFraction_eq (fracPart : ByteString) (anyNonzero : Bool) :
    scanFraction fracPart anyNonzero =
      if AllDigits fracPart then some (anyNonzero || fracPart.any (· != zeroByte)) else none := by
  induction fracPart generalizing anyNonzero with
  | nil => simp [scanFraction, AllDigits]
  | cons c rest ih =>
    rw [scanFraction]
    by_cases hc : isDigit c = true
    · simp only [hc, if_true, ih, AllDigits, List.forall_mem_cons, true_and, List.any_cons, Bool.or_assoc]
    · simp [hc, AllDigits]

/-- A scan that passes has seen nothing but digits. -/
theorem digits_of_scan {fracPart : ByteString} {anyNonzero found : Bool}
    (h : scanFraction fracPart anyNonzero = some found) : AllDigits fracPart := by
  by_contra hd
  rw [scanFraction_eq, if_neg hd] at h
  cases h

private theorem digit_eq_zero_iff {c : UInt8} (h : isDigit c = true) : digit c = 0 ↔ c = zeroByte := by
  have hc := isDigit_iff.mp h
  rw [← UInt8.toNat_inj, digit]
  change _ ↔ c.toNat = 48
  omega

/-- A digit other than zero is there exactly if the fraction is not zero. -/
theorem any_nonzero_iff {fracPart : ByteString} (h : AllDigits fracPart) :
    fracPart.any (· != zeroByte) = true ↔ value fracPart ≠ 0 := by
  induction fracPart with
  | nil => simp
  | cons c rest ih =>
    rw [AllDigits, List.forall_mem_cons] at h
    have hpow : 10^rest.length ≠ 0 := (Nat.pow_pos (by decide)).ne'
    rw [List.any_cons, Bool.or_eq_true, ih h.2, bne_iff_ne, value_cons, ne_eq, ← digit_eq_zero_iff h.1]
    simp only [ne_eq, Nat.add_eq_zero_iff, Nat.mul_eq_zero, hpow, or_false]
    exact not_and_or.symm

private theorem take_loop (m : Nat) {xs : ByteString} (hd : AllDigits xs) :
    xs.foldl (fun acc c => acc * 10 + (c - zeroByte).toUInt32) (UInt32.ofNat m) =
      UInt32.ofNat (xs.foldl (fun m c => 10 * m + digit c) m) := by
  induction xs generalizing m with
  | nil => rfl
  | cons c xs ih =>
    rw [AllDigits, List.forall_mem_cons] at hd
    rw [List.foldl_cons, List.foldl_cons, ← ih _ hd.2, toUInt32_digit hd.1, UInt32.ofNat_add,
      UInt32.ofNat_mul, UInt32.mul_comm]
    rfl

private theorem pad_loop (k m : Nat) :
    (List.replicate k ()).foldl (fun acc _ => acc * 10) (UInt32.ofNat m) = UInt32.ofNat (m * 10^k) := by
  induction k generalizing m with
  | zero =>
    rw [Nat.pow_zero, Nat.mul_one]
    rfl
  | succ k ih =>
    have hone : UInt32.ofNat m * 10 = UInt32.ofNat (m * 10) := (UInt32.ofNat_mul m 10).symm
    rw [List.replicate_succ, List.foldl_cons, hone, ih, pow_succ, Nat.mul_assoc, Nat.mul_comm 10]

private theorem scaleFraction_eq (n : Numeral) :
    scaleFraction n.fraction = UInt32.ofNat (value (n.leading 6)) := by
  have hdigits : AllDigits (n.fraction.take 6) := fun c hc => n.fractionDigits c (List.mem_of_mem_take hc)
  rw [scaleFraction, n.value_leading]
  have h0 := take_loop 0 hdigits
  change (n.fraction.take 6).foldl _ 0 = _ at h0
  rw [h0, pad_loop]
  rfl

/-- In 64 bits there is room for the millionths of any integer part. -/
theorem millionths_room (whole : UInt32) :
    whole.toUInt64.toNat * (1000000 : UInt64).toNat + 10^6 ≤ UInt64.size := by
  have hwhole := whole.toNat_lt
  rw [UInt32.toNat_toUInt64]
  change whole.toNat * 1000000 + 1000000 ≤ 18446744073709551616
  omega

private theorem scaled_toNat {whole frac : Nat} (hw : whole < UInt32.size) (hf : frac < 10^6) :
    ((UInt32.ofNat whole).toUInt64 * 1000000 + (UInt32.ofNat frac).toUInt64).toNat =
      whole * 10^6 + frac := by
  have hroom := millionths_room (UInt32.ofNat whole)
  have hfrac : (UInt32.ofNat frac).toUInt64.toNat = frac := by
    rw [UInt32.toNat_toUInt64, UInt32.toNat_ofNat_of_lt' (by rw [UInt32.size]; omega)]
  have hmul := toNat_mul64 (a := (UInt32.ofNat whole).toUInt64) (b := 1000000) (by omega)
  rw [toNat_add64 (by omega), hmul, hfrac, UInt32.toNat_toUInt64, UInt32.toNat_ofNat_of_lt' hw]
  rfl

/-- The limit of the 64-bit value is the size of the word. -/
theorem over_limit_iff {scaled : UInt64} : scaled > 4294967295 ↔ ¬ scaled.toNat < UInt32.size := by
  rw [gt_iff_lt, UInt64.lt_iff_toNat_lt]
  change 4294967295 < _ ↔ ¬ _ < 4294967296
  omega

private theorem narrowed (scaled : UInt64) (out : UInt32) :
    (if scaled > 4294967295 then (false, out) else (true, scaled.toUInt32)) =
      if scaled.toNat < UInt32.size then (true, UInt32.ofNat scaled.toNat) else (false, out) := by
  by_cases h : scaled.toNat < UInt32.size
  · rw [if_neg (mt over_limit_iff.mp (not_not_intro h)), if_pos h]
    rfl
  · rw [if_pos (over_limit_iff.mpr h), if_neg h]

/-- What a size is stored as: a whole number in units, any other number in millionths. -/
def units (v : ℚ) : Nat := if v.den = 1 then ⌊v⌋₊ else ⌊10^6 * v⌋₊

/-- A whole number is counted in whole units. -/
theorem units_natCast (m : Nat) : units (m : ℚ) = m := by
  rw [units, if_pos (Rat.den_natCast _), Nat.floor_natCast]

/-- A numeral whose fraction is zero is counted in whole units. -/
theorem units_whole {n : Numeral} (h : value n.fraction = 0) : units n.number = value n.whole := by
  have hf := n.floor_shift 0
  rw [pow_zero, one_mul] at hf
  rw [units, if_pos (n.den_eq_one_iff.mpr h), hf, Numeral.leading, List.take_zero, value_nil]
  omega

/-- A numeral whose fraction is not zero is counted in millionths, cut behind the sixth digit. -/
theorem units_scaled {n : Numeral} (h : value n.fraction ≠ 0) :
    units n.number = value n.whole * 10^6 + value (n.leading 6) := by
  rw [units, if_neg (n.den_eq_one_iff.not.mpr h), n.floor_shift]

private theorem leading_lt (n : Numeral) : value (n.leading 6) < 10^6 := by
  have hd : AllDigits (n.leading 6) := fun c hc =>
    (n.fractionDigits.append (.zeros 6)) c (List.mem_of_mem_take hc)
  have hlen : (n.leading 6).length = 6 := by
    rw [Numeral.leading, List.length_take, List.length_append, List.length_replicate]
    omega
  have := value_lt hd
  rwa [hlen] at this

private theorem parseSizeU32_numeral (n : Numeral) (out : UInt32) :
    parseSizeU32 (n.whole ++ dotByte :: n.fraction) out =
      if units n.number < UInt32.size then (true, UInt32.ofNat (units n.number)) else (false, out) := by
  have hne : ¬ (n.whole ++ dotByte :: n.fraction).isEmpty = true := by simp
  have htake : (n.whole ++ dotByte :: n.fraction).take n.whole.length = n.whole := by simp
  have hdrop : (n.whole ++ dotByte :: n.fraction).drop (n.whole.length + 1) = n.fraction := by
    rw [← List.drop_drop, List.drop_left, List.drop_one, List.tail_cons]
  rw [parseSizeU32, if_neg hne, PriceText.idxOf_point]
  simp only [htake, hdrop, parseWhole_eq, n.wholeDigits, true_and]
  by_cases hw : value n.whole < UInt32.size
  · simp only [if_pos hw]
    by_cases hf : n.fraction = []
    · have hzero : value n.fraction = 0 := by rw [hf, value_nil]
      rw [if_pos (List.isEmpty_iff.mpr hf), units_whole hzero, if_pos hw]
    · rw [if_neg (by simpa using hf), scanFraction_eq, if_pos n.fractionDigits, Bool.false_or]
      by_cases hzero : value n.fraction = 0
      · have hany : n.fraction.any (· != zeroByte) = false := by
          rw [← Bool.not_eq_true, any_nonzero_iff n.fractionDigits, not_not]
          exact hzero
        rw [hany, units_whole hzero, if_pos hw]
      · rw [(any_nonzero_iff n.fractionDigits).mpr hzero, units_scaled hzero]
        have hscaled := scaled_toNat hw (leading_lt n)
        rw [← scaleFraction_eq] at hscaled
        rw [← hscaled]
        exact narrowed _ out
  · have hlarge : ¬ units n.number < UInt32.size := by
      by_cases hzero : value n.fraction = 0
      · rwa [units_whole hzero]
      · rw [units_scaled hzero]
        omega
    simp only [if_neg hw, if_neg hlarge]

end MarketParser

/-- The two forms of a size: digits, and a point with digits or nothing on either side. -/
inductive SizeText where
  | integer (digits : ByteString) (nonempty : digits ≠ []) (valid : AllDigits digits)
  | decimal (n : Numeral)

namespace SizeText
open MarketParser

def text : SizeText → ByteString
  | integer digits _ _ => digits
  | decimal n => n.whole ++ dotByte :: n.fraction

/-- The number that the text denotes. -/
def number : SizeText → ℚ
  | integer digits _ _ => value digits
  | decimal n => n.number

def HasDigit : SizeText → Prop
  | integer _ _ _ => True
  | decimal n => n.whole ≠ [] ∨ n.fraction ≠ []

/-- A size text has no sign. -/
theorem number_nonneg (t : SizeText) : 0 ≤ t.number := by
  cases t with
  | integer digits _ _ => exact Nat.cast_nonneg _
  | decimal n => exact n.number_nonneg

/-- A text denotes one number. -/
theorem text_injective {s t : SizeText} (h : s.text = t.text) : s = t := by
  cases s with
  | integer digits _ hd =>
    cases t with
    | integer digits' _ _ =>
      cases h
      rfl
    | decimal n =>
      change digits = n.whole ++ dotByte :: n.fraction at h
      exact absurd (by simp [h]) (PriceText.dot_not_digit hd)
  | decimal n =>
    cases t with
    | integer digits _ hd =>
      change n.whole ++ dotByte :: n.fraction = digits at h
      exact absurd (by simp [← h]) (PriceText.dot_not_digit hd)
    | decimal n' =>
      obtain rfl := PriceText.point_injective h
      rfl

/-- Reading a size text stores the units of its number, if they fit the word. -/
theorem parse_text (t : SizeText) (out : UInt32) : parseSizeU32 t.text out =
    if units t.number < UInt32.size then (true, UInt32.ofNat (units t.number)) else (false, out) := by
  cases t with
  | integer digits hne hd =>
    have hdot : digits.idxOf? dotByte = none := List.idxOf?_eq_none_iff.mpr (PriceText.dot_not_digit hd)
    change parseSizeU32 digits out = _
    rw [parseSizeU32, if_neg (by simpa using hne), hdot, number, units_natCast]
    simp only [parseU32_eq, ne_eq, hne, not_false_eq_true, hd, true_and]
  | decimal n => exact parseSizeU32_numeral n out

/-- Nothing but a size text is accepted. -/
theorem of_accepted {sv : ByteString} {out size : UInt32} (h : parseSizeU32 sv out = (true, size)) :
    ∃ t : SizeText, t.text = sv := by
  have hne : ¬ sv.isEmpty = true := by
    intro he
    rw [parseSizeU32, if_pos he] at h
    cases h
  rw [parseSizeU32, if_neg hne] at h
  cases hi : sv.idxOf? dotByte with
  | none =>
    rw [hi] at h
    simp only [parseU32_eq] at h
    split_ifs at h with hc
    · exact ⟨.integer sv hc.1 hc.2.1,rfl⟩
    · cases h
  | some dot =>
    rw [hi] at h
    simp only [parseWhole_eq] at h
    by_cases hw : AllDigits (sv.take dot) ∧ value (sv.take dot) < UInt32.size
    · rw [if_pos hw] at h
      have hd : AllDigits (sv.drop (dot + 1)) := by
        by_contra hd
        have hf : ¬ (sv.drop (dot + 1)).isEmpty = true := by
          intro hf
          rw [List.isEmpty_iff.mp hf] at hd
          exact hd (List.forall_mem_nil _)
        simp only [if_neg hf, scanFraction_eq, if_neg hd] at h
        cases h
      exact ⟨.decimal ⟨sv.take dot,sv.drop (dot + 1),hw.1,hd⟩,(idxOf_dot hi).1.symm⟩
    · rw [if_neg hw] at h
      cases h

/-- A rejected text leaves the caller's variable alone. -/
theorem rejected {sv : ByteString} {out : UInt32} (h : (parseSizeU32 sv out).1 = false) :
    (parseSizeU32 sv out).2 = out := by
  revert h
  fun_cases parseSizeU32 sv out with
  | case2 _ _ =>
    rw [parseU32_eq]
    split_ifs <;> simp
  | _ => simp

/-- The exact language of the size reader, and what it stores. -/
theorem accepted_iff (sv : ByteString) (out size : UInt32) : parseSizeU32 sv out = (true, size) ↔
    ∃ t : SizeText, t.text = sv ∧ units t.number < UInt32.size ∧ size = UInt32.ofNat (units t.number) := by
  constructor
  · intro h
    obtain ⟨t,rfl⟩ := of_accepted h
    rw [parse_text] at h
    split_ifs at h with hu
    · exact ⟨t,rfl,hu,(Prod.mk.inj h).2.symm⟩
    · cases h
  · rintro ⟨t,rfl,hu,rfl⟩
    rw [parse_text, if_pos hu]

end SizeText
end PredictionMarket.Market

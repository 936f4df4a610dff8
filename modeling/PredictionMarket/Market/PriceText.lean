import PredictionMarket.Market.NumberText
import Mathlib.Data.List.TakeWhile

/-! Which number texts are accepted and what is stored for them. The exact price in
cents rounds half up; the stored one is its residue modulo the 32-bit word. -/
namespace PredictionMarket.Market
open Foundation.Decimal

namespace MarketParser

private theorem takeWhile_digits {sv : ByteString} (h : AllDigits sv) : sv.takeWhile isDigit = sv :=
  List.takeWhile_eq_self_iff.mpr h

private theorem fromChars_digits {sv : ByteString} (out : UInt32) (hne : sv ≠ []) (h : AllDigits sv) :
    fromChars sv out = if value sv < UInt32.size then ⟨.ok,sv.length,UInt32.ofNat (value sv)⟩
      else ⟨.resultOutOfRange,sv.length,out⟩ := by
  rw [fromChars, takeWhile_digits h, if_neg (by simpa using hne)]

private theorem digits_of_consumed {sv : ByteString} {out : UInt32} (hne : sv ≠ [])
    (h : (fromChars sv out).ptr = sv.length) : AllDigits sv := by
  have hlen : (sv.takeWhile isDigit).length = sv.length := by
    simp only [fromChars] at h
    split_ifs at h
    · exact absurd (List.length_eq_zero_iff.mp h.symm) hne
    · exact h
    · exact h
  rw [← (List.takeWhile_prefix isDigit).eq_of_length hlen]
  exact fun b hb => List.mem_takeWhile_imp hb

/-- A 32-bit reading takes a nonempty text of digits that does not overflow, and
leaves the caller's variable alone otherwise. -/
theorem parseU32_eq (sv : ByteString) (out : UInt32) :
    parseU32 sv out = if sv ≠ [] ∧ AllDigits sv ∧ value sv < UInt32.size
      then (true, UInt32.ofNat (value sv)) else (false, out) := by
  by_cases hne : sv = []
  · simp [parseU32, hne]
  rw [parseU32, if_neg (by simpa using hne)]
  by_cases h : AllDigits sv
  · rw [fromChars_digits 0 hne h]
    by_cases hv : value sv < UInt32.size <;> simp [hne, h, hv]
  · have hp : (fromChars sv 0).ptr ≠ sv.length := fun hp => h (digits_of_consumed hne hp)
    exact (if_pos (.inr hp)).trans (if_neg fun hc => h hc.2.1).symm

/-- An empty integer part is the numeral zero. -/
theorem parseWhole_eq (intPart : ByteString) :
    parseWhole intPart = if AllDigits intPart ∧ value intPart < UInt32.size
      then (true, UInt32.ofNat (value intPart)) else (false, 0) := by
  cases intPart with
  | nil =>
    have hempty : AllDigits [] ∧ value [] < UInt32.size :=
      ⟨List.forall_mem_nil _,by simp [UInt32.size]⟩
    rw [if_pos hempty]
    rfl
  | cons b rest =>
    change parseU32 (b :: rest) 0 = _
    rw [parseU32_eq]
    simp

/-- Cutting a text at its first point. -/
theorem idxOf_dot {sv : ByteString} {dot : Nat} (h : sv.idxOf? dotByte = some dot) :
    sv = sv.take dot ++ dotByte :: sv.drop (dot + 1) ∧ dotByte ∉ sv.take dot := by
  obtain ⟨hlt,hget,hbefore⟩ := List.idxOf?_eq_some_iff.mp h
  constructor
  · rw [← hget, List.getElem_cons_drop, List.take_append_drop]
  · intro hm
    obtain ⟨j,hj,he⟩ := List.getElem_of_mem hm
    rw [List.length_take] at hj
    rw [List.getElem_take] at he
    exact hbefore j (by omega) he

/-- The digit at a position of the fraction padded with zeros. -/
private def padded (fracPart : ByteString) (idx : Nat) : UInt8 := fracPart.getD idx zeroByte

/-- Digits do not lie below zero. -/
theorem zeroByte_le {c : UInt8} (h : isDigit c = true) : zeroByte ≤ c :=
  UInt8.le_iff_toNat_le.mpr (isDigit_iff.mp h).1

/-- The word of a digit has its value. -/
theorem toNat_digit {c : UInt8} (h : isDigit c = true) : (c - zeroByte).toUInt32.toNat = digit c := by
  rw [UInt8.toNat_toUInt32, UInt8.toNat_sub_of_le _ _ (zeroByte_le h)]
  rfl

/-- The word of a digit is the value read as a word. -/
theorem toUInt32_digit {c : UInt8} (h : isDigit c = true) :
    (c - zeroByte).toUInt32 = UInt32.ofNat (digit c) := by
  rw [← toNat_digit h, UInt32.ofNat_toNat]

private theorem digitOrZero_eq (fracPart : ByteString) (idx : Nat) :
    digitOrZero fracPart idx = if isDigit (padded fracPart idx)
      then UInt32.ofNat (digit (padded fracPart idx)) else 10 := by
  rw [digitOrZero, padded, List.getD_eq_getElem?_getD]
  cases fracPart[idx]? with
  | none => rfl
  | some c =>
    by_cases hc : isDigit c = true
    · simp only [hc, Option.getD_some, if_true, toUInt32_digit hc]
    · simp [hc]

private theorem digitOrZero_gt (fracPart : ByteString) (idx : Nat) :
    digitOrZero fracPart idx > 9 ↔ isDigit (padded fracPart idx) = false := by
  rw [digitOrZero_eq]
  by_cases h : isDigit (padded fracPart idx) = true
  · have hd := digit_le h
    rw [if_pos h, gt_iff_lt, UInt32.lt_iff_toNat_lt, UInt32.toNat_ofNat_of_lt' (by rw [UInt32.size]; omega)]
    simp [h, hd]
  · simp [h]

private theorem roundingDigit_eq (fracPart : ByteString) :
    roundingDigit fracPart = if isDigit (padded fracPart 2)
      then some (UInt32.ofNat (digit (padded fracPart 2))) else none := by
  rw [roundingDigit, padded, List.getD_eq_getElem?_getD]
  cases fracPart[2]? with
  | none => rfl
  | some c =>
    by_cases hc : isDigit c = true
    · simp only [hc, Option.getD_some, if_true, toUInt32_digit hc]
    · simp [hc]

private theorem rounded (whole d0 d1 d2 : Nat) (h : d2 ≤ 9) :
    (if UInt32.ofNat d2 ≥ 5
      then UInt32.ofNat whole * 100 + (UInt32.ofNat d0 * 10 + UInt32.ofNat d1) + 1
      else UInt32.ofNat whole * 100 + (UInt32.ofNat d0 * 10 + UInt32.ofNat d1)) =
      UInt32.ofNat (whole * 100 + d0 * 10 + d1 + (d2 + 5) / 10) := by
  have hd : UInt32.ofNat d2 ≥ 5 ↔ 5 ≤ d2 := by
    rw [ge_iff_le, UInt32.le_iff_toNat_le, UInt32.toNat_ofNat_of_lt' (by rw [UInt32.size]; omega)]
    rfl
  have hsum : UInt32.ofNat whole * 100 + (UInt32.ofNat d0 * 10 + UInt32.ofNat d1) =
      UInt32.ofNat (whole * 100 + d0 * 10 + d1) := by
    simp only [UInt32.ofNat_add, UInt32.ofNat_mul, add_assoc]
    rfl
  rw [hsum]
  by_cases h5 : 5 ≤ d2
  · rw [if_pos (hd.mpr h5), show (d2 + 5) / 10 = 1 by omega, UInt32.ofNat_add (_ + d1)]
    rfl
  · rw [if_neg (mt hd.mp h5), show (d2 + 5) / 10 = 0 by omega, Nat.add_zero]

private theorem fraction_digits (fracPart : ByteString) :
    AllDigits fracPart ↔ isDigit (padded fracPart 0) = true ∧ isDigit (padded fracPart 1) = true ∧
      isDigit (padded fracPart 2) = true ∧ (fracPart.drop 3).all isDigit = true := by
  match fracPart with
  | [] => simp [AllDigits, padded, isDigit_zeroByte]
  | [a] => simp [AllDigits, padded, isDigit_zeroByte]
  | [a, b] => simp [AllDigits, padded, isDigit_zeroByte]
  | a :: b :: c :: rest => simp [AllDigits, padded]

/-- With a point the text must be a numeral whose integer part fits the word. -/
theorem parsePriceCents_point {sv : ByteString} {dot : Nat}
    (h : sv.idxOf? dotByte = some dot) (out : UInt32) :
    parsePriceCents sv out = if sv.drop (dot + 1) ≠ [] ∧ AllDigits (sv.take dot) ∧
        AllDigits (sv.drop (dot + 1)) ∧ value (sv.take dot) < UInt32.size
      then (true, UInt32.ofNat (value (sv.take dot) * 100 + digit (padded (sv.drop (dot + 1)) 0) * 10 +
        digit (padded (sv.drop (dot + 1)) 1) + (digit (padded (sv.drop (dot + 1)) 2) + 5) / 10))
      else (false, out) := by
  have hne : ¬ sv.isEmpty = true := by
    intro he
    rw [List.isEmpty_iff.mp he] at h
    cases h
  rw [parsePriceCents, if_neg hne, h]
  simp only []
  generalize sv.take dot = intPart
  generalize sv.drop (dot + 1) = fracPart
  rw [parseWhole_eq, roundingDigit_eq]
  by_cases hf : fracPart = []
  · simp [hf]
  rw [if_neg (by simpa using hf)]
  by_cases hw : AllDigits intPart ∧ value intPart < UInt32.size
  · rw [if_pos hw]
    simp only [digitOrZero_gt]
    by_cases hd : AllDigits fracPart
    · obtain ⟨h0,h1,h2,h3⟩ := (fraction_digits fracPart).mp hd
      simp only [h0, h1, h2, h3, digitOrZero_eq, if_true, hf, hw, hd, ne_eq, not_false_eq_true,
        and_self, Bool.true_eq_false, or_self, if_false]
      rw [rounded _ _ _ _ (digit_le h2)]
    · refine Eq.trans ?_ (if_neg fun hc => hd hc.2.2.1).symm
      by_cases h01 : isDigit (padded fracPart 0) = false ∨ isDigit (padded fracPart 1) = false
      · exact if_pos h01
      · rw [if_neg h01]
        rw [not_or, Bool.not_eq_false, Bool.not_eq_false] at h01
        by_cases h2 : isDigit (padded fracPart 2) = true
        · simp only [if_pos h2]
          exact if_neg fun h3 => hd ((fraction_digits fracPart).mpr ⟨h01.1,h01.2,h2,h3⟩)
        · simp only [if_neg h2]
  · refine Eq.trans ?_ (if_neg fun hc => hw ⟨hc.2.1,hc.2.2.2⟩).symm
    simp only [if_neg hw]

private theorem leading_three (n : Numeral) :
    n.leading 3 = [padded n.fraction 0, padded n.fraction 1, padded n.fraction 2] := by
  unfold Numeral.leading
  match n.fraction with
  | [] => rfl
  | [a] => rfl
  | [a, b] => rfl
  | a :: b :: c :: rest => rfl

end MarketParser

/-- The two forms of a price: an integer number of cents, and a decimal number of
dollars with something after the point. -/
inductive PriceText where
  | cents (digits : ByteString) (nonempty : digits ≠ []) (valid : AllDigits digits)
  | dollars (n : Numeral) (nonempty : n.fraction ≠ [])

namespace PriceText
open MarketParser

def text : PriceText → ByteString
  | cents digits _ _ => digits
  | dollars n _ => n.whole ++ dotByte :: n.fraction

/-- The denoted price in cents, rounded half up. -/
def exact : PriceText → Nat
  | cents digits _ _ => value digits
  | dollars n _ => ⌊100 * n.number + 1/2⌋₊

/-- The digits that are read as one 32-bit number. -/
def whole : PriceText → ByteString
  | cents digits _ _ => digits
  | dollars n _ => n.whole

/-- A price in dollars stays below one dollar and half a cent. -/
def AtMostDollar : PriceText → Prop
  | cents digits _ _ => value digits ≤ 100
  | dollars n _ => n.number < 1005 / 1000

/-- Digits have no point among them. -/
theorem dot_not_digit {bytes : ByteString} (h : AllDigits bytes) : dotByte ∉ bytes := by
  intro hm
  exact absurd (h _ hm) (by decide)

/-- The point is found behind the whole part. -/
theorem idxOf_point (n : Numeral) :
    (n.whole ++ dotByte :: n.fraction).idxOf? dotByte = some n.whole.length := by
  refine List.idxOf?_eq_some_iff.mpr ⟨by simp,by simp,?_⟩
  intro j hj he
  rw [List.getElem_append_left hj] at he
  exact dot_not_digit n.wholeDigits (he ▸ List.getElem_mem hj)

/-- A text with a point is one numeral. -/
theorem point_injective {n n' : Numeral}
    (h : n.whole ++ dotByte :: n.fraction = n'.whole ++ dotByte :: n'.fraction) : n = n' := by
  have hi := congrArg (List.idxOf? dotByte) h
  rw [idxOf_point, idxOf_point] at hi
  obtain ⟨hw,hf⟩ := List.append_inj h (Option.some.inj hi)
  exact Numeral.ext hw (List.cons.inj hf).2

/-- A text denotes one price. -/
theorem text_injective {s t : PriceText} (h : s.text = t.text) : s = t := by
  cases s with
  | cents digits _ hd =>
    cases t with
    | cents digits' _ _ =>
      cases h
      rfl
    | dollars n _ =>
      change digits = n.whole ++ dotByte :: n.fraction at h
      exact absurd (by simp [h]) (dot_not_digit hd)
  | dollars n _ =>
    cases t with
    | cents digits _ hd =>
      change n.whole ++ dotByte :: n.fraction = digits at h
      exact absurd (by simp [← h]) (dot_not_digit hd)
    | dollars n' _ =>
      change n.whole ++ dotByte :: n.fraction = n'.whole ++ dotByte :: n'.fraction at h
      obtain rfl := point_injective h
      rfl

private theorem exact_dollars (n : Numeral) :
    ⌊100 * n.number + 1/2⌋₊ = value n.whole * 100 + digit (padded n.fraction 0) * 10 +
      digit (padded n.fraction 1) + (digit (padded n.fraction 2) + 5) / 10 := by
  have h := n.round_shift 2
  norm_num [leading_three, value_cons] at h
  norm_num
  omega

/-- Reading a price text succeeds unless its integer part overflows, and stores the
residue of the denoted price. -/
theorem parse_text (t : PriceText) (out : UInt32) :
    parsePriceCents t.text out = if value t.whole < UInt32.size
      then (true, UInt32.ofNat t.exact) else (false, out) := by
  cases t with
  | cents digits hne hd =>
    have hdot : digits.idxOf? dotByte = none := List.idxOf?_eq_none_iff.mpr (dot_not_digit hd)
    change parsePriceCents digits out = _
    rw [parsePriceCents, if_neg (by simpa using hne), hdot]
    simp only [parseU32_eq]
    by_cases hv : value digits < UInt32.size
    · simp only [hne, hd, hv, ne_eq, not_false_eq_true, and_self, if_true, whole, exact]
    · simp only [hv, and_false, if_false, whole]
  | dollars n hne =>
    have hi := idxOf_point n
    have htake : (n.whole ++ dotByte :: n.fraction).take n.whole.length = n.whole := by simp
    have hdrop : (n.whole ++ dotByte :: n.fraction).drop (n.whole.length + 1) = n.fraction := by
      rw [← List.drop_drop, List.drop_left, List.drop_one, List.tail_cons]
    change parsePriceCents (n.whole ++ dotByte :: n.fraction) out = _
    rw [parsePriceCents_point hi, htake, hdrop]
    simp only [hne, n.wholeDigits, n.fractionDigits, ne_eq, not_false_eq_true, true_and, whole, exact,
      exact_dollars]

/-- Nothing but a price text is accepted. -/
theorem of_accepted {sv : ByteString} {out c : UInt32} (h : parsePriceCents sv out = (true, c)) :
    ∃ t : PriceText, t.text = sv := by
  cases hi : sv.idxOf? dotByte with
  | none =>
    have hne : ¬ sv.isEmpty = true := by
      intro he
      rw [parsePriceCents, if_pos he] at h
      cases h
    rw [parsePriceCents, if_neg hne, hi] at h
    simp only [parseU32_eq] at h
    by_cases hc : sv ≠ [] ∧ AllDigits sv ∧ value sv < UInt32.size
    · exact ⟨.cents sv hc.1 hc.2.1,rfl⟩
    · rw [if_neg hc] at h
      cases h
  | some dot =>
    rw [parsePriceCents_point hi] at h
    split_ifs at h with hc
    · exact ⟨.dollars ⟨_,_,hc.2.1,hc.2.2.1⟩ hc.1,(idxOf_dot hi).1.symm⟩
    · cases h

/-- A rejected text leaves the caller's variable alone. -/
theorem rejected {sv : ByteString} {out : UInt32} (h : (parsePriceCents sv out).1 = false) :
    (parsePriceCents sv out).2 = out := by
  revert h
  fun_cases parsePriceCents sv out <;> simp

/-- The exact language of the price reader, and what it stores. -/
theorem accepted_iff (sv : ByteString) (out c : UInt32) : parsePriceCents sv out = (true, c) ↔
    ∃ t : PriceText, t.text = sv ∧ value t.whole < UInt32.size ∧ c = UInt32.ofNat t.exact := by
  constructor
  · intro h
    obtain ⟨t,rfl⟩ := of_accepted h
    rw [parse_text] at h
    split_ifs at h with hv
    · exact ⟨t,rfl,hv,(Prod.mk.inj h).2.symm⟩
    · cases h
  · rintro ⟨t,rfl,hv,rfl⟩
    rw [parse_text, if_pos hv]

end PriceText
end PredictionMarket.Market

import PredictionMarket.Foundation.Decimal
import PredictionMarket.Market.OrderBook

/-! The number readers of `market_parser.hpp`. Each takes the text and the caller's
output variable, and returns the flag with what the variable holds afterwards. The
ticks made of these numbers follow. -/
namespace PredictionMarket.Market
open Foundation.Decimal

abbrev ByteString := List UInt8

/-- The bytes of an ASCII literal. -/
def ascii (literal : String) : ByteString := literal.toList.map fun c => UInt8.ofNat c.toNat

namespace MarketParser

def dotByte : UInt8 := 46

inductive Errc where
  | ok
  | invalidArgument
  | resultOutOfRange
  deriving DecidableEq

/-- `std::from_chars_result` with the pointer as an offset, and the output variable. -/
structure FromCharsResult where
  ec : Errc
  ptr : Nat
  value : UInt32

/-- `std::from_chars` in base ten for an unsigned type: the longest run of digits, no
sign and no blanks; the variable is written on success only. -/
def fromChars (sv : ByteString) (out : UInt32) : FromCharsResult :=
  let digits := sv.takeWhile isDigit
  if digits.isEmpty then ⟨.invalidArgument,0,out⟩
  else if value digits < UInt32.size then ⟨.ok,digits.length,UInt32.ofNat (value digits)⟩
  else ⟨.resultOutOfRange,digits.length,out⟩

def parseU32 (sv : ByteString) (out : UInt32) : Bool × UInt32 :=
  if sv.isEmpty then (false, out)
  else
    let res := fromChars sv 0
    if res.ec ≠ .ok ∨ res.ptr ≠ sv.length then (false, out)
    else (true, res.value)

/-- The integer part before a point; an empty one is zero. -/
def parseWhole (intPart : ByteString) : Bool × UInt32 :=
  if intPart.isEmpty then (true, 0) else parseU32 intPart 0

/-- The validating scan of the fraction of a size; it returns `any_nonzero`. -/
def scanFraction : ByteString → Bool → Option Bool
  | [], anyNonzero => some anyNonzero
  | c :: rest, anyNonzero =>
    if isDigit c then scanFraction rest (anyNonzero || c != zeroByte) else none

/-- Scale the fraction of a size to six digits: take, then pad. -/
def scaleFraction (fracPart : ByteString) : UInt32 :=
  let taken := (fracPart.take 6).foldl (fun acc c => acc * 10 + (c - zeroByte).toUInt32) 0
  (List.replicate (6 - fracPart.length) ()).foldl (fun acc _ => acc * 10) taken

def parseSizeU32 (sv : ByteString) (out : UInt32) : Bool × UInt32 :=
  if sv.isEmpty then (false, out)
  else match sv.idxOf? dotByte with
    | none => parseU32 sv out
    | some dot =>
      let intPart := sv.take dot
      let fracPart := sv.drop (dot + 1)
      match parseWhole intPart with
      | (false, _) => (false, out)
      | (true, whole) =>
        if fracPart.isEmpty then (true, whole)
        else match scanFraction fracPart false with
          | none => (false, out)
          | some false => (true, whole)
          | some true =>
            let scaled := whole.toUInt64 * 1000000 + (scaleFraction fracPart).toUInt64
            if scaled > 4294967295 then (false, out) else (true, scaled.toUInt32)

/-- The lambda `digit_or_zero`; ten marks an invalid character. -/
def digitOrZero (fracPart : ByteString) (idx : Nat) : UInt32 :=
  match fracPart[idx]? with
  | none => 0
  | some c => if isDigit c then (c - zeroByte).toUInt32 else 10

/-- The third digit decides the rounding; it must be a digit if it is there. -/
def roundingDigit (fracPart : ByteString) : Option UInt32 :=
  match fracPart[2]? with
  | none => some 0
  | some c => if isDigit c then some (c - zeroByte).toUInt32 else none

def parsePriceCents (sv : ByteString) (outCents : UInt32) : Bool × UInt32 :=
  if sv.isEmpty then (false, outCents)
  else match sv.idxOf? dotByte with
    | none =>
      match parseU32 sv 0 with
      | (false, _) => (false, outCents)
      | (true, cents) => (true, cents)
    | some dot =>
      let intPart := sv.take dot
      let fracPart := sv.drop (dot + 1)
      if fracPart.isEmpty then (false, outCents)
      else match parseWhole intPart with
        | (false, _) => (false, outCents)
        | (true, whole) =>
          let d0 := digitOrZero fracPart 0
          let d1 := digitOrZero fracPart 1
          if d0 > 9 ∨ d1 > 9 then (false, outCents)
          else match roundingDigit fracPart with
            | none => (false, outCents)
            | some rounding =>
              if (fracPart.drop 3).all isDigit then
                let cents := whole * 100 + (d0 * 10 + d1)
                (true, if rounding ≥ 5 then cents + 1 else cents)
              else (false, outCents)

def inPriceRange (cents : UInt32) : Bool :=
  LimitOrderBook.kMinPrice.toUInt32 ≤ cents && cents ≤ LimitOrderBook.kMaxPrice.toUInt32

/-- The end of each walker's loop body: the tick of a level or an entry, if both of its
texts pass. -/
def levelTick (priceSv sizeSv : ByteString) (isBid : Bool) : Option MarketTick :=
  match parsePriceCents priceSv 0 with
  | (false, _) => none
  | (true, priceCents) =>
    if inPriceRange priceCents then
      match parseSizeU32 sizeSv 0 with
      | (false, _) => none
      | (true, size) => some ⟨priceCents.toUInt8,size,isBid⟩
    else none

/-- The tick of a `best_bid` or `best_ask` hint: size one, and never at price zero. -/
def hintTick (bestSv : ByteString) (isBid : Bool) : Option MarketTick :=
  match parsePriceCents bestSv 0 with
  | (false, _) => none
  | (true, bestCents) =>
    if inPriceRange bestCents && bestCents != 0 then some ⟨bestCents.toUInt8,1,isBid⟩ else none

end MarketParser
end PredictionMarket.Market

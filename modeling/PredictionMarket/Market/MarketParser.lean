import PredictionMarket.Market.Json

/-! `market_parser.hpp`. The walkers push ticks as they go and discard what `push`
returns; a loop variable initialised from an error element throws, which leaves a
`noexcept` function through `std::terminate`. -/
namespace PredictionMarket.Market

/-- How a call ends: with its result, or with the process. -/
inductive Verdict where
  | returned (ok : Bool)
  | terminated
  deriving DecidableEq

/-- A verdict that returns is not the end of the process. -/
theorem Verdict.returned_ne_terminated (ok : Bool) : Verdict.returned ok ≠ .terminated := by
  intro h
  cases h

/-- How a loop body ends: by `continue` or its last statement, or by leaving the function. -/
inductive Flow where
  | next
  | leave (verdict : Verdict)

structure MarketParser where
  initialized : Bool

namespace MarketParser

def kMaxPayloadBytes : Nat := 65536

/-- The constructor, given whether the parser's memory could be allocated. -/
def construct (allocated : Bool) : MarketParser := ⟨allocated⟩

section Walkers
variable {Q : Type}

/-- A range-based `for` over an array, followed by `return true`. -/
def forEach (body : Json → Q → Flow × Q) : List (Option Json) → Q → Verdict × Q
  | [], q => (.returned true, q)
  | none :: _, q => (.terminated, q)
  | some v :: rest, q =>
    match body v q with
    | (.next, q) => forEach body rest q
    | (.leave verdict, q) => (verdict, q)

variable (push : Q → MarketTick → Bool × Q)

/-- `(void)out_queue.push(tick)`, where there is a tick. -/
def emit (tick? : Option MarketTick) (q : Q) : Q :=
  match tick? with
  | none => q
  | some tick => (push q tick).2

/-- Find an optional array field and loop over it. -/
def walkField (body : Json → Q → Flow × Q) (obj : Object) (field : ByteString) (q : Q) :
    Verdict × Object × Q :=
  match obj.findFieldUnordered field with
  | (.noSuchField, obj) => (.returned true, obj, q)
  | (.error, obj) => (.returned false, obj, q)
  | (.success v, obj) =>
    match v.getArray with
    | none => (.returned false, obj, q)
    | some elements =>
      let (verdict, q) := forEach body elements q
      (verdict, obj, q)

/-- A level of the internal feed: an array of exactly two strings. -/
def levelBody (isBid : Bool) (levelVal : Json) (q : Q) : Flow × Q :=
  match levelVal.getArray with
  | none => (.leave (.returned false), q)
  | some [] => (.leave (.returned false), q)
  | some (price :: it) =>
    match price.bind Json.getString with
    | none => (.next, q)
    | some priceSv =>
      match it with
      | [] => (.leave (.returned false), q)
      | size :: it =>
        match size.bind Json.getString with
        | none => (.next, q)
        | some sizeSv =>
          match it with
          | _ :: _ => (.leave (.returned false), q)
          | [] => (.next, emit push (levelTick priceSv sizeSv isBid) q)

def parseLevels (obj : Object) (field : ByteString) (isBid : Bool) (q : Q) : Verdict × Object × Q :=
  walkField (levelBody push isBid) obj field q

/-- A level of a book snapshot: an object with a price and a size. -/
def objectLevelBody (isBid : Bool) (levelVal : Json) (q : Q) : Flow × Q :=
  match levelVal.getObject with
  | none => (.leave (.returned false), q)
  | some levelObj =>
    match levelObj.stringField (ascii "price") with
    | (none, _) => (.next, q)
    | (some priceSv, levelObj) =>
      match levelObj.stringField (ascii "size") with
      | (none, _) => (.next, q)
      | (some sizeSv, _) => (.next, emit push (levelTick priceSv sizeSv isBid) q)

def parseObjectLevels (obj : Object) (field : ByteString) (isBid : Bool) (q : Q) :
    Verdict × Object × Q := walkField (objectLevelBody push isBid) obj field q

/-- The side of an entry; any other text is skipped. -/
def sideIsBid (sideSv : ByteString) : Option Bool :=
  if sideSv = ascii "BUY" then some true
  else if sideSv = ascii "SELL" then some false
  else none

/-- The top-of-book hints of an entry whose own tick was pushed. -/
def emitHints (changeObj : Object) (q : Q) : Q :=
  let (bestBidSv, changeObj) := changeObj.stringField (ascii "best_bid")
  let q := emit push (bestBidSv.bind fun sv => hintTick sv true) q
  let (bestAskSv, _) := changeObj.stringField (ascii "best_ask")
  emit push (bestAskSv.bind fun sv => hintTick sv false) q

/-- An entry of a price change: its own tick, then its hints. -/
def changeBody (changeVal : Json) (q : Q) : Flow × Q :=
  match changeVal.getObject with
  | none => (.leave (.returned false), q)
  | some changeObj =>
    match changeObj.stringField (ascii "price") with
    | (none, _) => (.next, q)
    | (some priceSv, changeObj) =>
      match changeObj.stringField (ascii "size") with
      | (none, _) => (.next, q)
      | (some sizeSv, changeObj) =>
        match changeObj.stringField (ascii "side") with
        | (none, _) => (.next, q)
        | (some sideSv, changeObj) =>
          match sideIsBid sideSv with
          | none => (.next, q)
          | some isBid =>
            match levelTick priceSv sizeSv isBid with
            | none => (.next, q)
            | some tick => (.next, emitHints push changeObj (push q tick).2)

def parsePriceChange (obj : Object) (q : Q) : Verdict × Object × Q :=
  walkField (changeBody push) obj (ascii "price_changes") q

/-- The bids and then the asks of a message, through one of the two level walkers. -/
def parseSides (walk : Object → ByteString → Bool → Q → Verdict × Object × Q) (obj : Object) (q : Q) :
    Verdict × Q :=
  match walk obj (ascii "bids") true q with
  | (.returned true, obj, q) =>
    match walk obj (ascii "asks") false q with
    | (verdict, _, q) => (verdict, q)
  | (verdict, _, q) => (verdict, q)

def parseMessageObject (obj : Object) (q : Q) : Verdict × Q :=
  match obj.findFieldUnordered (ascii "event_type") with
  | (.error, _) => (.returned false, q)
  | (.noSuchField, obj) => parseSides (parseLevels push) obj q
  | (.success v, obj) =>
    match v.getString with
    | none => parseSides (parseLevels push) obj q
    | some eventType =>
      if eventType = ascii "book" then parseSides (parseObjectLevels push) obj q
      else if eventType = ascii "price_change" then
        match parsePriceChange push obj q with
        | (verdict, _, q) => (verdict, q)
      else (.returned true, q)

/-- A message of a batch; its result is discarded and other elements are skipped. -/
def batchBody (v : Json) (q : Q) : Flow × Q :=
  match v.getObject with
  | none => (.next, q)
  | some elem =>
    match parseMessageObject push elem q with
    | (.returned _, q) => (.next, q)
    | (.terminated, q) => (.leave .terminated, q)

/-- `iterate` is the library's reading of the padded buffer. -/
def parseTick (iterate : ByteString → Option Json) (parser : MarketParser) (jsonPayload : ByteString)
    (q : Q) : Verdict × Q :=
  if parser.initialized = false then (.returned false, q)
  else if jsonPayload.length = 0 ∨ jsonPayload.length > kMaxPayloadBytes then (.returned false, q)
  else
    match iterate jsonPayload with
    | none => (.returned false, q)
    | some doc =>
      match doc.getObject with
      | some obj => parseMessageObject push obj q
      | none =>
        match doc.getArray with
        | some arr => forEach (batchBody push) arr q
        | none => (.returned false, q)

end Walkers
end MarketParser
end PredictionMarket.Market

import PredictionMarket.Market.MarketParser
import PredictionMarket.Market.PriceSoundness

/-! What a document makes the parser do, read off the document alone. Each element of a
walked array emits ticks, is a defect that rejects the message, or is malformed; the
walkers run this script against whatever queue they are given. -/
namespace PredictionMarket.Market
open MarketParser

inductive Item where
  | emits (ticks : List MarketTick)
  | defect
  | malformed
  deriving DecidableEq

/-- The reading of one message: stop at the first defect or malformed item. -/
def runItems : List Item → Verdict × List MarketTick
  | [] => (.returned true, [])
  | .emits ticks :: rest => ((runItems rest).1, ticks ++ (runItems rest).2)
  | .defect :: _ => (.returned false, [])
  | .malformed :: _ => (.terminated, [])

/-- The reading of a batch: a rejected message does not stop it, a malformed place does. -/
def runBatch : List (Option (List Item)) → Verdict × List MarketTick
  | [] => (.returned true, [])
  | none :: _ => (.terminated, [])
  | some items :: rest =>
    match runItems items with
    | (.terminated, ticks) => (.terminated, ticks)
    | (.returned _, ticks) => ((runBatch rest).1, ticks ++ (runBatch rest).2)

/-- What a payload asks for. -/
inductive Script where
  | refused
  | message (items : List Item)
  | batch (messages : List (Option (List Item)))

def Script.run : Script → Verdict × List MarketTick
  | refused => (.returned false, [])
  | message items => runItems items
  | batch messages => runBatch messages

def levelItem (isBid : Bool) (levelVal : Json) : Item :=
  match levelVal.getArray with
  | none => .defect
  | some [] => .defect
  | some (price :: it) =>
    match price.bind Json.getString, it with
    | none, _ => .emits []
    | some _, [] => .defect
    | some priceSv, size :: it =>
      match size.bind Json.getString, it with
      | none, _ => .emits []
      | some _, _ :: _ => .defect
      | some sizeSv, [] => .emits (levelTick priceSv sizeSv isBid).toList

def objectLevelTick (isBid : Bool) (levelObj : Object) : Option MarketTick :=
  let (priceSv, levelObj) := levelObj.stringField (ascii "price")
  let (sizeSv, _) := levelObj.stringField (ascii "size")
  priceSv.bind fun priceSv => sizeSv.bind fun sizeSv => levelTick priceSv sizeSv isBid

def objectLevelItem (isBid : Bool) (levelVal : Json) : Item :=
  match levelVal.getObject with
  | none => .defect
  | some levelObj => .emits (objectLevelTick isBid levelObj).toList

/-- The hints behind the fields read so far. -/
def entryHints (changeObj : Object) : List MarketTick :=
  let (bestBidSv, changeObj) := changeObj.stringField (ascii "best_bid")
  let (bestAskSv, _) := changeObj.stringField (ascii "best_ask")
  (bestBidSv.bind fun sv => hintTick sv true).toList ++ (bestAskSv.bind fun sv => hintTick sv false).toList

private theorem hintOf_size {sv : Option ByteString} {isBid : Bool} {hint : MarketTick}
    (h : hint ∈ (sv.bind fun sv => hintTick sv isBid).toList) : hint.size = 1 := by
  rw [Option.mem_toList] at h
  obtain ⟨text,_,ht⟩ := Option.bind_eq_some_iff.mp h
  obtain ⟨_,_,_,rfl⟩ := hintTick_eq_some ht
  rfl

private theorem entryHints_size (changeObj : Object) : ∀ hint ∈ entryHints changeObj, hint.size = 1 :=
  fun _ h => (List.mem_append.mp h).elim hintOf_size hintOf_size

/-- An entry of a price change: the tick it announces, and its hints in order. -/
structure Entry where
  announced : MarketTick
  hints : List MarketTick
  hintsUnit : ∀ hint ∈ hints, hint.size = 1

def Entry.ticks (e : Entry) : List MarketTick := e.announced :: e.hints

/-- A valid entry; every other object is skipped, its hints included. -/
def changeEntry (changeObj : Object) : Option Entry :=
  let (priceSv, changeObj) := changeObj.stringField (ascii "price")
  let (sizeSv, changeObj) := changeObj.stringField (ascii "size")
  let (sideSv, changeObj) := changeObj.stringField (ascii "side")
  priceSv.bind fun priceSv => sizeSv.bind fun sizeSv => (sideSv.bind sideIsBid).bind fun isBid =>
    (levelTick priceSv sizeSv isBid).map fun tick =>
      ⟨tick,entryHints changeObj,entryHints_size changeObj⟩

def changeItem (changeVal : Json) : Item :=
  match changeVal.getObject with
  | none => .defect
  | some changeObj => .emits ((changeEntry changeObj).elim [] Entry.ticks)

/-- The items of an optional array field, and the object behind the lookup. -/
def fieldItems (item : Json → Item) (obj : Object) (field : ByteString) : List Item × Object :=
  match obj.findFieldUnordered field with
  | (.noSuchField, obj) => ([], obj)
  | (.error, obj) => ([.defect], obj)
  | (.success v, obj) =>
    match v.getArray with
    | none => ([.defect], obj)
    | some elements => (elements.map fun v => v.elim .malformed item, obj)

def sideItems (item : Bool → Json → Item) (obj : Object) : List Item :=
  let (bids, obj) := fieldItems (item true) obj (ascii "bids")
  bids ++ (fieldItems (item false) obj (ascii "asks")).1

def messageItems (obj : Object) : List Item :=
  match obj.findFieldUnordered (ascii "event_type") with
  | (.error, _) => [.defect]
  | (.noSuchField, obj) => sideItems levelItem obj
  | (.success v, obj) =>
    match v.getString with
    | none => sideItems levelItem obj
    | some eventType =>
      if eventType = ascii "book" then sideItems objectLevelItem obj
      else if eventType = ascii "price_change" then
        (fieldItems changeItem obj (ascii "price_changes")).1
      else []

def batchMessage (v : Option Json) : Option (List Item) :=
  v.map fun v => v.getObject.elim [] messageItems

def MarketParser.script (iterate : ByteString → Option Json) (parser : MarketParser)
    (jsonPayload : ByteString) : Script :=
  if parser.initialized = false then .refused
  else if jsonPayload.length = 0 ∨ jsonPayload.length > kMaxPayloadBytes then .refused
  else
    match iterate jsonPayload with
    | none => .refused
    | some (.object obj) => .message (messageItems obj)
    | some (.array arr) => .batch (arr.map batchMessage)
    | some _ => .refused

end PredictionMarket.Market

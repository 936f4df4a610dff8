import PredictionMarket.Market.ParserRun
import PredictionMarket.Market.ScriptOutcome

/-! A book snapshot on an earlier book. Its levels are applied one by one like any other
update, so a level that it does not list keeps the size it had. -/
namespace PredictionMarket.Market
open Foundation.LastWrite MarketParser

/-- The event type decides on the walker. -/
theorem messageItems_of_type {obj body : Object} {eventType : ByteString}
    (h : obj.stringField (ascii "event_type") = (some eventType, body)) :
    messageItems obj = if eventType = ascii "book" then sideItems objectLevelItem body
      else if eventType = ascii "price_change" then
        (fieldItems changeItem body (ascii "price_changes")).1
      else [] := by
  unfold Object.stringField at h
  unfold messageItems
  match hf : obj.findFieldUnordered (ascii "event_type") with
  | (.error, _) => simp [hf] at h
  | (.noSuchField, _) => simp [hf] at h
  | (.success v, after) =>
    rw [hf] at h
    simp only [Prod.mk.injEq] at h
    obtain ⟨hv,rfl⟩ := h
    simp only [hv]

/-- A book message with valid levels only: the levels it lists, bids before asks. -/
structure Snapshot (obj : Object) where
  body : Object
  isBook : obj.stringField (ascii "event_type") = (some (ascii "book"), body)
  levels : List MarketTick
  valid : sideItems objectLevelItem body = levels.map fun level => .emits [level]

namespace Snapshot
variable {obj : Object} (snapshot : Snapshot obj)

/-- The size of the last listed level at a price, if the price is listed. -/
def listed : Level → Option UInt32 := last? (snapshot.levels.filterMap MarketTick.write?)

/-- The book that the snapshot shows. -/
def book : LimitOrderBook := LimitOrderBook.empty.applyTicks snapshot.levels

/-- Parsing a snapshot emits exactly its levels. -/
theorem messageTicks_eq_levels : messageTicks obj = snapshot.levels := by
  have hp := runItems_passed (snapshot.levels.map fun level => [level])
  rw [List.map_map] at hp
  rw [messageTicks_eq, messageItems_of_type snapshot.isBook, if_pos rfl, snapshot.valid]
  refine (congrArg Prod.snd hp).trans ?_
  rw [← List.flatMap_def, List.flatMap_singleton']

/-- A snapshot sets the levels it lists and keeps all others. It replaces the book exactly
if every level that held something is listed. -/
theorem snapshot_applied (prior : LimitOrderBook) :
    (∀ level, (prior.applyTicks (messageTicks obj)).sizeAt level =
      (snapshot.listed level).getD (prior.sizeAt level)) ∧
    (prior.applyTicks (messageTicks obj) = snapshot.book ↔
      ∀ level, snapshot.listed level = none → prior.sizeAt level = 0) := by
  have hsize : (prior.applyTicks (messageTicks obj)).sizeAt =
      writes prior.sizeAt (snapshot.levels.filterMap MarketTick.write?) := by
    rw [LimitOrderBook.sizeAt_applyTicks, snapshot.messageTicks_eq_levels]
  refine ⟨fun level => by rw [hsize, writes_apply]; rfl,?_⟩
  have hbook : snapshot.book.sizeAt =
      writes LimitOrderBook.empty.sizeAt (snapshot.levels.filterMap MarketTick.write?) :=
    LimitOrderBook.sizeAt_applyTicks ..
  rw [LimitOrderBook.ext_sizeAt_iff, hsize, hbook, writes_eq_iff]
  simp only [LimitOrderBook.sizeAt_empty]
  rfl

/-- A level object of a snapshot. -/
def levelObject (price size : String) : Option Json :=
  some (.object [some (ascii "price",.string (ascii price)),some (ascii "size",.string (ascii size))])

/-- One bid at forty cents and no asks. -/
def second : Object := [some (ascii "event_type",.string (ascii "book")),
  some (ascii "bids",.array [levelObject ".40" "30"]),some (ascii "asks",.array [])]

def secondSnapshot : Snapshot second := ⟨_,rfl,[⟨40,30,true⟩],by decide⟩

/-- A bid at fifty cents survives the snapshot and stays the best. -/
theorem older_bid_survives :
    ((LimitOrderBook.empty.applyTicks [⟨50,10,true⟩]).applyTicks (messageTicks second)).getBestBid = 50 ∧
    secondSnapshot.book.getBestBid = 40 := by
  decide +kernel

end Snapshot
end PredictionMarket.Market

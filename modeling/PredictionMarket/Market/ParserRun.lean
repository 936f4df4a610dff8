import PredictionMarket.Market.MessageScript

/-! The parser runs the script of its payload. The verdict does not depend on the queue,
and the queue only sees the script's ticks, pushed in order with the results discarded. -/
namespace PredictionMarket.Market
namespace MarketParser
variable {Q : Type} (push : Q → MarketTick → Bool × Q)

def pushAll (q : Q) (ticks : List MarketTick) : Q := ticks.foldl (fun q tick => (push q tick).2) q

private theorem pushAll_append (q : Q) (xs ys : List MarketTick) :
    pushAll push q (xs ++ ys) = pushAll push (pushAll push q xs) ys := List.foldl_append

/-- A verdict together with the ticks pushed on the way to it. -/
def deliver (run : Verdict × List MarketTick) (q : Q) : Verdict × Q := (run.1,pushAll push q run.2)

private theorem emit_eq (tick? : Option MarketTick) (q : Q) :
    emit push tick? q = pushAll push q tick?.toList := by
  cases tick? <;> rfl

/-- How a loop body behaves on an element with this item. -/
def flow : Item → Q → Flow × Q
  | .emits ticks, q => (.next, pushAll push q ticks)
  | .defect, q => (.leave (.returned false), q)
  | .malformed, q => (.leave .terminated, q)

private theorem levelBody_eq (isBid : Bool) (v : Json) (q : Q) :
    levelBody push isBid v q = flow push (levelItem isBid v) q := by
  unfold levelBody levelItem
  match v.getArray with
  | none => rfl
  | some [] => rfl
  | some (price :: it) =>
    simp only []
    match price.bind Json.getString, it with
    | none, _ => rfl
    | some _, [] => rfl
    | some priceSv, size :: it =>
      simp only []
      match size.bind Json.getString, it with
      | none, _ => rfl
      | some _, _ :: _ => rfl
      | some sizeSv, [] => simp only [emit_eq, flow]

private theorem objectLevelBody_eq (isBid : Bool) (v : Json) (q : Q) :
    objectLevelBody push isBid v q = flow push (objectLevelItem isBid v) q := by
  unfold objectLevelBody objectLevelItem
  cases v.getObject with
  | none => rfl
  | some levelObj =>
    simp only [objectLevelTick, flow]
    match levelObj.stringField (ascii "price") with
    | (none, _) => rfl
    | (some priceSv, levelObj) =>
      simp only []
      match levelObj.stringField (ascii "size") with
      | (none, _) => rfl
      | (some sizeSv, _) => simp only [emit_eq, Option.bind_some]

private theorem emitHints_eq (changeObj : Object) (q : Q) :
    emitHints push changeObj q = pushAll push q (entryHints changeObj) := by
  simp only [emitHints, entryHints, emit_eq, pushAll_append]

private theorem changeBody_eq (v : Json) (q : Q) :
    changeBody push v q = flow push (changeItem v) q := by
  unfold changeBody changeItem
  cases v.getObject with
  | none => rfl
  | some changeObj =>
    simp only [changeEntry, flow]
    match changeObj.stringField (ascii "price") with
    | (none, _) => rfl
    | (some priceSv, changeObj) =>
      simp only []
      match changeObj.stringField (ascii "size") with
      | (none, _) => rfl
      | (some sizeSv, changeObj) =>
        simp only []
        match changeObj.stringField (ascii "side") with
        | (none, _) => rfl
        | (some sideSv, changeObj) =>
          simp only [Option.bind_some, emitHints_eq]
          cases sideIsBid sideSv with
          | none => rfl
          | some isBid =>
            simp only [Option.bind_some]
            cases levelTick priceSv sizeSv isBid <;> rfl

private theorem forEach_eq {body : Json → Q → Flow × Q} {item : Json → Item}
    (h : ∀ v q, body v q = flow push (item v) q) (elements : List (Option Json)) (q : Q) :
    forEach body elements q =
      deliver push (runItems (elements.map fun v => v.elim .malformed item)) q := by
  induction elements generalizing q with
  | nil => rfl
  | cons v rest ih =>
    cases v with
    | none => rfl
    | some v =>
      rw [forEach, h, List.map_cons, Option.elim_some]
      cases item v with
      | defect => rfl
      | malformed => rfl
      | emits ticks =>
        simp only [flow, ih, runItems, deliver, pushAll_append]

private theorem walkField_eq {body : Json → Q → Flow × Q} {item : Json → Item}
    (h : ∀ v q, body v q = flow push (item v) q) (obj : Object) (field : ByteString) (q : Q) :
    walkField body obj field q = ((runItems (fieldItems item obj field).1).1,
      (fieldItems item obj field).2,
      pushAll push q (runItems (fieldItems item obj field).1).2) := by
  unfold walkField fieldItems
  match obj.findFieldUnordered field with
  | (.noSuchField, _) => rfl
  | (.error, _) => rfl
  | (.success v, _) =>
    simp only []
    cases v.getArray with
    | none => rfl
    | some elements =>
      simp only [forEach_eq push h]
      rfl

end MarketParser

/-- What follows runs only if everything before it passed. -/
theorem runItems_append (xs ys : List Item) :
    runItems (xs ++ ys) = if (runItems xs).1 = .returned true
      then ((runItems ys).1, (runItems xs).2 ++ (runItems ys).2) else runItems xs := by
  induction xs with
  | nil => simp [runItems]
  | cons item xs ih =>
    cases item with
    | defect => rfl
    | malformed => rfl
    | emits ticks =>
      simp only [List.cons_append, runItems, ih]
      by_cases hv : (runItems xs).1 = .returned true
      · simp only [hv, if_true, List.append_assoc]
      · simp only [hv, if_false]

namespace MarketParser
variable {Q : Type} (push : Q → MarketTick → Bool × Q)

private theorem parseSides_eq {body : Bool → Json → Q → Flow × Q} {item : Bool → Json → Item}
    (h : ∀ isBid v q, body isBid v q = flow push (item isBid v) q) (obj : Object) (q : Q) :
    parseSides (fun obj field isBid q => walkField (body isBid) obj field q) obj q =
      deliver push (runItems (sideItems item obj)) q := by
  simp only [parseSides, sideItems, walkField_eq push (h _), runItems_append]
  generalize fieldItems (item true) obj (ascii "bids") = bids
  rcases hb : runItems bids.1 with ⟨(_ | _) | _,ticks⟩
  · rfl
  · simp only [if_true, deliver, pushAll_append]
  · rfl

private theorem parseMessageObject_eq (obj : Object) (q : Q) :
    parseMessageObject push obj q = deliver push (runItems (messageItems obj)) q := by
  unfold parseMessageObject messageItems
  match obj.findFieldUnordered (ascii "event_type") with
  | (.error, _) => rfl
  | (.noSuchField, obj) => exact parseSides_eq push (levelBody_eq push) obj q
  | (.success v, obj) =>
    simp only []
    cases v.getString with
    | none => exact parseSides_eq push (levelBody_eq push) obj q
    | some eventType =>
      simp only []
      split_ifs
      · exact parseSides_eq push (objectLevelBody_eq push) obj q
      · rw [parsePriceChange, walkField_eq push (changeBody_eq push)]
        rfl
      · rfl

private theorem batch_eq (arr : List (Option Json)) (q : Q) :
    forEach (batchBody push) arr q = deliver push (runBatch (arr.map batchMessage)) q := by
  induction arr generalizing q with
  | nil => rfl
  | cons v rest ih =>
    cases v with
    | none => rfl
    | some v =>
      rw [forEach, batchBody, List.map_cons, batchMessage, Option.map_some]
      cases v.getObject with
      | none =>
        simp only [ih]
        rfl
      | some elem =>
        simp only [parseMessageObject_eq, Option.elim_some, runBatch]
        rcases runItems (messageItems elem) with ⟨_ | _,ticks⟩
        · simp only [deliver, ih, pushAll_append]
        · rfl

/-- `parse_tick` is its script, delivered to the queue. -/
theorem parseTick_eq (iterate : ByteString → Option Json) (parser : MarketParser)
    (jsonPayload : ByteString) (q : Q) : parseTick push iterate parser jsonPayload q =
      deliver push (script iterate parser jsonPayload).run q := by
  unfold parseTick script
  split_ifs
  · rfl
  · rfl
  · match iterate jsonPayload with
    | none => rfl
    | some .scalar => rfl
    | some (.string _) => rfl
    | some (.object obj) => exact parseMessageObject_eq push obj q
    | some (.array arr) => exact batch_eq push arr q

/-- A sink that accepts and keeps every tick. -/
def record (ticks : List MarketTick) (tick : MarketTick) : Bool × List MarketTick :=
  (true, ticks ++ [tick])

private theorem pushAll_record (ticks more : List MarketTick) :
    pushAll record ticks more = ticks ++ more := by
  induction more generalizing ticks with
  | nil => simp [pushAll]
  | cons tick more ih =>
    change pushAll record (ticks ++ [tick]) more = _
    rw [ih, List.append_assoc, List.singleton_append]

/-- The ticks of a message, as `parse_message_object` pushes them. -/
def messageTicks (obj : Object) : List MarketTick := (parseMessageObject record obj []).2

/-- The ticks of a message are those of its items. -/
theorem messageTicks_eq (obj : Object) : messageTicks obj = (runItems (messageItems obj)).2 := by
  rw [messageTicks, parseMessageObject_eq]
  exact pushAll_record [] _

/-- The ticks of a payload, as `parse_tick` pushes them. -/
def payloadTicks (iterate : ByteString → Option Json) (parser : MarketParser)
    (jsonPayload : ByteString) : List MarketTick := (parseTick record iterate parser jsonPayload []).2

/-- The ticks of a payload are those of its script. -/
theorem payloadTicks_eq (iterate : ByteString → Option Json) (parser : MarketParser)
    (jsonPayload : ByteString) :
    payloadTicks iterate parser jsonPayload = (script iterate parser jsonPayload).run.2 := by
  rw [payloadTicks, parseTick_eq]
  exact pushAll_record [] _

end MarketParser
end PredictionMarket.Market

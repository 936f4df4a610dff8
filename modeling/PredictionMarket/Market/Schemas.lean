import PredictionMarket.Market.ParserQueue
import PredictionMarket.Market.BookSnapshot

/-! The three feed schemas on the same levels. Lookups in an object of distinct keys find
each field wherever it stands, so the three walkers read the same pairs in the same order. -/
namespace PredictionMarket.Market
open MarketParser Queue

namespace Object

def keys (obj : Object) : List ByteString := obj.filterMap fun field => field.map Prod.fst

/-- No error elements, and no key twice. -/
structure Clean (obj : Object) : Prop where
  sound : ∀ field ∈ obj, field.isSome = true
  distinct : obj.keys.Nodup

/-- A clean object stays one in any order. -/
theorem Clean.perm {obj other : Object} (h : obj.Clean) (hp : other.Perm obj) : other.Clean :=
  ⟨fun field hm => h.sound field (hp.mem_iff.mp hm),(hp.filterMap _).nodup_iff.mpr h.distinct⟩

private theorem search_passing {key : ByteString} {before : Object} (sound : ∀ field ∈ before, field.isSome = true)
    (absent : key ∉ before.keys) (skipped rest : Object) :
    search key skipped (before ++ rest) = search key (skipped ++ before) rest := by
  induction before generalizing skipped with
  | nil => rw [List.nil_append, List.append_nil]
  | cons field before ih =>
    cases field with
    | none => exact absurd (sound none List.mem_cons_self) Bool.false_ne_true
    | some field =>
      obtain ⟨name,v⟩ := field
      have habsent : name ≠ key ∧ key ∉ keys before := by
        constructor
        · rintro rfl
          exact absent List.mem_cons_self
        · exact fun hm => absent (List.mem_cons_of_mem _ hm)
      rw [List.cons_append, search, if_neg habsent.1,
        ih (fun field hm => sound field (List.mem_cons_of_mem _ hm)) habsent.2, List.append_assoc,
        List.singleton_append]

/-- A field is found wherever it stands, and the object stays the same up to order. -/
theorem find_has {obj : Object} (h : obj.Clean) {key : ByteString} {v : Json} (hm : some (key,v) ∈ obj) :
    ∃ after, obj.findFieldUnordered key = (.success v, after) ∧ after.Perm obj := by
  obtain ⟨before,rest,rfl⟩ := List.append_of_mem hm
  have habsent : key ∉ keys before := by
    have hdistinct := h.distinct
    rw [keys, List.filterMap_append] at hdistinct
    have hdisjoint := (List.nodup_append.mp hdistinct).2.2
    exact fun hk => hdisjoint key hk key List.mem_cons_self rfl
  refine ⟨rest ++ (before ++ [some (key,v)]),?_,?_⟩
  · rw [findFieldUnordered, search_passing (fun field hf => h.sound field (List.mem_append_left _ hf)) habsent,
      List.nil_append, search, if_pos rfl]
  · refine List.perm_append_comm.trans ?_
    rw [List.append_assoc, List.singleton_append]

/-- A name that no field has is not found, and the object stays as it is. -/
theorem find_lacks {obj : Object} (h : obj.Clean) {key : ByteString} (hk : key ∉ obj.keys) :
    obj.findFieldUnordered key = (.noSuchField, obj) := by
  have hsearch := search_passing h.sound hk [] []
  rwa [List.append_nil, List.nil_append, search] at hsearch

/-- A text field of a clean object is found, and no field is lost. -/
theorem stringField_has {obj : Object} (h : obj.Clean) {key text : ByteString}
    (hm : some (key,.string text) ∈ obj) : ∃ after, obj.stringField key = (some text, after) ∧ after.Perm obj := by
  obtain ⟨after,hfind,hp⟩ := find_has h hm
  exact ⟨after,by rw [stringField, hfind]; rfl,hp⟩

private theorem stringField_lacks {obj : Object} (h : obj.Clean) {key : ByteString} (hk : key ∉ obj.keys) :
    obj.stringField key = (none, obj) := by
  rw [stringField, find_lacks h hk]

end Object

/-- The price text and the size text of a level. -/
structure LevelText where
  price : ByteString
  size : ByteString

/-- A level of the internal feed. -/
def LevelText.pair (level : LevelText) : Json := .array [some (.string level.price),some (.string level.size)]

/-- A level object of a book message, whatever other fields it has. -/
structure LevelText.IsObject (level : LevelText) (obj : Object) : Prop where
  clean : obj.Clean
  price : some (ascii "price",.string level.price) ∈ obj
  size : some (ascii "size",.string level.size) ∈ obj

/-- An entry of a price change for this side, without hints. -/
structure LevelText.IsEntry (level : LevelText) (isBid : Bool) (obj : Object) : Prop extends level.IsObject obj where
  side : some (ascii "side",.string (ascii (if isBid then "BUY" else "SELL"))) ∈ obj
  unhinted : ascii "best_bid" ∉ obj.keys ∧ ascii "best_ask" ∉ obj.keys

/-- What a walker makes of these levels. -/
def levelItems (isBid : Bool) (levels : List LevelText) : List Item :=
  (levels.map fun level => (levelTick level.price level.size isBid).toList).map .emits

/-- A message that carries these bids and asks, in one of the three schemas. -/
inductive Carries (bids asks : List LevelText) (obj : Object) : Prop
  | mock (clean : obj.Clean) (untyped : ascii "event_type" ∉ obj.keys)
    (hasBids : some (ascii "bids",.array (bids.map fun level => some level.pair)) ∈ obj)
    (hasAsks : some (ascii "asks",.array (asks.map fun level => some level.pair)) ∈ obj)
  | book (clean : obj.Clean) (typed : some (ascii "event_type",.string (ascii "book")) ∈ obj)
    {bidObjs askObjs : List Object}
    (hasBids : some (ascii "bids",.array (bidObjs.map fun o => some (.object o))) ∈ obj)
    (hasAsks : some (ascii "asks",.array (askObjs.map fun o => some (.object o))) ∈ obj)
    (bidLevels : List.Forall₂ LevelText.IsObject bids bidObjs)
    (askLevels : List.Forall₂ LevelText.IsObject asks askObjs)
  | priceChange (clean : obj.Clean) (typed : some (ascii "event_type",.string (ascii "price_change")) ∈ obj)
    {bidObjs askObjs : List Object}
    (hasChanges : some (ascii "price_changes",.array ((bidObjs ++ askObjs).map fun o => some (.object o))) ∈ obj)
    (bidEntries : List.Forall₂ (fun level => level.IsEntry true) bids bidObjs)
    (askEntries : List.Forall₂ (fun level => level.IsEntry false) asks askObjs)

section Items
variable {level : LevelText} {obj : Object} {isBid : Bool}

/-- A level object has the tick of its texts. -/
theorem LevelText.IsObject.item (h : level.IsObject obj) :
    objectLevelItem isBid (.object obj) = .emits (levelTick level.price level.size isBid).toList := by
  obtain ⟨after,hprice,hp⟩ := Object.stringField_has h.clean h.price
  obtain ⟨_,hsize,_⟩ := Object.stringField_has (h.clean.perm hp) (hp.mem_iff.mpr h.size)
  simp only [objectLevelItem, Json.getObject, objectLevelTick, hprice, hsize, Option.bind_some]

private theorem sideIsBid_text (isBid : Bool) :
    sideIsBid (ascii (if isBid then "BUY" else "SELL")) = some isBid := by
  cases isBid <;> decide

private theorem entryHints_lacks {obj : Object} (h : obj.Clean) (hbid : ascii "best_bid" ∉ obj.keys)
    (hask : ascii "best_ask" ∉ obj.keys) : entryHints obj = [] := by
  simp only [entryHints, Object.stringField_lacks h hbid, Object.stringField_lacks h hask]
  rfl

/-- An entry without hints has the tick of its texts. -/
theorem LevelText.IsEntry.item (h : level.IsEntry isBid obj) :
    changeItem (.object obj) = .emits (levelTick level.price level.size isBid).toList := by
  obtain ⟨priced,hprice,hp⟩ := Object.stringField_has h.clean h.price
  obtain ⟨sized,hsize,hs⟩ := Object.stringField_has (h.clean.perm hp) (hp.mem_iff.mpr h.size)
  have hsized := hs.trans hp
  obtain ⟨sided,hside,hd⟩ := Object.stringField_has (h.clean.perm hsized) (hsized.mem_iff.mpr h.side)
  have hsided := hd.trans hsized
  have hkeys := hsided.filterMap fun field => field.map Prod.fst
  have hhints : entryHints sided = [] := by
    apply entryHints_lacks (h.clean.perm hsided)
    · exact fun hm => h.unhinted.1 (hkeys.mem_iff.mp hm)
    · exact fun hm => h.unhinted.2 (hkeys.mem_iff.mp hm)
  simp only [changeItem, Json.getObject, changeEntry, hprice, hsize, hside, Option.bind_some, sideIsBid_text]
  cases levelTick level.price level.size isBid with
  | none => rfl
  | some tick => exact congrArg (fun hints => Item.emits (tick :: hints)) hhints

/-- Objects that are walked alike have the ticks of what they stand for. -/
theorem mapped_items {α : Type} {R : α → Object → Prop} {item : Json → Item} {ticks : α → List MarketTick}
    (h : ∀ a o, R a o → item (.object o) = .emits (ticks a)) {as : List α} {objs : List Object}
    (hr : List.Forall₂ R as objs) :
    (objs.map fun o => some (Json.object o)).map (fun v => v.elim .malformed item) =
      (as.map ticks).map .emits := by
  induction hr with
  | nil => rfl
  | cons hhead _ ih => rw [List.map_cons, List.map_cons, ih, Option.elim_some, h _ _ hhead, List.map_cons, List.map_cons]

end Items

/-- An array field is walked wherever it stands. -/
theorem fieldItems_has (item : Json → Item) {obj : Object} (h : obj.Clean) {field : ByteString}
    {elements : List (Option Json)} (hm : some (field,.array elements) ∈ obj) : ∃ after,
      fieldItems item obj field = (elements.map fun v => v.elim .malformed item, after) ∧ after.Perm obj := by
  obtain ⟨after,hfind,hp⟩ := Object.find_has h hm
  exact ⟨after,by rw [fieldItems, hfind]; rfl,hp⟩

private theorem sideItems_has (item : Bool → Json → Item) {obj : Object} (h : obj.Clean) {bids asks : List (Option Json)}
    (hbids : some (ascii "bids",.array bids) ∈ obj) (hasks : some (ascii "asks",.array asks) ∈ obj) :
    sideItems item obj = (bids.map fun v => v.elim .malformed (item true)) ++
      asks.map fun v => v.elim .malformed (item false) := by
  obtain ⟨after,hfirst,hp⟩ := fieldItems_has (item true) h hbids
  obtain ⟨_,hsecond,_⟩ := fieldItems_has (item false) (h.perm hp) (hp.mem_iff.mpr hasks)
  simp only [sideItems, hfirst, hsecond]

/-- Whatever its schema, a message is read as its bids followed by its asks. -/
theorem Carries.items {bids asks : List LevelText} {obj : Object} (h : Carries bids asks obj) :
    messageItems obj = levelItems true bids ++ levelItems false asks := by
  cases h with
  | mock clean untyped hasBids hasAsks =>
    rw [messageItems, Object.find_lacks clean untyped]
    refine (sideItems_has levelItem clean hasBids hasAsks).trans ?_
    rw [List.map_map, List.map_map, levelItems, levelItems, List.map_map, List.map_map]
    rfl
  | book clean typed hasBids hasAsks bidLevels askLevels =>
    obtain ⟨after,htype,hp⟩ := Object.stringField_has clean typed
    rw [messageItems_of_type htype, if_pos rfl,
      sideItems_has objectLevelItem (clean.perm hp) (hp.mem_iff.mpr hasBids) (hp.mem_iff.mpr hasAsks),
      mapped_items (fun _ _ hl => hl.item) bidLevels, mapped_items (fun _ _ hl => hl.item) askLevels]
    rfl
  | priceChange clean typed hasChanges bidEntries askEntries =>
    obtain ⟨after,htype,hp⟩ := Object.stringField_has clean typed
    obtain ⟨_,hwalk,_⟩ := fieldItems_has changeItem (clean.perm hp) (hp.mem_iff.mpr hasChanges)
    rw [messageItems_of_type htype, if_neg (by decide), if_pos rfl, hwalk, List.map_append, List.map_append,
      mapped_items (fun _ _ hl => hl.item) bidEntries, mapped_items (fun _ _ hl => hl.item) askEntries]
    rfl

/-- The ticks of the levels that pass. -/
def levelTicks (isBid : Bool) (levels : List LevelText) : List MarketTick :=
  levels.flatMap fun level => (levelTick level.price level.size isBid).toList

/-- The message is accepted, and nothing stops it on the way. -/
theorem Carries.run {bids asks : List LevelText} {obj : Object} (h : Carries bids asks obj) :
    runItems (messageItems obj) = (.returned true, levelTicks true bids ++ levelTicks false asks) := by
  have hpassed := runItems_passed ((bids.map fun level => (levelTick level.price level.size true).toList) ++
    asks.map fun level => (levelTick level.price level.size false).toList)
  rw [List.map_append, List.flatten_append] at hpassed
  rw [h.items]
  exact hpassed

/-- A payload that the parser takes up, with the document that it is read as. -/
structure Delivers (iterate : ByteString → Option Json) (jsonPayload : ByteString) (document : Json) : Prop where
  nonempty : jsonPayload.length ≠ 0
  fits : jsonPayload.length ≤ kMaxPayloadBytes
  tree : iterate jsonPayload = some document

section Delivery
variable {iterate : ByteString → Option Json} {parser : MarketParser} {jsonPayload : ByteString}

/-- A delivered document is walked as a message or as a batch. -/
theorem Delivers.script {document : Json} (h : Delivers iterate jsonPayload document)
    (hi : parser.initialized = true) : script iterate parser jsonPayload =
      match document with
      | .object obj => .message (messageItems obj)
      | .array arr => .batch (arr.map batchMessage)
      | _ => .refused := by
  rw [MarketParser.script, if_neg (by simp [hi]), if_neg (by have := h.nonempty; have := h.fits; omega), h.tree]
  cases document <;> rfl

/-- Without its buffer the parser refuses everything. -/
theorem script_uninitialized (hi : parser.initialized = false) : script iterate parser jsonPayload = .refused :=
  if_pos hi

/-- A message delivers its levels, alone or as the only message of a batch. -/
theorem Carries.script_run {bids asks : List LevelText} {obj : Object} (h : Carries bids asks obj)
    (hi : parser.initialized = true) {document : Json} (hdoc : document = .object obj ∨ document = .array [some (.object obj)])
    (hd : Delivers iterate jsonPayload document) : (script iterate parser jsonPayload).run =
      (.returned true, levelTicks true bids ++ levelTicks false asks) := by
  rw [hd.script hi]
  rcases hdoc with rfl | rfl
  · exact h.run
  · change runBatch [some (messageItems obj)] = _
    rw [runBatch, h.run]
    exact Prod.ext rfl (List.append_nil _)

end Delivery

/-- Two messages in any of the schemas that carry the same levels have the same result and
leave the same queue, and each leaves the same queue within a batch of its own. -/
theorem schemas_interchangeable {size : Size} (iterate : ByteString → Option Json) (parser : MarketParser)
    (bids asks : List LevelText) {obj obj' : Object} (h : Carries bids asks obj) (h' : Carries bids asks obj')
    {jsonPayload jsonPayload' wrapped : ByteString} (hd : Delivers iterate jsonPayload (.object obj))
    (hd' : Delivers iterate jsonPayload' (.object obj'))
    (hw : Delivers iterate wrapped (.array [some (.object obj)])) (q : SpscQueue size MarketTick) :
    parseInto iterate parser jsonPayload q = parseInto iterate parser jsonPayload' q ∧
      (parseInto iterate parser wrapped q).2 = (parseInto iterate parser jsonPayload q).2 := by
  simp only [parseInto, parseTick_eq]
  cases hi : parser.initialized with
  | false =>
    rw [script_uninitialized hi, script_uninitialized hi, script_uninitialized hi]
    exact ⟨rfl,rfl⟩
  | true =>
    rw [h.script_run hi (.inl rfl) hd, h'.script_run hi (.inl rfl) hd', h.script_run hi (.inr rfl) hw]
    exact ⟨rfl,rfl⟩

def twoBids : List LevelText := [⟨ascii "0.57",ascii "1200"⟩,⟨ascii "0.56",ascii "300"⟩]

def oneAsk : List LevelText := [⟨ascii "0.6",ascii "50"⟩]

def mockText : ByteString :=
  ascii "\x7b\"bids\":[[\"0.57\",\"1200\"],[\"0.56\",\"300\"]],\"asks\":[[\"0.6\",\"50\"]]\x7d"

def mockMessage : Object := [some (ascii "bids",.array (twoBids.map fun level => some level.pair)),
  some (ascii "asks",.array (oneAsk.map fun level => some level.pair))]

/-- The message of the internal feed as the only one of a batch. -/
def wrappedText : ByteString := ascii "[" ++ mockText ++ ascii "]"

/-- The text of an entry of a price change. -/
def entryText (side price size : String) : ByteString :=
  ascii "\x7b\"side\":\"" ++ ascii side ++ ascii "\",\"price\":\"" ++ ascii price ++ ascii "\",\"size\":\"" ++
    ascii size ++ ascii "\"\x7d"

/-- The same levels as a price change, with the type behind the entries. -/
def changeText : ByteString :=
  ascii "\x7b\"price_changes\":[" ++ entryText "BUY" "0.57" "1200" ++ ascii "," ++ entryText "BUY" "0.56" "300" ++
    ascii "," ++ entryText "SELL" "0.6" "50" ++ ascii "],\"event_type\":\"price_change\"\x7d"

def entryObject (isBid : Bool) (level : LevelText) : Object :=
  [some (ascii "side",.string (ascii (if isBid then "BUY" else "SELL"))),
    some (ascii "price",.string level.price),some (ascii "size",.string level.size)]

def changeMessage : Object :=
  [some (ascii "price_changes",.array ((twoBids.map (entryObject true) ++ oneAsk.map (entryObject false)).map
    fun o => some (.object o))),
    some (ascii "event_type",.string (ascii "price_change"))]

private theorem mockMessage_carries : Carries twoBids oneAsk mockMessage := by
  refine .mock ⟨?_,?_⟩ ?_ List.mem_cons_self (List.mem_cons_of_mem _ List.mem_cons_self)
  · simp [mockMessage]
  · decide
  · decide

private theorem entryObject_isEntry (isBid : Bool) (level : LevelText) : level.IsEntry isBid (entryObject isBid level) := by
  refine ⟨⟨⟨?_,?_⟩,?_,?_⟩,List.mem_cons_self,?_⟩
  · simp [entryObject]
  · change [ascii "side",ascii "price",ascii "size"].Nodup
    decide
  · exact List.mem_cons_of_mem _ List.mem_cons_self
  · exact List.mem_cons_of_mem _ (List.mem_cons_of_mem _ List.mem_cons_self)
  · change ascii "best_bid" ∉ [ascii "side",ascii "price",ascii "size"] ∧
      ascii "best_ask" ∉ [ascii "side",ascii "price",ascii "size"]
    decide

private theorem changeMessage_carries : Carries twoBids oneAsk changeMessage := by
  refine .priceChange ⟨?_,?_⟩ (List.mem_cons_of_mem _ List.mem_cons_self) List.mem_cons_self ?_ ?_
  · simp [changeMessage]
  · decide
  · exact List.forall₂_map_right_iff.mpr (List.forall₂_same.mpr fun level _ => entryObject_isEntry true level)
  · exact List.forall₂_map_right_iff.mpr (List.forall₂_same.mpr fun level _ => entryObject_isEntry false level)

/-- An iterator that knows the three texts. -/
def reading (payload : ByteString) : Option Json :=
  if payload = mockText then some (.object mockMessage)
  else if payload = changeText then some (.object changeMessage)
  else if payload = wrappedText then some (.array [some (.object mockMessage)])
  else none

/-- The three payloads leave the same three ticks in an empty queue. -/
theorem threeLevels_interchanged :
    (parseInto reading (construct true) mockText newQueue.queue).2.Represents
      [⟨57,1200,true⟩,⟨56,300,true⟩,⟨60,50,false⟩] ∧
    parseInto reading (construct true) mockText newQueue.queue =
      parseInto reading (construct true) changeText newQueue.queue ∧
    (parseInto reading (construct true) wrappedText newQueue.queue).2 =
      (parseInto reading (construct true) mockText newQueue.queue).2 := by
  constructor
  · have hticks : (script reading (construct true) mockText).run.2 =
        [⟨57,1200,true⟩,⟨56,300,true⟩,⟨60,50,false⟩] := by decide +kernel
    have hqueue := parseInto_represents reading (construct true) mockText newQueue
    rw [hticks] at hqueue
    exact hqueue
  · apply schemas_interchangeable reading (construct true) twoBids oneAsk mockMessage_carries changeMessage_carries
    · exact ⟨by decide +kernel,by decide +kernel,if_pos rfl⟩
    · exact ⟨by decide +kernel,by decide +kernel,(if_neg (by decide +kernel)).trans (if_pos rfl)⟩
    · exact ⟨by decide +kernel,by decide +kernel,
        (if_neg (by decide +kernel)).trans ((if_neg (by decide +kernel)).trans (if_pos rfl))⟩

end PredictionMarket.Market

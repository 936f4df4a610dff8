import PredictionMarket.Market.Schemas

/-! The layout of a document. What the parser does depends on which value each field that it
reads has, not on the order of the fields nor on what else an object holds. -/
namespace PredictionMarket.Market
open MarketParser Queue

/-- The fields that the walkers look for. -/
def readKeys : List ByteString :=
  [ascii "event_type",ascii "bids",ascii "asks",ascii "price_changes",ascii "price",ascii "size",
    ascii "side",ascii "best_bid",ascii "best_ask"]

namespace Object

/-- The value of the first field of this name, with the object as a finite map. -/
def value? (obj : Object) (key : ByteString) : Option Json :=
  obj.findSome? fun field => field.bind fun field => if field.1 = key then some field.2 else none

private theorem mem_of_value? {obj : Object} {key : ByteString} {v : Json} (h : obj.value? key = some v) :
    some (key,v) ∈ obj := by
  obtain ⟨field,hm,hfield⟩ := List.exists_of_findSome?_eq_some h
  obtain ⟨⟨name,w⟩,rfl,hname⟩ := Option.bind_eq_some_iff.mp hfield
  split_ifs at hname with hkey
  cases hname
  cases hkey
  exact hm

private theorem key_of_mem {obj : Object} {key : ByteString} {v : Json} (h : some (key,v) ∈ obj) :
    key ∈ obj.keys := List.mem_filterMap.mpr ⟨some (key,v),h,rfl⟩

private theorem value?_lacks {obj : Object} {key : ByteString} (h : key ∉ obj.keys) : obj.value? key = none := by
  rw [Option.eq_none_iff_forall_ne_some]
  exact fun v hv => h (key_of_mem (mem_of_value? hv))

/-- In an object of distinct names it does not matter which field is the first. -/
theorem value?_eq_some_iff {obj : Object} (h : obj.Clean) {key : ByteString} {v : Json} :
    obj.value? key = some v ↔ some (key,v) ∈ obj := by
  refine ⟨mem_of_value?,fun hm => ?_⟩
  obtain ⟨before,rest,rfl⟩ := List.append_of_mem hm
  have habsent : key ∉ keys before := by
    have hdistinct := h.distinct
    rw [keys, List.filterMap_append] at hdistinct
    exact fun hk => (List.nodup_append.mp hdistinct).2.2 key hk key List.mem_cons_self rfl
  have hbefore := value?_lacks habsent
  unfold value? at hbefore ⊢
  rw [List.findSome?_append, hbefore]
  simp

private theorem value?_perm {obj other : Object} (h : obj.Clean) (hp : other.Perm obj) (key : ByteString) :
    other.value? key = obj.value? key := by
  apply Option.ext
  intro v
  rw [value?_eq_some_iff h, value?_eq_some_iff (h.perm hp), hp.mem_iff]

/-- A lookup reads the map. -/
theorem find_value {obj : Object} (h : obj.Clean) (key : ByteString) : ∃ after,
    obj.findFieldUnordered key = ((obj.value? key).elim .noSuchField .success, after) ∧ after.Perm obj := by
  cases hv : obj.value? key with
  | some v => exact find_has h ((value?_eq_some_iff h).mp hv)
  | none =>
    refine ⟨obj,find_lacks h ?_,.refl obj⟩
    intro hk
    obtain ⟨field,hm,hname⟩ := List.mem_filterMap.mp hk
    obtain ⟨⟨name,v⟩,rfl,rfl⟩ := Option.map_eq_some_iff.mp hname
    rw [(value?_eq_some_iff h).mpr hm] at hv
    cases hv

end Object

/-- The same document for a reader of these fields: in objects of distinct names the fields may
change places, and others may come and go. -/
inductive Rearranged : Json → Json → Prop
  | same (v : Json) : Rearranged v v
  | array {elements elements' : List (Option Json)}
    (each : List.Forall₂ (Option.Rel Rearranged) elements elements') :
    Rearranged (.array elements) (.array elements')
  | object {obj obj' : Object} (clean : obj.Clean) (clean' : obj'.Clean)
    (each : ∀ key ∈ readKeys, Option.Rel Rearranged (obj.value? key) (obj'.value? key)) :
    Rearranged (.object obj) (.object obj')

/-- Opened objects that a walker cannot tell apart. -/
inductive Object.Alike : Object → Object → Prop
  | same (obj : Object) : Alike obj obj
  | clean {obj obj' : Object} (clean : obj.Clean) (clean' : obj'.Clean)
    (each : ∀ key ∈ readKeys, Option.Rel Rearranged (obj.value? key) (obj'.value? key)) : Alike obj obj'

inductive Lookup.Alike : Lookup → Lookup → Prop
  | success {v v' : Json} (h : Rearranged v v') : Alike (.success v) (.success v')
  | noSuchField : Alike .noSuchField .noSuchField
  | error : Alike .error .error

namespace Rearranged
variable {v v' : Json}

/-- Rearranged values have the same text. -/
theorem getString (h : Rearranged v v') : v.getString = v'.getString := by
  cases h <;> rfl

/-- Rearranged values are both arrays, of rearranged elements, or neither is one. -/
theorem getArray (h : Rearranged v v') :
    (∃ arr arr', v.getArray = some arr ∧ v'.getArray = some arr' ∧
      List.Forall₂ (Option.Rel Rearranged) arr arr') ∨ v.getArray = none ∧ v'.getArray = none := by
  cases h with
  | array each => exact .inl ⟨_,_,rfl,rfl,each⟩
  | object => exact .inr ⟨rfl,rfl⟩
  | same v =>
    cases v with
    | array elements =>
      refine .inl ⟨_,_,rfl,rfl,List.forall₂_same.mpr fun element _ => ?_⟩
      cases element with
      | none => exact .none
      | some w => exact .some (.same w)
    | _ => exact .inr ⟨rfl,rfl⟩

/-- Rearranged values are both objects with the same fields, or neither is one. -/
theorem getObject (h : Rearranged v v') :
    (∃ obj obj', v.getObject = some obj ∧ v'.getObject = some obj' ∧ obj.Alike obj') ∨
      v.getObject = none ∧ v'.getObject = none := by
  cases h with
  | array => exact .inr ⟨rfl,rfl⟩
  | object clean clean' each => exact .inl ⟨_,_,rfl,rfl,.clean clean clean' each⟩
  | same v =>
    cases v with
    | object obj => exact .inl ⟨_,_,rfl,rfl,.same obj⟩
    | _ => exact .inr ⟨rfl,rfl⟩

end Rearranged

namespace Object.Alike
variable {obj obj' : Object}

private theorem find (h : obj.Alike obj') (key : ByteString) (hk : key ∈ readKeys) :
    (obj.findFieldUnordered key).1.Alike (obj'.findFieldUnordered key).1 ∧
      (obj.findFieldUnordered key).2.Alike (obj'.findFieldUnordered key).2 := by
  cases h with
  | same =>
    refine ⟨?_,.same _⟩
    cases (obj.findFieldUnordered key).1 with
    | success v => exact .success (.same v)
    | noSuchField => exact .noSuchField
    | error => exact .error
  | clean clean clean' each =>
    obtain ⟨after,hfind,hp⟩ := find_value clean key
    obtain ⟨after',hfind',hp'⟩ := find_value clean' key
    rw [hfind, hfind']
    constructor
    · have hvalue := each key hk
      revert hvalue
      generalize obj.value? key = value
      generalize obj'.value? key = value'
      rintro (hv | _)
      · exact .success hv
      · exact .noSuchField
    · refine .clean (clean.perm hp) (clean'.perm hp') fun k hm => ?_
      rw [value?_perm clean hp, value?_perm clean' hp']
      exact each k hm

/-- A text field is found in both objects alike, and what is left is alike. -/
theorem stringField (h : obj.Alike obj') (key : ByteString) (hk : key ∈ readKeys) :
    (obj.stringField key).1 = (obj'.stringField key).1 ∧
      (obj.stringField key).2.Alike (obj'.stringField key).2 := by
  obtain ⟨hlookup,hafter⟩ := h.find key hk
  unfold Object.stringField
  revert hlookup hafter
  generalize obj.findFieldUnordered key = found
  generalize obj'.findFieldUnordered key = found'
  obtain ⟨lookup,after⟩ := found
  obtain ⟨lookup',after'⟩ := found'
  rintro (hv | _ | _) hafter
  · exact ⟨hv.getString,hafter⟩
  · exact ⟨rfl,hafter⟩
  · exact ⟨rfl,hafter⟩

end Object.Alike

section Items
variable {v v' : Json} {obj obj' : Object}

/-- A level object is read alike. -/
theorem Object.Alike.objectLevelTick (h : obj.Alike obj') (isBid : Bool) :
    objectLevelTick isBid obj = objectLevelTick isBid obj' := by
  obtain ⟨hprice,h⟩ := h.stringField (ascii "price") (by decide)
  obtain ⟨hsize,_⟩ := h.stringField (ascii "size") (by decide)
  simp only [Market.objectLevelTick, hprice, hsize]

/-- The hints of an entry are read alike. -/
theorem Object.Alike.entryHints (h : obj.Alike obj') : entryHints obj = entryHints obj' := by
  obtain ⟨hbid,h⟩ := h.stringField (ascii "best_bid") (by decide)
  obtain ⟨hask,_⟩ := h.stringField (ascii "best_ask") (by decide)
  simp only [Market.entryHints, hbid, hask]

/-- An entry is read alike. -/
theorem Object.Alike.changeEntry (h : obj.Alike obj') : changeEntry obj = changeEntry obj' := by
  obtain ⟨hprice,h⟩ := h.stringField (ascii "price") (by decide)
  obtain ⟨hsize,h⟩ := h.stringField (ascii "size") (by decide)
  obtain ⟨hside,h⟩ := h.stringField (ascii "side") (by decide)
  simp only [Market.changeEntry, hprice, hsize, hside, h.entryHints]

/-- An element of a book side is walked alike. -/
theorem Rearranged.objectLevelItem (h : Rearranged v v') (isBid : Bool) :
    objectLevelItem isBid v = objectLevelItem isBid v' := by
  unfold Market.objectLevelItem
  obtain ⟨obj,obj',hv,hv',halike⟩ | ⟨hv,hv'⟩ := h.getObject
  · simp only [hv, hv', halike.objectLevelTick isBid]
  · simp only [hv, hv']

/-- An element of the price changes is walked alike. -/
theorem Rearranged.changeItem (h : Rearranged v v') : changeItem v = changeItem v' := by
  unfold Market.changeItem
  obtain ⟨obj,obj',hv,hv',halike⟩ | ⟨hv,hv'⟩ := h.getObject
  · simp only [hv, hv', halike.changeEntry]
  · simp only [hv, hv']

private theorem bind_getString {e e' : Option Json} (h : Option.Rel Rearranged e e') :
    e.bind Json.getString = e'.bind Json.getString := by
  cases h with
  | some h => exact h.getString
  | none => rfl

/-- An element of the internal feed is walked alike. -/
theorem Rearranged.levelItem (h : Rearranged v v') (isBid : Bool) : levelItem isBid v = levelItem isBid v' := by
  unfold Market.levelItem
  obtain ⟨arr,arr',hv,hv',helements⟩ | ⟨hv,hv'⟩ := h.getArray
  · rw [hv, hv']
    cases helements with
    | nil => rfl
    | @cons price price' it it' hprice hit =>
      simp only [bind_getString hprice]
      cases price'.bind Json.getString with
      | none => rfl
      | some priceSv =>
        cases hit with
        | nil => rfl
        | @cons size size' _ _ hsize hrest =>
          simp only [bind_getString hsize]
          cases size'.bind Json.getString with
          | none => rfl
          | some sizeSv => cases hrest <;> rfl
  · rw [hv, hv']

private theorem mapped_rearranged {item : Json → Item} (hitem : ∀ v v', Rearranged v v' → item v = item v')
    {elements elements' : List (Option Json)} (h : List.Forall₂ (Option.Rel Rearranged) elements elements') :
    (elements.map fun v => v.elim .malformed item) = elements'.map fun v => v.elim .malformed item := by
  induction h with
  | nil => rfl
  | cons hhead _ ih =>
    rw [List.map_cons, List.map_cons, ih]
    cases hhead with
    | some h => rw [Option.elim_some, Option.elim_some, hitem _ _ h]
    | none => rfl

/-- A walked field has the same items in both objects. -/
theorem Object.Alike.fieldItems (h : obj.Alike obj') {item : Json → Item}
    (hitem : ∀ v v', Rearranged v v' → item v = item v') (field : ByteString) (hk : field ∈ readKeys) :
    (fieldItems item obj field).1 = (fieldItems item obj' field).1 ∧
      (fieldItems item obj field).2.Alike (fieldItems item obj' field).2 := by
  obtain ⟨hlookup,hafter⟩ := h.find field hk
  unfold Market.fieldItems
  revert hlookup hafter
  generalize obj.findFieldUnordered field = found
  generalize obj'.findFieldUnordered field = found'
  obtain ⟨lookup,after⟩ := found
  obtain ⟨lookup',after'⟩ := found'
  rintro (hv | _ | _) hafter
  · obtain ⟨arr,arr',ha,ha',helements⟩ | ⟨ha,ha'⟩ := hv.getArray
    · simp only [ha, ha']
      exact ⟨mapped_rearranged hitem helements,hafter⟩
    · simp only [ha, ha']
      exact ⟨trivial,hafter⟩
  · exact ⟨rfl,hafter⟩
  · exact ⟨rfl,hafter⟩

/-- Both sides have the same items. -/
theorem Object.Alike.sideItems (h : obj.Alike obj') {item : Bool → Json → Item}
    (hitem : ∀ isBid v v', Rearranged v v' → item isBid v = item isBid v') :
    sideItems item obj = sideItems item obj' := by
  obtain ⟨hbids,h⟩ := h.fieldItems (hitem true) (ascii "bids") (by decide)
  obtain ⟨hasks,_⟩ := h.fieldItems (hitem false) (ascii "asks") (by decide)
  simp only [Market.sideItems, hbids, hasks]

/-- A message is read alike. -/
theorem Object.Alike.messageItems (h : obj.Alike obj') : messageItems obj = messageItems obj' := by
  obtain ⟨hlookup,hafter⟩ := h.find (ascii "event_type") (by decide)
  unfold Market.messageItems
  revert hlookup hafter
  generalize obj.findFieldUnordered (ascii "event_type") = found
  generalize obj'.findFieldUnordered (ascii "event_type") = found'
  obtain ⟨lookup,after⟩ := found
  obtain ⟨lookup',after'⟩ := found'
  have hmock (hafter : after.Alike after') := hafter.sideItems fun isBid _ _ h => h.levelItem isBid
  rintro (hv | _ | _) hafter
  · simp only [hv.getString]
    split
    · exact hmock hafter
    · split_ifs
      · exact hafter.sideItems fun isBid _ _ h => h.objectLevelItem isBid
      · exact (hafter.fieldItems (fun _ _ h => h.changeItem) (ascii "price_changes") (by decide)).1
      · rfl
  · exact hmock hafter
  · rfl

private theorem Rearranged.batchMessages {arr arr' : List (Option Json)}
    (h : List.Forall₂ (Option.Rel Rearranged) arr arr') : arr.map batchMessage = arr'.map batchMessage := by
  induction h with
  | nil => rfl
  | cons hhead _ ih =>
    rw [List.map_cons, List.map_cons, ih]
    congr 1
    cases hhead with
    | none => rfl
    | some h =>
      simp only [batchMessage, Option.map_some]
      obtain ⟨obj,obj',hv,hv',halike⟩ | ⟨hv,hv'⟩ := h.getObject
      · rw [hv, hv', Option.elim_some, Option.elim_some, halike.messageItems]
      · rw [hv, hv']

end Items

/-- Payloads whose documents differ in their layout only have the same result and leave the same
queue, whichever way they are rejected or end the process. -/
theorem layout_irrelevant {size : Size} (iterate : ByteString → Option Json) (parser : MarketParser)
    {jsonPayload jsonPayload' : ByteString} {document document' : Json}
    (hd : Delivers iterate jsonPayload document) (hd' : Delivers iterate jsonPayload' document')
    (h : Rearranged document document') (q : SpscQueue size MarketTick) :
    parseInto iterate parser jsonPayload q = parseInto iterate parser jsonPayload' q := by
  simp only [parseInto, parseTick_eq]
  suffices hscript : script iterate parser jsonPayload = script iterate parser jsonPayload' by rw [hscript]
  cases hi : parser.initialized with
  | false => rw [script_uninitialized hi, script_uninitialized hi]
  | true =>
    rw [hd.script hi, hd'.script hi]
    cases h with
    | same => cases document <;> rfl
    | array each => exact congrArg Script.batch (Rearranged.batchMessages each)
    | object clean clean' each => exact congrArg Script.message (Object.Alike.clean clean clean' each).messageItems

def bookText : ByteString :=
  ascii "\x7b\"event_type\":\"book\",\"bids\":[\x7b\"price\":\".48\",\"size\":\"30\"\x7d,7]\x7d"

/-- Behind its bid, a defect. -/
def bookMessage : Object := [some (ascii "event_type",.string (ascii "book")),
  some (ascii "bids",.array [some (.object [some (ascii "price",.string (ascii ".48")),
    some (ascii "size",.string (ascii "30"))]),some .scalar])]

def rearrangedText : ByteString :=
  ascii "\x7b\"bids\":[\x7b\"size\":\"30\",\"price\":\".48\"\x7d,7],\"hash\":\"0\",\"event_type\":\"book\"\x7d"

def rearrangedMessage : Object := [some (ascii "bids",.array [some (.object [some (ascii "size",.string (ascii "30")),
    some (ascii "price",.string (ascii ".48"))]),some .scalar]),some (ascii "hash",.string (ascii "0")),
  some (ascii "event_type",.string (ascii "book"))]

/-- An iterator that knows both texts. -/
def bothLayouts (payload : ByteString) : Option Json :=
  if payload = bookText then some (.object bookMessage)
  else if payload = rearrangedText then some (.object rearrangedMessage)
  else none

private theorem bookMessage_rearranged : Rearranged (.object bookMessage) (.object rearrangedMessage) := by
  have hlevel : Rearranged (.object [some (ascii "price",.string (ascii ".48")),some (ascii "size",.string (ascii "30"))])
      (.object [some (ascii "size",.string (ascii "30")),some (ascii "price",.string (ascii ".48"))]) := by
    refine .object ⟨by simp,by decide⟩ ⟨by simp,by decide⟩ ?_
    simp only [readKeys, List.forall_mem_cons, List.not_mem_nil, false_imp_iff, implies_true, and_true]
    exact ⟨.none,.none,.none,.none,.some (.same _),.some (.same _),.none,.none,.none⟩
  refine .object ⟨by simp [bookMessage],by decide⟩ ⟨by simp [rearrangedMessage],by decide⟩ ?_
  simp only [readKeys, List.forall_mem_cons, List.not_mem_nil, false_imp_iff, implies_true, and_true]
  refine ⟨.some (.same _),.some (.array (.cons (.some hlevel) (.cons (.some (.same _)) .nil))),.none,.none,.none,
    .none,.none,.none,.none⟩

theorem bookMessage_layouts : parseInto bothLayouts (construct true) bookText newQueue.queue =
    parseInto bothLayouts (construct true) rearrangedText newQueue.queue := by
  apply layout_irrelevant bothLayouts (construct true) _ _ bookMessage_rearranged
  · exact ⟨by decide,by decide,if_pos rfl⟩
  · exact ⟨by decide,by decide,(if_neg (by decide)).trans (if_pos rfl)⟩

end PredictionMarket.Market

import PredictionMarket.Market.ParserQueue

/-! How many ticks one payload can hold. Each tick is paid for by the bytes of the level
or entry it comes from, so a payload that passes the length check fits an empty queue. -/
namespace PredictionMarket.Market
open Queue MarketParser

/-- Brackets and separators of a container. Of one that iteration cannot pass, only the
opening bracket is certain to be there. -/
def punctuation {α : Type} (elements : List (Option α)) : Nat :=
  if elements.all Option.isSome then max 2 (elements.length + 1) else 1

mutual

/-- Bytes of the compact rendering. An escaped byte takes at least one byte, and so does
a number or a literal. -/
def Json.rendered : Json → Nat
  | .scalar => 1
  | .string unescaped => unescaped.length + 2
  | .array elements => punctuation elements + renderedElements elements
  | .object fields => punctuation fields + renderedFields fields

def renderedElements : List (Option Json) → Nat
  | [] => 0
  | v :: rest => renderedElement v + renderedElements rest

def renderedElement : Option Json → Nat
  | none => 0
  | some v => v.rendered

def renderedFields : List (Option (ByteString × Json)) → Nat
  | [] => 0
  | field :: rest => renderedField field + renderedFields rest

def renderedField : Option (ByteString × Json) → Nat
  | none => 0
  | some field => renderedMember field

def renderedMember : ByteString × Json → Nat
  | (name,v) => name.length + 3 + v.rendered

end

namespace Object

/-- Bytes of the members with this name. -/
def bytesOf (key : ByteString) : Object → Nat
  | [] => 0
  | field :: rest => (if field.any (·.1 = key) then renderedField field else 0) + bytesOf key rest

private theorem bytesOf_append (key : ByteString) (xs ys : Object) :
    bytesOf key (xs ++ ys) = bytesOf key xs + bytesOf key ys := by
  induction xs with
  | nil => simp [bytesOf]
  | cons field xs ih => rw [List.cons_append, bytesOf, bytesOf, ih, Nat.add_assoc]

private theorem named_once (field : Option (ByteString × Json)) {keys : List ByteString} (h : keys.Nodup) :
    (keys.map fun key => if field.any (·.1 = key) then renderedField field else 0).sum ≤
      renderedField field := by
  induction keys with
  | nil => exact Nat.zero_le _
  | cons key keys ih =>
    rw [List.nodup_cons] at h
    rw [List.map_cons, List.sum_cons]
    split_ifs with hk
    · have hzero : (keys.map fun key => if field.any (·.1 = key) then renderedField field else 0).sum = 0 := by
        apply List.sum_eq_zero
        intro n hn
        obtain ⟨other,ho,rfl⟩ := List.mem_map.mp hn
        apply if_neg
        intro hf
        cases field with
        | none => cases hk
        | some field =>
          simp only [Option.any_some, decide_eq_true_iff] at hk hf
          exact h.1 (hk.symm.trans hf ▸ ho)
      omega
    · have := ih h.2
      omega

/-- Members with different names do not share bytes. -/
theorem sum_bytesOf_le (obj : Object) {keys : List ByteString} (h : keys.Nodup) :
    (keys.map fun key => bytesOf key obj).sum ≤ renderedFields obj := by
  induction obj with
  | nil => simp [bytesOf]
  | cons field rest ih =>
    simp only [bytesOf, renderedFields, List.sum_map_add]
    exact Nat.add_le_add (named_once field h) ih

private theorem search_bytes (key : ByteString) (skipped obj : Object) :
    (∀ other, bytesOf other (search key skipped obj).2 ≤ bytesOf other (skipped ++ obj)) ∧
      ∀ v, (search key skipped obj).1 = .success v →
        key.length + 3 + v.rendered ≤ bytesOf key (skipped ++ obj) := by
  -- What a search does to the bytes of an object: it loses none but to an error, and what it finds is a
  -- member with that name.
  induction obj generalizing skipped with
  | nil =>
    refine ⟨fun other => ?_,fun v h => ?_⟩
    · rw [search, List.append_nil]
    · cases h
  | cons field rest ih =>
    cases field with
    | none =>
      refine ⟨fun other => ?_,fun v h => ?_⟩
      · simp [search, bytesOf]
      · cases h
    | some field =>
      obtain ⟨name,value⟩ := field
      by_cases hk : name = key
      · rw [search, if_pos hk]
        refine ⟨fun other => ?_,fun v h => ?_⟩
        · simp only [bytesOf_append, bytesOf]
          omega
        · cases h
          simp only [bytesOf_append, bytesOf, Option.any_some, hk, decide_true, if_true, renderedField,
            renderedMember]
          omega
      · rw [search, if_neg hk]
        have hi := ih (skipped ++ [some (name,value)])
        rw [List.append_assoc, List.singleton_append] at hi
        exact hi

private theorem findFieldUnordered_bytes (obj : Object) (key other : ByteString) :
    bytesOf other (obj.findFieldUnordered key).2 ≤ bytesOf other obj :=
  (search_bytes key [] obj).1 other

private theorem findFieldUnordered_success {obj : Object} {key : ByteString} {v : Json}
    (h : (obj.findFieldUnordered key).1 = .success v) :
    key.length + 3 + v.rendered ≤ bytesOf key obj := (search_bytes key [] obj).2 v h

private theorem stringField_bytes (obj : Object) (key other : ByteString) :
    bytesOf other (obj.stringField key).2 ≤ bytesOf other obj := by
  have hb := findFieldUnordered_bytes obj key other
  unfold stringField
  rcases hf : obj.findFieldUnordered key with ⟨v | _ | _,next⟩ <;> rw [hf] at hb <;> exact hb

private theorem stringField_some {obj : Object} {key sv : ByteString} (h : (obj.stringField key).1 = some sv) :
    key.length + 5 + sv.length ≤ bytesOf key obj := by
  have hs := @findFieldUnordered_success obj key
  unfold stringField at h
  rcases hf : obj.findFieldUnordered key with ⟨v | _ | _,next⟩ <;> rw [hf] at h hs
  · cases v with
    | string unescaped =>
      cases h
      have := hs rfl
      rw [Json.rendered] at this
      omega
    | _ => cases h
  · cases h
  · cases h

end Object

private theorem levelTick_texts {priceSv sizeSv : ByteString} {isBid : Bool} {tick : MarketTick}
    (h : levelTick priceSv sizeSv isBid = some tick) : 0 < priceSv.length ∧ 0 < sizeSv.length := by
  obtain ⟨cents,size,hp,_,hs,_⟩ := levelTick_eq_some h
  constructor
  · cases priceSv with
    | nil => cases hp
    | cons _ _ => exact Nat.succ_pos _
  · cases sizeSv with
    | nil => cases hs
    | cons _ _ => exact Nat.succ_pos _

/-- The item of an element is paid for by the element. -/
def Paid (item : Json → Item) : Prop := ∀ v, 9 * (item v).ticks.length ≤ v.rendered

private theorem getString_some {v : Option Json} {sv : ByteString}
    (h : v.bind Json.getString = some sv) : v = some (.string sv) := by
  obtain ⟨v,rfl,hs⟩ := Option.bind_eq_some_iff.mp h
  cases v with
  | string unescaped => rw [Option.some.inj hs]
  | _ => cases hs

private theorem toList_paid {tick? : Option MarketTick} {cost : Nat}
    (h : ∀ tick, tick? = some tick → 9 ≤ cost) : 9 * tick?.toList.length ≤ cost := by
  cases tick? with
  | none => exact Nat.zero_le _
  | some tick => exact h tick rfl

/-- A pair of one-byte texts is as short as a level gets. -/
theorem levelItem_paid (isBid : Bool) : Paid (levelItem isBid) := by
  intro v
  fun_cases levelItem isBid v with
  | case7 price priceSv size hp sizeSv hs hv =>
    cases v with
    | array elements =>
      cases hv
      rw [getString_some hp, getString_some hs]
      apply toList_paid
      intro tick ht
      have := levelTick_texts ht
      simp only [Json.rendered, punctuation, renderedElements, renderedElement, List.all_cons, List.all_nil,
        Option.isSome_some, Bool.and_self, if_true, List.length_cons, List.length_nil]
      omega
    | _ => cases hv
  | _ => exact Nat.zero_le _

private theorem price_paid {obj : Object} {priceSv sizeSv : ByteString} {isBid : Bool} {tick : MarketTick}
    (hp : (obj.stringField (ascii "price")).1 = some priceSv)
    (ht : levelTick priceSv sizeSv isBid = some tick) : 11 ≤ obj.bytesOf (ascii "price") := by
  have hb := Object.stringField_some hp
  have := levelTick_texts ht
  change 5 + 5 + priceSv.length ≤ _ at hb
  omega

private theorem objectLevelItem_paid (isBid : Bool) : Paid (objectLevelItem isBid) := by
  intro v
  cases v with
  | object levelObj =>
    apply toList_paid
    intro tick ht
    simp only [objectLevelTick, Option.bind_eq_some_iff] at ht
    obtain ⟨priceSv,hp,sizeSv,_,ht⟩ := ht
    have hb := price_paid hp ht
    have hsum := Object.sum_bytesOf_le levelObj (List.nodup_singleton (ascii "price"))
    rw [List.map_singleton, List.sum_singleton] at hsum
    rw [Json.rendered]
    omega
  | _ => exact Nat.zero_le _

private theorem entryHints_length (changeObj : Object) : (entryHints changeObj).length ≤ 2 := by
  have hone (o : Option MarketTick) : o.toList.length ≤ 1 := by cases o <;> simp
  simp only [entryHints, List.length_append]
  exact Nat.add_le_add (hone _) (hone _)

private theorem sideIsBid_length {sideSv : ByteString} {isBid : Bool} (h : sideIsBid sideSv = some isBid) :
    3 ≤ sideSv.length := by
  unfold sideIsBid at h
  split_ifs at h with hbuy hsell
  · rw [hbuy]
    decide
  · rw [hsell]
    decide

/-- Price, size and side pay for the tick of an entry and both of its hints. -/
theorem changeItem_paid : Paid changeItem := by
  intro v
  cases v with
  | object changeObj =>
    simp only [changeItem, Json.getObject]
    cases he : changeEntry changeObj with
    | none => exact Nat.zero_le _
    | some entry =>
      simp only [changeEntry, Option.bind_eq_some_iff, Option.map_eq_some_iff] at he
      obtain ⟨priceSv,hp,sizeSv,hs,isBid,⟨sideSv,hside,hbid⟩,tick,ht,rfl⟩ := he
      have hkeys : [ascii "price",ascii "size",ascii "side"].Nodup := by decide
      have hsum := Object.sum_bytesOf_le changeObj hkeys
      simp only [List.map_cons, List.map_nil, List.sum_cons, List.sum_nil] at hsum
      have hprice := price_paid hp ht
      have hsize := (Object.stringField_some hs).trans (Object.stringField_bytes changeObj _ _)
      have hsideBytes := (Object.stringField_some hside).trans
        ((Object.stringField_bytes _ _ _).trans (Object.stringField_bytes changeObj _ _))
      have htexts := levelTick_texts ht
      have hthree := sideIsBid_length hbid
      change 4 + 5 + sizeSv.length ≤ _ at hsize
      change 4 + 5 + sideSv.length ≤ _ at hsideBytes
      have hhints := entryHints_length (Object.stringField (Object.stringField
        (Object.stringField changeObj (ascii "price")).2 (ascii "size")).2 (ascii "side")).2
      simp only [Option.elim_some, Item.ticks, Entry.ticks, List.length_cons, Json.rendered]
      omega
  | _ => exact Nat.zero_le _

/-- The ticks that the items of a message can emit. -/
def tickCount (items : List Item) : Nat := (items.map fun item => item.ticks.length).sum

private theorem tickCount_append (xs ys : List Item) :
    tickCount (xs ++ ys) = tickCount xs + tickCount ys := by
  rw [tickCount, List.map_append, List.sum_append]
  rfl

private theorem runItems_count (items : List Item) : (runItems items).2.length ≤ tickCount items := by
  induction items with
  | nil => exact Nat.zero_le _
  | cons item items ih =>
    rw [tickCount, List.map_cons, List.sum_cons]
    cases item with
    | emits ticks =>
      rw [runItems, List.length_append]
      exact Nat.add_le_add_left ih _
    | defect => exact Nat.zero_le _
    | malformed => exact Nat.zero_le _

private theorem elements_paid {item : Json → Item} (h : Paid item) (elements : List (Option Json)) :
    9 * tickCount (elements.map fun v => v.elim .malformed item) ≤ renderedElements elements := by
  induction elements with
  | nil => exact Nat.zero_le _
  | cons v rest ih =>
    rw [tickCount, List.map_cons, List.map_cons, List.sum_cons, Nat.mul_add, renderedElements]
    apply Nat.add_le_add _ ih
    cases v with
    | none => exact Nat.zero_le _
    | some v => exact h v

private theorem fieldItems_paid {item : Json → Item} (h : Paid item) (obj : Object) (field : ByteString) :
    9 * tickCount (fieldItems item obj field).1 ≤ obj.bytesOf field ∧
      ∀ other, Object.bytesOf other (fieldItems item obj field).2 ≤ obj.bytesOf other := by
  have hb := Object.findFieldUnordered_bytes obj field
  have hs := @Object.findFieldUnordered_success obj field
  unfold fieldItems
  rcases hf : obj.findFieldUnordered field with ⟨v | _ | _,next⟩ <;> rw [hf] at hb hs
  · have hv := hs rfl
    cases v with
    | array elements =>
      refine ⟨?_,hb⟩
      rw [Json.rendered] at hv
      have := elements_paid h elements
      simp only [Json.getArray]
      omega
    | _ => exact ⟨Nat.zero_le _,hb⟩
  · exact ⟨Nat.zero_le _,hb⟩
  · exact ⟨Nat.zero_le _,hb⟩

private theorem sideItems_paid {item : Bool → Json → Item} (h : ∀ isBid, Paid (item isBid)) (obj : Object) :
    9 * tickCount (sideItems item obj) ≤ obj.bytesOf (ascii "bids") + obj.bytesOf (ascii "asks") := by
  rw [sideItems, tickCount_append, Nat.mul_add]
  have hbids := fieldItems_paid (h true) obj (ascii "bids")
  have hasks := fieldItems_paid (h false) (fieldItems (item true) obj (ascii "bids")).2 (ascii "asks")
  exact Nat.add_le_add hbids.1 (hasks.1.trans (hbids.2 _))

/-- A message pays for its items, whichever schema its walker follows. -/
theorem messageItems_paid (obj : Object) : 9 * tickCount (messageItems obj) ≤ renderedFields obj := by
  have hsides (item : Bool → Json → Item) (h : ∀ isBid, Paid (item isBid)) (next : Object)
      (hn : ∀ other, next.bytesOf other ≤ obj.bytesOf other) :
      9 * tickCount (sideItems item next) ≤ renderedFields obj := by
    have hkeys : [ascii "bids",ascii "asks"].Nodup := by decide
    have hsum := Object.sum_bytesOf_le obj hkeys
    simp only [List.map_cons, List.map_nil, List.sum_cons, List.sum_nil, Nat.add_zero] at hsum
    exact (sideItems_paid h next).trans ((Nat.add_le_add (hn _) (hn _)).trans hsum)
  have hb := Object.findFieldUnordered_bytes obj (ascii "event_type")
  unfold messageItems
  rcases hf : obj.findFieldUnordered (ascii "event_type") with ⟨v | _ | _,next⟩ <;> rw [hf] at hb
  · simp only []
    cases v.getString with
    | none => exact hsides levelItem levelItem_paid next hb
    | some eventType =>
      simp only []
      split_ifs
      · exact hsides objectLevelItem objectLevelItem_paid next hb
      · have hchanges := (fieldItems_paid changeItem_paid next (ascii "price_changes")).1
        have hsum := Object.sum_bytesOf_le obj (List.nodup_singleton (ascii "price_changes"))
        rw [List.map_singleton, List.sum_singleton] at hsum
        exact hchanges.trans ((hb _).trans hsum)
      · exact Nat.zero_le _
  · exact hsides levelItem levelItem_paid next hb
  · exact Nat.zero_le _

/-- A batch pays for the ticks of its messages. -/
theorem runBatch_paid (arr : List (Option Json)) :
    9 * (runBatch (arr.map batchMessage)).2.length ≤ renderedElements arr := by
  induction arr with
  | nil => exact Nat.zero_le _
  | cons v rest ih =>
    cases v with
    | none => exact Nat.zero_le _
    | some v =>
      have hv : 9 * (runItems (v.getObject.elim [] messageItems)).2.length ≤ v.rendered := by
        cases v with
        | object obj =>
          have hrun := runItems_count (messageItems obj)
          have hpaid := messageItems_paid obj
          rw [Json.rendered, Json.getObject, Option.elim_some]
          omega
        | _ => exact Nat.zero_le _
      rw [List.map_cons, batchMessage, Option.map_some, runBatch, renderedElements, renderedElement]
      rcases hr : runItems (v.getObject.elim [] messageItems) with ⟨_ | _,ticks⟩ <;> rw [hr] at hv
      · simp only [List.length_append, Nat.mul_add]
        exact Nat.add_le_add hv ih
      · exact hv.trans (Nat.le_add_right _ _)

private theorem payload_paid (iterate : ByteString → Option Json) (parser : MarketParser)
    (jsonPayload : ByteString)
    (compact : ∀ doc, iterate jsonPayload = some doc → doc.rendered ≤ jsonPayload.length) :
    9 * (script iterate parser jsonPayload).run.2.length ≤ jsonPayload.length := by
  unfold script
  split_ifs
  · exact Nat.zero_le _
  · exact Nat.zero_le _
  · cases hd : iterate jsonPayload with
    | none => exact Nat.zero_le _
    | some doc =>
      apply le_trans _ (compact doc hd)
      cases doc with
      | object obj =>
        have hrun := runItems_count (messageItems obj)
        have hpaid := messageItems_paid obj
        rw [Json.rendered]
        simp only [Script.run]
        omega
      | array arr => exact (runBatch_paid arr).trans (Nat.le_add_left _ _)
      | scalar => exact Nat.zero_le _
      | string unescaped => exact Nat.zero_le _

/-- A payload pays nine bytes for each of its ticks. -/
theorem payloadTicks_paid (iterate : ByteString → Option Json)
    (compact : ∀ payload doc, iterate payload = some doc → doc.rendered ≤ payload.length)
    (parser : MarketParser) (jsonPayload : ByteString) :
    9 * (payloadTicks iterate parser jsonPayload).length ≤ jsonPayload.length := by
  rw [payloadTicks_eq]
  exact payload_paid iterate parser jsonPayload (compact jsonPayload)

private theorem script_too_long (iterate : ByteString → Option Json) (parser : MarketParser)
    {jsonPayload : ByteString} (h : kMaxPayloadBytes < jsonPayload.length) :
    script iterate parser jsonPayload = .refused := by
  unfold script
  by_cases hi : parser.initialized = false
  · exact if_pos hi
  · rw [if_neg hi, if_pos (Or.inr h)]

/-- A queue under observation: how many elements the consumer takes before each of the
next calls of `push`, and what the calls so far returned. -/
structure Watched (size : Size) where
  queue : SpscQueue size MarketTick
  takes : List Nat
  results : List Bool

namespace Watched
variable {size : Size}

def drain (q : SpscQueue size MarketTick) : Nat → SpscQueue size MarketTick
  | 0 => q
  | n + 1 => drain q.pop.2.2 n

def push (w : Watched size) (tick : MarketTick) : Bool × Watched size :=
  let (ok, queue) := (drain w.queue (w.takes.headD 0)).push tick
  (ok, ⟨queue,w.takes.tail,w.results ++ [ok]⟩)

private theorem drain_represents {q : SpscQueue size MarketTick} {items : List MarketTick}
    (h : q.Represents items) (n : Nat) : (drain q n).Represents (items.drop n) := by
  induction n generalizing q items with
  | zero => exact h
  | succ n ih =>
    cases items with
    | nil =>
      rw [drain, h.pop_empty, List.drop_nil]
      have hi := ih h
      rwa [List.drop_nil] at hi
    | cons item items => exact ih h.pop_cons.2.2

private theorem pushAll_results {w : Watched size} {items : List MarketTick} (h : w.queue.Represents items)
    (ticks : List MarketTick) (room : items.length + ticks.length ≤ size.value) :
    (pushAll push w ticks).results = w.results ++ List.replicate ticks.length true := by
  induction ticks generalizing w items with
  | nil => exact (List.append_nil _).symm
  | cons tick ticks ih =>
    rw [List.length_cons] at room
    have hd := drain_represents h (w.takes.headD 0)
    have hlen : (items.drop (w.takes.headD 0)).length ≤ items.length := by
      rw [List.length_drop]
      exact Nat.sub_le _ _
    obtain ⟨hok,hnext⟩ := hd.push_room (by omega) tick
    have hi := ih (w := (w.push tick).2) hnext (by rw [List.length_append, List.length_singleton]; omega)
    have hresult : (w.push tick).2.results = w.results ++ [true] := congrArg (w.results ++ [·]) hok
    rw [hresult, List.append_assoc] at hi
    exact hi

end Watched

namespace MarketParser

/-- One payload never overflows an empty queue, whatever the consumer takes meanwhile: each
tick costs nine bytes of the payload, and no call of `push` fails. -/
theorem payload_fits_queue (iterate : ByteString → Option Json)
    (compact : ∀ payload doc, iterate payload = some doc → doc.rendered ≤ payload.length)
    (parser : MarketParser) (jsonPayload : ByteString) (q : SpscQueue kTickQueueSize MarketTick)
    (empty : q.Represents []) (takes : List Nat) :
    let results := (parseTick Watched.push iterate parser jsonPayload ⟨q,takes,[]⟩).2.results
    results.length ≤ jsonPayload.length / 9 ∧ results.length < kTickQueueSize.value ∧
      ∀ ok ∈ results, ok = true := by
  have hpaid := payload_paid iterate parser jsonPayload (compact jsonPayload)
  have hlimit : (script iterate parser jsonPayload).run.2.length < kTickQueueSize.value := by
    by_cases hlen : jsonPayload.length ≤ kMaxPayloadBytes
    · have : kMaxPayloadBytes = kTickQueueSize.value := rfl
      have := kTickQueueSize.atLeastTwo
      omega
    · rw [script_too_long iterate parser (Nat.not_le.mp hlen)]
      exact Nat.zero_lt_of_lt kTickQueueSize.atLeastTwo
  have hresults : (parseTick Watched.push iterate parser jsonPayload ⟨q,takes,[]⟩).2.results =
      List.replicate (script iterate parser jsonPayload).run.2.length true := by
    rw [parseTick_eq]
    apply Watched.pushAll_results empty
    rw [List.length_nil]
    omega
  intro results
  rw [show results = _ from hresults, List.length_replicate]
  refine ⟨by omega,hlimit,?_⟩
  intro ok hok
  exact List.eq_of_mem_replicate hok

/-- Levels as short as they get. -/
def shortLevelsText : ByteString := ascii "\x7b\"bids\":[[\"0\",\"0\"],[\"1\",\"0\"],[\"2\",\"7\"]]\x7d"

def shortLevels : Json :=
  .object [some (ascii "bids",.array [pair "0" "0",pair "1" "0",pair "2" "7"])]

/-- Three levels in 40 bytes, with a consumer that takes one of them early. -/
theorem shortLevels_fit :
    let results := (parseTick Watched.push (Json.only shortLevelsText shortLevels) (construct true)
      shortLevelsText ⟨.new kTickQueueSize MarketTick 0,[0,1],[]⟩).2.results
    results.length ≤ shortLevelsText.length / 9 ∧ results.length < kTickQueueSize.value ∧
      ∀ ok ∈ results, ok = true := by
  apply payload_fits_queue
  · intro payload doc h
    unfold Json.only at h
    split_ifs at h with hp
    · cases h
      rw [hp]
      decide
  · exact .new 0

end MarketParser
end PredictionMarket.Market

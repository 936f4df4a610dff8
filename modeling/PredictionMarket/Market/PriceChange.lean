import PredictionMarket.Market.BookSnapshot
import PredictionMarket.Foundation.Provisional

/-! Price changes and their top-of-book hints. A hint writes size one over whatever its
level holds, so it respects announced depth only under a condition on the message. -/
namespace PredictionMarket.Market
open Foundation.LastWrite Foundation.Provisional MarketParser

/-- A tick of a price change, and whether it stems from a hint. -/
structure Update where
  tick : MarketTick
  isHint : Bool
  deriving DecidableEq

def Entry.updates (e : Entry) : List Update := ⟨e.announced,false⟩ :: e.hints.map fun hint => ⟨hint,true⟩

/-- The valid entries among the elements, up to one that is not an object. -/
def validEntries : List (Option Json) → List Entry
  | some (.object changeObj) :: rest => (changeEntry changeObj).toList ++ validEntries rest
  | _ => []

/-- The updates of a price change, read off its `price_changes` field. -/
def priceChangeUpdates (body : Object) : List Update :=
  match body.findFieldUnordered (ascii "price_changes") with
  | (.success (.array elements), _) => (validEntries elements).flatMap Entry.updates
  | _ => []

private theorem entry_updates_ticks (e : Entry) : e.updates.map Update.tick = e.ticks := by
  simp [Entry.updates, Entry.ticks, Function.comp_def]

private theorem run_entries (elements : List (Option Json)) :
    (runItems (elements.map fun v => v.elim .malformed changeItem)).2 =
      ((validEntries elements).flatMap Entry.updates).map Update.tick := by
  induction elements with
  | nil => rfl
  | cons v rest ih =>
    match v with
    | none => rfl
    | some .scalar => rfl
    | some (.string _) => rfl
    | some (.array _) => rfl
    | some (.object changeObj) =>
      rw [List.map_cons, Option.elim_some, changeItem, Json.getObject, validEntries, List.flatMap_append,
        List.map_append, ← ih]
      cases hc : changeEntry changeObj with
      | none => simp [runItems, hc]
      | some e => simp [runItems, hc, entry_updates_ticks]

/-- Parsing a price change emits exactly its updates. -/
theorem messageTicks_eq_updates {obj body : Object}
    (h : obj.stringField (ascii "event_type") = (some (ascii "price_change"), body)) :
    messageTicks obj = (priceChangeUpdates body).map Update.tick := by
  rw [messageTicks_eq, messageItems_of_type h, if_neg (by decide), if_pos rfl, fieldItems,
    priceChangeUpdates]
  match body.findFieldUnordered (ascii "price_changes") with
  | (.noSuchField, _) => rfl
  | (.error, _) => rfl
  | (.success .scalar, _) => rfl
  | (.success (.string _), _) => rfl
  | (.success (.object _), _) => rfl
  | (.success (.array elements), _) => exact run_entries elements

private theorem Entry.hint_size {entries : List Entry} {hint : MarketTick}
    (h : ⟨hint,true⟩ ∈ entries.flatMap Entry.updates) : hint.size = 1 := by
  obtain ⟨e,_,hu⟩ := List.mem_flatMap.mp h
  rcases List.mem_cons.mp hu with hc | hm
  · cases hc
  · obtain ⟨_,hh,he⟩ := List.mem_map.mp hm
    cases he
    exact e.hintsUnit _ hh

/-- Every hint of a message has size one. -/
theorem hint_size {body : Object} {hint : MarketTick} (h : ⟨hint,true⟩ ∈ priceChangeUpdates body) :
    hint.size = 1 := by
  unfold priceChangeUpdates at h
  split at h
  · exact Entry.hint_size h
  · cases h

/-- The size last announced for a level, hints not counted. -/
def lastAnnounced (updates : List Update) : Level → Option UInt32 :=
  last? (updates.filterMap fun u => if u.isHint then none else u.tick.write?)

/-- An announced level ends with the size last announced for it, and a hint changes a
level only where it is empty. -/
structure HintsRespectDepth (book : LimitOrderBook) (updates : List Update) : Prop where
  final : ∀ level size, lastAnnounced updates level = some size →
    (book.applyTicks (updates.map Update.tick)).sizeAt level = size
  fills : ∀ before hint after level, updates = before ++ ⟨hint,true⟩ :: after →
    hint.level? = some level → (book.applyTicks (before.map Update.tick)).sizeAt level ≠ 0 →
      ((book.applyTicks (before.map Update.tick)).applyTick hint).sizeAt level =
        (book.applyTicks (before.map Update.tick)).sizeAt level

/-- Each hint comes after its level was last announced with size one, or with size zero
and an announcement still to follow; unless announced before, the level was empty or of
size one on the earlier book. -/
def HintsHarmless (book : LimitOrderBook) (updates : List Update) : Prop :=
  ∀ before hint after level, updates = before ++ ⟨hint,true⟩ :: after → hint.level? = some level →
    (∀ size, lastAnnounced before level = some size →
      size = 1 ∨ size = 0 ∧ (lastAnnounced after level).isSome) ∧
    (lastAnnounced before level = none → book.sizeAt level = 0 ∨ book.sizeAt level = 1)

/-- An update as an event of the store that the book is; off the book it is none. -/
def Update.event? (u : Update) : Option (Event Level UInt32) :=
  u.tick.level?.map fun level => if u.isHint then .hint level else .assign level u.tick.size

private theorem Update.write_event? {u : Update} (h : u.isHint = true → u.tick.size = 1) :
    u.event?.map (Event.write 1) = u.tick.write? := by
  unfold event? MarketTick.write?
  cases u.tick.level? with
  | none => rfl
  | some level =>
    cases hh : u.isHint with
    | false => rfl
    | true => rw [h hh]; rfl

private theorem Update.assigned_event? (u : Update) :
    u.event?.bind Event.assigned? = if u.isHint then none else u.tick.write? := by
  unfold event? MarketTick.write?
  cases u.tick.level? <;> cases u.isHint <;> rfl

def events (updates : List Update) : List (Event Level UInt32) := updates.filterMap Update.event?

private theorem events_split {before after : List Update} {hint : MarketTick} {level : Level}
    (hl : hint.level? = some level) :
    events (before ++ ⟨hint,true⟩ :: after) = events before ++ .hint level :: events after := by
  have he : Update.event? ⟨hint,true⟩ = some (.hint level) := by rw [Update.event?, hl]; rfl
  rw [events, List.filterMap_append, List.filterMap_cons_some he]
  rfl

/-- A hint event stems from a hint. -/
theorem split_of_events {updates : List Update} {eb ea : List (Event Level UInt32)} {level : Level}
    (h : events updates = eb ++ .hint level :: ea) : ∃ before hint after,
      updates = before ++ ⟨hint,true⟩ :: after ∧ hint.level? = some level ∧
        events before = eb ∧ events after = ea := by
  obtain ⟨us,vs,rfl,hb,hv⟩ := List.filterMap_eq_append_iff.mp h
  obtain ⟨skipped,u,after,rfl,hs,hu,ha⟩ := List.filterMap_eq_cons_iff.mp hv
  obtain ⟨found,hf,hk⟩ := Option.map_eq_some_iff.mp hu
  rcases u with ⟨hint,_ | _⟩
  · cases hk
  · cases hk
    refine ⟨us ++ skipped,hint,after,by simp,hf,?_,ha⟩
    rw [events, List.filterMap_append, List.filterMap_eq_nil_iff.mpr hs, List.append_nil]
    exact hb

private theorem lastAssigned_events (updates : List Update) :
    lastAssigned (events updates) = lastAnnounced updates := by
  rw [lastAssigned, lastAnnounced, events, List.filterMap_filterMap]
  simp only [Update.assigned_event?]

/-- The book after updates is the store after their events. -/
theorem sizeAt_updates (book : LimitOrderBook) {updates : List Update}
    (hu : ∀ hint, ⟨hint,true⟩ ∈ updates → hint.size = 1) :
    (book.applyTicks (updates.map Update.tick)).sizeAt = run 1 book.sizeAt (events updates) := by
  rw [LimitOrderBook.sizeAt_applyTicks, run, events, List.filterMap_map, List.map_filterMap]
  apply congrArg (writes book.sizeAt)
  apply List.filterMap_congr
  intro u hm
  rw [Update.write_event?]
  · rfl
  · intro hh
    exact hu u.tick (by rwa [← hh])

private theorem hintsHarmless_iff (book : LimitOrderBook) (updates : List Update) :
    HintsHarmless book updates ↔ Harmless 1 book.sizeAt 0 (events updates) := by
  constructor
  · intro h eb level ea he
    obtain ⟨before,hint,after,hs,hl,rfl,rfl⟩ := split_of_events he
    simpa only [lastAssigned_events] using h before hint after level hs hl
  · intro h before hint after level hs hl
    simpa only [lastAssigned_events] using
      h (events before) level (events after) (by rw [hs, events_split hl])

private theorem hintsRespectDepth_iff (book : LimitOrderBook) {updates : List Update}
    (hu : ∀ hint, ⟨hint,true⟩ ∈ updates → hint.size = 1) :
    HintsRespectDepth book updates ↔ Undisturbed 1 book.sizeAt 0 (events updates) := by
  -- Both sides speak of the same stores, before a hint and behind it.
  have hbefore : ∀ before after, updates = before ++ after →
      (book.applyTicks (before.map Update.tick)).sizeAt = run 1 book.sizeAt (events before) :=
    fun before after hs => sizeAt_updates book fun hint hm => hu hint (hs ▸ List.mem_append_left _ hm)
  have hbehind : ∀ before hint after level, updates = before ++ ⟨hint,true⟩ :: after →
      hint.level? = some level →
      ((book.applyTicks (before.map Update.tick)).applyTick hint).sizeAt =
        run 1 book.sizeAt (events before ++ [.hint level]) := by
    intro before hint after level hs hl
    have hb := hbefore (before ++ [⟨hint,true⟩]) after (by rw [hs, List.append_cons])
    rwa [events_split hl, List.map_append, LimitOrderBook.applyTicks_append] at hb
  have hall := hbefore updates [] (List.append_nil _).symm
  constructor
  · rintro ⟨final,fills⟩
    constructor
    · intro level size hl
      rw [← hall]
      exact final level size (by rwa [← lastAssigned_events])
    · intro eb level ea he hne
      obtain ⟨before,hint,after,hs,hl,rfl,rfl⟩ := split_of_events he
      have hf := fills before hint after level hs hl
      rw [hbehind before hint after level hs hl, hbefore before _ hs] at hf
      exact hf hne
  · rintro ⟨final,fills⟩
    constructor
    · intro level size hl
      rw [hall]
      exact final level size (by rwa [lastAssigned_events])
    · intro before hint after level hs hl hne
      rw [hbefore before _ hs] at hne
      rw [hbehind before hint after level hs hl, hbefore before _ hs]
      exact fills (events before) level (events after) (by rw [hs, events_split hl]) hne

/-- Hints respect the announced depth exactly for the messages and books on which every
hint is harmless. -/
theorem hints_respect_depth_iff (book : LimitOrderBook) {obj body : Object}
    (h : obj.stringField (ascii "event_type") = (some (ascii "price_change"), body)) :
    messageTicks obj = (priceChangeUpdates body).map Update.tick ∧
      (HintsRespectDepth book (priceChangeUpdates body) ↔
        HintsHarmless book (priceChangeUpdates body)) := by
  refine ⟨messageTicks_eq_updates h,?_⟩
  rw [hintsRespectDepth_iff book fun _ => hint_size, hintsHarmless_iff]
  exact undisturbed_iff (by decide)

/-- An entry with both hints, on the buy side. -/
def hintedEntry (price size bestBid bestAsk : String) : Option Json := some (.object [
  some (ascii "price",.string (ascii price)),some (ascii "size",.string (ascii size)),
  some (ascii "side",.string (ascii "BUY")),some (ascii "best_bid",.string (ascii bestBid)),
  some (ascii "best_ask",.string (ascii bestAsk))])

def priceChange (entries : List (Option Json)) : Object :=
  [some (ascii "event_type",.string (ascii "price_change")),some (ascii "price_changes",.array entries)]

/-- A bid of 200 at fifty cents whose hints name the same bid and an ask at sixty. -/
def selfHinted : Object := priceChange [hintedEntry "0.5" "200" "0.5" "0.6"]

def fiftyBid : Level := (true,⟨50,by decide⟩)

/-- The bid is announced with size 200, hinted at by its own entry, and left with size one. -/
theorem hint_overwrites_entry :
    lastAnnounced (priceChangeUpdates (selfHinted.stringField (ascii "event_type")).2) fiftyBid =
      some 200 ∧
    (LimitOrderBook.empty.applyTicks (messageTicks selfHinted)).sizeAt fiftyBid = 1 ∧
    ¬ HintsRespectDepth .empty
      (priceChangeUpdates (selfHinted.stringField (ascii "event_type")).2) := by
  have hl : lastAnnounced (priceChangeUpdates (selfHinted.stringField (ascii "event_type")).2) fiftyBid =
      some 200 := by decide
  exact ⟨hl,by decide +kernel,fun h => absurd (h.final _ _ hl) (by decide +kernel)⟩

/-- The same entry, hinting at a bid one cent below it and at an ask. -/
def besideHinted : Object := priceChange [hintedEntry "0.5" "200" "0.49" "0.6"]

/-- Both hints put a level where there was none, and the announced bid keeps its size. -/
theorem besideHinted_respects :
    priceChangeUpdates (besideHinted.stringField (ascii "event_type")).2 =
        [⟨⟨50,200,true⟩,false⟩,⟨⟨49,1,true⟩,true⟩,⟨⟨60,1,false⟩,true⟩] ∧
      HintsRespectDepth .empty (priceChangeUpdates (besideHinted.stringField (ascii "event_type")).2) := by
  have hu : priceChangeUpdates (besideHinted.stringField (ascii "event_type")).2 =
      [⟨⟨50,200,true⟩,false⟩,⟨⟨49,1,true⟩,true⟩,⟨⟨60,1,false⟩,true⟩] := by decide
  have ht : besideHinted.stringField (ascii "event_type") = (some (ascii "price_change"), _) := rfl
  refine ⟨hu,(hints_respect_depth_iff .empty ht).2.mpr ?_⟩
  intro before hint after level hs hl
  refine ⟨fun size hannounced => ?_,fun _ => .inl (LimitOrderBook.sizeAt_empty level)⟩
  have hall := hu.symm.trans hs
  -- Neither hint is at the level of the entry, the only one announced.
  have hhint : (⟨hint,true⟩ : Update) ∈ [⟨⟨50,200,true⟩,false⟩,⟨⟨49,1,true⟩,true⟩,⟨⟨60,1,false⟩,true⟩] := by
    rw [hall]
    exact List.mem_append_right _ List.mem_cons_self
  have hother : fiftyBid ≠ level := by
    rintro rfl
    simp only [List.mem_cons, Update.mk.injEq, Bool.true_eq_false, and_false, and_true, false_or,
      List.not_mem_nil, or_false] at hhint
    rcases hhint with rfl | rfl <;> exact absurd hl (by decide)
  have hnone : lastAnnounced before level = none := by
    rw [lastAnnounced, last?_eq_none_iff]
    intro write hwrite
    obtain ⟨u,hmem,hu⟩ := List.mem_filterMap.mp hwrite
    have hin : u ∈ [⟨⟨50,200,true⟩,false⟩,⟨⟨49,1,true⟩,true⟩,⟨⟨60,1,false⟩,true⟩] := by
      rw [hall]
      exact List.mem_append_left _ hmem
    simp only [List.mem_cons, List.not_mem_nil, or_false] at hin
    rcases hin with rfl | rfl | rfl
    · rw [← Option.some.inj (show some (fiftyBid,200) = some write from hu)]
      exact hother
    · cases hu
    · cases hu
  rw [hnone] at hannounced
  cases hannounced

end PredictionMarket.Market

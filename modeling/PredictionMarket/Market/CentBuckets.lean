import PredictionMarket.Market.Schemas
import PredictionMarket.Market.PriceSoundness
import PredictionMarket.Market.BookHistory

/-! A feed of exact prices in the cent book. Prices that round to one cent share its level,
which shows whatever was announced last at any of them. -/
namespace PredictionMarket.Market
open Foundation.Decimal Foundation.LastWrite MarketParser

/-- An entry of the feed: a side, a dotted price that rounds to at most a dollar, and the
digits of a whole size. -/
structure FeedEntry where
  isBid : Bool
  price : Numeral
  dotted : price.fraction ≠ []
  below : price.number < 1005 / 1000
  size : UInt32
  sizeText : ByteString
  sizeDigits : AllDigits sizeText
  sizeNonempty : sizeText ≠ []
  sizeDenoted : value sizeText = size.toNat

/-- A price in dollars, rounded half up to cents. -/
def roundedCents (x : ℚ) : Nat := ⌊100 * x + 1/2⌋₊

namespace FeedEntry
variable (entry : FeedEntry)

def priceText : PriceText := .dollars entry.price entry.dotted

def text : LevelText := ⟨entry.priceText.text,entry.sizeText⟩

/-- The cent level of the entry. -/
def cents : Nat := roundedCents entry.price.number

private theorem cents_le : entry.cents ≤ 100 := by
  have hlt : entry.cents < 101 := by
    apply (Nat.floor_lt' (by norm_num)).mpr
    have hbelow := entry.below
    push_cast
    linarith
  exact Nat.le_of_lt_succ hlt

/-- The reader of prices stores the rounded cents. -/
theorem parsePriceCents_text : parsePriceCents entry.text.price 0 = (true, UInt32.ofNat entry.cents) := by
  have hwhole : value entry.price.whole < UInt32.size := by
    have hnumber : (value entry.price.whole : ℚ) ≤ entry.price.number := by
      unfold Numeral.number
      have : (0 : ℚ) ≤ value entry.price.fraction / 10^entry.price.fraction.length := by positivity
      linarith
    have hlt : (value entry.price.whole : ℚ) < 2 := by
      have hbelow := entry.below
      linarith
    have hlt' : value entry.price.whole < 2 := by exact_mod_cast hlt
    exact hlt'.trans (by decide +kernel)
  exact (entry.priceText.parse_text 0).trans (if_pos hwhole)

private theorem parseSizeU32_text : parseSizeU32 entry.text.size 0 = (true, entry.size) := by
  have hdot : entry.sizeText.idxOf? dotByte = none :=
    List.idxOf?_eq_none_iff.mpr (PriceText.dot_not_digit entry.sizeDigits)
  have hfits : value entry.sizeText < UInt32.size := by
    rw [entry.sizeDenoted]
    exact entry.size.toNat_lt
  change parseSizeU32 entry.sizeText 0 = _
  rw [parseSizeU32, if_neg (by simpa using entry.sizeNonempty), hdot]
  dsimp only
  rw [parseU32_eq, if_pos ⟨entry.sizeNonempty,entry.sizeDigits,hfits⟩, entry.sizeDenoted, UInt32.ofNat_toNat]

def tick : MarketTick := ⟨UInt8.ofNat entry.cents,entry.size,entry.isBid⟩

private theorem levelTick_text : levelTick entry.text.price entry.text.size entry.isBid = some entry.tick := by
  have hcents := entry.cents_le
  have hsmall : (UInt32.ofNat entry.cents).toNat = entry.cents :=
    UInt32.toNat_ofNat_of_lt' (by rw [UInt32.size]; omega)
  have hbyte : (UInt32.ofNat entry.cents).toUInt8 = UInt8.ofNat entry.cents := by
    apply UInt8.toNat.inj
    rw [UInt32.toNat_toUInt8, hsmall, UInt8.toNat_ofNat']
  simp only [levelTick, parsePriceCents_text, parseSizeU32_text, tick, hbyte]
  rw [if_pos ((inPriceRange_iff _).mpr (hsmall.symm ▸ hcents))]

/-- The level that the entry assigns. -/
def level : Level := (entry.isBid,⟨entry.cents,Nat.lt_succ_of_le entry.cents_le⟩)

private theorem tick_write : entry.tick.write? = some (entry.level, entry.size) := by
  have hlevel : entry.tick.level? = some entry.level :=
    (MarketTick.level?_eq_some_iff entry.tick entry.isBid _).mpr ⟨rfl,rfl⟩
  rw [MarketTick.write?, hlevel]
  rfl

end FeedEntry

/-- A price change without hints that announces these entries, as the venue sends it. -/
structure Announces (entries : List FeedEntry) (obj : Object) : Prop where
  clean : obj.Clean
  typed : some (ascii "event_type",.string (ascii "price_change")) ∈ obj
  changes : ∃ objs : List Object, some (ascii "price_changes",.array (objs.map fun o => some (.object o))) ∈ obj ∧
    List.Forall₂ (fun (entry : FeedEntry) o => entry.text.IsEntry entry.isBid o) entries objs

/-- The parser pushes one tick for each entry. -/
theorem Announces.messageTicks {entries : List FeedEntry} {obj : Object} (h : Announces entries obj) :
    messageTicks obj = entries.map FeedEntry.tick := by
  obtain ⟨objs,hchanges,hentries⟩ := h.changes
  obtain ⟨after,htype,hp⟩ := Object.stringField_has h.clean h.typed
  obtain ⟨_,hwalk,_⟩ := fieldItems_has changeItem (h.clean.perm hp) (hp.mem_iff.mpr hchanges)
  have hitems := mapped_items (fun (entry : FeedEntry) o (ho : entry.text.IsEntry entry.isBid o) => ho.item) hentries
  simp only [FeedEntry.levelTick_text, Option.toList_some] at hitems
  rw [messageTicks_eq, messageItems_of_type htype, if_neg (by decide), if_pos rfl, hwalk, hitems, runItems_passed]
  exact (List.map_eq_flatMap (f := FeedEntry.tick)).symm

/-- The announcements of a feed, by side and exact price. -/
def announcements (feed : List FeedEntry) : List ((Bool × ℚ) × UInt32) :=
  feed.map fun entry => ((entry.isBid, entry.price.number), entry.size)

/-- The exact book: the size last announced for each side and price. -/
def feedBook (feed : List FeedEntry) : Bool × ℚ → UInt32 := writes (fun _ => 0) (announcements feed)

/-- A side and the cents that an exact price rounds to. -/
def centKey (key : Bool × ℚ) : Bool × Nat := (key.1, roundedCents key.2)

section Level
variable (feed : List FeedEntry)

/-- The cent book holds what was announced last at any price that rounds to its level. -/
theorem sizeAt_feed (side : Bool) (p : Fin LimitOrderBook.kLevels) :
    (LimitOrderBook.empty.applyTicks (feed.map FeedEntry.tick)).sizeAt (side,p) =
      (last? (coarse centKey (announcements feed)) (side,p.val)).getD 0 := by
  have hwrites : (feed.map FeedEntry.tick).filterMap MarketTick.write? =
      feed.map fun entry => (entry.level, entry.size) := by
    rw [List.filterMap_map, ← List.filterMap_eq_map]
    congr 1
    funext entry
    exact entry.tick_write
  have hkey : coarse centKey (announcements feed) =
      coarse (fun level : Level => (level.1, level.2.val)) (feed.map fun entry => (entry.level, entry.size)) := by
    rw [coarse, coarse, announcements, List.map_map, List.map_map]
    rfl
  have hinj (w : Level × UInt32) : (w.1.1, w.1.2.val) = (side, p.val) → w.1 = (side,p) := by
    intro he
    obtain ⟨hside,hprice⟩ := Prod.mk.inj he
    exact Prod.ext hside (Fin.ext hprice)
  have hcoarse : ∀ w ∈ feed.map (fun entry => (entry.level, entry.size)),
      (w.1.1, w.1.2.val) = (side, p.val) → w.1 = (side,p) := fun w _ => hinj w
  have hlast := last?_coarse (fun level : Level => (level.1, level.2.val)) (k := (side,p)) hcoarse
  rw [LimitOrderBook.sizeAt_applyTicks, writes_apply, hwrites, LimitOrderBook.sizeAt_empty, hkey, ← hlast]

private theorem feedBook_ne_zero_iff (key : Bool × ℚ) :
    feedBook feed key ≠ 0 ↔ ∃ size, last? (announcements feed) key = some size ∧ size ≠ 0 := by
  rw [feedBook, writes_apply]
  cases last? (announcements feed) key <;> simp

/-- No two exact prices of this side share this level. -/
def Separated (side : Bool) (p : Fin LimitOrderBook.kLevels) : Prop :=
  ∀ entry ∈ feed, ∀ other ∈ feed, entry.isBid = side → other.isBid = side → entry.cents = p.val →
    other.cents = p.val → entry.price.number = other.price.number

variable {feed}

/-- A level with a size stems from a live price that rounds to it. -/
theorem live_of_level {side : Bool} {p : Fin LimitOrderBook.kLevels}
    (h : (LimitOrderBook.empty.applyTicks (feed.map FeedEntry.tick)).sizeAt (side,p) ≠ 0) :
    ∃ x, roundedCents x = p.val ∧ feedBook feed (side,x) ≠ 0 := by
  rw [sizeAt_feed] at h
  cases hlast : last? (coarse centKey (announcements feed)) (side,p.val) with
  | none =>
    rw [hlast] at h
    exact absurd rfl h
  | some size =>
    rw [hlast] at h
    obtain ⟨⟨side',x⟩,hkey,hx⟩ := exists_of_last?_coarse centKey hlast
    obtain ⟨rfl,hcents⟩ := Prod.mk.inj hkey
    exact ⟨x,hcents,(feedBook_ne_zero_iff feed _).mpr ⟨size,hx,h⟩⟩

/-- A live price was announced. -/
theorem announced_of_live {side : Bool} {x : ℚ} (h : feedBook feed (side,x) ≠ 0) :
    ∃ entry ∈ feed, entry.isBid = side ∧ entry.price.number = x := by
  obtain ⟨size,hlast,_⟩ := (feedBook_ne_zero_iff feed _).mp h
  by_contra hnone
  have hempty : last? (announcements feed) (side,x) = none := by
    rw [last?_eq_none_iff]
    intro w hw he
    obtain ⟨entry,hentry,rfl⟩ := List.mem_map.mp hw
    obtain ⟨hside,hprice⟩ := Prod.mk.inj he
    exact hnone ⟨entry,hentry,hside,hprice⟩
  rw [hlast] at hempty
  cases hempty

/-- A live price shows at its level if no other price shares it. -/
theorem level_of_live {side : Bool} {p : Fin LimitOrderBook.kLevels} (separated : Separated feed side p)
    {x : ℚ} (hx : roundedCents x = p.val) (h : feedBook feed (side,x) ≠ 0) :
    (LimitOrderBook.empty.applyTicks (feed.map FeedEntry.tick)).sizeAt (side,p) ≠ 0 := by
  obtain ⟨size,hlast,hne⟩ := (feedBook_ne_zero_iff feed _).mp h
  obtain ⟨live,hlive,rfl,rfl⟩ := announced_of_live h
  have halone : ∀ w ∈ announcements feed, centKey w.1 = centKey (live.isBid,live.price.number) →
      w.1 = (live.isBid,live.price.number) := by
    intro w hw hk
    obtain ⟨entry,hentry,rfl⟩ := List.mem_map.mp hw
    obtain ⟨hside,hcents⟩ := Prod.mk.inj hk
    exact Prod.ext hside (separated entry hentry live hlive hside rfl (hcents.trans hx) hx)
  have hcoarse : last? (coarse centKey (announcements feed)) (live.isBid,p.val) = some size := by
    rw [← hlast, ← hx]
    exact last?_coarse centKey halone
  rw [sizeAt_feed, hcoarse]
  exact hne

private theorem side_empty_of_feed {side : Bool} (h : ∀ x, feedBook feed (side,x) = 0) (p : Fin LimitOrderBook.kLevels) :
    (LimitOrderBook.empty.applyTicks (feed.map FeedEntry.tick)).sizeAt (side,p) = 0 := by
  by_contra hlevel
  obtain ⟨x,_,hx⟩ := live_of_level hlevel
  exact hx (h x)

private theorem feed_empty_of_side {side : Bool} (separated : ∀ p, Separated feed side p)
    (h : ∀ p, (LimitOrderBook.empty.applyTicks (feed.map FeedEntry.tick)).sizeAt (side,p) = 0) (x : ℚ) :
    feedBook feed (side,x) = 0 := by
  by_contra hlive
  obtain ⟨entry,_,_,rfl⟩ := announced_of_live hlive
  exact level_of_live (separated ⟨entry.cents,Nat.lt_succ_of_le entry.cents_le⟩) rfl hlive (h _)

end Level

/-- The book behind the messages of a feed. -/
def bookOf (messages : List Object) : LimitOrderBook := LimitOrderBook.empty.applyTicks (messages.flatMap messageTicks)

private theorem bookOf_eq {entries : List (List FeedEntry)} {messages : List Object}
    (h : List.Forall₂ Announces entries messages) :
    bookOf messages = LimitOrderBook.empty.applyTicks (entries.flatten.map FeedEntry.tick) := by
  have hticks : messages.flatMap messageTicks = entries.flatten.map FeedEntry.tick := by
    induction h with
    | nil => rfl
    | cons hhead _ ih =>
      rw [List.flatMap_cons, ih, hhead.messageTicks, List.flatten_cons, List.map_append]
  rw [bookOf, hticks]

/-- A level holds the size last announced at any of the prices that round to it, so a level
with a size has a live price. Where no two exact prices share a level, an empty one has none,
and an empty side of the book is an empty side of the feed. -/
theorem cent_book_of_feed {entries : List (List FeedEntry)} {messages : List Object}
    (h : List.Forall₂ Announces entries messages) :
    (∀ side p, (bookOf messages).sizeAt (side,p) =
      (last? (coarse centKey (announcements entries.flatten)) (side,p.val)).getD 0) ∧
    (∀ side p, (bookOf messages).sizeAt (side,p) ≠ 0 →
      ∃ x, roundedCents x = p.val ∧ feedBook entries.flatten (side,x) ≠ 0) ∧
    (∀ side p, Separated entries.flatten side p → ((bookOf messages).sizeAt (side,p) ≠ 0 ↔
      ∃ x, roundedCents x = p.val ∧ feedBook entries.flatten (side,x) ≠ 0)) ∧
    (((∀ x, feedBook entries.flatten (true,x) = 0) → (bookOf messages).getBestBid = LimitOrderBook.kNoBid) ∧
      ((∀ p, Separated entries.flatten true p) → (bookOf messages).getBestBid = LimitOrderBook.kNoBid →
        ∀ x, feedBook entries.flatten (true,x) = 0)) ∧
    (((∀ x, feedBook entries.flatten (false,x) = 0) → (bookOf messages).getBestAsk = LimitOrderBook.kNoAsk) ∧
      ((∀ p, Separated entries.flatten false p) → (bookOf messages).getBestAsk = LimitOrderBook.kNoAsk →
        ∀ x, feedBook entries.flatten (false,x) = 0)) := by
  rw [bookOf_eq h, LimitOrderBook.getBestBid_eq_none_iff, LimitOrderBook.getBestAsk_eq_none_iff]
  refine ⟨sizeAt_feed _,fun _ _ => live_of_level,?_,⟨side_empty_of_feed,feed_empty_of_side⟩,
    side_empty_of_feed,feed_empty_of_side⟩
  intro side p separated
  constructor
  · exact live_of_level
  · rintro ⟨x,hx,hlive⟩
    exact level_of_live separated hx hlive

/-- Fifty-seven cents flat, and a tenth of a cent more. -/
def flatBid : FeedEntry := ⟨true,⟨ascii "0",ascii "570",by decide,by decide⟩,by decide,by decide +kernel,10,
  ascii "10",by decide,by decide,by decide⟩

def tenthBid : FeedEntry := ⟨true,⟨ascii "0",ascii "571",by decide,by decide⟩,by decide,by decide +kernel,0,
  ascii "0",by decide,by decide,by decide⟩

/-- A bid entry as the venue sends it. -/
def bidObject (price size : String) : Object := [some (ascii "price",.string (ascii price)),
  some (ascii "size",.string (ascii size)),some (ascii "side",.string (ascii "BUY"))]

def bidMessage (objs : List Object) : Object := [some (ascii "event_type",.string (ascii "price_change")),
  some (ascii "price_changes",.array (objs.map fun o => some (.object o)))]

private theorem bidObject_entry (price size : String) :
    LevelText.IsEntry ⟨ascii price,ascii size⟩ true (bidObject price size) := by
  have hkeys : (bidObject price size).keys = [ascii "price",ascii "size",ascii "side"] := rfl
  refine ⟨⟨⟨?_,?_⟩,List.mem_cons_self,?_⟩,?_,?_⟩
  · simp [bidObject]
  · rw [hkeys]
    decide
  · exact List.mem_cons_of_mem _ List.mem_cons_self
  · exact List.mem_cons_of_mem _ (List.mem_cons_of_mem _ List.mem_cons_self)
  · rw [hkeys]
    decide

private theorem bidMessage_announces {entries : List FeedEntry} {objs : List Object}
    (h : List.Forall₂ (fun (entry : FeedEntry) o => entry.text.IsEntry entry.isBid o) entries objs) :
    Announces entries (bidMessage objs) := by
  have hkeys : (bidMessage objs).keys = [ascii "event_type",ascii "price_changes"] := rfl
  refine ⟨⟨?_,?_⟩,List.mem_cons_self,objs,List.mem_cons_of_mem _ List.mem_cons_self,h⟩
  · simp [bidMessage]
  · rw [hkeys]
    decide

/-- Deleting the tenth of a cent deletes the level of the flat price too: the feed still has
ten lots at fifty-seven cents, and the book shows no bid. -/
theorem tenth_hides_flat :
    List.Forall₂ Announces [[flatBid,tenthBid]] [bidMessage [bidObject "0.570" "10",bidObject "0.571" "0"]] ∧
    roundedCents (57 / 100) = 57 ∧ feedBook [flatBid,tenthBid] (true,57 / 100) = 10 ∧
    (bookOf [bidMessage [bidObject "0.570" "10",bidObject "0.571" "0"]]).getBestBid = LimitOrderBook.kNoBid := by
  refine ⟨.cons (bidMessage_announces (.cons ?_ (.cons ?_ .nil))) .nil,?_,?_,?_⟩
  · exact bidObject_entry "0.570" "10"
  · exact bidObject_entry "0.571" "0"
  · decide +kernel
  · decide +kernel
  · decide +kernel

/-- A single price is shown as it is. -/
theorem flat_shown :
    (bookOf [bidMessage [bidObject "0.570" "10"]]).sizeAt (true,flatBid.level.2) ≠ 0 := by
  have hannounces : List.Forall₂ Announces [[flatBid]] [bidMessage [bidObject "0.570" "10"]] :=
    .cons (bidMessage_announces (.cons (bidObject_entry "0.570" "10") .nil)) .nil
  have hseparated : Separated [flatBid] true flatBid.level.2 := by
    intro entry hentry other hother _ _ _ _
    rw [List.mem_singleton.mp hentry, List.mem_singleton.mp hother]
  apply ((cent_book_of_feed hannounces).2.2.1 true flatBid.level.2 hseparated).mpr
  refine ⟨flatBid.price.number,rfl,?_⟩
  decide +kernel

end PredictionMarket.Market

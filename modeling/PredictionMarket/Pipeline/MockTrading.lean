import PredictionMarket.Pipeline.Backtest
import PredictionMarket.Pipeline.Turns
import PredictionMarket.Strategy.PositionBound
import PredictionMarket.Strategy.SingleLevel
import PredictionMarket.Tools.MockFeed
import PredictionMarket.Market.Schemas

/-! The engine at the mock server. Each message is one turn of a feed with a level a side, and
the strategy trades where the size of the bid flips and nowhere else. -/
namespace PredictionMarket.Pipeline
open Queue Market Strategy StrategyEngine MarketParser Foundation Foundation.Transition Tools Tools.Mock

section Messages
variable {iterate : ByteString → Option Json} {parser : MarketParser}

/-- The texts of a level as the parser gets them. -/
def levelText (pair : Text × Text) : LevelText := ⟨utf8 pair.1,utf8 pair.2⟩

/-- What a message of the handler says. -/
def document (h : Handler) : Object :=
  [some (ascii "bids",.array ((h.bids.map levelText).map fun level => some level.pair)),
    some (ascii "asks",.array ((h.asks.map levelText).map fun level => some level.pair))]

private theorem document_carries (h : Handler) :
    Carries (h.bids.map levelText) (h.asks.map levelText) (document h) := by
  refine .mock ⟨?_,?_⟩ ?_ List.mem_cons_self (List.mem_cons_of_mem _ List.mem_cons_self)
  · simp [document]
  · change [ascii "bids",ascii "asks"].Nodup
    decide
  · change ascii "event_type" ∉ [ascii "bids",ascii "asks"]
    decide

private theorem price_read {c : Nat} (h : c < 100) :
    parsePriceCents (utf8 (hundredthsText c)) 0 = (true,UInt32.ofNat c) := by
  have hall : ∀ c : Fin 100, parsePriceCents (utf8 (hundredthsText c)) 0 = (true,UInt32.ofNat c) := by
    decide +kernel
  exact hall ⟨c,h⟩

private theorem level_read {c : Nat} (h : c < 100) {sizeSv : ByteString} {size : UInt32}
    (hsize : parseSizeU32 sizeSv 0 = (true,size)) (side : Bool) (p : Fin LimitOrderBook.kLevels) (hp : p.val = c) :
    levelTick (utf8 (hundredthsText c)) sizeSv side = some ⟨priceByte p,size,side⟩ := by
  have hcents : (UInt32.ofNat c).toNat = c := UInt32.toNat_ofNat_of_lt' (h.trans (by decide))
  have hrange : inPriceRange (UInt32.ofNat c) = true := (inPriceRange_iff _).mpr (by omega)
  have hbyte : (UInt32.ofNat c).toUInt8 = priceByte p := by
    rw [← UInt8.toNat_inj, UInt32.toNat_toUInt8, hcents, priceByte_toNat, hp, Nat.mod_eq_of_lt (h.trans (by decide))]
  simp only [levelTick, price_read h, hsize, hrange, if_true, hbyte]

/-- The bid's size in a turn. -/
def mockBidSize (i : Nat) : Nat := if i / phaseLen % 2 = 0 then bidBig else bidSmall

private theorem mock_sides (i : Nat) :
    midCents i - 1 < LimitOrderBook.kLevels ∧ midCents i + 1 < LimitOrderBook.kLevels := by
  obtain ⟨hlow,hhigh⟩ := midCents_bounds i
  change midCents i - 1 < 101 ∧ midCents i + 1 < 101
  omega

/-- The quote that a turn leaves. -/
def mockQuote (i : Nat) : Quote :=
  ⟨⟨midCents i - 1,(mock_sides i).1⟩,⟨midCents i + 1,(mock_sides i).2⟩,.ofNat (mockBidSize i),.ofNat askFixed⟩

private theorem bidSize_read (i : Nat) :
    parseSizeU32 (utf8 (decimal (Handler.behind i).bidSize)) 0 = (true,.ofNat (mockBidSize i)) := by
  rw [Handler.bidSize, Handler.behind_phase, mockBidSize]
  split_ifs
  · decide
  · decide

private theorem message_delivers (i : Nat)
    (reads : iterate (utf8 (Handler.behind i).message) = some (.object (document (.behind i)))) :
    Delivers iterate (utf8 (Handler.behind i).message) (.object (document (.behind i))) := by
  obtain ⟨hpos,hlength⟩ := Handler.message_length i
  obtain ⟨hmore,hfew⟩ := utf8_length (Handler.behind i).message
  have hroom : 4 * 100 ≤ kMaxPayloadBytes := by decide
  exact ⟨by omega,by omega,reads⟩

private theorem message_run (hi : parser.initialized = true) (i : Nat)
    (reads : iterate (utf8 (Handler.behind i).message) = some (.object (document (.behind i)))) :
    (script iterate parser (utf8 (Handler.behind i).message)).run = (.returned true,
      levelTicks true ((Handler.behind i).bids.map levelText) ++
        levelTicks false ((Handler.behind i).asks.map levelText)) :=
  (document_carries (.behind i)).script_run hi (.inl rfl) (message_delivers i reads)

private theorem message_parses (hi : parser.initialized = true) (i : Nat)
    (reads : iterate (utf8 (Handler.behind i).message) = some (.object (document (.behind i)))) :
    (parseTick record iterate parser (utf8 (Handler.behind i).message) []).1 ≠ .terminated := by
  rw [parseTick_eq, deliver, message_run hi i reads]
  exact Verdict.returned_ne_terminated true

/-- A message is one turn of the feed. -/
theorem message_ticks (hi : parser.initialized = true) (i : Nat)
    (reads : iterate (utf8 (Handler.behind i).message) = some (.object (document (.behind i)))) :
    payloadTicks iterate parser (utf8 (Handler.behind i).message) = turnTicks mockQuote i := by
  obtain ⟨hlow,hhigh⟩ := midCents_bounds i
  obtain ⟨hlow',hhigh'⟩ := midCents_bounds (i - 1)
  have hzero : parseSizeU32 (utf8 (text "0")) 0 = (true,0) := by decide
  have hask : parseSizeU32 (utf8 (decimal askFixed)) 0 = (true,.ofNat askFixed) := by decide
  rw [payloadTicks_eq, message_run hi i reads, Handler.behind_bids, Handler.behind_asks]
  simp only [List.map_cons, List.map_nil, levelTicks, List.flatMap_cons, List.flatMap_nil, levelText, prevCents]
  rw [level_read (c := midCents (i - 1) - 1) (by omega) hzero true (mockQuote (i - 1)).bid rfl,
    level_read (c := midCents i - 1) (by omega) (bidSize_read i) true (mockQuote i).bid rfl,
    level_read (c := midCents (i - 1) + 1) (by omega) hzero false (mockQuote (i - 1)).ask rfl,
    level_read (c := midCents i + 1) (by omega) hask false (mockQuote i).ask rfl]
  rfl

end Messages

section Orders
variable {selection : StrategySelection}

/-- What is ordered where the size of the bid flips. -/
def flipOrder (i : Nat) : Option Order :=
  if i = 0 ∨ i % phaseLen ≠ 0 then none
  else some (if i / phaseLen % 2 = 1 then (kDefaultSellSize,89 / 100) else (kDefaultTradeSize,11 / 100))

private theorem mock_sizes (i : Nat) : UInt32.ofNat (mockBidSize i) ≠ 0 ∧
    UInt32.ofNat (mockBidSize i) + .ofNat askFixed ≠ 0 ∧
    (UInt32.ofNat (mockBidSize i)).toNat + (UInt32.ofNat askFixed).toNat < 2^32 := by
  rw [mockBidSize]
  split_ifs <;> decide

private theorem mock_exact (i : Nat) : ExactSizes (mockQuote i) := (mock_sizes i).2

private theorem mock_sized (i : Nat) : Sized (mockQuote i) where
  bid := (mock_sizes i).1
  ask := (by decide : UInt32.ofNat askFixed ≠ 0)
  sum := (mock_sizes i).2.1

private theorem mock_half (i : Nat) : Sized (halfway (mockQuote i) (mockQuote (i + 1))) where
  bid := (mock_sizes (i + 1)).1
  ask := (by decide : UInt32.ofNat askFixed ≠ 0)
  sum := (mock_sizes (i + 1)).2.1

private theorem price_steps (i : Nat) : |((mockQuote (i + 1)).bid.val : ℚ) - (mockQuote i).bid.val| ≤ 1 ∧
    |((mockQuote (i + 1)).ask.val : ℚ) - (mockQuote i).ask.val| ≤ 1 := by
  have hnat : ∀ m n : Nat, m ≤ n + 1 → n ≤ m + 1 → |(m : ℚ) - n| ≤ 1 := by
    intro m n hm hn
    have hup : (m : ℚ) ≤ n + 1 := by exact_mod_cast hm
    have hdown : (n : ℚ) ≤ m + 1 := by exact_mod_cast hn
    rw [abs_le]
    constructor <;> linarith
  obtain ⟨hlow,hhigh⟩ := midCents_bounds i
  have hstep : midCents (i + 1) ≤ midCents i + 1 ∧ midCents i ≤ midCents (i + 1) + 1 := by
    rw [midCents]
    split_ifs <;> omega
  exact ⟨hnat _ _ (by change midCents (i + 1) - 1 ≤ midCents i - 1 + 1; omega)
      (by change midCents i - 1 ≤ midCents (i + 1) - 1 + 1; omega),
    hnat _ _ (Nat.add_le_add_right hstep.1 1) (Nat.add_le_add_right hstep.2 1)⟩

private theorem phase_quiet (hofi : selection ≠ .ofi) {i : Nat} (h : (i + 1) % phaseLen ≠ 0) :
    turnOrders selection mockQuote (i + 1) = [none,none,none,none] := by
  have hsize : mockBidSize (i + 1) = mockBidSize i := by
    have hphase : (i + 1) / phaseLen = i / phaseLen := by
      unfold phaseLen at *
      omega
    rw [mockBidSize, hphase, mockBidSize]
  have hbids : (mockQuote (i + 1)).bidSize = (mockQuote i).bidSize := congrArg UInt32.ofNat hsize
  obtain ⟨hbid,hask⟩ := price_steps i
  obtain ⟨hfirst,hsecond⟩ := turn_quiet (mock_exact i) ⟨hbids,rfl⟩ hbid hask hofi
  rw [turnOrders, hfirst, hsecond]

private theorem mockQuote_eq {i size : Nat} (bid ask : Fin LimitOrderBook.kLevels) (hbid : midCents i = bid.val + 1)
    (hask : ask.val = bid.val + 2) (hsize : mockBidSize i = size) :
    mockQuote i = ⟨bid,ask,.ofNat size,.ofNat askFixed⟩ := by
  rw [mockQuote, Quote.mk.injEq, hsize]
  exact ⟨Fin.ext (by change midCents i - 1 = bid.val; omega),
    Fin.ext (by change midCents i + 1 = ask.val; omega),rfl,rfl⟩

private theorem flips_ordered (hofi : selection ≠ .ofi) :
    orderOn selection (some ⟨⟨89,by decide⟩,⟨91,by decide⟩,.ofNat bidBig,.ofNat askFixed⟩)
        ⟨⟨89,by decide⟩,⟨91,by decide⟩,.ofNat bidSmall,.ofNat askFixed⟩ = some (kDefaultSellSize,89 / 100) ∧
      orderOn selection (some ⟨⟨9,by decide⟩,⟨11,by decide⟩,.ofNat bidSmall,.ofNat askFixed⟩)
        ⟨⟨9,by decide⟩,⟨11,by decide⟩,.ofNat bidBig,.ofNat askFixed⟩ = some (kDefaultTradeSize,11 / 100) := by
  cases selection with
  | momentum => decide +kernel
  | ofi => exact absurd rfl hofi
  | both => decide +kernel

private theorem phase_flips (hofi : selection ≠ .ofi) {i : Nat} (h : (i + 1) % phaseLen = 0) :
    turnOrders selection mockQuote (i + 1) = [none,flipOrder (i + 1),none,none] := by
  obtain ⟨hlow,hhigh⟩ := midCents_bounds i
  obtain ⟨hup,hdown⟩ := midCents_settled i
  have hlast : i % phaseLen = 199 ∧ (i + 1) / phaseLen = i / phaseLen + 1 := by
    unfold phaseLen at *
    omega
  rw [hlast.1] at hup hdown
  have hsame : midCents (i + 1) = midCents i := by
    rw [midCents]
    split_ifs <;> omega
  have hask : (mockQuote (i + 1)).ask = (mockQuote i).ask := Fin.ext (congrArg (· + 1) hsame)
  have hhalf : halfway (mockQuote i) (mockQuote (i + 1)) = mockQuote (i + 1) := by
    rw [halfway, ← hask]
    rfl
  have hsize : mockBidSize (i + 1) = if i / phaseLen % 2 = 0 then bidSmall else bidBig := by
    rw [mockBidSize, hlast.2]
    split_ifs <;> first | rfl | omega
  rw [turnOrders, hhalf, orderOn_self, flipOrder, if_neg (by omega), hlast.2]
  by_cases hphase : i / phaseLen % 2 = 0
  · have hmid : midCents i = 90 := by omega
    rw [if_pos hphase] at hsize
    rw [mockQuote_eq ⟨89,by decide⟩ ⟨91,by decide⟩ hmid rfl (if_pos hphase),
      mockQuote_eq ⟨89,by decide⟩ ⟨91,by decide⟩ (hsame.trans hmid) rfl hsize, if_pos (by omega)]
    exact congrArg (fun order => [none,order,none,none]) (flips_ordered hofi).1
  · have hmid : midCents i = 10 := by omega
    rw [if_neg hphase] at hsize
    rw [mockQuote_eq ⟨9,by decide⟩ ⟨11,by decide⟩ hmid rfl (if_neg hphase),
      mockQuote_eq ⟨9,by decide⟩ ⟨11,by decide⟩ (hsame.trans hmid) rfl hsize, if_neg (by omega)]
    exact congrArg (fun order => [none,order,none,none]) (flips_ordered hofi).2

/-- The orders of a turn. -/
theorem mock_turn (hofi : selection ≠ .ofi) (i : Nat) :
    turnOrders selection mockQuote i = [none,flipOrder i,none,none] := by
  cases i with
  | zero => rfl
  | succ i =>
    by_cases h : (i + 1) % phaseLen = 0
    · exact phase_flips hofi h
    · rw [phase_quiet hofi h, flipOrder, if_pos (.inr h)]

end Orders

/-- The position behind so many flips: ten lots are sold at 0.89 and bought back at 0.11. -/
def mockPosition (flips : Nat) : PositionManager where
  positionSize := if flips % 2 = 1 then kDefaultSellSize else PositionManager.fresh.positionSize
  realizedPnl := 39 / 5 * (flips / 2 : Nat)
  averageEntryPrice := if flips % 2 = 1 then 89 / 100 else 0

private theorem bought_back (realized : ℚ) : (PositionManager.mk kDefaultSellSize realized (89 / 100)).addFill
    kDefaultTradeSize (11 / 100) = some ⟨PositionManager.fresh.positionSize,realized + 39 / 5,0⟩ := by
  have hfill : (PositionManager.mk kDefaultSellSize realized (89 / 100)).addFill kDefaultTradeSize (11 / 100) =
      some ⟨PositionManager.fresh.positionSize,realized + (10 : Int) * (89 / 100 - 11 / 100),0⟩ := rfl
  rw [hfill]
  norm_num

private theorem mock_booked (i : Nat) :
    (mockPosition (i / phaseLen)).placed (flipOrder (i + 1)) = some (mockPosition ((i + 1) / phaseLen)) := by
  rw [flipOrder]
  by_cases h : (i + 1) % phaseLen = 0
  · have hflips : (i + 1) / phaseLen = i / phaseLen + 1 := by
      unfold phaseLen at *
      omega
    rw [if_neg (by omega), hflips]
    generalize i / phaseLen = flips
    rcases Nat.mod_two_eq_zero_or_one flips with heven | hodd
    · have hnext : (flips + 1) % 2 = 1 := by omega
      have hpairs : (flips + 1) / 2 = flips / 2 := by omega
      simp only [mockPosition, heven, hnext, hpairs, if_true]
      rfl
    · have hnext : (flips + 1) % 2 = 0 := by omega
      have hpairs : (flips + 1) / 2 = flips / 2 + 1 := by omega
      simp only [mockPosition, hodd, hnext, hpairs, if_true]
      rw [Nat.cast_add_one, mul_add_one]
      exact bought_back _
  · have hflips : (i + 1) / phaseLen = i / phaseLen := by
      unfold phaseLen at *
      omega
    rw [if_pos (.inr h), hflips]
    rfl

private theorem mock_positions (turns : Nat) :
    ((List.range (turns + 1)).flatMap fun i => [none,flipOrder i,none,none]).foldlM PositionManager.placed
      PositionManager.fresh = some (mockPosition (turns / phaseLen)) := by
  induction turns with
  | zero =>
    have hfresh : mockPosition 0 = PositionManager.fresh := by norm_num [mockPosition, PositionManager.fresh]
    exact congrArg some hfresh.symm
  | succ n ih =>
    rw [List.range_succ, List.flatMap_append, List.foldlM_append, ih, List.flatMap_singleton]
    change ((mockPosition (n / phaseLen)).placed (flipOrder (n + 1))).bind some = _
    rw [mock_booked, Option.bind_some]

/-- The fills of a turn. -/
def mockFills (i : Nat) : List (Option Fill) := [none,(flipOrder i).map Fill.ofOrder,none,none]

/-- At the mock server, with momentum or both signals and under every schedule that refuses no
tick: the engine sells ten lots at 0.89 at the end of each rising phase, buys them back at 0.11 at
the end of each falling one, and does nothing else, however many messages it gets. -/
theorem mock_feed_trades (iterate : ByteString → Option Json) (parser : MarketParser) (selection : StrategySelection)
    (hofi : selection ≠ .ofi) (hi : parser.initialized = true) (turns : Nat)
    (reads : ∀ i < turns + 1,
      iterate (utf8 (Handler.behind i).message) = some (.object (document (Handler.behind i))))
    {base : SizeT} {schedule : List Label} {s : State}
    (run : exec (step iterate parser) (init selection base ((messages (turns + 1)).map utf8)) schedule = some s)
    (pushed : ∀ c ∈ s.queue.producer.calls, c.ok = true) :
    s.steps.map Step.fill <+: (List.range (turns + 1)).flatMap mockFills ∧
    (s.steps.length = 4 * (turns + 1) →
      Shows s.engine.book (quoteLevels (mockQuote turns)) ∧
      s.engine.positionManager = mockPosition (turns / phaseLen)) := by
  obtain ⟨h,_,_⟩ := Inv.reached _ run
  have hticks : ((messages (turns + 1)).map utf8).flatMap (payloadTicks iterate parser) =
      (List.range (turns + 1)).flatMap (turnTicks mockQuote) := by
    rw [messages, List.map_map, List.flatMap_map]
    exact List.flatMap_congr fun i hm => message_ticks hi i (reads i (List.mem_range.mp hm))
  obtain ⟨houtputs,book,hfinal,hbook⟩ := feed_run selection mockQuote mock_sized mock_half turns
  have horders : (List.range (turns + 1)).flatMap (turnOrders selection mockQuote) =
      (List.range (turns + 1)).flatMap fun i => [none,flipOrder i,none,none] :=
    List.flatMap_congr fun i _ => mock_turn hofi i
  rw [hticks] at h
  have hrun := h.run_total pushed
  constructor
  · have hfills := fills_prefix hrun (List.take_prefix _ _)
    rw [houtputs, horders, List.map_flatMap] at hfills
    exact hfills
  · intro hlength
    have hall : ((List.range (turns + 1)).flatMap (turnTicks mockQuote)).length = s.steps.length := by
      simp [hlength, List.length_flatMap, turnTicks, turn, mul_comm]
    rw [← hall, List.take_length] at hrun
    constructor
    · have hview := (runTicks_view hrun).2
      rw [construct_view, hfinal, ← h.engine] at hview
      have hsame : s.engine.book = book := congrArg View.book hview
      rwa [hsame]
    · have hplaced := runTicks_placed hrun
      rw [construct_view, houtputs, horders, ← h.engine] at hplaced
      exact (Option.some_inj.mp ((mock_positions turns).symm.trans hplaced)).symm

section Iterator

private theorem utf8_append (s t : Text) : utf8 (s ++ t) = utf8 s ++ utf8 t := List.flatMap_append

/-- The message of a turn between these prices. -/
private def turnText (prev mid size : Nat) : Text := makeL2
  [(hundredthsText (prev - 1),text "0"),(hundredthsText (mid - 1),decimal size)]
  [(hundredthsText (prev + 1),text "0"),(hundredthsText (mid + 1),decimal askFixed)]

/-- What follows the size of the bid. -/
private def turnRest (prev mid : Nat) : Text :=
  text "]]," ++ dumpsEntry (text "asks",.list [Mock.level (hundredthsText (prev + 1),text "0"),
    Mock.level (hundredthsText (mid + 1),decimal askFixed)]) ++ text "\x7d"

private theorem turnText_eq (prev mid size : Nat) : turnText prev mid size =
    text "\x7b\"bids\":[[" ++ (quoted (hundredthsText (prev - 1)) ++ (text ",\"0\"],[" ++
      (quoted (hundredthsText (mid - 1)) ++ (text "," ++ (quoted (decimal size) ++ turnRest prev mid))))) := by
  have hkey : text "\x7b\"bids\":[[" = text "\x7b" ++ quoted (text "bids") ++ text ":" ++ text "[" ++ text "[" := by
    decide
  have hzero : text ",\"0\"],[" = text "," ++ quoted (text "0") ++ text "]" ++ text "," ++ text "[" := by decide
  have hclose : text "]]," = text "]" ++ text "]" ++ text "," := by decide
  rw [hkey, hzero]
  simp only [turnText, turnRest, hclose, makeL2, Mock.level, dumps, dumpsEntries, dumpsEntry, dumpsElements,
    List.map_cons, List.map_nil, List.append_assoc]

private theorem price_length {c : Nat} (h : c < 100) : (utf8 (quoted (hundredthsText c))).length = 6 := by
  have hall : ∀ c : Fin 100, (utf8 (quoted (hundredthsText c))).length = 6 := by decide +kernel
  exact hall ⟨c,h⟩

private theorem price_injective {c c' : Nat} (h : c < 100) (h' : c' < 100)
    (he : utf8 (quoted (hundredthsText c)) = utf8 (quoted (hundredthsText c'))) : c = c' := by
  have hall : ∀ c : Fin 100, parsePriceCents ((utf8 (quoted (hundredthsText c))).drop 1).dropLast 0 =
      (true,UInt32.ofNat c) := by decide +kernel
  have hread := hall ⟨c,h⟩
  have hread' := hall ⟨c',h'⟩
  have hcents : UInt32.ofNat c = UInt32.ofNat c' := (Prod.mk.inj (hread.symm.trans (he ▸ hread'))).2
  have htoNat := congrArg UInt32.toNat hcents
  rwa [UInt32.toNat_ofNat_of_lt' (h.trans (by decide)), UInt32.toNat_ofNat_of_lt' (h'.trans (by decide))] at htoNat

private theorem turnText_injective {prev mid prev' mid' : Nat} (hp : 10 ≤ prev ∧ prev ≤ 90) (hm : 10 ≤ mid ∧ mid ≤ 90)
    (hp' : 10 ≤ prev' ∧ prev' ≤ 90) (hm' : 10 ≤ mid' ∧ mid' ≤ 90) {size size' : Nat}
    (he : utf8 (turnText prev mid size) = utf8 (turnText prev' mid' size')) :
    prev = prev' ∧ mid = mid' ∧ utf8 (quoted (decimal size)) = utf8 (quoted (decimal size')) := by
  rw [turnText_eq, turnText_eq] at he
  simp only [utf8_append] at he
  have hrest := List.append_cancel_left he
  obtain ⟨hfirst,hrest⟩ := List.append_inj hrest (by rw [price_length (by omega), price_length (by omega)])
  have hprev := price_injective (by omega) (by omega) hfirst
  have hrest := List.append_cancel_left hrest
  obtain ⟨hsecond,hrest⟩ := List.append_inj hrest (by rw [price_length (by omega), price_length (by omega)])
  have hmid := price_injective (by omega) (by omega) hsecond
  have hrest := List.append_cancel_left hrest
  obtain rfl : prev = prev' := by omega
  obtain rfl : mid = mid' := by omega
  exact ⟨rfl,rfl,List.append_cancel_right hrest⟩

private theorem message_eq (i : Nat) :
    (Handler.behind i).message = turnText (prevCents i) (midCents i) (Handler.behind i).bidSize := by
  rw [Handler.message, Handler.behind_bids, Handler.behind_asks, turnText]

private theorem document_of_message {i j : Nat}
    (he : utf8 (Handler.behind i).message = utf8 (Handler.behind j).message) :
    document (.behind i) = document (.behind j) := by
  rw [message_eq, message_eq] at he
  obtain ⟨hprev,hmid,hsize⟩ : prevCents i = prevCents j ∧ midCents i = midCents j ∧ _ :=
    turnText_injective (midCents_bounds _) (midCents_bounds _) (midCents_bounds _) (midCents_bounds _) he
  have hdecimal : (Handler.behind i).bidSize = (Handler.behind j).bidSize := by
    unfold Handler.bidSize at hsize ⊢
    split_ifs at hsize ⊢ <;> first | rfl | exact absurd hsize (by decide)
  rw [document, document, Handler.behind_bids, Handler.behind_bids, Handler.behind_asks, Handler.behind_asks, hprev,
    hmid, hdecimal]

/-- An iterator that knows the first messages of a connection. -/
def mockIterate (turns : Nat) (payload : ByteString) : Option Json :=
  ((List.range turns).find? fun i => payload = utf8 (Handler.behind i).message).map fun i =>
    .object (document (.behind i))

private theorem mockIterate_reads {turns i : Nat} (h : i < turns) :
    mockIterate turns (utf8 (Handler.behind i).message) = some (.object (document (.behind i))) := by
  have hsome : ((List.range turns).find? fun j => decide (utf8 (Handler.behind i).message =
      utf8 (Handler.behind j).message)).isSome = true :=
    List.find?_isSome.mpr ⟨i,List.mem_range.mpr h,decide_eq_true rfl⟩
  have hfound : ∀ j, ((List.range turns).find? fun j => decide (utf8 (Handler.behind i).message =
      utf8 (Handler.behind j).message)) = some j →
      utf8 (Handler.behind i).message = utf8 (Handler.behind j).message := by
    intro j hj
    have hdecided := List.find?_some hj
    exact of_decide_eq_true hdecided
  obtain ⟨j,hj⟩ := Option.isSome_iff_exists.mp hsome
  rw [mockIterate, hj, Option.map_some, ← document_of_message (hfound j hj)]

/-- However many turns there are, some schedule trades them all without refusing a tick. -/
theorem mock_feed_runs (selection : StrategySelection) {turns : Nat} (short : 10 * (4 * turns) < 2^31) :
    ∃ schedule s, exec (step (mockIterate turns) (construct true))
        (init selection 0 ((messages turns).map utf8)) schedule = some s ∧ s.steps.length = 4 * turns ∧
      ∀ c ∈ s.queue.producer.calls, c.ok = true := by
  have hreads : ∀ i < turns, mockIterate turns (utf8 (Handler.behind i).message) =
      some (.object (document (Handler.behind i))) := fun i hlt => mockIterate_reads hlt
  have hfrom : ∀ payload ∈ (messages turns).map utf8, ∃ i < turns, payload = utf8 (Handler.behind i).message := by
    intro payload hmem
    obtain ⟨message,hmessage,rfl⟩ := List.mem_map.mp hmem
    obtain ⟨i,hi,rfl⟩ := List.mem_map.mp hmessage
    exact ⟨i,List.mem_range.mp hi,rfl⟩
  have hready : (construct true).initialized = true := rfl
  have hticks : ∀ payload ∈ (messages turns).map utf8,
      (payloadTicks (mockIterate turns) (construct true) payload).length = 4 := by
    intro payload hmem
    obtain ⟨i,hlt,rfl⟩ := hfrom payload hmem
    rw [message_ticks hready i (hreads i hlt)]
    rfl
  have hparses : ∀ payload ∈ (messages turns).map utf8,
      (parseTick record (mockIterate turns) (construct true) payload []).1 ≠ .terminated := by
    intro payload hmem
    obtain ⟨i,hlt,rfl⟩ := hfrom payload hmem
    exact message_parses hready i (hreads i hlt)
  have htotal : (((messages turns).map utf8).flatMap
      (payloadTicks (mockIterate turns) (construct true))).length = 4 * turns := by
    rw [List.length_flatMap, List.map_congr_left hticks, List.map_const', List.sum_replicate, List.length_map,
      messages, List.length_map, List.length_range, smul_eq_mul, mul_comm]
  obtain ⟨passes,hrun⟩ := exists_runTicks_of_length selection (by rw [htotal]; exact short)
  have hfits : 4 ≤ kTickQueueSize.value := by decide
  obtain ⟨schedule,s,hs,_,_,rfl,hok⟩ := feed_traded (mockIterate turns) (construct true) selection 0
    hparses (fun payload hmem => (hticks payload hmem).trans_le hfits) hrun
  exact ⟨schedule,s,hs,(runTicks_length hrun).trans htotal,hok⟩

private theorem mockFills_length (turns : Nat) : ((List.range turns).flatMap mockFills).length = 4 * turns := by
  simp [List.length_flatMap, mockFills, mul_comm]

/-- A whole cycle of the feed: ten lots sold at its top, and bought back at its bottom. -/
theorem whole_cycle_traded : ∃ schedule s, exec (step (mockIterate 401) (construct true))
      (init .both 0 ((messages (400 + 1)).map utf8)) schedule = some s ∧
    (s.steps.map Step.fill).filterMap id = [⟨-10,89/100⟩,⟨10,11/100⟩] ∧
    Shows s.engine.book (quoteLevels (mockQuote 400)) ∧ s.engine.positionManager.positionSize.val = 0 ∧
    s.engine.positionManager.realizedPnl = 39/5 := by
  obtain ⟨schedule,s,hs,hlength,hok⟩ := mock_feed_runs .both (show 10 * (4 * (400 + 1)) < 2^31 by decide)
  obtain ⟨hfills,hend⟩ := mock_feed_trades (mockIterate 401) (construct true) .both (by simp) rfl 400
    (fun i hlt => mockIterate_reads hlt) hs hok
  obtain ⟨hbook,hposition⟩ := hend hlength
  have hall : s.steps.map Step.fill = (List.range (400 + 1)).flatMap mockFills := by
    refine hfills.eq_of_length ?_
    rw [List.length_map, hlength, mockFills_length]
  refine ⟨schedule,s,hs,?_,hbook,?_,?_⟩
  · rw [hall]
    decide +kernel
  · rw [hposition]
    rfl
  · rw [hposition]
    norm_num [mockPosition, phaseLen]

end Iterator
end PredictionMarket.Pipeline

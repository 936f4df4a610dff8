import PredictionMarket.Pipeline.Turns
import PredictionMarket.Queue.SpscProgress
import PredictionMarket.Market.PayloadBound
import PredictionMarket.Market.BookHistory
import PredictionMarket.Strategy.Baseline
import PredictionMarket.Strategy.PositionBound

/-! What becomes of the pipeline when the strategy does not keep up. A refused tick is lost;
everything that follows is a run over the ticks that were not, and a level is wrong only until
the next tick for it gets through. Bursts of a certain size are never refused. -/
namespace PredictionMarket.Pipeline
open Queue Market Strategy MarketParser Foundation.Transition

/-- The parser makes no call of `push` outside a message. -/
def State.Idle (s : State) : Prop := s.parsing = none → s.queue.producer.pc = .idle

/-- Bytes that the socket has not yet delivered. -/
def State.inboxBytes (s : State) : Nat := (s.inbox.map List.length).sum

section Steps
variable {iterate : ByteString → Option Json} {parser : MarketParser} {s t : State}

/-- What a step does to the queue: nothing, or one of its accesses. The label tells the store
that a load of the producer sees. -/
def Accesses (s t : State) (l : Label) : Prop :=
  t.queue = s.queue ∨ ∃ k, Spsc.step s.queue k = some t.queue ∧ ∀ j, k = .pushLoadOther j → l = .pushes k

private theorem inPush_busy {k : Spsc.Label MarketTick} {q q' : Spsc.State kTickQueueSize MarketTick}
    (hk : inPush k = true) (hs : Spsc.step q k = some q') : q.producer.pc ≠ .idle := by
  intro hidle
  cases k with
  | pushLoadOther j =>
    obtain ⟨_,_,_,hp,_⟩ := Spsc.pushLoadOther_inv hs
    cases hidle.symm.trans hp
  | construct =>
    obtain ⟨_,_,_,hp,_⟩ := Spsc.construct_inv hs
    cases hidle.symm.trans hp
  | publishWrite =>
    obtain ⟨_,_,_,hp,_⟩ := Spsc.publishWrite_inv hs
    cases hidle.symm.trans hp
  | _ => cases hk

private theorem pops_accesses {l : Label} {k : Spsc.Label MarketTick} (hk : k.ofConsumer = true)
    (hs : Spsc.step s.queue k = some t.queue) (hparsing : t.parsing = s.parsing) :
    (s.Idle → t.Idle) ∧ Accesses s t l := by
  refine ⟨fun h hnone => ?_,.inr ⟨k,hs,?_⟩⟩
  · rw [Spsc.producer_frame hs hk]
    exact h (hparsing ▸ hnone)
  · rintro j rfl
    cases hk

private theorem step_cases {l : Label} (hs : step iterate parser s l = some t) :
    t.inbox <:+ s.inbox ∧ (s.Idle → t.Idle) ∧ Accesses s t l := by
  unfold step at hs
  split_ifs at hs
  cases l with
  | onRead =>
    simp only [onRead] at hs
    split at hs
    · rename_i payload inbox hparsing hinbox
      rw [hinbox]
      split_ifs at hs <;> cases hs
      · exact ⟨List.suffix_cons _ _,id,.inl rfl⟩
      · exact ⟨List.suffix_cons _ _,fun _ hnone => absurd hnone (Option.some_ne_none _),.inl rfl⟩
    · cases hs
  | push =>
    simp only [push] at hs
    split at hs
    · obtain ⟨queue,hq,rfl⟩ := Option.map_eq_some_iff.mp hs
      exact ⟨List.suffix_rfl,fun _ hnone => absurd hnone (Option.some_ne_none _),
        .inr ⟨_,hq,fun _ he => by cases he⟩⟩
    · cases hs
  | pushes k =>
    simp only [pushes] at hs
    split_ifs at hs with hk
    obtain ⟨queue,hq,rfl⟩ := Option.map_eq_some_iff.mp hs
    exact ⟨List.suffix_rfl,fun h hnone => absurd (h hnone) (inPush_busy hk hq),.inr ⟨k,hq,fun _ _ => rfl⟩⟩
  | parsed =>
    simp only [parsed] at hs
    split at hs
    · rename_i hidle
      cases hs
      exact ⟨List.suffix_rfl,fun _ _ => hidle,.inl rfl⟩
    · cases hs
  | pop =>
    simp only [pop] at hs
    split_ifs at hs
    obtain ⟨queue,hq,rfl⟩ := Option.map_eq_some_iff.mp hs
    exact ⟨List.suffix_rfl,pops_accesses (k := .popLoadOwn) rfl hq rfl⟩
  | pops k =>
    simp only [pops] at hs
    split_ifs at hs with hk
    obtain ⟨queue,hq,rfl⟩ := Option.map_eq_some_iff.mp hs
    have hconsumer : k.ofConsumer = true := by
      cases k with
      | popLoadOther | moveOut => rfl
      | _ => cases hk
    exact ⟨List.suffix_rfl,pops_accesses hconsumer hq rfl⟩
  | popped =>
    simp only [popped] at hs
    split at hs
    · obtain ⟨queue,hq,rfl⟩ := Option.map_eq_some_iff.mp hs
      exact ⟨List.suffix_rfl,pops_accesses (k := .publishRead) rfl hq rfl⟩
    · cases hs
  | loopBody =>
    simp only [loopBody] at hs
    split at hs
    · obtain ⟨step,_,rfl⟩ := Option.map_eq_some_iff.mp hs
      exact ⟨List.suffix_rfl,id,.inl rfl⟩
    · cases hs
  | stop =>
    cases hs
    exact ⟨List.suffix_rfl,id,.inl rfl⟩

private theorem calls_step {selection : StrategySelection} {base : SizeT} {total : List MarketTick} {l : Label}
    (h : Inv iterate parser selection base total s) (hs : step iterate parser s l = some t) :
    t.queue.producer.calls = s.queue.producer.calls ∨
      ∃ c, t.queue.producer.calls = s.queue.producer.calls ++ [c] ∧ s.queue.producer.pc.inHand = [c.item] ∧
        (c.ok = false → ∃ j, l = .pushes (.pushLoadOther j) ∧
          s.queue.pushed.length = j + kTickQueueSize.value) := by
  obtain ⟨_,_,hq | ⟨k,hq,hk⟩⟩ := step_cases hs
  · exact .inl (by rw [hq])
  · refine (Spsc.push_refused h.coherent hq).imp_right ?_
    rintro ⟨c,hcalls,hhand,hrefused⟩
    refine ⟨c,hcalls,hhand,fun hok => ?_⟩
    obtain ⟨j,rfl,hfull⟩ := hrefused hok
    exact ⟨j,hk j rfl,hfull⟩

end Steps

section Burst
variable {iterate : ByteString → Option Json} {parser : MarketParser} {selection : StrategySelection}
  {base : SizeT} {total : List MarketTick} {s₀ s t : State}

private theorem sum_append (xs ys : List ByteString) :
    ((xs ++ ys).map List.length).sum = (xs.map List.length).sum + (ys.map List.length).sum := by
  rw [List.map_append, List.sum_append]

variable (parser) in
private theorem ticks_paid (compact : ∀ payload doc, iterate payload = some doc → doc.rendered ≤ payload.length)
    (payloads : List ByteString) :
    9 * (payloads.flatMap (payloadTicks iterate parser)).length ≤ (payloads.map List.length).sum := by
  induction payloads with
  | nil => exact Nat.le_refl 0
  | cons payload payloads ih =>
    have hpaid := payloadTicks_paid iterate compact parser payload
    rw [List.flatMap_cons, List.length_append, List.map_cons, List.sum_cons, Nat.mul_add]
    exact Nat.add_le_add hpaid ih

/-- What holds since a moment at which the strategy had caught up between two messages. While
few bytes have come since then, no push has been refused. -/
private structure Since (iterate : ByteString → Option Json) (parser : MarketParser)
    (selection : StrategySelection) (base : SizeT) (total : List MarketTick) (s₀ s : State) : Prop where
  inv : Inv iterate parser selection base total s
  inbox : s.inbox <:+ s₀.inbox
  calls : s₀.inboxBytes < s.inboxBytes + 9 * (kTickQueueSize.value + 1) →
    ∃ calls, s.queue.producer.calls = s₀.queue.producer.calls ++ calls ∧ ∀ c ∈ calls, c.ok = true

private theorem inboxBytes_le (h : t.inbox <:+ s.inbox) : t.inboxBytes ≤ s.inboxBytes := by
  obtain ⟨taken,he⟩ := h
  rw [State.inboxBytes, State.inboxBytes, ← he, sum_append]
  exact Nat.le_add_left _ _

private theorem Since.refused (h₀ : Inv iterate parser selection base total s₀) (between : s₀.parsing = none)
    (idle : s₀.queue.producer.pc = .idle)
    (compact : ∀ payload doc, iterate payload = some doc → doc.rendered ≤ payload.length)
    (h : Since iterate parser selection base total s₀ s)
    {calls : List (Spsc.PushCall MarketTick)} (hcalls : s.queue.producer.calls = s₀.queue.producer.calls ++ calls)
    (hok : ∀ c ∈ calls, c.ok = true) {item : MarketTick} (hhand : s.queue.producer.pc.inHand = [item])
    (hfull : s₀.queue.pushed.length + kTickQueueSize.value ≤ s.queue.pushed.length) :
    s.inboxBytes + 9 * (kTickQueueSize.value + 1) ≤ s₀.inboxBytes := by
  -- A refusal needs a full ring of ticks since then, and these ticks need their bytes.
  obtain ⟨taken,htaken⟩ := h.inbox
  have hpushed : s.queue.pushed.length = s₀.queue.pushed.length + calls.length := by
    have hall : calls.filter Spsc.PushCall.ok = calls := List.filter_eq_self.mpr hok
    rw [Spsc.pushed_eq, Spsc.pushed_eq, hcalls, List.filter_append, hall, List.map_append, List.length_append]
    exact congrArg (_ + ·) (List.length_map _)
  have hoffered : s.queue.offered.length = s₀.queue.offered.length + calls.length + 1 := by
    have hnone : s₀.queue.producer.pc.inHand = [] := by rw [idle]; rfl
    simp only [Spsc.State.offered, hcalls, hhand, hnone, List.map_append, List.length_append, List.length_map,
      List.length_singleton, List.length_nil, Nat.add_zero]
  have hticks : s.queue.offered.length ≤
      s₀.queue.offered.length + (taken.flatMap (payloadTicks iterate parser)).length := by
    have hoffers := congrArg List.length (h.inv.offers.trans h₀.offers.symm)
    rw [State.pending, State.pending, between, ← htaken, List.flatMap_append] at hoffers
    simp only [List.length_append, Option.elim_none, List.length_nil] at hoffers
    omega
  have hpaid := ticks_paid parser compact taken
  rw [State.inboxBytes, State.inboxBytes, ← htaken, sum_append]
  omega

private theorem Since.step (h₀ : Inv iterate parser selection base total s₀) (between : s₀.parsing = none)
    (idle : s₀.queue.producer.pc = .idle) (caughtUp : s₀.queue.popped = s₀.queue.pushed)
    (compact : ∀ payload doc, iterate payload = some doc → doc.rendered ≤ payload.length)
    (h : Since iterate parser selection base total s₀ s) {l : Label}
    (fresh : ∀ j, l = .pushes (.pushLoadOther j) → s₀.queue.popped.length ≤ j)
    (hs : Pipeline.step iterate parser s l = some t) : Since iterate parser selection base total s₀ t := by
  have hinbox := (step_cases hs).1
  refine ⟨h.inv.step hs,hinbox.trans h.inbox,fun few => ?_⟩
  have hfew := few.trans_le (Nat.add_le_add_right (inboxBytes_le hinbox) _)
  obtain ⟨calls,hcalls,hok⟩ := h.calls hfew
  rcases calls_step h.inv hs with hsame | ⟨c,hnext,hhand,hrefused⟩
  · exact ⟨calls,hsame.trans hcalls,hok⟩
  · refine ⟨calls ++ [c],by rw [hnext, hcalls, List.append_assoc],?_⟩
    rw [List.forall_mem_append, List.forall_mem_singleton]
    refine ⟨hok,?_⟩
    by_contra hc
    obtain ⟨j,hl,hfull⟩ := hrefused (Bool.not_eq_true _ ▸ hc)
    have hseen := fresh j hl
    rw [caughtUp] at hseen
    have hbytes := h.refused h₀ between idle compact hcalls hok hhand
      (hfull ▸ Nat.add_le_add_right hseen kTickQueueSize.value)
    exact absurd hfew (Nat.not_lt.mpr hbytes)

/-- What every schedule from the start of the process leads to. -/
theorem Inv.reached (payloads : List ByteString) {schedule : List Label}
    (run : exec (Pipeline.step iterate parser) (init selection base payloads) schedule = some s) :
    Inv iterate parser selection base (payloads.flatMap (payloadTicks iterate parser)) s ∧ s.Idle ∧
      s.inbox <:+ payloads := by
  refine ⟨exec_invariant (fun _ _ _ h hs => Inv.step h hs) run (Inv.initial payloads),?_,?_⟩
  · exact exec_invariant (fun _ _ _ h hs => (step_cases hs).2.1 h) run fun _ => rfl
  · exact exec_invariant (P := fun s => s.inbox <:+ payloads) (fun _ _ _ h hs => (step_cases hs).1.trans h) run
      List.suffix_rfl

/-- From a moment at which the strategy has caught up between two messages, less than nine bytes
for each slot of the queue and one more can come in without a tick being refused, however the
threads are scheduled and even if the strategy takes nothing meanwhile. The loads of `push` must
see the pops made before that moment, which at the start of the process says nothing. -/
theorem burst_accepted (iterate : ByteString → Option Json)
    (compact : ∀ payload doc, iterate payload = some doc → doc.rendered ≤ payload.length)
    (parser : MarketParser) (selection : StrategySelection) (payloads : List ByteString)
    {earlier schedule : List Label}
    (reached : exec (step iterate parser) (init selection base payloads) earlier = some s₀)
    (between : s₀.parsing = none) (caughtUp : s₀.queue.popped = s₀.queue.pushed)
    (run : exec (step iterate parser) s₀ schedule = some s)
    (fresh : ∀ j, .pushes (.pushLoadOther j) ∈ schedule → s₀.queue.popped.length ≤ j)
    (few : s₀.inboxBytes < s.inboxBytes + 9 * (kTickQueueSize.value + 1)) :
    ∃ calls, s.queue.producer.calls = s₀.queue.producer.calls ++ calls ∧ ∀ c ∈ calls, c.ok = true := by
  obtain ⟨h₀,hidle,_⟩ := Inv.reached payloads reached
  have hstart : Since iterate parser selection base (payloads.flatMap (payloadTicks iterate parser)) s₀ s₀ :=
    ⟨h₀,List.suffix_rfl,fun _ => ⟨[],(List.append_nil _).symm,List.forall_mem_nil _⟩⟩
  have hrun := exec_invariant_mem (L := fun l => l ∈ schedule)
    (fun s l t hl h hs => Since.step h₀ between (hidle between) caughtUp compact h
      (fun j hj => fresh j (hj ▸ hl)) hs) run (fun _ hl => hl) hstart
  exact hrun.calls few

/-- The first message is in and its ticks are traded on. -/
def quietSchedule : List Label :=
  [.onRead] ++ pushCall 0 ++ popPass 1 ++ pushCall 0 ++ popPass 2 ++ [.parsed]

/-- The second message is pushed while the strategy waits; the load sees both pops. -/
def secondMessage : List Label := [.onRead] ++ pushCall 2 ++ [.parsed]

private theorem compact_feed (payload : ByteString) (doc : Json) (h : feed payload = some doc) :
    doc.rendered ≤ payload.length := by
  rcases Option.or_eq_some_iff.mp h with h | ⟨_,h⟩
  all_goals
    unfold Json.only at h
    split_ifs at h with hpayload
    cases h
    rw [hpayload]
    decide

theorem secondMessage_accepted : ∃ s₀ s,
    exec (step feed (construct true)) (init .momentum 0 [firstText,secondText]) quietSchedule = some s₀ ∧
    exec (step feed (construct true)) s₀ secondMessage = some s ∧
    ∃ calls, s.queue.producer.calls = s₀.queue.producer.calls ++ calls ∧ ∀ c ∈ calls, c.ok = true := by
  have hquiet : (exec (step feed (construct true)) (init .momentum 0 [firstText,secondText]) quietSchedule).map
      (fun s => (s.parsing.isNone,decide (s.queue.popped = s.queue.pushed),s.queue.popped.length,s.inboxBytes)) =
        some (true,true,2,24) := by decide +kernel
  have hboth : (exec (step feed (construct true)) (init .momentum 0 [firstText,secondText])
      (quietSchedule ++ secondMessage)).isSome = true := by decide +kernel
  obtain ⟨s₀,hs₀,hfacts⟩ := Option.map_eq_some_iff.mp hquiet
  simp only [Prod.mk.injEq, decide_eq_true_iff, Option.isNone_iff_eq_none] at hfacts
  obtain ⟨hbetween,hcaught,htwo,hbytes⟩ := hfacts
  obtain ⟨s,hs⟩ := Option.isSome_iff_exists.mp hboth
  rw [exec_append, hs₀, Option.bind_some] at hs
  refine ⟨s₀,s,hs₀,hs,burst_accepted feed compact_feed (construct true) .momentum [firstText,secondText]
    hs₀ hbetween hcaught hs ?_ ?_⟩
  · intro j hj
    simp only [secondMessage, pushCall, List.cons_append, List.nil_append, List.mem_cons, List.not_mem_nil,
      reduceCtorEq, Label.pushes.injEq, Spsc.Label.pushLoadOther.injEq, false_or, or_false] at hj
    exact (htwo.trans hj.symm).le
  · rw [hbytes]
    exact (show 24 < 9 * (kTickQueueSize.value + 1) by decide).trans_le (Nat.le_add_left _ _)

end Burst

section Drops
variable {iterate : ByteString → Option Json} {parser : MarketParser} {selection : StrategySelection}
  {base : SizeT} {s : State}

/-- Every refused tick for the level is followed by one for it that got through. -/
def State.Repaired (s : State) (level : Level) : Prop :=
  ∀ before c after, s.queue.producer.calls = before ++ c :: after → c.ok = false → c.item.level? = some level →
    ∃ d ∈ after, d.ok = true ∧ d.item.level? = some level

/-- If all the later calls came through, and among them is one for every level that lost a tick
before, nothing is left to repair. -/
theorem State.repaired_again {earlier later : List (Spsc.PushCall MarketTick)}
    (hcalls : s.queue.producer.calls = earlier ++ later) (hok : ∀ d ∈ later, d.ok = true)
    (hagain : ∀ c ∈ earlier, c.ok = false → ∃ d ∈ later, d.item.level? = c.item.level?) (level : Level) :
    s.Repaired level := by
  intro before c after he hlost hlevel
  have hnot : c ∉ later := fun hmem => Bool.false_ne_true (hlost.symm.trans (hok c hmem))
  rcases List.append_eq_append_iff.mp (hcalls.symm.trans he) with ⟨middle,_,hlater⟩ | ⟨middle,hearlier,hrest⟩
  · exact absurd (hlater ▸ List.mem_append_right _ List.mem_cons_self) hnot
  · cases middle with
    | nil => exact absurd ((List.nil_append later ▸ hrest) ▸ List.mem_cons_self) hnot
    | cons first middle =>
      obtain ⟨rfl,rfl⟩ := List.cons.inj hrest
      obtain ⟨d,hd,hsame⟩ := hagain c (hearlier ▸ List.mem_append_right _ List.mem_cons_self) hlost
      exact ⟨d,List.mem_append_right _ hd,hok d hd,hsame.trans hlevel⟩

/-- The calls of `push` as assignments, with those marked that have come through. -/
private def attempts (calls : List (Spsc.PushCall MarketTick)) : List ((Level × UInt32) × Bool) :=
  calls.filterMap fun c => c.item.write?.map (·,c.ok)

private theorem attempts_all (calls : List (Spsc.PushCall MarketTick)) :
    (attempts calls).map Prod.fst = (calls.map Spsc.PushCall.item).filterMap MarketTick.write? := by
  induction calls with
  | nil => rfl
  | cons c calls ih =>
    rw [attempts, List.filterMap_cons, List.map_cons, List.filterMap_cons, ← ih]
    cases c.item.write? <;> rfl

private theorem attempts_kept (calls : List (Spsc.PushCall MarketTick)) :
    ((attempts calls).filter Prod.snd).map Prod.fst =
      ((calls.filter Spsc.PushCall.ok).map Spsc.PushCall.item).filterMap MarketTick.write? := by
  induction calls with
  | nil => rfl
  | cons c calls ih =>
    rw [attempts, List.filterMap_cons]
    cases hw : c.item.write? <;> cases hok : c.ok <;> simp [hw, hok, ← ih, attempts]

private theorem write?_level {tick : MarketTick} {w : Level × UInt32} (h : tick.write? = some w) :
    tick.level? = some w.1 := by
  obtain ⟨level,hl,rfl⟩ := Option.map_eq_some_iff.mp h
  exact hl

private theorem attempts_repaired {level : Level} (h : s.Repaired level) :
    Foundation.LastWrite.Repaired (attempts s.queue.producer.calls) level := by
  intro before w after he hw
  obtain ⟨front,rest,hcalls,_,hrest⟩ := List.filterMap_eq_append_iff.mp he
  obtain ⟨skipped,c,back,rfl,_,hc,hback⟩ := List.filterMap_eq_cons_iff.mp hrest
  obtain ⟨v,hv,hpair⟩ := Option.map_eq_some_iff.mp hc
  obtain ⟨rfl,hlost⟩ := Prod.mk.inj hpair
  rw [← List.append_assoc] at hcalls
  obtain ⟨d,hd,hok,hlevel⟩ := h (front ++ skipped) c back hcalls hlost (hw ▸ write?_level hv)
  refine ⟨(level,d.item.size),?_,rfl⟩
  rw [← hback]
  refine List.mem_filterMap.mpr ⟨d,hd,?_⟩
  rw [MarketTick.write?, hlevel, hok]
  rfl

private theorem book_of_pushed (calls : List (Spsc.PushCall MarketTick)) {side : Bool}
    {p : Fin LimitOrderBook.kLevels}
    (h : Foundation.LastWrite.Repaired (attempts calls) (side,p)) :
    (LimitOrderBook.empty.applyTicks ((calls.filter Spsc.PushCall.ok).map Spsc.PushCall.item)).sizeAt (side,p) =
      lastSize (calls.map Spsc.PushCall.item) side (priceByte p) := by
  -- Nothing but the last tick that got through counts for a level, so a level whose refused ticks are
  -- repaired shows what the feed says.
  rw [← LimitOrderBook.sizeAt_history, LimitOrderBook.sizeAt_applyTicks, LimitOrderBook.sizeAt_applyTicks,
    Foundation.LastWrite.writes_apply, Foundation.LastWrite.writes_apply, ← attempts_kept, ← attempts_all,
    Foundation.LastWrite.last?_kept h]

/-- The passes made so far are a run over a beginning of what was pushed. -/
theorem Inv.run_pushed {total : List MarketTick} (h : Inv iterate parser selection base total s) :
    (StrategyEngine.construct selection).runTicks (s.queue.pushed.take s.steps.length) = some s.steps ∧
      s.steps.length ≤ s.queue.pushed.length := by
  obtain ⟨processed,hp,hrun⟩ := h.progress
  have hpopped : s.queue.popped <+: s.queue.pushed := by
    rw [Spsc.Inv.order h.coherent]
    exact List.take_prefix _ _
  have hprocessed : processed <+: s.queue.pushed := (hp ▸ List.prefix_append _ _).trans hpopped
  rw [StrategyEngine.runTicks_length hrun, ← List.prefix_iff_eq_take.mp hprocessed]
  exact ⟨hrun,hprocessed.length_le⟩

/-- Whatever is refused, the trading is a run over the ticks that got through, in the order of the
feed. Once it has caught up between two messages, each level whose refused ticks were followed by
one that got through has the size that the messages so far give it. -/
theorem drops_stay_local (iterate : ByteString → Option Json) (parser : MarketParser)
    (selection : StrategySelection) (payloads : List ByteString) {schedule : List Label}
    (run : exec (step iterate parser) (init selection base payloads) schedule = some s) :
    s.queue.pushed.Sublist (payloads.flatMap (payloadTicks iterate parser)) ∧
    (StrategyEngine.construct selection).runTicks (s.queue.pushed.take s.steps.length) = some s.steps ∧
    (s.parsing = none → s.steps.length = s.queue.pushed.length →
      ∃ delivered, payloads = delivered ++ s.inbox ∧ ∀ side p, s.Repaired (side,p) →
        s.engine.book.sizeAt (side,p) =
          lastSize (delivered.flatMap (payloadTicks iterate parser)) side (priceByte p)) := by
  obtain ⟨h,hidle,hinbox⟩ := Inv.reached payloads run
  obtain ⟨hrun,_⟩ := h.run_pushed
  refine ⟨?_,hrun,fun hbetween hcaught => ?_⟩
  · have hoffered : s.queue.offered <+: payloads.flatMap (payloadTicks iterate parser) := by
      rw [← h.offers, List.append_assoc]
      exact List.prefix_append _ _
    exact (Spsc.pushed_sublist_offered s.queue).trans hoffered.sublist
  · obtain ⟨delivered,hdelivered⟩ := hinbox
    refine ⟨delivered,hdelivered.symm,fun side p hrepaired => ?_⟩
    have hcalls : s.queue.producer.calls.map Spsc.PushCall.item =
        delivered.flatMap (payloadTicks iterate parser) := by
      have hoffers := h.offers
      rw [State.pending, hbetween, Option.elim_none, List.append_nil, Spsc.State.offered, hidle hbetween,
        Spsc.ProducerPc.inHand, List.append_nil, ← hdelivered, List.flatMap_append] at hoffers
      exact List.append_cancel_right hoffers
    rw [hcaught, List.take_length] at hrun
    have hbook : s.engine.book = LimitOrderBook.empty.applyTicks s.queue.pushed := by
      rw [h.engine]
      exact congrArg View.book (StrategyEngine.after_view hrun)
    rw [hbook, Spsc.pushed_eq, book_of_pushed _ (attempts_repaired hrepaired), hcalls]

/-- The second message so often that it fills the queue, and the first one behind it. -/
def crowd : List ByteString := List.replicate kTickQueueSize.value secondText ++ [firstText]

/-- The ticks of the first message. -/
def firstTicks : List MarketTick := [⟨40,10,true⟩,⟨60,10,false⟩]

private theorem first_ticks : payloadTicks feed (construct true) firstText = firstTicks := by decide +kernel

private theorem crowd_ticks (n : Nat) :
    (List.replicate n secondText).flatMap (payloadTicks feed (construct true)) = List.replicate n ⟨58,10,true⟩ := by
  have hsecond : payloadTicks feed (construct true) secondText = [⟨58,10,true⟩] := by decide +kernel
  induction n with
  | zero => rfl
  | succ n ih => rw [List.replicate_succ, List.flatMap_cons, hsecond, ih, List.replicate_succ, List.singleton_append]

private theorem crowd_parses : ∀ payload ∈ [crowd,[firstText]].flatten,
    (parseTick record feed (construct true) payload []).1 ≠ .terminated := by
  have hfirst : (parseTick record feed (construct true) firstText []).1 ≠ .terminated := by decide +kernel
  have hsecond : (parseTick record feed (construct true) secondText []).1 ≠ .terminated := by decide +kernel
  simp only [List.flatten_cons, List.flatten_nil, crowd, List.forall_mem_append, List.forall_mem_singleton]
  exact ⟨⟨fun payload hmem => List.eq_of_mem_replicate hmem ▸ hsecond,hfirst⟩,hfirst,List.forall_mem_nil _⟩

private theorem crowd_lost :
    (crowd.flatMap (payloadTicks feed (construct true))).drop kTickQueueSize.value = firstTicks := by
  rw [crowd, List.flatMap_append, crowd_ticks, List.flatMap_singleton, first_ticks,
    List.drop_left' List.length_replicate]

private theorem first_kept : kept feed (construct true) [firstText] = firstTicks := by
  rw [kept, List.flatMap_singleton, first_ticks, List.take_of_length_le (by decide)]

private theorem crowd_kept : [crowd,[firstText]].flatMap (kept feed (construct true)) =
    List.replicate kTickQueueSize.value ⟨58,10,true⟩ ++ firstTicks := by
  rw [List.flatMap_cons, List.flatMap_singleton, kept, kept, crowd, List.flatMap_append, crowd_ticks,
    List.flatMap_singleton, first_ticks, List.take_left' List.length_replicate, List.take_of_length_le (by decide)]

private theorem crowd_short : 10 * ([crowd,[firstText]].flatMap (kept feed (construct true))).length < 2^31 := by
  rw [crowd_kept, List.length_append, List.length_replicate]
  decide

private theorem crowd_repaired {lost again : List (Spsc.PushCall MarketTick)}
    (hcalls : s.queue.producer.calls = lost ++ again)
    (hlost : lost.map (fun c => (c.item,c.ok)) = attempted feed (construct true) crowd)
    (hagain : again.map (fun c => (c.item,c.ok)) = attempted feed (construct true) [firstText]) (level : Level) :
    s.Repaired level := by
  refine State.repaired_again hcalls (fun d hd => ?_) (fun c hc hok => ?_) level
  · have hmem : (d.item,d.ok) ∈ attempted feed (construct true) [firstText] := hagain ▸ List.mem_map_of_mem hd
    rw [attempted, Spsc.mem_outcomes, List.flatMap_singleton, first_ticks] at hmem
    by_contra hok
    rw [if_neg hok, List.drop_eq_nil_of_le (by decide)] at hmem
    exact List.not_mem_nil hmem
  · have hmem : (c.item,c.ok) ∈ attempted feed (construct true) crowd := hlost ▸ List.mem_map_of_mem hc
    rw [attempted, Spsc.mem_outcomes, hok, crowd_lost] at hmem
    have hcame : (c.item,true) ∈ again.map fun c => (c.item,c.ok) := by
      rw [hagain, attempted, Spsc.mem_outcomes, ← kept, first_kept]
      exact hmem
    obtain ⟨d,hd,hpair⟩ := List.mem_map.mp hcame
    exact ⟨d,hd,congrArg (fun p => p.1.level?) hpair⟩

/-- The message behind a full queue is refused, and comes again when the strategy has caught up. -/
theorem refused_then_repaired : ∃ schedule s,
    exec (step feed (construct true)) (init .momentum 0 (crowd ++ [firstText])) schedule = some s ∧
    (∃ c ∈ s.queue.producer.calls, c.ok = false) ∧
    s.queue.pushed.Sublist ((crowd ++ [firstText]).flatMap (payloadTicks feed (construct true))) ∧
    (StrategyEngine.construct .momentum).runTicks s.queue.pushed = some s.steps ∧
    ∀ side p, s.engine.book.sizeAt (side,p) =
      lastSize ((crowd ++ [firstText]).flatMap (payloadTicks feed (construct true))) side (priceByte p) := by
  obtain ⟨passes,hpasses⟩ := StrategyEngine.exists_runTicks_of_length .momentum crowd_short
  obtain ⟨schedule,s,hs,hdone⟩ := bursts_traded feed (construct true) .momentum 0 [crowd,[firstText]] crowd_parses
    hpasses
  obtain ⟨calls,hcalls,hitems⟩ := hdone.calls
  rw [List.flatMap_cons, List.flatMap_singleton] at hitems
  obtain ⟨lost,again,rfl,hlost,hagain⟩ := List.map_eq_append_iff.mp hitems
  replace hcalls : s.queue.producer.calls = lost ++ again := hcalls
  have hflat : [crowd,[firstText]].flatten = crowd ++ [firstText] := rfl
  rw [hflat] at hs hdone
  obtain ⟨hpushed,hrun,hbook⟩ := drops_stay_local feed (construct true) .momentum (crowd ++ [firstText]) hs
  have hlength : s.steps.length = s.queue.pushed.length := by
    rw [hdone.steps, hdone.pushed]
    exact StrategyEngine.runTicks_length hpasses
  obtain ⟨delivered,hdelivered,hsize⟩ := hbook hdone.between hlength
  rw [hdone.inbox, List.append_nil] at hdelivered
  subst hdelivered
  rw [hlength, List.take_length] at hrun
  refine ⟨schedule,s,hs,?_,hpushed,hrun,fun side p => hsize side p (crowd_repaired hcalls hlost hagain _)⟩
  have hmem : (⟨40,10,true⟩,false) ∈ lost.map fun c => (c.item,c.ok) := by
    rw [hlost, attempted, Spsc.mem_outcomes, crowd_lost]
    exact List.mem_cons_self
  obtain ⟨c,hc,hpair⟩ := List.mem_map.mp hmem
  exact ⟨c,hcalls ▸ List.mem_append_left again hc,congrArg Prod.snd hpair⟩

end Drops
end PredictionMarket.Pipeline

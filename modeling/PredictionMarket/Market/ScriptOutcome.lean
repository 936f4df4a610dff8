import PredictionMarket.Market.MessageScript

/-! How a script ends and what it emits. A message passes items until the first that
stops it; what it emitted before that stays emitted. -/
namespace PredictionMarket.Market

/-- The message gets past these items and stops at this one. -/
def StopsAt (items : List Item) (passed : List (List MarketTick)) (stop : Item) : Prop :=
  ∃ rest, items = passed.map .emits ++ stop :: rest

/-- A walk without a defect passes all its ticks. -/
theorem runItems_passed (passed : List (List MarketTick)) :
    runItems (passed.map .emits) = (.returned true, passed.flatten) := by
  induction passed with
  | nil => rfl
  | cons ticks passed ih => rw [List.map_cons, runItems, ih, List.flatten_cons]

private theorem runItems_passing (passed : List (List MarketTick)) (items : List Item) :
    runItems (passed.map .emits ++ items) = ((runItems items).1, passed.flatten ++ (runItems items).2) := by
  induction passed with
  | nil => rfl
  | cons ticks passed ih =>
    rw [List.map_cons, List.cons_append, runItems, ih, List.flatten_cons, List.append_assoc]

/-- A walk rejects at its first defect and has passed what is before it. -/
theorem runItems_defect {items : List Item} {passed : List (List MarketTick)}
    (h : StopsAt items passed .defect) : runItems items = (.returned false, passed.flatten) := by
  obtain ⟨rest,rfl⟩ := h
  rw [runItems_passing, runItems, List.append_nil]

private theorem runItems_malformed {items : List Item} {passed : List (List MarketTick)}
    (h : StopsAt items passed .malformed) : runItems items = (.terminated, passed.flatten) := by
  obtain ⟨rest,rfl⟩ := h
  rw [runItems_passing, runItems, List.append_nil]

/-- The three ways a message goes. -/
theorem items_cases (items : List Item) :
    (∃ passed : List (List MarketTick), items = passed.map .emits) ∨
    (∃ passed, StopsAt items passed .defect) ∨ ∃ passed, StopsAt items passed .malformed := by
  induction items with
  | nil => exact .inl ⟨[],rfl⟩
  | cons item items ih =>
    cases item with
    | defect => exact .inr (.inl ⟨[],items,rfl⟩)
    | malformed => exact .inr (.inr ⟨[],items,rfl⟩)
    | emits ticks =>
      rcases ih with ⟨passed,rfl⟩ | ⟨passed,rest,rfl⟩ | ⟨passed,rest,rfl⟩
      · exact .inl ⟨ticks :: passed,rfl⟩
      · exact .inr (.inl ⟨ticks :: passed,rest,rfl⟩)
      · exact .inr (.inr ⟨ticks :: passed,rest,rfl⟩)

/-- A walk accepts exactly if no item is in its way. -/
theorem runItems_true_iff (items : List Item) :
    (runItems items).1 = .returned true ↔
      ∃ passed : List (List MarketTick), items = passed.map .emits := by
  constructor
  · intro h
    rcases items_cases items with hp | ⟨passed,hs⟩ | ⟨passed,hs⟩
    · exact hp
    · simp [runItems_defect hs] at h
    · simp [runItems_malformed hs] at h
  · rintro ⟨passed,rfl⟩
    rw [runItems_passed]

/-- A walk rejects exactly if it stops at a defect. -/
theorem runItems_false_iff (items : List Item) :
    (runItems items).1 = .returned false ↔ ∃ passed, StopsAt items passed .defect := by
  constructor
  · intro h
    rcases items_cases items with ⟨passed,rfl⟩ | hs | ⟨passed,hs⟩
    · simp [runItems_passed] at h
    · exact hs
    · simp [runItems_malformed hs] at h
  · rintro ⟨passed,hs⟩
    rw [runItems_defect hs]

/-- A walk ends the process exactly if it stops at an element in error. -/
theorem runItems_terminated_iff (items : List Item) :
    (runItems items).1 = .terminated ↔ ∃ passed, StopsAt items passed .malformed := by
  constructor
  · intro h
    rcases items_cases items with ⟨passed,rfl⟩ | ⟨passed,hs⟩ | hs
    · simp [runItems_passed] at h
    · simp [runItems_defect hs] at h
    · exact hs
  · rintro ⟨passed,hs⟩
    rw [runItems_malformed hs]

def Item.ticks : Item → List MarketTick
  | emits ticks => ticks
  | _ => []

/-- The ticks of the items before the first defect. -/
def ticksBeforeDefect : List Item → List MarketTick
  | [] => []
  | .defect :: _ => []
  | item :: items => item.ticks ++ ticksBeforeDefect items

private theorem ticksBeforeDefect_eq_run {items : List Item} (h : (runItems items).1 ≠ .terminated) :
    (runItems items).2 = ticksBeforeDefect items := by
  induction items with
  | nil => rfl
  | cons item items ih =>
    cases item with
    | defect => rfl
    | malformed => exact absurd rfl h
    | emits ticks => exact congrArg (ticks ++ ·) (ih h)

/-- A batch ends with the process exactly if it has an error element or a message that
does; otherwise it is accepted. -/
theorem runBatch_terminated_iff (messages : List (Option (List Item))) :
    (runBatch messages).1 = .terminated ↔
      none ∈ messages ∨ ∃ items, some items ∈ messages ∧ (runItems items).1 = .terminated := by
  induction messages with
  | nil => simp [runBatch]
  | cons m messages ih =>
    cases m with
    | none => simp [runBatch]
    | some items =>
      rcases h : runItems items with ⟨ok | _,ticks⟩
      · simp only [runBatch, h, ih, List.mem_cons, reduceCtorEq, false_or]
        refine or_congr_right ⟨fun ⟨items',hm,ht⟩ => ⟨items',.inr hm,ht⟩,?_⟩
        rintro ⟨items',he | hm,ht⟩
        · cases he
          simp [h] at ht
        · exact ⟨items',hm,ht⟩
      · simp only [runBatch, h, true_iff]
        exact .inr ⟨items,List.mem_cons_self,by rw [h]⟩

/-- A batch is never rejected, and each message adds its ticks up to its first defect. -/
theorem runBatch_eq {messages : List (Option (List Item))} (h : (runBatch messages).1 ≠ .terminated) :
    runBatch messages = (.returned true, messages.flatMap fun m => m.elim [] ticksBeforeDefect) := by
  induction messages with
  | nil => rfl
  | cons m messages ih =>
    cases m with
    | none => exact absurd rfl h
    | some items =>
      have ht : (runItems items).1 ≠ .terminated → (runItems items).2 = ticksBeforeDefect items :=
        ticksBeforeDefect_eq_run
      rcases hr : runItems items with ⟨ok | _,ticks⟩
      · rw [hr] at ht
        simp only [runBatch, hr] at h ⊢
        rw [ih h, List.flatMap_cons, Option.elim_some, ← ht (Verdict.returned_ne_terminated ok)]
      · simp [runBatch, hr] at h

end PredictionMarket.Market

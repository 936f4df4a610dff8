import PredictionMarket.Queue.SpscCalls

/-! Calls that nobody interrupts. With loads that see the latest stores a call of `push` is
accepted exactly if there is room, and a call of `pop` takes the next element if there is one. -/
namespace PredictionMarket.Queue.Spsc
open Foundation.Ring Foundation.Transition
variable {size : Size} {T : Type} {base : SizeT} {s t u : State size T}

/-- Slots that are free as long as nothing is taken. -/
def State.room (s : State size T) : Nat := s.popped.length + size.value - s.pushed.length

/-- What becomes of these items in a queue with so many free slots. -/
def outcomes (room : Nat) (items : List T) : List (T × Bool) :=
  (items.take room).map (·,true) ++ (items.drop room).map (·,false)

/-- What a call returns is told by where its item stands. -/
theorem mem_outcomes {room : Nat} {items : List T} {item : T} {ok : Bool} :
    (item,ok) ∈ outcomes room items ↔ item ∈ if ok then items.take room else items.drop room := by
  rw [outcomes, List.mem_append, List.mem_map, List.mem_map]
  cases ok <;> simp

/-- What the first items leave free is there for the others. -/
theorem outcomes_append (room : Nat) (xs ys : List T) :
    outcomes room (xs ++ ys) = outcomes room xs ++ outcomes (room - xs.length) ys := by
  rcases Nat.le_total room xs.length with hle | hle
  · rw [outcomes, outcomes, outcomes, List.take_append_of_le_length hle, List.drop_append_of_le_length hle,
      Nat.sub_eq_zero_of_le hle]
    simp
  · rw [outcomes, outcomes, outcomes, List.take_of_length_le hle, List.drop_eq_nil_of_le hle, List.take_append,
      List.drop_append, List.take_of_length_le hle, List.drop_eq_nil_of_le hle]
    simp

/-- Items that have been pushed while the consumer stood still outside of `pop`. -/
structure PushedAlone (base : SizeT) (s t : State size T) (items : List T) : Prop where
  coherent : Coherent base t
  idle : t.producer.pc = .idle
  consumer : t.consumer = s.consumer
  calls : ∃ calls, t.producer.calls = s.producer.calls ++ calls ∧
    calls.map (fun c => (c.item,c.ok)) = outcomes s.room items

namespace PushedAlone
variable {items more : List T}

/-- Nothing has been pushed. -/
theorem none (h : Coherent base s) (hpc : s.producer.pc = .idle) : PushedAlone base s s [] :=
  ⟨h,hpc,rfl,[],(List.append_nil _).symm,by simp [outcomes]⟩

/-- Nothing has been taken. -/
theorem popped (h : PushedAlone base s t items) : t.popped = s.popped := by
  rw [State.popped, h.consumer, State.popped]

/-- The items that found room are in the queue. -/
theorem pushed (h : PushedAlone base s t items) : t.pushed = s.pushed ++ items.take s.room := by
  obtain ⟨calls,hcalls,hitems⟩ := h.calls
  have hkept (xs : List T) (ok : Bool) :
      ((xs.map fun x => (x,ok)).filterMap fun p : T × Bool => if p.2 then some p.1 else Option.none) =
        if ok then xs else [] := by
    cases ok <;> simp [List.filterMap_map]
  have hpushed : (calls.filterMap fun c => if c.ok then some c.item else Option.none) = items.take s.room := by
    have hmapped : (calls.filterMap fun c => if c.ok then some c.item else Option.none) =
        (calls.map fun c => (c.item,c.ok)).filterMap fun p => if p.2 then some p.1 else Option.none := by
      rw [List.filterMap_map]
      rfl
    rw [hmapped, hitems, outcomes, List.filterMap_append, hkept, hkept]
    simp
  rw [State.pushed, hcalls, List.filterMap_append, hpushed, State.pushed]

/-- Items pushed one after the other are pushed together. -/
theorem trans (h : PushedAlone base s t items) (h' : PushedAlone base t u more) :
    PushedAlone base s u (items ++ more) where
  coherent := h'.coherent
  idle := h'.idle
  consumer := h'.consumer.trans h.consumer
  calls := by
    obtain ⟨calls,hcalls,hitems⟩ := h.calls
    obtain ⟨calls',hcalls',hitems'⟩ := h'.calls
    have hroom : t.room = s.room - items.length := by
      rw [State.room, h.popped, h.pushed, List.length_append, List.length_take, State.room]
      omega
    refine ⟨calls ++ calls',by rw [hcalls', hcalls, List.append_assoc],?_⟩
    rw [List.map_append, hitems, hitems', outcomes_append, hroom]

end PushedAlone

private theorem latest_read (h : Coherent base s) :
    s.readIndex.published[s.popped.length]? = some (counter base s.popped.length) := by
  rw [Inv.reads h, List.getElem?_map, List.getElem?_range (Nat.lt_succ_self _)]
  rfl

private theorem latest_write (h : Coherent base s) :
    s.writeIndex.published[s.pushed.length]? = some (counter base s.pushed.length) := by
  rw [Inv.writes h, List.getElem?_map, List.getElem?_range (Nat.lt_succ_self _)]
  rfl

/-- A call of `push` beside a consumer that stands still. -/
theorem push_alone (h : Coherent base s) (hpc : s.producer.pc = .idle) (item : T) :
    ∃ accesses t, (∀ k ∈ accesses, k.offer = none ∧ k.ofConsumer = false) ∧
      exec step s (.pushLoadOwn item :: accesses) = some t ∧ PushedAlone base s t [item] := by
  have hread := latest_read h
  have hseen : ¬ s.popped.length < s.producer.seen := Nat.not_lt.mpr (Inv.producerSeen h)
  have hfull := size.counter_sub_eq_size_iff base (Inv.popped_le h) (Inv.occupancy h)
  have hown : step s (.pushLoadOwn item) =
      some { s with producer.pc := .ownLoaded item (counter base s.pushed.length) } := by
    simp only [step, pushLoadOwn, hpc, Inv.latestWrite h]
  have hkeeps {ls : List (Label T)} {t : State size T} (hrun : exec step s ls = some t) : Coherent base t :=
    exec_invariant (fun _ _ _ h hs => (coherent_step h hs).1) hrun h
  by_cases hroom : s.pushed.length = s.popped.length + size.value
  · have hrefused : exec step s [.pushLoadOwn item,.pushLoadOther s.popped.length] = some { s with producer :=
        ⟨.idle,s.popped.length,s.producer.calls ++
          [⟨item,counter base s.pushed.length,counter base s.popped.length,false⟩]⟩ } := by
      rw [exec_cons, hown, Option.bind_some, exec_single]
      simp only [step, pushLoadOther, hread, if_neg hseen, if_pos (hfull.mpr hroom)]
    refine ⟨_,_,by simp [Label.offer, Label.ofConsumer],hrefused,hkeeps hrefused,rfl,rfl,_,rfl,?_⟩
    rw [State.room, ← hroom, Nat.sub_self]
    rfl
  · have hpushed : exec step s [.pushLoadOwn item,.pushLoadOther s.popped.length,.construct,.publishWrite] =
        some { s with
          buffer := Function.update s.buffer (size.slot (counter base s.pushed.length)) (some item)
          writeIndex := s.writeIndex.store (counter base s.pushed.length + 1)
          producer := ⟨.idle,s.popped.length,s.producer.calls ++
            [⟨item,counter base s.pushed.length,counter base s.popped.length,true⟩]⟩
          fault := s.fault || (s.buffer (size.slot (counter base s.pushed.length))).isSome } := by
      rw [exec_cons, hown, Option.bind_some, exec_cons]
      simp only [step, pushLoadOther, hread, if_neg hseen, if_neg (mt hfull.mp hroom), Option.bind_some]
      rfl
    refine ⟨_,_,by simp [Label.offer, Label.ofConsumer],hpushed,hkeeps hpushed,rfl,rfl,_,rfl,?_⟩
    have hpos : 0 < s.room := by
      have := Inv.occupancy h
      rw [State.room]
      omega
    rw [outcomes, List.take_of_length_le (show [item].length ≤ s.room from hpos),
      List.drop_eq_nil_of_le (show [item].length ≤ s.room from hpos)]
    rfl

/-- A call of `pop` beside a producer that stands still, up to its last access. -/
theorem pop_alone (h : Coherent base s) (hpc : s.consumer.pc = .idle) (hlt : s.popped.length < s.pushed.length) :
    ∃ t u item read write, exec step s [.popLoadOwn,.popLoadOther s.pushed.length,.moveOut] = some t ∧
      t.consumer.pc = .moved read write item ∧ step t .publishRead = some u ∧ Coherent base u ∧
      u.consumer.pc = .idle ∧ u.producer = s.producer ∧ u.popped = s.popped ++ [item] := by
  have hwrite := latest_write h
  have hseen : ¬ s.pushed.length < s.consumer.seen := Nat.not_lt.mpr (Inv.consumerSeen h)
  have hempty := size.counter_eq_iff base (Inv.popped_le h) (Inv.occupancy h)
  have hown : step s .popLoadOwn = some { s with consumer.pc := .ownLoaded (counter base s.popped.length) } := by
    simp only [step, popLoadOwn, hpc, Inv.latestRead h]
  have hkeeps {ls : List (Label T)} {t : State size T} (hrun : exec step s ls = some t) : Coherent base t :=
    exec_invariant (fun _ _ _ h hs => (coherent_step h hs).1) hrun h
  have hother : exec step s [.popLoadOwn,.popLoadOther s.pushed.length] = some { s with consumer :=
      ⟨.otherLoaded (counter base s.popped.length) (counter base s.pushed.length),s.pushed.length,
        s.consumer.calls⟩ } := by
    rw [exec_cons, hown, Option.bind_some, exec_single]
    simp only [step, popLoadOther, hwrite, if_neg hseen, if_neg (mt hempty.mp hlt.ne)]
  have hmove (ls : List (Label T)) : exec step s (.popLoadOwn :: .popLoadOther s.pushed.length :: ls) =
      exec step { s with consumer :=
        ⟨.otherLoaded (counter base s.popped.length) (counter base s.pushed.length),s.pushed.length,
          s.consumer.calls⟩ } ls :=
    (exec_append step s [.popLoadOwn,.popLoadOther s.pushed.length] ls).trans (by rw [hother]; rfl)
  cases hb : s.buffer (size.slot (counter base s.popped.length)) with
  | none =>
    have hfault : exec step s [.popLoadOwn,.popLoadOther s.pushed.length,.moveOut] = some { s with
        fault := true
        consumer := ⟨.idle,s.pushed.length,s.consumer.calls⟩ } := by
      rw [hmove, exec_single]
      simp only [step, moveOut, hb]
    cases Inv.faultless (hkeeps hfault)
  | some item =>
    have hmoved : exec step s [.popLoadOwn,.popLoadOther s.pushed.length,.moveOut] = some { s with
        buffer := Function.update s.buffer (size.slot (counter base s.popped.length)) none
        consumer := ⟨.moved (counter base s.popped.length) (counter base s.pushed.length) item,s.pushed.length,
          s.consumer.calls⟩ } := by
      rw [hmove, exec_single]
      simp only [step, moveOut, hb]
    exact ⟨_,_,item,_,_,hmoved,rfl,rfl,(coherent_step (l := .publishRead) (hkeeps hmoved) rfl).1,rfl,rfl,
      by simp [State.popped]⟩

end PredictionMarket.Queue.Spsc

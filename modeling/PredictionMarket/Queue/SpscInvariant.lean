import PredictionMarket.Queue.SpscThreads

/-! One invariant of the interleaved queue. It relates the published histories, both
stale views, a half-done push or pop and the slots, and each label restores it. -/
namespace PredictionMarket.Queue.Spsc
open Foundation.Ring
variable {size : Size} {T : Type}

/-- The element a half-done push has already placed. -/
def ProducerPc.placed : ProducerPc T → List T
  | .constructed item _ _ => [item]
  | .idle | .ownLoaded _ _ | .otherLoaded _ _ _ => []

/-- How many elements a half-done pop has already removed. -/
def ConsumerPc.removed : ConsumerPc T → Nat
  | .moved _ _ _ => 1
  | .idle | .ownLoaded _ | .otherLoaded _ _ => 0

/-- The producer's locals against `n` published pushes and its last view. -/
def ProducerPc.Consistent (base : SizeT) (capacity n seen : Nat) : ProducerPc T → Prop
  | .idle => True
  | .ownLoaded _ write => write = counter base n
  | .otherLoaded _ write read | .constructed _ write read =>
    write = counter base n ∧ read = counter base seen ∧ n < seen + capacity

/-- The consumer's locals against `n` published pops and its last view. -/
def ConsumerPc.Consistent (base : SizeT) (pushed : List T) (n seen : Nat) : ConsumerPc T → Prop
  | .idle => True
  | .ownLoaded read => read = counter base n
  | .otherLoaded read write => read = counter base n ∧ write = counter base seen ∧ n < seen
  | .moved read write item =>
    read = counter base n ∧ write = counter base seen ∧ n < seen ∧ pushed[n]? = some item

/-- The invariant against the published pushes and pops of the state. Slots hold
what was placed, published or not, less what was removed, published or not. -/
structure Inv (base : SizeT) (pushed popped : List T) (s : State size T) : Prop where
  writes : s.writeIndex.published = (List.range (pushed.length + 1)).map (counter base)
  reads : s.readIndex.published = (List.range (popped.length + 1)).map (counter base)
  order : popped = pushed.take popped.length
  producerSeen : s.producer.seen ≤ popped.length
  producerRoom : pushed.length ≤ s.producer.seen + size.value
  consumerBehind : popped.length ≤ s.consumer.seen
  consumerSeen : s.consumer.seen ≤ pushed.length
  pushing : s.producer.pc.Consistent base size.value pushed.length s.producer.seen
  popping : s.consumer.pc.Consistent base pushed popped.length s.consumer.seen
  storage : Holds s.buffer (base.toNat + (popped.length + s.consumer.pc.removed))
    ((pushed ++ s.producer.pc.placed).drop (popped.length + s.consumer.pc.removed))
  refusedPush : ∀ c ∈ s.producer.calls, c.ok = false →
    c.write - c.read = BitVec.ofNat 64 size.value
  refusedPop : ∀ c ∈ s.consumer.calls, c.item = none → c.read = c.write
  faultless : s.fault = false

private theorem latest_of_published {a : AtomicIndex} {base : SizeT} {n : Nat}
    (h : a.published = (List.range (n + 1)).map (counter base)) : a.latest = counter base n := by
  have hl := a.latest_eq
  rw [h, List.range_succ, List.map_append] at hl
  simpa using hl.symm

private theorem published_at {a : AtomicIndex} {base value : SizeT} {n j : Nat}
    (h : a.published = (List.range (n + 1)).map (counter base))
    (hj : a.published[j]? = some value) : j ≤ n ∧ value = counter base j := by
  have hlt : j < n + 1 := by
    have := (List.getElem?_eq_some_iff.mp hj).1
    rwa [h, List.length_map, List.length_range] at this
  rw [h, List.getElem?_map, List.getElem?_range hlt] at hj
  exact ⟨by omega,(Option.some.inj hj).symm⟩

private theorem published_snoc {a : AtomicIndex} {base : SizeT} {n : Nat}
    (h : a.published = (List.range (n + 1)).map (counter base)) :
    (a.store (counter base n + 1)).published = (List.range (n + 1 + 1)).map (counter base) := by
  rw [AtomicIndex.published_store, h, List.range_succ, List.map_append, counter_succ]
  simp [List.range_succ]

namespace Inv
variable {base : SizeT} {pushed popped : List T} {s t : State size T}

/-- The invariant holds of a queue that nothing has used. -/
theorem initial (base : SizeT) : Inv base [] [] (init size T base) where
  writes := by simp [init, AtomicIndex.published]
  reads := by simp [init, AtomicIndex.published]
  order := rfl
  producerSeen := Nat.le_refl 0
  producerRoom := Nat.zero_le _
  consumerBehind := Nat.le_refl 0
  consumerSeen := Nat.le_refl 0
  pushing := trivial
  popping := trivial
  storage := .empty _
  refusedPush := by simp [init]
  refusedPop := by simp [init]
  faultless := rfl

/-- No more is taken than was pushed. -/
theorem popped_le (h : Inv base pushed popped s) : popped.length ≤ pushed.length :=
  h.consumerBehind.trans h.consumerSeen

/-- The occupancy that either thread could compute from the true indices. -/
theorem occupancy (h : Inv base pushed popped s) : pushed.length ≤ popped.length + size.value := by
  have := h.producerRoom
  have := h.producerSeen
  omega

/-- The write index counts what was pushed. -/
theorem latestWrite (h : Inv base pushed popped s) :
    s.writeIndex.latest = counter base pushed.length := latest_of_published h.writes

/-- The read index counts what was taken. -/
theorem latestRead (h : Inv base pushed popped s) :
    s.readIndex.latest = counter base popped.length := latest_of_published h.reads

/-- A load of the write index returns the counter of the store it sees. -/
theorem published_write (h : Inv base pushed popped s) {j : Nat} {write : SizeT}
    (hw : s.writeIndex.published[j]? = some write) : j ≤ pushed.length ∧ write = counter base j :=
  published_at h.writes hw

/-- What a load of the read index returns counts what had been taken at some time. -/
theorem published_read (h : Inv base pushed popped s) {j : Nat} {read : SizeT}
    (hr : s.readIndex.published[j]? = some read) : j ≤ popped.length ∧ read = counter base j :=
  published_at h.reads hr

/-- The first access of `push` keeps the invariant. -/
theorem pushLoadOwn (h : Inv base pushed popped s) {item : T}
    (hs : Spsc.pushLoadOwn s item = some t) : Inv base pushed popped t := by
  obtain ⟨hp,rfl⟩ := pushLoadOwn_inv hs
  have hst := h.storage
  rw [hp] at hst
  exact { h with pushing := h.latestWrite, storage := hst }

/-- A refused push saw the indices one whole ring apart; an admitted one has room
against its own view, hence against the true read index. -/
theorem pushLoadOther (h : Inv base pushed popped s) {j : Nat}
    (hs : Spsc.pushLoadOther s j = some t) : Inv base pushed popped t := by
  obtain ⟨item,write,read,hp,hr,hj,ht⟩ := pushLoadOther_inv hs
  obtain ⟨hle,hread⟩ := published_at h.reads hr
  have hwrite : write = counter base pushed.length := by
    have hc := h.pushing
    rwa [hp] at hc
  have hst := h.storage
  rw [hp] at hst
  have hroom : pushed.length ≤ j + size.value := h.producerRoom.trans (by omega)
  rcases ht with ⟨hfull,rfl⟩ | ⟨hfull,rfl⟩
  · refine { h with
      producerSeen := hle, producerRoom := hroom, pushing := trivial, storage := hst
      refusedPush := fun c hc hok => ?_ }
    rcases List.mem_append.mp hc with hc | hc
    · exact h.refusedPush c hc hok
    · cases List.mem_singleton.mp hc
      exact hfull
  · rw [hwrite, hread, Ne, size.counter_sub_eq_size_iff base (hle.trans h.popped_le) hroom] at hfull
    exact { h with
      producerSeen := hle, producerRoom := hroom, storage := hst
      pushing := ⟨hwrite,hread,Nat.lt_of_le_of_ne hroom hfull⟩ }

/-- The construction of an element keeps the invariant. -/
theorem construct (h : Inv base pushed popped s) (hs : Spsc.construct s = some t) :
    Inv base pushed popped t := by
  obtain ⟨item,write,read,hp,rfl⟩ := construct_inv hs
  obtain ⟨hwrite,hread,hroom⟩ : write = counter base pushed.length ∧
      read = counter base s.producer.seen ∧ pushed.length < s.producer.seen + size.value := by
    have hc := h.pushing
    rwa [hp] at hc
  have hst := h.storage
  rw [hp, ProducerPc.placed, List.append_nil] at hst
  have hrem : popped.length + s.consumer.pc.removed ≤ pushed.length := by
    have hc := h.popping
    have := h.popped_le
    have := h.consumerSeen
    cases hpc : s.consumer.pc <;> simp only [hpc, ConsumerPc.Consistent, ConsumerPc.removed] at hc ⊢ <;> omega
  have hlen : (pushed.drop (popped.length + s.consumer.pc.removed)).length < size.value := by
    have := h.producerSeen
    rw [List.length_drop]
    omega
  have hslot : size.slot write = cell size.value (base.toNat + (popped.length + s.consumer.pc.removed) +
      (pushed.drop (popped.length + s.consumer.pc.removed)).length) := by
    rw [hwrite, size.slot_counter, List.length_drop]
    congr 1
    omega
  refine { h with pushing := ⟨hwrite,hread,hroom⟩, storage := ?_, faultless := ?_ }
  · rw [ProducerPc.placed, List.drop_append_of_le_length hrem, hslot]
    exact hst.snoc hlen item
  · have hraw := hst.next_raw hlen
    rw [← hslot] at hraw
    simp [h.faultless, hraw]

private theorem pushed_publish (s : State size T) (item : T) (write read : SizeT) (seen : Nat) :
    State.pushed { s with
      writeIndex := s.writeIndex.store (write + 1)
      producer := ⟨.idle,seen,s.producer.calls ++ [⟨item,write,read,true⟩]⟩ } = s.pushed ++ [item] := by
  simp [State.pushed]

/-- Publication moves the placed element into the published pushes. -/
theorem publishWrite (h : Inv base pushed popped s) (hs : Spsc.publishWrite s = some t) :
    ∃ item, t.pushed = s.pushed ++ [item] ∧ t.popped = s.popped ∧
      pushed.length < popped.length + size.value ∧ Inv base (pushed ++ [item]) popped t := by
  obtain ⟨item,write,read,hp,rfl⟩ := publishWrite_inv hs
  obtain ⟨hwrite,_,hroom⟩ : write = counter base pushed.length ∧
      read = counter base s.producer.seen ∧ pushed.length < s.producer.seen + size.value := by
    have hc := h.pushing
    rwa [hp] at hc
  have hst := h.storage
  rw [hp, ProducerPc.placed] at hst
  have hle := h.popped_le
  refine ⟨item,pushed_publish s item write read _,rfl,by have := h.producerSeen; omega,
    { h with
      writes := ?_, order := ?_, producerRoom := ?_, consumerSeen := ?_, pushing := trivial
      popping := ?_, storage := ?_, refusedPush := ?_ }⟩
  · rw [List.length_append, List.length_singleton, hwrite]
    exact published_snoc h.writes
  · rw [List.take_append_of_le_length hle]
    exact h.order
  · rw [List.length_append, List.length_singleton]
    exact hroom
  · rw [List.length_append]
    exact h.consumerSeen.trans (Nat.le_add_right _ _)
  · have hc := h.popping
    cases hpc : s.consumer.pc with
    | idle => trivial
    | ownLoaded read => rw [hpc] at hc; exact hc
    | otherLoaded read write => rw [hpc] at hc; exact hc
    | moved read write value =>
      rw [hpc] at hc
      exact ⟨hc.1,hc.2.1,hc.2.2.1,List.getElem?_append_left
        (List.getElem?_eq_some_iff.mp hc.2.2.2).1 ▸ hc.2.2.2⟩
  · rw [ProducerPc.placed, List.append_nil]
    exact hst
  · intro c hc hok
    rcases List.mem_append.mp hc with hc | hc
    · exact h.refusedPush c hc hok
    · cases List.mem_singleton.mp hc
      cases hok

/-- The first access of `pop` keeps the invariant. -/
theorem popLoadOwn (h : Inv base pushed popped s) (hs : Spsc.popLoadOwn s = some t) :
    Inv base pushed popped t := by
  obtain ⟨hp,rfl⟩ := popLoadOwn_inv hs
  have hst := h.storage
  rw [hp] at hst
  exact { h with popping := h.latestRead, storage := hst }

/-- A refused pop saw equal indices; an admitted one knows of an element ahead. -/
theorem popLoadOther (h : Inv base pushed popped s) {j : Nat}
    (hs : Spsc.popLoadOther s j = some t) : Inv base pushed popped t := by
  obtain ⟨read,write,hp,hw,hj,ht⟩ := popLoadOther_inv hs
  obtain ⟨hle,hwrite⟩ := h.published_write hw
  have hread : read = counter base popped.length := by
    have hc := h.popping
    rwa [hp] at hc
  have hst := h.storage
  rw [hp] at hst
  have hbehind : popped.length ≤ j := h.consumerBehind.trans hj
  rcases ht with ⟨hempty,rfl⟩ | ⟨hempty,rfl⟩
  · refine { h with
      consumerBehind := hbehind, consumerSeen := hle, popping := trivial, storage := hst
      refusedPop := fun c hc hitem => ?_ }
    rcases List.mem_append.mp hc with hc | hc
    · exact h.refusedPop c hc hitem
    · cases List.mem_singleton.mp hc
      exact hempty
  · rw [hread, hwrite, Ne, size.counter_eq_iff base hbehind (hle.trans h.occupancy)] at hempty
    exact { h with
      consumerBehind := hbehind, consumerSeen := hle, storage := hst
      popping := ⟨hread,hwrite,Nat.lt_of_le_of_ne hbehind hempty⟩ }

/-- The slot under a committed pop is live, and its element is the oldest unpopped one. -/
theorem moveOut (h : Inv base pushed popped s) (hs : Spsc.moveOut s = some t) :
    Inv base pushed popped t := by
  obtain ⟨read,write,hp,ht⟩ := moveOut_inv hs
  obtain ⟨hread,hwrite,hlt⟩ : read = counter base popped.length ∧
      write = counter base s.consumer.seen ∧ popped.length < s.consumer.seen := by
    have hc := h.popping
    rwa [hp] at hc
  have hlt' : popped.length < pushed.length := hlt.trans_le h.consumerSeen
  have hst := h.storage
  rw [hp, ConsumerPc.removed, Nat.add_zero, List.drop_append_of_le_length hlt'.le,
    List.drop_eq_getElem_cons hlt', List.cons_append] at hst
  have hslot : size.slot read = cell size.value (base.toNat + popped.length) := by
    rw [hread, size.slot_counter]
  rcases ht with ⟨item,hitem,rfl⟩ | ⟨hraw,rfl⟩
  · have hit : item = pushed[popped.length] := by
      rw [hslot, hst.head] at hitem
      exact (Option.some.inj hitem).symm
    refine { h with popping := ⟨hread,hwrite,hlt,?_⟩, storage := ?_ }
    · rw [List.getElem?_eq_getElem hlt', hit]
    · rw [ConsumerPc.removed, hslot, List.drop_append_of_le_length hlt']
      exact hst.tail
  · rw [hslot, hst.head] at hraw
    cases hraw

/-- Publication of a pop delivers exactly the oldest undelivered push. -/
theorem publishRead (h : Inv base pushed popped s) (hs : Spsc.publishRead s = some t) :
    ∃ item, t.pushed = s.pushed ∧ t.popped = s.popped ++ [item] ∧
      pushed[popped.length]? = some item ∧ Inv base pushed (popped ++ [item]) t := by
  obtain ⟨read,write,item,hp,rfl⟩ := publishRead_inv hs
  obtain ⟨hread,hwrite,hlt,hitem⟩ : read = counter base popped.length ∧
      write = counter base s.consumer.seen ∧ popped.length < s.consumer.seen ∧
      pushed[popped.length]? = some item := by
    have hc := h.popping
    rwa [hp] at hc
  have hst := h.storage
  rw [hp, ConsumerPc.removed] at hst
  refine ⟨item,rfl,by simp [State.popped],hitem,
    { h with
      reads := ?_, order := ?_, producerSeen := ?_, consumerBehind := ?_, popping := trivial
      storage := ?_, refusedPop := ?_ }⟩
  · rw [List.length_append, List.length_singleton, hread]
    exact published_snoc h.reads
  · rw [List.length_append, List.length_singleton, List.take_add_one, ← h.order, hitem]
    rfl
  · rw [List.length_append]
    exact h.producerSeen.trans (Nat.le_add_right _ _)
  · rw [List.length_append, List.length_singleton]
    exact hlt
  · rw [ConsumerPc.removed, List.length_append, List.length_singleton]
    exact hst
  · intro c hc hnone
    rcases List.mem_append.mp hc with hc | hc
    · exact h.refusedPop c hc hnone
    · cases List.mem_singleton.mp hc
      cases hnone

end Inv

end PredictionMarket.Queue.Spsc

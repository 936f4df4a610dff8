import PredictionMarket.Queue.SpscRefinement

/-! The interleaved queue as its callers see it: which access ends a call, what the call
returns there, and what a thread learns about the queue from somebody else. -/
namespace PredictionMarket.Queue.Spsc
open Foundation.Ring
variable {size : Size} {T : Type}

/-- The accesses of the thread that pops. -/
def Label.ofConsumer : Label T → Bool
  | .popLoadOwn | .popLoadOther _ | .moveOut | .publishRead => true
  | .pushLoadOwn _ | .pushLoadOther _ | .construct | .publishWrite => false

/-- The call of `push` that returned in the access from `s` to `t`, if one did. -/
def pushReturn (s t : State size T) : Option (PushCall T) :=
  t.producer.calls[s.producer.calls.length]?

/-- The call of `pop` that returned in the access from `s` to `t`, if one did. -/
def popReturn (s t : State size T) : Option (PopCall T) :=
  t.consumer.calls[s.consumer.calls.length]?

/-- The consumer synchronises with a thread that knows of the first `released` stores of
the write index. -/
def State.acquire (s : State size T) (released : Nat) : State size T :=
  { s with consumer.seen := max s.consumer.seen released }

/-- What was pushed are the items of the calls that returned true. -/
theorem pushed_eq (s : State size T) :
    s.pushed = (s.producer.calls.filter PushCall.ok).map PushCall.item := by
  rw [State.pushed, ← List.filterMap_eq_map, List.filterMap_filter]
  congr 1

/-- As many stores of the write index as successful pushes. -/
theorem Coherent.writes_length {base : SizeT} {s : State size T} (h : Coherent base s) :
    s.writeIndex.stores.length = s.pushed.length := by
  have hl := congrArg List.length (Inv.writes h)
  rw [List.length_map, List.length_range, AtomicIndex.published, List.length_cons] at hl
  exact Nat.succ.inj hl

/-- A consumer that has taken as much as was pushed has taken everything. -/
theorem Coherent.popped_eq {base : SizeT} {s : State size T} (h : Coherent base s)
    (hle : s.pushed.length ≤ s.popped.length) : s.popped = s.pushed := by
  have ho := Inv.order h
  rwa [List.take_of_length_le hle] at ho

/-- Between two calls the consumer may learn of any published store. -/
theorem Coherent.acquire {base : SizeT} {s : State size T} (h : Coherent base s)
    (hpc : s.consumer.pc = .idle) {released : Nat} (hr : released ≤ s.pushed.length) :
    Coherent base (s.acquire released) := by
  have hi : Inv base s.pushed s.popped s := h
  have hst := hi.storage
  refine { hi with consumerBehind := ?_, consumerSeen := ?_, popping := ?_, storage := hst }
  · exact hi.consumerBehind.trans (Nat.le_max_left _ _)
  · exact Nat.max_le.mpr ⟨hi.consumerSeen,hr⟩
  · rw [State.acquire, hpc]
    trivial

/-- What an access of the producer does: it stays inside its call, or the call returns. -/
inductive PushAccess (s t : State size T) : Prop where
  | inside (returned : pushReturn s t = none) (calls : t.producer.calls = s.producer.calls)
      (inHand : t.producer.pc.inHand = s.producer.pc.inHand)
  | returned (c : PushCall T) (returned : pushReturn s t = some c)
      (calls : t.producer.calls = s.producer.calls ++ [c])
      (inHand : s.producer.pc.inHand = [c.item]) (idle : t.producer.pc.inHand = [])

/-- An access of the producer leaves the consumer alone and is one of the accesses of `push`. -/
theorem push_access {s t : State size T} {l : Label T} (hs : step s l = some t)
    (hl : l.ofConsumer = false) (ho : l.offer = none) :
    t.consumer = s.consumer ∧ PushAccess s t := by
  cases l with
  | pushLoadOwn item => cases ho
  | pushLoadOther j =>
    obtain ⟨item,write,read,hp,_,_,⟨_,rfl⟩ | ⟨_,rfl⟩⟩ := pushLoadOther_inv hs
    · exact ⟨rfl,.returned ⟨item,write,read,false⟩ (by simp [pushReturn]) rfl
        (by rw [hp, ProducerPc.inHand]) rfl⟩
    · exact ⟨rfl,.inside (by simp [pushReturn]) rfl (by rw [hp, ProducerPc.inHand, ProducerPc.inHand])⟩
  | construct =>
    obtain ⟨item,write,read,hp,rfl⟩ := construct_inv hs
    exact ⟨rfl,.inside (by simp [pushReturn]) rfl (by rw [hp, ProducerPc.inHand, ProducerPc.inHand])⟩
  | publishWrite =>
    obtain ⟨item,write,read,hp,rfl⟩ := publishWrite_inv hs
    exact ⟨rfl,.returned ⟨item,write,read,true⟩ (by simp [pushReturn]) rfl
      (by rw [hp, ProducerPc.inHand]) rfl⟩
  | popLoadOwn | popLoadOther | moveOut | publishRead => cases hl

/-- A call of `push` is refused only if a full ring was pushed beyond the pops that it sees. -/
theorem push_refused {base : SizeT} {s t : State size T} {l : Label T} (h : Coherent base s)
    (hs : step s l = some t) : t.producer.calls = s.producer.calls ∨
      ∃ c, t.producer.calls = s.producer.calls ++ [c] ∧ s.producer.pc.inHand = [c.item] ∧
        (c.ok = false → ∃ j, l = .pushLoadOther j ∧ s.pushed.length = j + size.value) := by
  have hi : Inv base s.pushed s.popped s := h
  cases l with
  | pushLoadOwn item =>
    obtain ⟨_,rfl⟩ := pushLoadOwn_inv hs
    exact .inl rfl
  | pushLoadOther j =>
    obtain ⟨item,write,read,hp,hr,hj,⟨hfull,rfl⟩ | ⟨_,rfl⟩⟩ := pushLoadOther_inv hs
    · refine .inr ⟨_,rfl,by rw [hp]; rfl,fun _ => ⟨j,rfl,?_⟩⟩
      obtain ⟨hle,hread⟩ := hi.published_read hr
      have hwrite : write = counter base s.pushed.length := by
        have hc := hi.pushing
        rwa [hp] at hc
      rw [hwrite, hread] at hfull
      have hroom : s.pushed.length ≤ j + size.value := hi.producerRoom.trans (Nat.add_le_add_right hj _)
      exact (size.counter_sub_eq_size_iff base (hle.trans hi.popped_le) hroom).mp hfull
    · exact .inl rfl
  | construct =>
    obtain ⟨_,_,_,_,rfl⟩ := construct_inv hs
    exact .inl rfl
  | publishWrite =>
    obtain ⟨item,write,read,hp,rfl⟩ := publishWrite_inv hs
    exact .inr ⟨_,rfl,by rw [hp]; rfl,nofun⟩
  | popLoadOwn =>
    obtain ⟨_,rfl⟩ := popLoadOwn_inv hs
    exact .inl rfl
  | popLoadOther j => obtain ⟨_,_,_,_,_,⟨_,rfl⟩ | ⟨_,rfl⟩⟩ := popLoadOther_inv hs <;> exact .inl rfl
  | moveOut => obtain ⟨_,_,_,⟨_,_,rfl⟩ | ⟨_,rfl⟩⟩ := moveOut_inv hs <;> exact .inl rfl
  | publishRead =>
    obtain ⟨_,_,_,_,rfl⟩ := publishRead_inv hs
    exact .inl rfl

/-- What an access of the consumer does. A call that finds the queue empty has seen no
store beyond what the consumer has already taken. -/
inductive PopAccess (s t : State size T) : Prop where
  | inside (returned : popReturn s t = none) (popped : t.popped = s.popped)
  | empty (c : PopCall T) (returned : popReturn s t = some c) (item : c.item = none)
      (popped : t.popped = s.popped) (idle : t.consumer.pc = .idle)
      (seen : t.consumer.seen = s.popped.length)
  | taken (c : PopCall T) (item : T) (returned : popReturn s t = some c) (item_eq : c.item = some item)
      (popped : t.popped = s.popped ++ [item]) (idle : t.consumer.pc = .idle)

/-- An access of the consumer leaves the producer's side alone and forgets no store. -/
theorem pop_access {base : SizeT} {s t : State size T} {l : Label T} (h : Coherent base s)
    (hs : step s l = some t) (hl : l.ofConsumer = true) :
    t.producer = s.producer ∧ t.writeIndex = s.writeIndex ∧
      s.consumer.seen ≤ t.consumer.seen ∧ PopAccess s t := by
  cases l with
  | pushLoadOwn | pushLoadOther | construct | publishWrite => cases hl
  | popLoadOwn =>
    obtain ⟨_,rfl⟩ := popLoadOwn_inv hs
    exact ⟨rfl,rfl,Nat.le_refl _,.inside (by simp [popReturn]) rfl⟩
  | popLoadOther j =>
    have hi : Inv base s.pushed s.popped s := h
    obtain ⟨read,write,hp,hw,hj,⟨he,rfl⟩ | ⟨_,rfl⟩⟩ := popLoadOther_inv hs
    · obtain ⟨hle,hwrite⟩ := hi.published_write hw
      have hread : read = counter base s.popped.length := by
        have hc := hi.popping
        rwa [hp] at hc
      have hbehind : s.popped.length ≤ j := hi.consumerBehind.trans hj
      rw [hread, hwrite, size.counter_eq_iff base hbehind (hle.trans hi.occupancy)] at he
      exact ⟨rfl,rfl,hj,.empty ⟨read,write,none⟩ (by simp [popReturn]) rfl (by simp [State.popped]) rfl he.symm⟩
    · exact ⟨rfl,rfl,hj,.inside (by simp [popReturn]) rfl⟩
  | moveOut =>
    have ht : t.fault = false := Inv.faultless (coherent_step h hs).1
    obtain ⟨read,write,_,⟨_,_,rfl⟩ | ⟨_,rfl⟩⟩ := moveOut_inv hs
    · exact ⟨rfl,rfl,Nat.le_refl _,.inside (by simp [popReturn]) rfl⟩
    · cases ht
  | publishRead =>
    obtain ⟨read,write,item,_,rfl⟩ := publishRead_inv hs
    exact ⟨rfl,rfl,Nat.le_refl _,.taken ⟨read,write,some item⟩ item (by simp [popReturn]) rfl
      (by simp [State.popped]) rfl⟩

end PredictionMarket.Queue.Spsc

import PredictionMarket.Queue.SpscCalls
import PredictionMarket.Foundation.Progress

/-! Neither side of the queue ever waits for the other: a call is over after three accesses
behind its first, wherever the other thread stands or stops. -/
namespace PredictionMarket.Queue.Spsc
open Foundation.Ring Foundation.Transition
variable {size : Size} {T : Type} {base : SizeT} {s t : State size T}

/-- Accesses that a call of `push` may still make. -/
def ProducerPc.rank : ProducerPc T → Nat
  | .idle => 0
  | .ownLoaded _ _ => 3
  | .otherLoaded _ _ _ => 2
  | .constructed _ _ _ => 1

/-- Accesses that a call of `pop` may still make. -/
def ConsumerPc.rank : ConsumerPc T → Nat
  | .idle => 0
  | .ownLoaded _ => 3
  | .otherLoaded _ _ => 2
  | .moved _ _ _ => 1

private theorem ProducerPc.rank_pos {pc : ProducerPc T} (h : pc ≠ .idle) : 0 < pc.rank := by
  cases pc <;> first | exact absurd rfl h | exact Nat.succ_pos _

private theorem ConsumerPc.rank_pos {pc : ConsumerPc T} (h : pc ≠ .idle) : 0 < pc.rank := by
  cases pc <;> first | exact absurd rfl h | exact Nat.succ_pos _

/-- A call of `push` has at most three accesses behind its first. -/
theorem ProducerPc.rank_le (pc : ProducerPc T) : pc.rank ≤ 3 := by
  cases pc <;> simp [rank]

/-- A call of `pop` has at most three accesses behind its first. -/
theorem ConsumerPc.rank_le (pc : ConsumerPc T) : pc.rank ≤ 3 := by
  cases pc <;> simp [rank]

/-- Each access of a call of `push` ends it or brings it closer to its end. -/
theorem push_rank {l : Label T} (hs : step s l = some t) (hl : l.ofConsumer = false) (hpc : s.producer.pc ≠ .idle) :
    l.offer = none ∧ t.producer.pc.rank < s.producer.pc.rank ∧
      (t.producer.pc = .idle → s.producer.calls.length < t.producer.calls.length) := by
  cases l with
  | popLoadOwn | popLoadOther | moveOut | publishRead => cases hl
  | pushLoadOwn item => exact absurd (pushLoadOwn_inv hs).1 hpc
  | pushLoadOther j =>
    obtain ⟨item,write,read,hp,_,_,⟨_,rfl⟩ | ⟨_,rfl⟩⟩ := pushLoadOther_inv hs
    · rw [hp]
      exact ⟨rfl,by simp [ProducerPc.rank],fun _ => by simp⟩
    · rw [hp]
      exact ⟨rfl,by simp [ProducerPc.rank],nofun⟩
  | construct =>
    obtain ⟨item,write,read,hp,rfl⟩ := construct_inv hs
    rw [hp]
    exact ⟨rfl,by simp [ProducerPc.rank],nofun⟩
  | publishWrite =>
    obtain ⟨item,write,read,hp,rfl⟩ := publishWrite_inv hs
    rw [hp]
    exact ⟨rfl,by simp [ProducerPc.rank],fun _ => by simp⟩

/-- Each access of a call of `pop` ends it or brings it closer to its end. -/
theorem pop_rank (h : Coherent base s) {l : Label T} (hs : step s l = some t) (hl : l.ofConsumer = true)
    (hpc : s.consumer.pc ≠ .idle) : t.consumer.pc.rank < s.consumer.pc.rank ∧
      (t.consumer.pc = .idle → s.consumer.calls.length < t.consumer.calls.length) := by
  cases l with
  | pushLoadOwn | pushLoadOther | construct | publishWrite => cases hl
  | popLoadOwn => exact absurd (popLoadOwn_inv hs).1 hpc
  | popLoadOther j =>
    obtain ⟨read,write,hp,_,_,⟨_,rfl⟩ | ⟨_,rfl⟩⟩ := popLoadOther_inv hs
    · rw [hp]
      exact ⟨by simp [ConsumerPc.rank],fun _ => by simp⟩
    · rw [hp]
      exact ⟨by simp [ConsumerPc.rank],nofun⟩
  | moveOut =>
    have ht : t.fault = false := Inv.faultless (coherent_step h hs).1
    obtain ⟨read,write,hp,⟨_,_,rfl⟩ | ⟨_,rfl⟩⟩ := moveOut_inv hs
    · rw [hp]
      exact ⟨by simp [ConsumerPc.rank],nofun⟩
    · cases ht
  | publishRead =>
    obtain ⟨read,write,item,hp,rfl⟩ := publishRead_inv hs
    rw [hp]
    exact ⟨by simp [ConsumerPc.rank],fun _ => by simp⟩

/-- A call of `push` can always make its next access; a load may return what it last returned. -/
theorem push_enabled (h : Coherent base s) (hpc : s.producer.pc ≠ .idle) :
    ∃ l t, l.ofConsumer = false ∧ step s l = some t := by
  cases hp : s.producer.pc with
  | idle => exact absurd hp hpc
  | ownLoaded item write =>
    have hlt : s.producer.seen < s.readIndex.published.length := by
      rw [Inv.reads h, List.length_map, List.length_range]
      exact Nat.lt_succ_of_le (Inv.producerSeen h)
    have hread := List.getElem?_eq_getElem hlt
    refine ⟨.pushLoadOther s.producer.seen,?_⟩
    simp only [step, pushLoadOther, hp, hread, if_neg (Nat.lt_irrefl _)]
    split_ifs <;> exact ⟨_,rfl,rfl⟩
  | otherLoaded item write read => exact ⟨.construct,_,rfl,by simp only [step, construct, hp]; rfl⟩
  | constructed item write read => exact ⟨.publishWrite,_,rfl,by simp only [step, publishWrite, hp]; rfl⟩

/-- A call of `pop` can always make its next access. -/
theorem pop_enabled (h : Coherent base s) (hpc : s.consumer.pc ≠ .idle) :
    ∃ l t, l.ofConsumer = true ∧ step s l = some t := by
  cases hp : s.consumer.pc with
  | idle => exact absurd hp hpc
  | ownLoaded read =>
    have hlt : s.consumer.seen < s.writeIndex.published.length := by
      rw [Inv.writes h, List.length_map, List.length_range]
      exact Nat.lt_succ_of_le (Inv.consumerSeen h)
    have hwrite := List.getElem?_eq_getElem hlt
    refine ⟨.popLoadOther s.consumer.seen,?_⟩
    simp only [step, popLoadOther, hp, hwrite, if_neg (Nat.lt_irrefl _)]
    split_ifs <;> exact ⟨_,rfl,rfl⟩
  | otherLoaded read write =>
    refine ⟨.moveOut,?_⟩
    simp only [step, moveOut, hp]
    split <;> exact ⟨_,rfl,rfl⟩
  | moved read write item => exact ⟨.publishRead,_,rfl,by simp only [step, publishRead, hp]; rfl⟩

/-- The accesses of the consumer leave the producer where it is. -/
theorem producer_frame {l : Label T} (hs : step s l = some t) (hl : l.ofConsumer = true) :
    t.producer = s.producer := by
  cases l with
  | pushLoadOwn | pushLoadOther | construct | publishWrite => cases hl
  | popLoadOwn =>
    obtain ⟨_,rfl⟩ := popLoadOwn_inv hs
    rfl
  | popLoadOther j => obtain ⟨_,_,_,_,_,⟨_,rfl⟩ | ⟨_,rfl⟩⟩ := popLoadOther_inv hs <;> rfl
  | moveOut => obtain ⟨_,_,_,⟨_,_,rfl⟩ | ⟨_,rfl⟩⟩ := moveOut_inv hs <;> rfl
  | publishRead =>
    obtain ⟨_,_,_,_,rfl⟩ := publishRead_inv hs
    rfl

/-- The accesses of the producer leave the consumer where it is. -/
theorem consumer_frame {l : Label T} (hs : step s l = some t) (hl : l.ofConsumer = false) :
    t.consumer = s.consumer := by
  cases l with
  | popLoadOwn | popLoadOther | moveOut | publishRead => cases hl
  | pushLoadOwn item =>
    obtain ⟨_,rfl⟩ := pushLoadOwn_inv hs
    rfl
  | pushLoadOther j => obtain ⟨_,_,_,_,_,_,⟨_,rfl⟩ | ⟨_,rfl⟩⟩ := pushLoadOther_inv hs <;> rfl
  | construct =>
    obtain ⟨_,_,_,_,rfl⟩ := construct_inv hs
    rfl
  | publishWrite =>
    obtain ⟨_,_,_,_,rfl⟩ := publishWrite_inv hs
    rfl

private theorem push_calls_mono {l : Label T} (hs : step s l = some t) :
    s.producer.calls.length ≤ t.producer.calls.length := by
  cases l with
  | popLoadOwn | popLoadOther | moveOut | publishRead => rw [producer_frame hs rfl]
  | pushLoadOwn item =>
    obtain ⟨_,rfl⟩ := pushLoadOwn_inv hs
    exact le_refl _
  | pushLoadOther | construct | publishWrite =>
    cases (push_access hs rfl rfl).2 with
    | inside _ calls _ => rw [calls]
    | returned c _ calls _ _ => simp [calls]

private theorem pop_calls_mono {l : Label T} (hs : step s l = some t) :
    s.consumer.calls.length ≤ t.consumer.calls.length := by
  cases l with
  | pushLoadOwn | pushLoadOther | construct | publishWrite => rw [consumer_frame hs rfl]
  | popLoadOwn =>
    obtain ⟨_,rfl⟩ := popLoadOwn_inv hs
    exact le_refl _
  | popLoadOther j => obtain ⟨_,_,_,_,_,⟨_,rfl⟩ | ⟨_,rfl⟩⟩ := popLoadOther_inv hs <;> simp
  | moveOut => obtain ⟨_,_,_,⟨_,_,rfl⟩ | ⟨_,rfl⟩⟩ := moveOut_inv hs <;> simp
  | publishRead =>
    obtain ⟨_,_,_,_,rfl⟩ := publishRead_inv hs
    simp

/-- After three accesses of its thread a call of `push` has returned. -/
theorem push_returns {ls : List (Label T)} (hpc : s.producer.pc ≠ .idle)
    (run : exec step s ls = some t) (three : 3 ≤ ls.countP fun l => !l.ofConsumer) :
    s.producer.calls.length < t.producer.calls.length := by
  have h := exec_descends
    (fun u : State size T => u.producer.pc ≠ .idle ∧ s.producer.calls.length ≤ u.producer.calls.length)
    (fun u => s.producer.calls.length < u.producer.calls.length)
    (fun l => !l.ofConsumer) (fun u => u.producer.pc.rank) ?_ ?_ ?_ run ⟨hpc,le_refl _⟩
  · rcases h with h | ⟨⟨hbusy,_⟩,hle⟩
    · exact h
    · have := ProducerPc.rank_pos hbusy
      have := s.producer.pc.rank_le
      omega
  · intro u l v ⟨hbusy,hle⟩ hs ho
    rw [producer_frame hs (by simpa using ho)]
    exact ⟨⟨hbusy,hle⟩,le_refl _⟩
  · intro u l v ⟨hbusy,hle⟩ hs ho
    obtain ⟨_,hlt,hended⟩ := push_rank hs (by simpa using ho) hbusy
    by_cases hidle : v.producer.pc = .idle
    · exact .inl (hle.trans_lt (hended hidle))
    · exact .inr ⟨⟨hidle,hle.trans (push_calls_mono hs)⟩,hlt⟩
  · intro u l v hended hs
    exact hended.trans_le (push_calls_mono hs)

/-- After three accesses of its thread a call of `pop` has returned. -/
theorem pop_returns (h : Coherent base s) {ls : List (Label T)} (hpc : s.consumer.pc ≠ .idle)
    (run : exec step s ls = some t) (three : 3 ≤ ls.countP Label.ofConsumer) :
    s.consumer.calls.length < t.consumer.calls.length := by
  have h := exec_descends
    (fun u : State size T => Coherent base u ∧ u.consumer.pc ≠ .idle ∧
      s.consumer.calls.length ≤ u.consumer.calls.length)
    (fun u => s.consumer.calls.length < u.consumer.calls.length)
    Label.ofConsumer (fun u => u.consumer.pc.rank) ?_ ?_ ?_ run ⟨h,hpc,le_refl _⟩
  · rcases h with h | ⟨⟨_,hbusy,_⟩,hle⟩
    · exact h
    · have := ConsumerPc.rank_pos hbusy
      have := s.consumer.pc.rank_le
      omega
  · intro u l v ⟨hu,hbusy,hle⟩ hs ho
    rw [consumer_frame hs ho]
    exact ⟨⟨(coherent_step hu hs).1,hbusy,hle⟩,le_refl _⟩
  · intro u l v ⟨hu,hbusy,hle⟩ hs ho
    obtain ⟨hlt,hended⟩ := pop_rank hu hs ho hbusy
    by_cases hidle : v.consumer.pc = .idle
    · exact .inl (hle.trans_lt (hended hidle))
    · exact .inr ⟨⟨(coherent_step hu hs).1,hidle,hle.trans (pop_calls_mono hs)⟩,hlt⟩
  · intro u l v hended hs
    exact hended.trans_le (pop_calls_mono hs)

/-- Both calls are wait-free. Wherever a schedule has left a thread inside a call, its next
access is possible, and three accesses of its own bring the call to its return, whatever the
other thread does in between, stale loads included. -/
theorem calls_wait_free (size : Size) (T : Type) (base : SizeT) {schedule : List (Label T)} {s : State size T}
    (run : exec step (init size T base) schedule = some s) :
    (s.producer.pc ≠ .idle → (∃ l t, l.ofConsumer = false ∧ step s l = some t) ∧
      ∀ ls t, exec step s ls = some t → 3 ≤ (ls.countP fun l => !l.ofConsumer) →
        s.producer.calls.length < t.producer.calls.length) ∧
    (s.consumer.pc ≠ .idle → (∃ l t, l.ofConsumer = true ∧ step s l = some t) ∧
      ∀ ls t, exec step s ls = some t → 3 ≤ ls.countP Label.ofConsumer →
        s.consumer.calls.length < t.consumer.calls.length) := by
  have h := coherent_run run
  constructor
  · intro hpc
    exact ⟨push_enabled h hpc,fun ls t hrun hthree => push_returns hpc hrun hthree⟩
  · intro hpc
    exact ⟨pop_enabled h hpc,fun ls t hrun hthree => pop_returns h hpc hrun hthree⟩

/-- A push, a pop up to the element it has moved out and not yet published, and the first
access of a second push. -/
def stalledSchedule : List (Label Nat) :=
  [.pushLoadOwn 7, .pushLoadOther 0, .construct, .publishWrite, .popLoadOwn, .popLoadOther 1, .moveOut,
    .pushLoadOwn 8]

/-- The consumer stays where it is, and the three accesses behind the first end the second push;
the pop in its turn is over once the consumer has made three more. -/
theorem push_beside_stalled_pop : ∃ s t : State ringOfTwo Nat,
    exec step (init ringOfTwo Nat (-1)) stalledSchedule = some s ∧
    exec step s [.pushLoadOther 0, .construct, .publishWrite] = some t ∧ t.consumer.pc.rank = 1 ∧
    s.producer.calls.length < t.producer.calls.length ∧
    ∀ ls u, exec step s ls = some u → 3 ≤ ls.countP Label.ofConsumer →
      s.consumer.calls.length < u.consumer.calls.length := by
  have hranks : (exec step (init ringOfTwo Nat (-1)) stalledSchedule).map
      (fun s => (s.producer.pc.rank,s.consumer.pc.rank)) = some (3,1) := by decide
  obtain ⟨s,hs,hrank⟩ := Option.map_eq_some_iff.mp hranks
  have hstalled : ((exec step (init ringOfTwo Nat (-1)) stalledSchedule).bind fun s =>
      exec step s [.pushLoadOther 0, .construct, .publishWrite]).map (fun t => t.consumer.pc.rank) = some 1 := by
    decide
  rw [hs] at hstalled
  obtain ⟨t,ht,hmoved⟩ := Option.map_eq_some_iff.mp hstalled
  have hpushing : s.producer.pc.rank = 3 := congrArg Prod.fst hrank
  have hpopping : s.consumer.pc.rank = 1 := congrArg Prod.snd hrank
  have hproducer : s.producer.pc ≠ .idle := by
    intro hidle
    rw [hidle] at hpushing
    cases hpushing
  have hconsumer : s.consumer.pc ≠ .idle := by
    intro hidle
    rw [hidle] at hpopping
    cases hpopping
  obtain ⟨hpush,hpop⟩ := calls_wait_free ringOfTwo Nat (-1) hs
  exact ⟨s,t,hs,ht,hmoved,(hpush hproducer).2 _ t ht (by decide),(hpop hconsumer).2⟩

end PredictionMarket.Queue.Spsc

import PredictionMarket.Queue.SpscInvariant
import PredictionMarket.Foundation.BoundedFifo

/-! The interleaved queue refines the bounded channel: every publication is one
move of the channel and every other step of a thread is silent. -/
namespace PredictionMarket.Queue.Spsc
open Foundation.Ring Foundation.Transition Foundation.BoundedFifo
variable {size : Size} {T : Type}

/-- The invariant at a state's own history. -/
def Coherent (base : SizeT) (s : State size T) : Prop := Inv base s.pushed s.popped s

/-- What a step shows to the outside: nothing, one publication by the producer into
a ring with room, or one by the consumer of the element next in line. -/
inductive Visible (s t : State size T) : Prop where
  | silent (pushed : t.pushed = s.pushed) (popped : t.popped = s.popped)
  | put (item : T) (pushed : t.pushed = s.pushed ++ [item]) (popped : t.popped = s.popped)
      (room : s.pushed.length < s.popped.length + size.value)
  | take (item : T) (pushed : t.pushed = s.pushed) (popped : t.popped = s.popped ++ [item])
      (next : s.pushed[s.popped.length]? = some item)

/-- The first state is coherent. -/
theorem coherent_init (base : SizeT) : Coherent base (init size T base) := .initial base

private theorem pushed_pushLoadOther {s t : State size T} {j : Nat}
    (hs : pushLoadOther s j = some t) : t.pushed = s.pushed ∧ t.popped = s.popped := by
  obtain ⟨item,write,read,_,_,_,⟨_,rfl⟩ | ⟨_,rfl⟩⟩ := pushLoadOther_inv hs
  · exact ⟨by simp [State.pushed],rfl⟩
  · exact ⟨rfl,rfl⟩

private theorem popped_popLoadOther {s t : State size T} {j : Nat}
    (hs : popLoadOther s j = some t) : t.pushed = s.pushed ∧ t.popped = s.popped := by
  obtain ⟨read,write,_,_,_,⟨_,rfl⟩ | ⟨_,rfl⟩⟩ := popLoadOther_inv hs
  · exact ⟨rfl,by simp [State.popped]⟩
  · exact ⟨rfl,rfl⟩

/-- One step of either thread keeps the invariant and shows at most one move. -/
theorem coherent_step {base : SizeT} {s t : State size T} {l : Label T} (h : Coherent base s)
    (hs : step s l = some t) : Coherent base t ∧ Visible s t := by
  cases l with
  | pushLoadOwn item =>
    have hi := h.pushLoadOwn hs
    obtain ⟨_,rfl⟩ := pushLoadOwn_inv hs
    exact ⟨hi,.silent rfl rfl⟩
  | pushLoadOther j =>
    obtain ⟨hpush,hpop⟩ := pushed_pushLoadOther hs
    refine ⟨?_,.silent hpush hpop⟩
    rw [Coherent, hpush, hpop]
    exact h.pushLoadOther hs
  | construct =>
    have hi := h.construct hs
    obtain ⟨_,_,_,_,rfl⟩ := construct_inv hs
    exact ⟨hi,.silent rfl rfl⟩
  | publishWrite =>
    obtain ⟨item,hpush,hpop,hroom,hi⟩ := h.publishWrite hs
    refine ⟨?_,.put item hpush hpop hroom⟩
    rw [Coherent, hpush, hpop]
    exact hi
  | popLoadOwn =>
    have hi := h.popLoadOwn hs
    obtain ⟨_,rfl⟩ := popLoadOwn_inv hs
    exact ⟨hi,.silent rfl rfl⟩
  | popLoadOther j =>
    obtain ⟨hpush,hpop⟩ := popped_popLoadOther hs
    refine ⟨?_,.silent hpush hpop⟩
    rw [Coherent, hpush, hpop]
    exact h.popLoadOther hs
  | moveOut =>
    have hi := h.moveOut hs
    obtain ⟨_,_,_,⟨_,_,rfl⟩ | ⟨_,rfl⟩⟩ := moveOut_inv hs
    · exact ⟨hi,.silent rfl rfl⟩
    · exact ⟨hi,.silent rfl rfl⟩
  | publishRead =>
    obtain ⟨item,hpush,hpop,hnext,hi⟩ := h.publishRead hs
    refine ⟨?_,.take item hpush hpop hnext⟩
    rw [Coherent, hpush, hpop]
    exact hi

/-- The invariant holds after every schedule, from any starting counter. -/
theorem coherent_run {base : SizeT} {ls : List (Label T)} {s : State size T}
    (run : exec step (init size T base) ls = some s) : Coherent base s :=
  exec_invariant (fun _ _ _ h hs => (coherent_step h hs).1) run (coherent_init base)

/-- The channel a state stands for. -/
def Refines (s : State size T) (q : Fifo T size.value) : Prop :=
  q.accepted = s.pushed ∧ q.delivered = s.popped

private theorem waiting_eq {s : State size T} {q : Fifo T size.value} (h : Refines s q) :
    q.waiting = s.pushed.drop s.popped.length := by
  rw [← h.1, ← h.2, ← q.conserved, List.drop_left]

/-- Publications are the channel's moves and every other step is silent. -/
theorem refines_fifo (base : SizeT) : Simulation (step : State size T → Label T → _) Fifo.step
    (fun s q => Coherent base s ∧ Refines s q) := by
  rintro s l t q ⟨h,hr⟩ hs
  obtain ⟨ht,hv⟩ := coherent_step h hs
  have hw := waiting_eq hr
  cases hv with
  | silent hpush hpop => exact ⟨[],q,rfl,ht,hr.1.trans hpush.symm,hr.2.trans hpop.symm⟩
  | put item hpush hpop room =>
    have hroom : q.waiting.length < size.value := by
      rw [hw, List.length_drop]
      have := h.popped_le
      omega
    refine ⟨[.put item],q.put item hroom,?_,ht,?_,hr.2.trans hpop.symm⟩
    · rw [exec_single, Fifo.step_put q item hroom]
    · rw [hpush, ← hr.1]
      rfl
  | take item hpush hpop next =>
    obtain ⟨hlt,hitem⟩ := List.getElem?_eq_some_iff.mp next
    have hfront : q.waiting = item :: s.pushed.drop (s.popped.length + 1) := by
      rw [hw, List.drop_eq_getElem_cons hlt, hitem]
    refine ⟨[.take],q.take item _ hfront,?_,ht,hr.1.trans hpush.symm,?_⟩
    · rw [exec_single, Fifo.step_take q item _ hfront]
    · exact (congrArg (· ++ [item]) hr.2).trans hpop.symm

/-- The value a producer's call in progress is pushing. -/
def ProducerPc.inHand : ProducerPc T → List T
  | .idle => []
  | .ownLoaded item _ | .otherLoaded item _ _ | .constructed item _ _ => [item]

/-- Every value handed to `push` so far, in order. -/
def State.offered (s : State size T) : List T :=
  s.producer.calls.map PushCall.item ++ s.producer.pc.inHand

/-- The value a label hands to a new call of `push`. -/
def Label.offer : Label T → Option T
  | .pushLoadOwn item => some item
  | _ => none

/-- A call of `push` offers its item when it begins. -/
theorem offered_step {s t : State size T} {l : Label T} (hs : step s l = some t) :
    t.offered = s.offered ++ l.offer.toList := by
  cases l with
  | pushLoadOwn item =>
    obtain ⟨hp,rfl⟩ := pushLoadOwn_inv hs
    simp [State.offered, hp, ProducerPc.inHand, Label.offer]
  | pushLoadOther j =>
    obtain ⟨item,write,read,hp,_,_,⟨_,rfl⟩ | ⟨_,rfl⟩⟩ := pushLoadOther_inv hs
    all_goals simp [State.offered, hp, ProducerPc.inHand, Label.offer]
  | construct =>
    obtain ⟨item,write,read,hp,rfl⟩ := construct_inv hs
    simp [State.offered, hp, ProducerPc.inHand, Label.offer]
  | publishWrite =>
    obtain ⟨item,write,read,hp,rfl⟩ := publishWrite_inv hs
    simp [State.offered, hp, ProducerPc.inHand, Label.offer]
  | popLoadOwn =>
    obtain ⟨_,rfl⟩ := popLoadOwn_inv hs
    simp [State.offered, Label.offer]
  | popLoadOther j =>
    obtain ⟨_,_,_,_,_,⟨_,rfl⟩ | ⟨_,rfl⟩⟩ := popLoadOther_inv hs
    all_goals simp [State.offered, Label.offer]
  | moveOut =>
    obtain ⟨_,_,_,⟨_,_,rfl⟩ | ⟨_,rfl⟩⟩ := moveOut_inv hs
    all_goals simp [State.offered, Label.offer]
  | publishRead =>
    obtain ⟨_,_,_,_,rfl⟩ := publishRead_inv hs
    simp [State.offered, Label.offer]

private theorem offered_run {s t : State size T} {ls : List (Label T)} (run : exec step s ls = some t) :
    t.offered = s.offered ++ ls.filterMap Label.offer := by
  induction ls generalizing s with
  | nil => cases run; simp
  | cons l ls ih =>
    obtain ⟨u,hu,ht⟩ := exec_cons_some run
    rw [ih ht, offered_step hu, List.append_assoc, List.filterMap_cons]
    cases l.offer <;> rfl

/-- Values leave in the order in which they were offered, the refused ones missing. -/
theorem pushed_sublist_offered (s : State size T) : s.pushed.Sublist s.offered := by
  have hf : s.pushed = (s.producer.calls.filter PushCall.ok).map PushCall.item := by
    rw [State.pushed, ← List.filterMap_eq_map, List.filterMap_filter]
    congr 1
  rw [hf]
  exact ((List.filter_sublist).map _).trans (List.sublist_append_left _ _)

/-- Only the last access of `pop` returns an element. -/
theorem popped_step {s t : State size T} {l : Label T} (hs : step s l = some t)
    (hl : l ≠ .publishRead) : t.popped = s.popped := by
  cases l with
  | pushLoadOwn item =>
    obtain ⟨_,rfl⟩ := pushLoadOwn_inv hs
    rfl
  | pushLoadOther j =>
    obtain ⟨_,_,_,_,_,_,⟨_,rfl⟩ | ⟨_,rfl⟩⟩ := pushLoadOther_inv hs <;> rfl
  | construct =>
    obtain ⟨_,_,_,_,rfl⟩ := construct_inv hs
    rfl
  | publishWrite =>
    obtain ⟨_,_,_,_,rfl⟩ := publishWrite_inv hs
    rfl
  | popLoadOwn =>
    obtain ⟨_,rfl⟩ := popLoadOwn_inv hs
    rfl
  | popLoadOther j =>
    obtain ⟨_,_,_,_,_,⟨_,rfl⟩ | ⟨_,rfl⟩⟩ := popLoadOther_inv hs
    · simp [State.popped]
    · rfl
  | moveOut =>
    obtain ⟨_,_,_,⟨_,_,rfl⟩ | ⟨_,rfl⟩⟩ := moveOut_inv hs <;> rfl
  | publishRead => exact absurd rfl hl

/-- What `pop` has moved out is taken when the read index is published. -/
theorem popped_publishRead {s t : State size T} {read write : SizeT} {item : T}
    (hp : s.consumer.pc = .moved read write item) (hs : step s .publishRead = some t) :
    t.popped = s.popped ++ [item] := by
  obtain ⟨_,_,_,hp',rfl⟩ := publishRead_inv hs
  rw [hp] at hp'
  cases hp'
  simp [State.popped]

/-- Without a refused push everything offered, but a value still in hand, is pushed. -/
theorem pushed_prefix_offered {s : State size T} (h : ∀ c ∈ s.producer.calls, c.ok = true) :
    s.pushed <+: s.offered := by
  have hp : s.pushed = s.producer.calls.map PushCall.item := by
    rw [State.pushed, ← List.filterMap_eq_map]
    exact List.filterMap_congr fun c hc => by rw [h c hc]; rfl
  rw [hp]
  exact List.prefix_append _ _

/-- The bounded FIFO contract of `SpscQueue` under every interleaving, stale loads
and wrapping counters included: the pops form a prefix of the published pushes, the
published indices stay within one ring, refusals are justified by the indices read,
no slot is touched in the wrong state, and the whole history is one of the channel. -/
theorem spsc_refines_bounded_fifo (size : Size) (T : Type) (base : SizeT)
    (schedule : List (Label T)) (s : State size T)
    (run : exec step (init size T base) schedule = some s) :
    s.popped <+: s.pushed ∧ s.pushed.Sublist s.offered ∧
      s.offered = schedule.filterMap Label.offer ∧
      (s.writeIndex.latest - s.readIndex.latest).toNat ≤ size.value ∧
      (∀ c ∈ s.producer.calls, c.ok = false → c.write - c.read = BitVec.ofNat 64 size.value) ∧
      (∀ c ∈ s.consumer.calls, c.item = none → c.read = c.write) ∧
      s.fault = false ∧
      ∃ actions q, exec Fifo.step (Fifo.empty T size.value) actions = some q ∧
        q.accepted = s.pushed ∧ q.delivered = s.popped := by
  have h : Inv base s.pushed s.popped s := coherent_run run
  obtain ⟨actions,q,hq,_,hr⟩ := (refines_fifo base).run run
    (t := Fifo.empty T size.value) ⟨coherent_init base,rfl,rfl⟩
  refine ⟨?_,pushed_sublist_offered s,offered_run run,?_,h.refusedPush,h.refusedPop,h.faultless,
    actions,q,hq,hr⟩
  · rw [← hr.1, ← hr.2]
    exact q.delivered_prefix
  · have hd : s.pushed.length - s.popped.length < 2^64 := by
      have := h.occupancy
      have := size.representable
      omega
    rw [h.latestWrite, h.latestRead, counter_sub base h.popped_le hd]
    have := h.occupancy
    omega

def ringOfTwo : Size := ⟨2,by decide,by decide,by decide⟩

/-- Two pushes across the wrap of the counter, one refused, one popped on a stale view. -/
def wrapSchedule : List (Label Nat) :=
  [.pushLoadOwn 7, .pushLoadOther 0, .construct, .publishWrite, .popLoadOwn,
    .pushLoadOwn 8, .pushLoadOther 0, .construct, .publishWrite, .popLoadOther 1,
    .pushLoadOwn 9, .pushLoadOther 0, .moveOut, .publishRead, .popLoadOwn, .popLoadOther 1]

theorem wrapSchedule_conforms :
    ((exec step (init ringOfTwo Nat (-1)) wrapSchedule).map fun s => (s.pushed, s.popped)) =
        some ([7,8], [7]) ∧
      ∃ s, exec step (init ringOfTwo Nat (-1)) wrapSchedule = some s ∧ s.popped <+: s.pushed := by
  refine ⟨by decide,_,(Option.some_get (show Option.isSome _ = true by decide)).symm,?_⟩
  exact (spsc_refines_bounded_fifo ringOfTwo Nat (-1) wrapSchedule _
    (Option.some_get (show Option.isSome _ = true by decide)).symm).1

end PredictionMarket.Queue.Spsc

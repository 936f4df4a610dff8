import PredictionMarket.Foundation.Lifetime
import PredictionMarket.Queue.SpscQueue
import Mathlib.Data.List.Range

/-! What the calls and the destructor of `spsc_queue.hpp` do to the objects in the slots.
The live slots are the window from the read to the write index, on counters that wrap. -/
namespace PredictionMarket.Queue
open Foundation.Ring Foundation.Lifetime

inductive Call (T : Type) where
  | push (item : T)
  | pop

namespace SpscQueue
variable {size : Size} {T : Type}

/-- The `construct_at` of `push`. -/
def pushAccesses (q : SpscQueue size T) : List (Access (Fin size.value)) :=
  if q.writeIndex - q.readIndex = BitVec.ofNat 64 size.value then []
  else [.construct (size.slot q.writeIndex)]

/-- The move and the `destroy_at` of `pop`. -/
def popAccesses (q : SpscQueue size T) : List (Access (Fin size.value)) :=
  if q.readIndex = q.writeIndex then []
  else [.moveFrom (size.slot q.readIndex),.destroy (size.slot q.readIndex)]

/-- The loop of `~SpscQueue`, for at most so many iterations; it has no result while it
would go on. -/
def destroyLoop (size : Size) (write : SizeT) : Nat → SizeT → Option (List (Access (Fin size.value)))
  | 0, read => if read = write then some [] else none
  | fuel + 1, read =>
    if read = write then some []
    else (destroyLoop size write fuel (read + 1)).map fun rest => .destroy (size.slot read) :: rest

def destructor (q : SpscQueue size T) (fuel : Nat) : Option (List (Access (Fin size.value))) :=
  destroyLoop size q.writeIndex fuel q.readIndex

end SpscQueue

/-- A queue with what its calls did: the storage accesses, the items for which `push`
returned true and the items that `pop` returned. -/
structure Session (size : Size) (T : Type) where
  queue : SpscQueue size T
  accesses : List (Access (Fin size.value))
  pushed : List T
  popped : List T

namespace Session
variable {size : Size} {T : Type}

def opening (size : Size) (T : Type) (start : SizeT) : Session size T := ⟨.new size T start,[],[],[]⟩

def call (s : Session size T) : Call T → Session size T
  | .push item =>
    { s with
      queue := (s.queue.push item).2
      accesses := s.accesses ++ s.queue.pushAccesses
      pushed := if (s.queue.push item).1 then s.pushed ++ [item] else s.pushed }
  | .pop =>
    { s with
      queue := s.queue.pop.2.2
      accesses := s.accesses ++ s.queue.popAccesses
      popped := if s.queue.pop.1 then s.popped ++ s.queue.pop.2.1.toList else s.popped }

def calls (s : Session size T) (made : List (Call T)) : Session size T := made.foldl call s

end Session

/-- The queue of the objects that live in the slots. -/
def SpscQueue.objects {size : Size} {T : Type} (q : SpscQueue size T) (life : Lifetimes (Fin size.value)) :
    SpscQueue size Nat := ⟨life.slots,q.writeIndex,q.readIndex⟩

/-- The objects `popped`, `popped + 1`, ... hold these items, those before them are destroyed. -/
structure Owns {size : Size} {T : Type} (q : SpscQueue size T) (life : Lifetimes (Fin size.value))
    (popped : Nat) (items : List T) : Prop where
  elements : q.Represents items
  objects : (q.objects life).Represents (List.range' popped items.length)
  constructed : life.constructed = popped + items.length
  destroyed : life.destroyed = List.range popped

namespace Owns
variable {size : Size} {T : Type} {q : SpscQueue size T} {life : Lifetimes (Fin size.value)} {popped : Nat}
  {items : List T}

/-- A queue that nothing has used owns no object. -/
theorem opening (start : SizeT) : Owns (.new size T start) .raw 0 [] :=
  ⟨.new start,.new start,rfl,rfl⟩

/-- A push that finds room constructs in a raw slot. -/
theorem push_room (h : Owns q life popped items) (room : items.length < size.value) (item : T) :
    ∃ next, life.run q.pushAccesses = some next ∧ Owns (q.push item).2 next popped (items ++ [item]) := by
  have hp := h.elements.not_full room
  have hlen : (List.range' popped items.length).length < size.value := by rwa [List.length_range']
  have hraw : life.slots (size.slot q.writeIndex) = none := h.objects.write_raw hlen
  refine ⟨life.begin (size.slot q.writeIndex),?_,(h.elements.push_room room item).2,?_,?_,h.destroyed⟩
  · rw [SpscQueue.pushAccesses, if_neg hp]
    exact Lifetimes.run_construct hraw
  · have hobjects := (h.objects.push_room hlen life.constructed).2
    have hpush : ((q.objects life).push life.constructed).2 =
        (q.push item).2.objects (life.begin (size.slot q.writeIndex)) := by
      have hp' : ¬ (q.objects life).writeIndex - (q.objects life).readIndex = _ := hp
      rw [SpscQueue.push, SpscQueue.push, if_neg hp', if_neg hp]
      rfl
    rw [List.length_append, List.length_singleton, List.range'_1_concat, ← h.constructed, ← hpush]
    exact hobjects
  · rw [List.length_append, List.length_singleton, ← Nat.add_assoc, ← h.constructed]
    rfl

/-- A pop of an element moves from it and destroys it where it lives. -/
theorem pop_cons {item : T} (h : Owns q life popped (item :: items)) :
    life.slots (size.slot q.readIndex) = some popped ∧
      Owns q.pop.2.2 (life.finish (size.slot q.readIndex) popped) (popped + 1) items := by
  have hp := h.elements.not_empty
  have hobjects := h.objects
  rw [List.length_cons, List.range'_succ] at hobjects
  refine ⟨hobjects.read_live,h.elements.pop_cons.2.2,?_,?_,?_⟩
  · have hpop : (q.objects life).pop.2.2 =
        q.pop.2.2.objects (life.finish (size.slot q.readIndex) popped) := by
      have hp' : ¬ (q.objects life).readIndex = (q.objects life).writeIndex := hp
      rw [SpscQueue.pop, SpscQueue.pop, if_neg hp', if_neg hp]
      rfl
    rw [← hpop]
    exact hobjects.pop_cons.2.2
  · have hc := h.constructed
    rw [List.length_cons] at hc
    exact hc.trans (by omega)
  · change life.destroyed ++ [popped] = _
    rw [h.destroyed, List.range_succ]

/-- A push into a full queue touches no slot. -/
theorem push_full (h : Owns q life popped items) (full : items.length = size.value) (item : T) :
    q.pushAccesses = [] ∧ q.push item = (false, q) :=
  ⟨if_pos (h.elements.full_iff.mpr full),h.elements.push_full full item⟩

/-- A pop from an empty queue touches no slot. -/
theorem pop_empty (h : Owns q life popped []) : q.popAccesses = [] ∧ q.pop = (false, none, q) :=
  ⟨if_pos (h.elements.empty_iff.mpr rfl),h.elements.pop_empty⟩

private theorem popAccesses_cons {item : T} (h : Owns q life popped (item :: items)) :
    q.popAccesses = [.moveFrom (size.slot q.readIndex),.destroy (size.slot q.readIndex)] :=
  if_neg h.elements.not_empty

/-- The object in a slot is the one that was constructed there for its element, with
`front` for the elements that are gone. -/
theorem slots_iff (h : Owns q life popped items) {front : List T} (gone : front.length = popped)
    (slot : Fin size.value) (item : T) : q.buffer slot = some item ↔
      ∃ object, life.slots slot = some object ∧ (front ++ items)[object]? = some item := by
  have hget (i : Nat) : (front ++ items)[popped + i]? = items[i]? := by
    rw [← gone, List.getElem?_append_right (Nat.le_add_right _ _), Nat.add_sub_cancel_left]
  rw [h.elements.stored.live_iff]
  constructor
  · rintro ⟨i,hi,hc,hitem⟩
    refine ⟨popped + i,(h.objects.stored.live_iff slot _).mpr ⟨i,?_,hc,?_⟩,(hget i).trans hitem⟩
    · rwa [List.length_range']
    · rw [List.getElem?_range' hi, Nat.one_mul]
  · rintro ⟨object,hobject,hitem⟩
    obtain ⟨i,hi,hc,hnumber⟩ := (h.objects.stored.live_iff slot _).mp hobject
    rw [List.length_range'] at hi
    rw [List.getElem?_range' hi, Nat.one_mul, Option.some_inj] at hnumber
    rw [← hnumber, hget] at hitem
    exact ⟨i,hi,hc,hitem⟩

/-- One iteration of the loop destroys the oldest element. -/
theorem destructor_succ {item : T} (h : Owns q life popped (item :: items)) (fuel : Nat) :
    q.destructor (fuel + 1) = (q.pop.2.2.destructor fuel).map fun rest =>
      .destroy (size.slot q.readIndex) :: rest := by
  have hp := h.elements.not_empty
  rw [SpscQueue.destructor, SpscQueue.destroyLoop, if_neg hp, SpscQueue.pop, if_neg hp]
  rfl

/-- The loop takes as many iterations as there are elements and leaves every slot raw. -/
theorem destructor_spec (h : Owns q life popped items) : ∃ destroys after,
    (∀ fuel, q.destructor fuel = if items.length ≤ fuel then some destroys else none) ∧
    life.run destroys = some after ∧ after.constructed = popped + items.length ∧
    after.destroyed = List.range (popped + items.length) ∧ ∀ slot, after.slots slot = none := by
  induction items generalizing q life popped with
  | nil =>
    refine ⟨[],life,?_,rfl,h.constructed,h.destroyed,?_⟩
    · intro fuel
      have he := h.elements.empty_iff.mpr rfl
      refine Eq.trans ?_ (if_pos (Nat.zero_le fuel)).symm
      cases fuel <;> exact if_pos he
    · intro slot
      exact h.objects.stored.raw slot fun _ hi => absurd hi (Nat.not_lt_zero _)
  | cons item items ih =>
    obtain ⟨hlive,hnext⟩ := h.pop_cons
    obtain ⟨destroys,after,hloop,hrun,hconstructed,hdestroyed,hraw⟩ := ih hnext
    have hcount : popped + 1 + items.length = popped + (item :: items).length := by
      rw [List.length_cons]
      omega
    rw [hcount] at hconstructed hdestroyed
    refine ⟨.destroy (size.slot q.readIndex) :: destroys,after,?_,?_,hconstructed,hdestroyed,hraw⟩
    · intro fuel
      cases fuel with
      | zero => exact (if_neg h.elements.not_empty).trans (if_neg (Nat.not_succ_le_zero _)).symm
      | succ fuel =>
        rw [h.destructor_succ, hloop, List.length_cons]
        by_cases hf : items.length ≤ fuel
        · rw [if_pos hf, if_pos (Nat.succ_le_succ hf)]
          rfl
        · rw [if_neg hf, if_neg (mt Nat.le_of_succ_le_succ hf)]
          rfl
    · exact (Lifetimes.run_append (Lifetimes.run_destroy hlive) destroys).trans hrun

end Owns

/-- The accesses of a session were legal and left these objects alive, which hold the items
pushed and not popped. -/
structure Session.Follows {size : Size} {T : Type} (s : Session size T) (life : Lifetimes (Fin size.value))
    (items : List T) : Prop where
  legal : Lifetimes.raw.run s.accesses = some life
  owns : Owns s.queue life s.popped.length items
  fifo : s.pushed = s.popped ++ items

namespace Session.Follows
variable {size : Size} {T : Type} {s : Session size T} {life : Lifetimes (Fin size.value)} {items : List T}

/-- Whatever is called, constructions meet raw slots, moves and destructions live ones. -/
theorem call (h : s.Follows life items) (c : Call T) : ∃ next rest, (s.call c).Follows next rest := by
  cases c with
  | push item =>
    by_cases full : items.length = size.value
    · obtain ⟨haccesses,hpush⟩ := h.owns.push_full full item
      refine ⟨life,items,?_⟩
      simp only [Session.call, haccesses, hpush, List.append_nil]
      exact h
    · have room : items.length < size.value := Nat.lt_of_le_of_ne h.owns.elements.stored.fits full
      obtain ⟨next,hrun,howns⟩ := h.owns.push_room room item
      have hok := (h.owns.elements.push_room room item).1
      refine ⟨next,items ++ [item],(Lifetimes.run_append h.legal _).trans hrun,howns,?_⟩
      simp only [Session.call, hok, if_true, h.fifo, List.append_assoc]
  | pop =>
    cases items with
    | nil =>
      obtain ⟨haccesses,hpop⟩ := h.owns.pop_empty
      refine ⟨life,[],?_⟩
      simp only [Session.call, haccesses, hpop, List.append_nil]
      exact h
    | cons item items =>
      obtain ⟨hlive,hnext⟩ := h.owns.pop_cons
      obtain ⟨hok,hitem,_⟩ := h.owns.elements.pop_cons
      have hpopped : (s.call .pop).popped = s.popped ++ [item] := by
        simp only [Session.call, hok, hitem, if_true, Option.toList_some]
      refine ⟨life.finish (size.slot s.queue.readIndex) s.popped.length,items,?_,?_,?_⟩
      · refine (Lifetimes.run_append h.legal _).trans ?_
        rw [h.owns.popAccesses_cons]
        exact Lifetimes.run_take hlive
      · rw [hpopped, List.length_append, List.length_singleton]
        exact hnext
      · rw [hpopped, List.append_assoc]
        exact h.fifo

/-- Whatever calls are made, the objects follow the items. -/
theorem calls (h : s.Follows life items) (made : List (Call T)) :
    ∃ next rest, (s.calls made).Follows next rest := by
  induction made generalizing s life items with
  | nil => exact ⟨life,items,h⟩
  | cons c made ih =>
    obtain ⟨next,rest,hnext⟩ := h.call c
    exact ih hnext

end Session.Follows

/-- The lifetimes of a session's elements, up to the destructor and through it. Element `k`
of those pushed is object `k`. -/
structure Session.DestroyedOnce {size : Size} {T : Type} (s : Session size T)
    (before after : Lifetimes (Fin size.value)) (destroys : List (Access (Fin size.value))) : Prop where
  fifo : s.popped <+: s.pushed
  legal : Lifetimes.raw.run s.accesses = some before
  constructed : before.constructed = s.pushed.length
  destroyed : before.destroyed = List.range s.popped.length
  live : ∀ slot item, s.queue.buffer slot = some item ↔
    ∃ object, before.slots slot = some object ∧ s.pushed[object]? = some item
  returns : ∀ fuel, s.queue.destructor fuel =
    if s.pushed.length - s.popped.length ≤ fuel then some destroys else none
  destructs : before.run destroys = some after
  noneNew : after.constructed = s.pushed.length
  allDestroyed : after.destroyed = List.range s.pushed.length
  allRaw : ∀ slot, after.slots slot = none

/-- Calls of push and pop from any common index, and the destructor behind them, construct
each element in a raw slot and destroy it once where it lives; then no slot is live. -/
theorem elements_destroyed_once (size : Size) (T : Type) (start : SizeT) (made : List (Call T)) :
    ∃ before after destroys, ((Session.opening size T start).calls made).DestroyedOnce before after destroys := by
  have hopening : (Session.opening size T start).Follows .raw [] := ⟨rfl,.opening start,rfl⟩
  obtain ⟨before,items,h⟩ := hopening.calls made
  generalize (Session.opening size T start).calls made = s at h ⊢
  obtain ⟨destroys,after,hloop,hrun,hconstructed,hdestroyed,hraw⟩ := h.owns.destructor_spec
  have hlen : s.pushed.length = s.popped.length + items.length := by
    rw [h.fifo, List.length_append]
  have hleft : s.pushed.length - s.popped.length = items.length := by omega
  rw [← hlen] at hconstructed hdestroyed
  refine ⟨before,after,destroys,⟨items,h.fifo.symm⟩,h.legal,h.owns.constructed.trans hlen.symm,h.owns.destroyed,
    ?_,?_,hrun,hconstructed,hdestroyed,hraw⟩
  · intro slot item
    rw [h.fifo]
    exact h.owns.slots_iff rfl slot item
  · rw [hleft]
    exact hloop

end PredictionMarket.Queue

import PredictionMarket.Foundation.Ring
import Mathlib.Algebra.Ring.Parity

/-! The ring buffer of `spsc_queue.hpp` as a single thread sees it. Indices are
64-bit counters that wrap; a slot is raw storage or holds one live element. -/
namespace PredictionMarket.Queue
open Foundation.Ring

abbrev SizeT := BitVec 64

/-- The template argument `Size` together with its two static assertions. -/
structure Size where
  value : Nat
  representable : value < 2^64
  atLeastTwo : 2 ≤ value
  powerOfTwo : value &&& (value - 1) = 0

namespace Size
variable (size : Size)

instance : NeZero size.value := ⟨by have := size.atLeastTwo; omega⟩

private theorem exponent : ∃ k < 64, size.value = 2^k := by
  have hne : size.value ≠ 0 := NeZero.ne _
  obtain ⟨k,hk⟩ := (Nat.and_sub_one_eq_zero_iff_isPowerOfTwo hne).mp size.powerOfTwo
  refine ⟨k,?_,hk⟩
  have := size.representable
  rw [hk] at this
  exact (Nat.pow_lt_pow_iff_right (by decide)).mp this

def kMask : SizeT := BitVec.ofNat 64 size.value - 1

private theorem mask_counter (base : SizeT) (i : Nat) :
    (counter base i &&& size.kMask).toNat = (base.toNat + i) % size.value := by
  obtain ⟨k,hk,he⟩ := size.exponent
  rw [kMask, he]
  exact counter_mask base i k hk

private theorem mask_lt (index : SizeT) : (index &&& size.kMask).toNat < size.value := by
  have h := size.mask_counter index 0
  rw [counter_zero] at h
  rw [h]
  exact Nat.mod_lt _ (Nat.pos_of_ne_zero (NeZero.ne _))

/-- Masking never leaves the buffer, so a slot is an index of the array. -/
def slot (index : SizeT) : Fin size.value := ⟨(index &&& size.kMask).toNat,size.mask_lt index⟩

/-- The slot of a counter is the cell of what it counts. -/
theorem slot_counter (base : SizeT) (i : Nat) :
    size.slot (counter base i) = cell size.value (base.toNat + i) :=
  Fin.ext (size.mask_counter base i)

private theorem slot_eq_cell (index : SizeT) : size.slot index = cell size.value index.toNat := by
  simpa using size.slot_counter index 0

/-- The size fits the word of the indices. -/
theorem toNat_ofNat : (BitVec.ofNat 64 size.value).toNat = size.value := by
  rw [BitVec.toNat_ofNat, Nat.mod_eq_of_lt size.representable]

/-- Within one lap the full test of `push` compares true distances. -/
theorem counter_sub_eq_size_iff (base : SizeT) {i j : Nat} (hij : i ≤ j) (hlap : j ≤ i + size.value) :
    counter base j - counter base i = BitVec.ofNat 64 size.value ↔ j = i + size.value := by
  have hlt : j - i < 2^64 := by have := size.representable; omega
  rw [← BitVec.toNat_inj, counter_sub base hij hlt, size.toNat_ofNat]
  omega

/-- Within one lap the empty test of `pop` compares true positions. -/
theorem counter_eq_iff (base : SizeT) {i j : Nat} (hij : i ≤ j) (hlap : j ≤ i + size.value) :
    counter base i = counter base j ↔ i = j :=
  Foundation.Ring.counter_eq_iff base hij (by have := size.representable; omega)

end Size

structure SpscQueue (size : Size) (T : Type) where
  buffer : Fin size.value → Option T
  writeIndex : SizeT
  readIndex : SizeT

namespace SpscQueue
variable {size : Size} {T : Type}

/-- A new queue, its counters at any common value. -/
def new (size : Size) (T : Type) (start : SizeT) : SpscQueue size T := ⟨fun _ => none,start,start⟩

def push (q : SpscQueue size T) (item : T) : Bool × SpscQueue size T :=
  let write := q.writeIndex
  let read := q.readIndex
  if write - read = BitVec.ofNat 64 size.value then (false, q)
  else (true, { q with
    buffer := Function.update q.buffer (size.slot write) (some item)
    writeIndex := write + 1 })

/-- The flag, the element moved out if any, and the queue after the call. -/
def pop (q : SpscQueue size T) : Bool × Option T × SpscQueue size T :=
  let read := q.readIndex
  let write := q.writeIndex
  if read = write then (false, none, q)
  else (true, q.buffer (size.slot read), { q with
    buffer := Function.update q.buffer (size.slot read) none
    readIndex := read + 1 })

/-- The queue holds these elements, oldest first, and every other slot is raw. -/
structure Represents (q : SpscQueue size T) (items : List T) : Prop where
  stored : Holds q.buffer q.readIndex.toNat items
  distance : q.writeIndex = counter q.readIndex items.length

namespace Represents
variable {q : SpscQueue size T} {items : List T}

/-- A new queue is empty. -/
theorem new (start : SizeT) : (SpscQueue.new size T start).Represents [] :=
  ⟨.empty _,(counter_zero _).symm⟩

/-- The test for a full queue is right, also where the indices wrap. -/
theorem full_iff (h : q.Represents items) :
    q.writeIndex - q.readIndex = BitVec.ofNat 64 size.value ↔ items.length = size.value := by
  have hs := size.counter_sub_eq_size_iff q.readIndex (Nat.zero_le items.length)
    (by rw [Nat.zero_add]; exact h.stored.fits)
  rwa [counter_zero, Nat.zero_add, ← h.distance] at hs

/-- The test for an empty queue is right. -/
theorem empty_iff (h : q.Represents items) : q.readIndex = q.writeIndex ↔ items = [] := by
  have hs := size.counter_eq_iff q.readIndex (Nat.zero_le items.length)
    (by rw [Nat.zero_add]; exact h.stored.fits)
  rw [counter_zero, ← h.distance] at hs
  rw [hs, eq_comm, List.length_eq_zero_iff]

/-- With room the test for a full queue fails. -/
theorem not_full (h : q.Represents items) (room : items.length < size.value) :
    ¬ q.writeIndex - q.readIndex = BitVec.ofNat 64 size.value :=
  fun hf => absurd (h.full_iff.mp hf) (Nat.ne_of_lt room)

/-- With an item the test for an empty queue fails. -/
theorem not_empty {item : T} (h : q.Represents (item :: items)) : ¬ q.readIndex = q.writeIndex :=
  fun he => List.cons_ne_nil _ _ (h.empty_iff.mp he)

/-- With room left, the slot of the write index is outside the window. -/
theorem write_raw (h : q.Represents items) (room : items.length < size.value) :
    q.buffer (size.slot q.writeIndex) = none := by
  rw [h.distance, size.slot_counter]
  exact h.stored.next_raw room

/-- The slot of the read index holds the oldest element. -/
theorem read_live {item : T} (h : q.Represents (item :: items)) :
    q.buffer (size.slot q.readIndex) = some item := by
  rw [size.slot_eq_cell]
  exact h.stored.head

/-- A push into a full queue is refused and changes nothing. -/
theorem push_full (h : q.Represents items) (full : items.length = size.value) (item : T) :
    q.push item = (false, q) := if_pos (h.full_iff.mpr full)

/-- With room a push puts the item last. -/
theorem push_room (h : q.Represents items) (room : items.length < size.value) (item : T) :
    (q.push item).1 = true ∧ (q.push item).2.Represents (items ++ [item]) := by
  rw [push, if_neg (h.not_full room)]
  refine ⟨rfl,?_,?_⟩
  · rw [h.distance, size.slot_counter]
    exact h.stored.snoc room item
  · rw [h.distance, counter_succ, List.length_append, List.length_singleton]

/-- A pop from an empty queue returns nothing and changes nothing. -/
theorem pop_empty (h : q.Represents []) : q.pop = (false, none, q) := if_pos (h.empty_iff.mpr rfl)

/-- With an item a pop takes the first one. -/
theorem pop_cons {item : T} (h : q.Represents (item :: items)) :
    q.pop.1 = true ∧ q.pop.2.1 = some item ∧ q.pop.2.2.Represents items := by
  rw [pop, if_neg h.not_empty]
  refine ⟨rfl,h.read_live,?_,?_⟩
  · rw [size.slot_eq_cell]
    refine h.stored.tail.congr_start ?_
    obtain ⟨k,hk,he⟩ := size.exponent
    rw [BitVec.toNat_add, he]
    exact (Nat.mod_mod_of_dvd _ (Nat.pow_dvd_pow 2 hk.le)).symm
  · rw [h.distance, List.length_cons, counter, counter, Nat.add_comm, BitVec.ofNat_add,
      ← BitVec.add_assoc]
    rfl

/-- Two readings of one queue agree. -/
theorem unique {others : List T} (h : q.Represents items) (h' : q.Represents others) :
    items = others := by
  refine h.stored.unique h'.stored ?_
  have hle := h.stored.fits
  have hle' := h'.stored.fits
  have := size.representable
  have hd : counter q.readIndex items.length = counter q.readIndex others.length :=
    h.distance.symm.trans h'.distance
  rcases Nat.le_total items.length others.length with hl | hl
  · exact (Foundation.Ring.counter_eq_iff _ hl (by omega)).mp hd
  · exact ((Foundation.Ring.counter_eq_iff _ hl (by omega)).mp hd.symm).symm

end Represents

/-- Push a list in order, discarding every result. -/
def pushAll (q : SpscQueue size T) (items : List T) : SpscQueue size T :=
  items.foldl (fun q item => (q.push item).2) q

/-- Discarded results drop a suffix: the queue takes what fits and nothing after it. -/
theorem Represents.pushAll {q : SpscQueue size T} {items : List T} (h : q.Represents items)
    (more : List T) : (q.pushAll more).Represents
      (items ++ more.take (size.value - items.length)) := by
  induction more generalizing q items with
  | nil => simpa [SpscQueue.pushAll] using h
  | cons item more ih =>
    change ((q.push item).2.pushAll more).Represents _
    by_cases full : items.length = size.value
    · rw [h.push_full full]
      simpa [full] using ih h
    · have room : items.length < size.value := Nat.lt_of_le_of_ne h.stored.fits full
      have hr := ih (h.push_room room item).2
      obtain ⟨free,hfree⟩ := Nat.exists_eq_add_of_lt room
      rw [show size.value - items.length = free + 1 by omega, List.take_succ_cons]
      rw [List.length_append, List.length_singleton,
        show size.value - (items.length + 1) = free by omega] at hr
      simpa using hr

end SpscQueue

/-- A queue in any state it can be in, with the elements it holds. -/
structure QueueState (size : Size) (T : Type) where
  queue : SpscQueue size T
  contents : List T
  represents : queue.Represents contents

namespace QueueState
variable {size : Size} {T : Type}

def pushAll (st : QueueState size T) (items : List T) : QueueState size T where
  queue := st.queue.pushAll items
  contents := st.contents ++ items.take (size.value - st.contents.length)
  represents := st.represents.pushAll items

end QueueState
end PredictionMarket.Queue

import PredictionMarket.Queue.SpscQueue
import PredictionMarket.Foundation.Transition

/-! The queue with its two threads, one shared-memory access at a time. A load of
the other side's index may be stale: it returns any published value not older
than the one that thread last saw. Touching a slot in the wrong state is a fault. -/
namespace PredictionMarket.Queue.Spsc
open Foundation.Ring

/-- An atomic index with everything ever stored to it, oldest first. -/
structure AtomicIndex where
  initial : SizeT
  stores : List SizeT

namespace AtomicIndex

def published (a : AtomicIndex) : List SizeT := a.initial :: a.stores

/-- A thread always reads its own last store. -/
def latest (a : AtomicIndex) : SizeT := a.stores.getLastD a.initial

def store (a : AtomicIndex) (value : SizeT) : AtomicIndex := { a with stores := a.stores ++ [value] }

@[simp] theorem published_store (a : AtomicIndex) (value : SizeT) :
    (a.store value).published = a.published ++ [value] := rfl

/-- The latest value is the last one that was published. -/
theorem latest_eq (a : AtomicIndex) : a.published.getLast? = some a.latest := by
  simp [published, latest, List.getLast?_cons, List.getLastD_eq_getLast?]

end AtomicIndex

variable {size : Size} {T : Type}

/-- Where the producer stands inside `push`; the values are its locals. -/
inductive ProducerPc (T : Type) where
  | idle
  | ownLoaded (item : T) (write : SizeT)
  | otherLoaded (item : T) (write read : SizeT)
  | constructed (item : T) (write read : SizeT)

/-- A returned call of `push`, with the indices it read. -/
structure PushCall (T : Type) where
  item : T
  write : SizeT
  read : SizeT
  ok : Bool

structure Producer (T : Type) where
  pc : ProducerPc T
  seen : Nat
  calls : List (PushCall T)

/-- Where the consumer stands inside `pop`. -/
inductive ConsumerPc (T : Type) where
  | idle
  | ownLoaded (read : SizeT)
  | otherLoaded (read write : SizeT)
  | moved (read write : SizeT) (item : T)

/-- A returned call of `pop`; no item means that it returned false. -/
structure PopCall (T : Type) where
  read : SizeT
  write : SizeT
  item : Option T

structure Consumer (T : Type) where
  pc : ConsumerPc T
  seen : Nat
  calls : List (PopCall T)

structure State (size : Size) (T : Type) where
  buffer : Fin size.value → Option T
  writeIndex : AtomicIndex
  readIndex : AtomicIndex
  producer : Producer T
  consumer : Consumer T
  fault : Bool

/-- One step of one thread. The argument of a load of the other index says which
published value it returns, counted from the oldest. -/
inductive Label (T : Type) where
  | pushLoadOwn (item : T)
  | pushLoadOther (published : Nat)
  | construct
  | publishWrite
  | popLoadOwn
  | popLoadOther (published : Nat)
  | moveOut
  | publishRead

/-- Both indices at one arbitrary value, both threads outside any call. -/
def init (size : Size) (T : Type) (start : SizeT) : State size T where
  buffer := fun _ => none
  writeIndex := ⟨start,[]⟩
  readIndex := ⟨start,[]⟩
  producer := ⟨.idle,0,[]⟩
  consumer := ⟨.idle,0,[]⟩
  fault := false

def pushLoadOwn (s : State size T) (item : T) : Option (State size T) :=
  match s.producer.pc with
  | .idle => some { s with producer.pc := .ownLoaded item s.writeIndex.latest }
  | _ => none

/-- The load of `read_index_` and the full test on its result. -/
def pushLoadOther (s : State size T) (published : Nat) : Option (State size T) :=
  match s.producer.pc, s.readIndex.published[published]? with
  | .ownLoaded item write, some read =>
    if published < s.producer.seen then none
    else if write - read = BitVec.ofNat 64 size.value then
      some { s with producer := ⟨.idle,published,s.producer.calls ++ [⟨item,write,read,false⟩]⟩ }
    else some { s with producer := ⟨.otherLoaded item write read,published,s.producer.calls⟩ }
  | _, _ => none

def construct (s : State size T) : Option (State size T) :=
  match s.producer.pc with
  | .otherLoaded item write read => some { s with
      buffer := Function.update s.buffer (size.slot write) (some item)
      fault := s.fault || (s.buffer (size.slot write)).isSome
      producer.pc := .constructed item write read }
  | _ => none

def publishWrite (s : State size T) : Option (State size T) :=
  match s.producer.pc with
  | .constructed item write read => some { s with
      writeIndex := s.writeIndex.store (write + 1)
      producer := ⟨.idle,s.producer.seen,s.producer.calls ++ [⟨item,write,read,true⟩]⟩ }
  | _ => none

def popLoadOwn (s : State size T) : Option (State size T) :=
  match s.consumer.pc with
  | .idle => some { s with consumer.pc := .ownLoaded s.readIndex.latest }
  | _ => none

/-- The load of `write_index_` and the empty test on its result. -/
def popLoadOther (s : State size T) (published : Nat) : Option (State size T) :=
  match s.consumer.pc, s.writeIndex.published[published]? with
  | .ownLoaded read, some write =>
    if published < s.consumer.seen then none
    else if read = write then
      some { s with consumer := ⟨.idle,published,s.consumer.calls ++ [⟨read,write,none⟩]⟩ }
    else some { s with consumer := ⟨.otherLoaded read write,published,s.consumer.calls⟩ }
  | _, _ => none

/-- Moving from raw storage has no result: the call is abandoned with a fault. -/
def moveOut (s : State size T) : Option (State size T) :=
  match s.consumer.pc with
  | .otherLoaded read write =>
    match s.buffer (size.slot read) with
    | some item => some { s with
        buffer := Function.update s.buffer (size.slot read) none
        consumer.pc := .moved read write item }
    | none => some { s with fault := true, consumer.pc := .idle }
  | _ => none

def publishRead (s : State size T) : Option (State size T) :=
  match s.consumer.pc with
  | .moved read write item => some { s with
      readIndex := s.readIndex.store (read + 1)
      consumer := ⟨.idle,s.consumer.seen,s.consumer.calls ++ [⟨read,write,some item⟩]⟩ }
  | _ => none

def step (s : State size T) : Label T → Option (State size T)
  | .pushLoadOwn item => pushLoadOwn s item
  | .pushLoadOther published => pushLoadOther s published
  | .construct => construct s
  | .publishWrite => publishWrite s
  | .popLoadOwn => popLoadOwn s
  | .popLoadOther published => popLoadOther s published
  | .moveOut => moveOut s
  | .publishRead => publishRead s

/-- Values whose push published its index, in that order. -/
def State.pushed (s : State size T) : List T :=
  s.producer.calls.filterMap fun c => if c.ok then some c.item else none

/-- Values returned by successful pops, in that order. -/
def State.popped (s : State size T) : List T := s.consumer.calls.filterMap PopCall.item

/-! What each step can do, said once. -/

/-- `push` begins with a load of its own index. -/
theorem pushLoadOwn_inv {s t : State size T} {item : T} (h : pushLoadOwn s item = some t) :
    s.producer.pc = .idle ∧ t = { s with producer.pc := .ownLoaded item s.writeIndex.latest } := by
  simp only [pushLoadOwn] at h
  split at h
  · rename_i hp
    exact ⟨hp,(Option.some.inj h).symm⟩
  · cases h

/-- What `push` loads of the other index decides whether it is refused. -/
theorem pushLoadOther_inv {s t : State size T} {j : Nat} (h : pushLoadOther s j = some t) :
    ∃ item write read, s.producer.pc = .ownLoaded item write ∧
      s.readIndex.published[j]? = some read ∧ s.producer.seen ≤ j ∧
      ((write - read = BitVec.ofNat 64 size.value ∧ t = { s with producer :=
          ⟨.idle,j,s.producer.calls ++ [⟨item,write,read,false⟩]⟩ }) ∨
        (write - read ≠ BitVec.ofNat 64 size.value ∧ t = { s with producer :=
          ⟨.otherLoaded item write read,j,s.producer.calls⟩ })) := by
  simp only [pushLoadOther] at h
  split at h
  · rename_i item write read hp hr
    split_ifs at h with hj hf
    · exact ⟨item,write,read,hp,hr,Nat.le_of_not_lt hj,.inl ⟨hf,(Option.some.inj h).symm⟩⟩
    · exact ⟨item,write,read,hp,hr,Nat.le_of_not_lt hj,.inr ⟨hf,(Option.some.inj h).symm⟩⟩
  · cases h

/-- `push` constructs its element behind the test. -/
theorem construct_inv {s t : State size T} (h : construct s = some t) :
    ∃ item write read, s.producer.pc = .otherLoaded item write read ∧ t = { s with
      buffer := Function.update s.buffer (size.slot write) (some item)
      fault := s.fault || (s.buffer (size.slot write)).isSome
      producer.pc := .constructed item write read } := by
  simp only [construct] at h
  split at h
  · rename_i item write read hp
    exact ⟨item,write,read,hp,(Option.some.inj h).symm⟩
  · cases h

/-- `push` ends with the store of its own index. -/
theorem publishWrite_inv {s t : State size T} (h : publishWrite s = some t) :
    ∃ item write read, s.producer.pc = .constructed item write read ∧ t = { s with
      writeIndex := s.writeIndex.store (write + 1)
      producer := ⟨.idle,s.producer.seen,s.producer.calls ++ [⟨item,write,read,true⟩]⟩ } := by
  simp only [publishWrite] at h
  split at h
  · rename_i item write read hp
    exact ⟨item,write,read,hp,(Option.some.inj h).symm⟩
  · cases h

/-- `pop` begins with a load of its own index. -/
theorem popLoadOwn_inv {s t : State size T} (h : popLoadOwn s = some t) :
    s.consumer.pc = .idle ∧ t = { s with consumer.pc := .ownLoaded s.readIndex.latest } := by
  simp only [popLoadOwn] at h
  split at h
  · rename_i hp
    exact ⟨hp,(Option.some.inj h).symm⟩
  · cases h

/-- What `pop` loads of the other index decides whether it finds an element. -/
theorem popLoadOther_inv {s t : State size T} {j : Nat} (h : popLoadOther s j = some t) :
    ∃ read write, s.consumer.pc = .ownLoaded read ∧
      s.writeIndex.published[j]? = some write ∧ s.consumer.seen ≤ j ∧
      ((read = write ∧ t = { s with consumer :=
          ⟨.idle,j,s.consumer.calls ++ [⟨read,write,none⟩]⟩ }) ∨
        (read ≠ write ∧ t = { s with consumer := ⟨.otherLoaded read write,j,s.consumer.calls⟩ })) := by
  simp only [popLoadOther] at h
  split at h
  · rename_i read write hp hw
    split_ifs at h with hj he
    · exact ⟨read,write,hp,hw,Nat.le_of_not_lt hj,.inl ⟨he,(Option.some.inj h).symm⟩⟩
    · exact ⟨read,write,hp,hw,Nat.le_of_not_lt hj,.inr ⟨he,(Option.some.inj h).symm⟩⟩
  · cases h

/-- `pop` moves its element out behind the test. -/
theorem moveOut_inv {s t : State size T} (h : moveOut s = some t) :
    ∃ read write, s.consumer.pc = .otherLoaded read write ∧
      ((∃ item, s.buffer (size.slot read) = some item ∧ t = { s with
          buffer := Function.update s.buffer (size.slot read) none
          consumer.pc := .moved read write item }) ∨
        (s.buffer (size.slot read) = none ∧
          t = { s with fault := true, consumer.pc := .idle })) := by
  simp only [moveOut] at h
  split at h
  · rename_i read write hp
    split at h
    · rename_i item hb
      exact ⟨read,write,hp,.inl ⟨item,hb,(Option.some.inj h).symm⟩⟩
    · rename_i hb
      exact ⟨read,write,hp,.inr ⟨hb,(Option.some.inj h).symm⟩⟩
  · cases h

/-- `pop` ends with the store of its own index. -/
theorem publishRead_inv {s t : State size T} (h : publishRead s = some t) :
    ∃ read write item, s.consumer.pc = .moved read write item ∧ t = { s with
      readIndex := s.readIndex.store (read + 1)
      consumer := ⟨.idle,s.consumer.seen,s.consumer.calls ++ [⟨read,write,some item⟩]⟩ } := by
  simp only [publishRead] at h
  split at h
  · rename_i read write item hp
    exact ⟨read,write,item,hp,(Option.some.inj h).symm⟩
  · cases h

end PredictionMarket.Queue.Spsc

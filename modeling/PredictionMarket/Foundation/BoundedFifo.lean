import PredictionMarket.Foundation.Transition

/-! The bounded first-in-first-out channel that a queue implementation is meant
to be. Its two laws are fields, so every value of the type obeys them. -/
namespace PredictionMarket.Foundation.BoundedFifo
open Transition

/-- A channel remembers what it accepted and delivered; the rest is waiting. -/
structure Fifo (α : Type) (capacity : Nat) where
  accepted : List α
  delivered : List α
  waiting : List α
  conserved : delivered ++ waiting = accepted
  bounded : waiting.length ≤ capacity

inductive Action (α : Type) where
  | put (item : α)
  | take

namespace Fifo
variable {α : Type} {capacity : Nat}

def empty (α : Type) (capacity : Nat) : Fifo α capacity where
  accepted := []
  delivered := []
  waiting := []
  conserved := rfl
  bounded := Nat.zero_le capacity

def put (q : Fifo α capacity) (item : α) (room : q.waiting.length < capacity) : Fifo α capacity where
  accepted := q.accepted ++ [item]
  delivered := q.delivered
  waiting := q.waiting ++ [item]
  conserved := by rw [← List.append_assoc, q.conserved]
  bounded := by rw [List.length_append]; exact room

def take (q : Fifo α capacity) (item : α) (rest : List α) (front : q.waiting = item :: rest) :
    Fifo α capacity where
  accepted := q.accepted
  delivered := q.delivered ++ [item]
  waiting := rest
  conserved := by rw [List.append_assoc, List.singleton_append, ← front, q.conserved]
  bounded := by have := q.bounded; rw [front, List.length_cons] at this; omega

/-- A full channel refuses a put and an empty one refuses a take. -/
def step (q : Fifo α capacity) : Action α → Option (Fifo α capacity)
  | .put item => if room : q.waiting.length < capacity then some (q.put item room) else none
  | .take => match front : q.waiting with
    | [] => none
    | item :: rest => some (q.take item rest front)

/-- Where there is room an item can be put in. -/
theorem step_put (q : Fifo α capacity) (item : α) (room : q.waiting.length < capacity) :
    q.step (.put item) = some (q.put item room) := dif_pos room

/-- Where there is an item the first one can be taken. -/
theorem step_take (q : Fifo α capacity) (item : α) (rest : List α)
    (front : q.waiting = item :: rest) : q.step .take = some (q.take item rest front) := by
  simp only [step]
  split
  · rename_i h
    rw [front] at h
    cases h
  · rename_i h
    rw [front] at h
    cases h
    rfl

/-- Deliveries come out in acceptance order with none skipped. -/
theorem delivered_prefix (q : Fifo α capacity) : q.delivered <+: q.accepted :=
  ⟨q.waiting,q.conserved⟩

end Fifo
end PredictionMarket.Foundation.BoundedFifo

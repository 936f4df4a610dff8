import PredictionMarket.Foundation.Transition
import Mathlib.Logic.Function.Basic

/-! Lifetimes of objects in raw slots. An object is constructed in a slot where none lives,
and only where it lives can it be moved from or destroyed. Objects are numbered in the
order of their construction, so two objects of one value are still two. -/
namespace PredictionMarket.Foundation.Lifetime
open Transition
variable {ι : Type} [DecidableEq ι]

inductive Access (ι : Type) where
  | construct (slot : ι)
  | moveFrom (slot : ι)
  | destroy (slot : ι)
  deriving DecidableEq

/-- The object that lives in each slot, how many there have been, and those destroyed. -/
structure Lifetimes (ι : Type) where
  slots : ι → Option Nat
  constructed : Nat
  destroyed : List Nat

namespace Lifetimes

def raw : Lifetimes ι := ⟨fun _ => none,0,[]⟩

def begin (s : Lifetimes ι) (slot : ι) : Lifetimes ι :=
  { s with slots := Function.update s.slots slot (some s.constructed), constructed := s.constructed + 1 }

def finish (s : Lifetimes ι) (slot : ι) (object : Nat) : Lifetimes ι :=
  { s with slots := Function.update s.slots slot none, destroyed := s.destroyed ++ [object] }

/-- An access outside a lifetime, or a construction inside one, has no result. -/
def access (s : Lifetimes ι) : Access ι → Option (Lifetimes ι)
  | .construct slot => match s.slots slot with
    | none => some (s.begin slot)
    | some _ => none
  | .moveFrom slot => (s.slots slot).map fun _ => s
  | .destroy slot => (s.slots slot).map (s.finish slot)

def run : Lifetimes ι → List (Access ι) → Option (Lifetimes ι) := exec access

/-- A run goes on where the one before it has ended. -/
theorem run_append {s t : Lifetimes ι} {before : List (Access ι)} (h : s.run before = some t)
    (after : List (Access ι)) : s.run (before ++ after) = t.run after := by
  rw [run, exec_append]
  change (s.run before).bind _ = _
  rw [h]
  rfl

/-- A construction starts the life of the object in its slot. -/
theorem run_construct {s : Lifetimes ι} {slot : ι} (raw : s.slots slot = none) :
    s.run [.construct slot] = some (s.begin slot) := by
  rw [run, exec_single, access, raw]

/-- A destruction ends the life of the object in its slot. -/
theorem run_destroy {s : Lifetimes ι} {slot : ι} {object : Nat} (live : s.slots slot = some object) :
    s.run [.destroy slot] = some (s.finish slot object) := by
  rw [run, exec_single, access, live]
  rfl

/-- Moving from an object leaves it alive, so it can be destroyed next. -/
theorem run_take {s : Lifetimes ι} {slot : ι} {object : Nat} (live : s.slots slot = some object) :
    s.run [.moveFrom slot,.destroy slot] = some (s.finish slot object) := by
  have hmove : s.access (.moveFrom slot) = some s := by
    rw [access, live]
    rfl
  rw [run, exec_cons, hmove]
  exact run_destroy live

end Lifetimes
end PredictionMarket.Foundation.Lifetime

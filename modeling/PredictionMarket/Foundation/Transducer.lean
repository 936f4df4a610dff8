import Mathlib.Data.List.Basic
import Mathlib.Data.List.Forall2

/-! Machines that answer every input. Outputs and final states of runs, and a
rule for two machines in lockstep. -/
namespace PredictionMarket.Foundation.Transducer
variable {σ τ ι ο ρ : Type}

/-- The answers to the inputs, in order. -/
def outputs (step : σ → ι → ο × σ) (s : σ) : List ι → List ο
  | [] => []
  | i :: is => (step s i).1 :: outputs step (step s i).2 is

/-- The state behind the inputs. -/
def final (step : σ → ι → ο × σ) (s : σ) : List ι → σ
  | [] => s
  | i :: is => final step (step s i).2 is

variable {step : σ → ι → ο × σ}

/-- The outputs for two inputs in a row are those of the first and those from where it has led. -/
theorem outputs_append (s : σ) (is js : List ι) :
    outputs step s (is ++ js) = outputs step s is ++ outputs step (final step s is) js := by
  induction is generalizing s with
  | nil => rfl
  | cons i is ih => rw [List.cons_append, outputs, ih, outputs, List.cons_append, final]

/-- There is one output for each input. -/
theorem outputs_length (s : σ) (is : List ι) : (outputs step s is).length = is.length := by
  induction is generalizing s with
  | nil => rfl
  | cons i is ih => rw [outputs, List.length_cons, ih, List.length_cons]

/-- The state behind two inputs in a row is that of the second from where the first has led. -/
theorem final_append (s : σ) (is js : List ι) : final step s (is ++ js) = final step (final step s is) js := by
  induction is generalizing s with
  | nil => rfl
  | cons i is ih => rw [List.cons_append, final, ih, final]

/-- Inputs that lead back to where they began are answered alike every time. -/
theorem outputs_replicate {s : σ} {is : List ι} (h : final step s is = s) (n : Nat) :
    outputs step s (List.replicate n is).flatten = (List.replicate n (outputs step s is)).flatten := by
  induction n with
  | zero => rfl
  | succ n ih =>
    rw [List.replicate_succ, List.flatten_cons, outputs_append, h, ih, List.replicate_succ, List.flatten_cons]

/-- Two machines whose states stay related answer in a related way, input by input. -/
theorem lockstep {other : τ → ι → ρ × τ} {R : σ → τ → Prop} {A : ο → ρ → Prop}
    (match_step : ∀ s t i, R s t → A (step s i).1 (other t i).1 ∧ R (step s i).2 (other t i).2)
    {s : σ} {t : τ} (h : R s t) (is : List ι) :
    List.Forall₂ A (outputs step s is) (outputs other t is) := by
  induction is generalizing s t with
  | nil => exact .nil
  | cons i is ih =>
    obtain ⟨ha,hr⟩ := match_step s t i h
    exact .cons ha (ih hr)

end PredictionMarket.Foundation.Transducer

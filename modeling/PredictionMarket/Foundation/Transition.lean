import Mathlib.Data.List.Basic

/-! Executable labelled transition functions, their finite runs and the
simulations between them. A label resolves every choice a step leaves open, so
a list of labels is one schedule and quantifying over it is quantifying over runs. -/
namespace PredictionMarket.Foundation.Transition
variable {σ τ ℓ κ : Type}

/-- Follow the labels in order; a refused label refuses the whole schedule. -/
def exec (step : σ → ℓ → Option σ) : σ → List ℓ → Option σ
  | s, [] => some s
  | s, l :: ls => (step s l).bind fun t => exec step t ls

@[simp] theorem exec_nil (step : σ → ℓ → Option σ) (s : σ) : exec step s [] = some s := rfl

/-- A run takes its first step and goes on from there. -/
theorem exec_cons (step : σ → ℓ → Option σ) (s : σ) (l : ℓ) (ls : List ℓ) :
    exec step s (l :: ls) = (step s l).bind fun t => exec step t ls := rfl

/-- A run with a first step has a state behind it. -/
theorem exec_cons_some {step : σ → ℓ → Option σ} {s u : σ} {l : ℓ} {ls : List ℓ}
    (h : exec step s (l :: ls) = some u) : ∃ t, step s l = some t ∧ exec step t ls = some u :=
  Option.bind_eq_some_iff.mp h

/-- Two schedules in a row are run one after the other. -/
theorem exec_append (step : σ → ℓ → Option σ) (s : σ) (ls ks : List ℓ) :
    exec step s (ls ++ ks) = (exec step s ls).bind fun t => exec step t ks := by
  induction ls generalizing s with
  | nil => rfl
  | cons l ls ih =>
    rw [List.cons_append, exec_cons, exec_cons, Option.bind_assoc]
    exact congrArg (step s l).bind (funext ih)

/-- A schedule of one step is that step. -/
theorem exec_single (step : σ → ℓ → Option σ) (s : σ) (l : ℓ) : exec step s [l] = step s l := by
  rw [exec_cons]
  exact Option.bind_fun_some _

/-- What holds initially and survives every step holds after every schedule. -/
theorem exec_invariant {step : σ → ℓ → Option σ} {P : σ → Prop}
    (preserves : ∀ s l t, P s → step s l = some t → P t) {s t : σ} {ls : List ℓ}
    (run : exec step s ls = some t) (initial : P s) : P t := by
  induction ls generalizing s with
  | nil => cases run; exact initial
  | cons l ls ih =>
    obtain ⟨u,hu,ht⟩ := exec_cons_some run
    exact ih ht (preserves s l u initial hu)

/-- The same for schedules whose labels have a property. -/
theorem exec_invariant_mem {step : σ → ℓ → Option σ} {P : σ → Prop} {L : ℓ → Prop}
    (preserves : ∀ s l t, L l → P s → step s l = some t → P t) {s t : σ} {ls : List ℓ}
    (run : exec step s ls = some t) (labels : ∀ l ∈ ls, L l) (initial : P s) : P t := by
  induction ls generalizing s with
  | nil => cases run; exact initial
  | cons l ls ih =>
    obtain ⟨u,hu,ht⟩ := exec_cons_some run
    rw [List.forall_mem_cons] at labels
    exact ih ht labels.2 (preserves s l u labels.1 initial hu)

/-- A view on which every step acts like a total function sees a run as a fold. -/
theorem exec_foldl {step : σ → ℓ → Option σ} {view : σ → τ} {act : τ → ℓ → τ}
    (acts : ∀ s l t, step s l = some t → view t = act (view s) l) {s t : σ} {ls : List ℓ}
    (run : exec step s ls = some t) : view t = ls.foldl act (view s) := by
  induction ls generalizing s with
  | nil => cases run; rfl
  | cons l ls ih =>
    obtain ⟨u,hu,ht⟩ := exec_cons_some run
    rw [ih ht, acts s l u hu]
    rfl

/-- Every step of the lower machine is matched by a finite upper schedule. -/
def Simulation (low : σ → ℓ → Option σ) (high : τ → κ → Option τ) (R : σ → τ → Prop) : Prop :=
  ∀ s l s' t, R s t → low s l = some s' → ∃ ks t', exec high t ks = some t' ∧ R s' t'

/-- A simulated step lifts to whole schedules. -/
theorem Simulation.run {low : σ → ℓ → Option σ} {high : τ → κ → Option τ} {R : σ → τ → Prop}
    (sim : Simulation low high R) {s s' : σ} {t : τ} {ls : List ℓ}
    (run : exec low s ls = some s') (related : R s t) :
    ∃ ks t', exec high t ks = some t' ∧ R s' t' := by
  induction ls generalizing s t with
  | nil => cases run; exact ⟨[],t,rfl,related⟩
  | cons l ls ih =>
    obtain ⟨u,hu,hs⟩ := exec_cons_some run
    obtain ⟨ks,v,hv,hr⟩ := sim s l u t related hu
    obtain ⟨js,w,hw,hR⟩ := ih hs hr
    refine ⟨ks ++ js,w,?_,hR⟩
    rw [exec_append, hv]
    exact hw

section Related
variable {σ' τ' : Type} {R : σ → τ → Prop} {S : σ' → τ' → Prop} {x : Option σ} {y : Option τ}

/-- Two steps that are related, or both refused, followed by steps related in turn. -/
theorem rel_bind (h : Option.Rel R x y) {f : σ → Option σ'} {g : τ → Option τ'}
    (next : ∀ a b, x = some a → y = some b → R a b → Option.Rel S (f a) (g b)) :
    Option.Rel S (x.bind f) (y.bind g) := by
  cases h with
  | none => exact .none
  | some hr => exact next _ _ rfl rfl hr

/-- Related results are mapped to related results. -/
theorem rel_map (h : Option.Rel R x y) {f : σ → σ'} {g : τ → τ'} (maps : ∀ a b, R a b → S (f a) (g b)) :
    Option.Rel S (x.map f) (y.map g) := by
  cases h with
  | none => exact .none
  | some hr => exact .some (maps _ _ hr)

end Related
end PredictionMarket.Foundation.Transition

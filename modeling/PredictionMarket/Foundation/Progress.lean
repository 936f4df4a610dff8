import PredictionMarket.Foundation.Transition
import Mathlib.Order.WellFounded
import Mathlib.Data.List.Count

/-! Goals that a transition function can always still reach, and work that one party brings
to its end whatever the others do. Both rest on a rank that a step lowers. -/
namespace PredictionMarket.Foundation.Transition
variable {σ ℓ α : Type} {step : σ → ℓ → Option σ}

/-- Some schedule leads from here to the goal, by allowed steps alone. -/
def CanReach (allowed : ℓ → Prop) (step : σ → ℓ → Option σ) (goal : σ → Prop) (s : σ) : Prop :=
  ∃ ls t, (∀ l ∈ ls, allowed l) ∧ exec step s ls = some t ∧ goal t

/-- If outside the goal some allowed step lowers the rank, then the goal can be reached. -/
theorem canReach_of_rank {allowed : ℓ → Prop} {I goal : σ → Prop} {r : α → α → Prop} (wf : WellFounded r)
    (rank : σ → α)
    (lowers : ∀ s, I s → ¬ goal s → ∃ l t, allowed l ∧ step s l = some t ∧ I t ∧ r (rank t) (rank s)) {s : σ}
    (hs : I s) : CanReach allowed step goal s := by
  generalize ha : rank s = a
  induction a using wf.induction generalizing s with
  | _ a ih =>
    by_cases hg : goal s
    · exact ⟨[],s,nofun,rfl,hg⟩
    · obtain ⟨l,t,hl,ht,hI,hr⟩ := lowers s hs hg
      rw [ha] at hr
      obtain ⟨ls,u,hls,hu,hgoal⟩ := ih (rank t) hr hI rfl
      refine ⟨l :: ls,u,List.forall_mem_cons.mpr ⟨hl,hls⟩,?_,hgoal⟩
      rw [exec_cons, ht, Option.bind_some, hu]

/-- Pairs of numbers, the first one deciding. -/
def Less (a b : Nat × Nat) : Prop := a.1 < b.1 ∨ (a.1 = b.1 ∧ a.2 < b.2)

/-- The order has no endless descent. -/
theorem less_wf : WellFounded Less := by
  have h : Less = Prod.Lex (· < ·) (· < ·) := by
    funext a b
    exact propext Prod.lex_def.symm
  rw [h]
  exact WellFounded.prod_lex wellFounded_lt wellFounded_lt

/-- Work that each step of its own party ends or brings closer to the end, and that no step of
another party sends back, is done or that much closer behind every run. -/
theorem exec_descends (busy ended : σ → Prop) (own : ℓ → Bool) (rank : σ → Nat)
    (others : ∀ s l t, busy s → step s l = some t → own l = false → busy t ∧ rank t ≤ rank s)
    (steps : ∀ s l t, busy s → step s l = some t → own l = true → ended t ∨ (busy t ∧ rank t < rank s))
    (stays : ∀ s l t, ended s → step s l = some t → ended t) {s t : σ} {ls : List ℓ}
    (run : exec step s ls = some t) (hs : busy s) : ended t ∨ (busy t ∧ rank t + ls.countP own ≤ rank s) := by
  induction ls generalizing s with
  | nil =>
    cases run
    exact .inr ⟨hs,le_refl _⟩
  | cons l ls ih =>
    obtain ⟨u,hu,ht⟩ := exec_cons_some run
    cases ho : own l with
    | false =>
      obtain ⟨hb,hle⟩ := others s l u hs hu ho
      rw [List.countP_cons_of_neg (by rw [ho]; exact Bool.false_ne_true)]
      exact (ih ht hb).imp_right fun h => ⟨h.1,h.2.trans hle⟩
    | true =>
      rw [List.countP_cons_of_pos ho]
      rcases steps s l u hs hu ho with hended | ⟨hb,hlt⟩
      · exact .inl (exec_invariant stays ht hended)
      · refine (ih ht hb).imp_right fun h => ⟨h.1,?_⟩
        have := h.2
        omega

end PredictionMarket.Foundation.Transition

import Mathlib.Data.List.Basic
import Mathlib.Logic.Function.Basic

/-! Stores in which the last assignment to a key wins. A sequence of assignments
is summarised, key by key, by its last one. -/
namespace PredictionMarket.Foundation.LastWrite
variable {κ ν : Type} [DecidableEq κ]

/-- Apply assignments in order. -/
def writes (store : κ → ν) (ws : List (κ × ν)) : κ → ν :=
  ws.foldl (fun store w => Function.update store w.1 w.2) store

/-- The value last assigned to a key, if any. -/
def last? : List (κ × ν) → κ → Option ν
  | [], _ => none
  | w :: ws, k => (last? ws k).or (if w.1 = k then some w.2 else none)

@[simp] theorem last?_nil (k : κ) : last? ([] : List (κ × ν)) k = none := rfl

/-- The last assignment is looked for in the rest first. -/
theorem last?_cons (w : κ × ν) (ws : List (κ × ν)) (k : κ) :
    last? (w :: ws) k = (last? ws k).or (if w.1 = k then some w.2 else none) := rfl

/-- Later assignments hide earlier ones. -/
theorem last?_append (us ws : List (κ × ν)) (k : κ) :
    last? (us ++ ws) k = (last? ws k).or (last? us k) := by
  induction us with
  | nil => simp
  | cons u us ih => rw [List.cons_append, last?_cons, ih, last?_cons, Option.or_assoc]

/-- The value last assigned is that of the last assignment among those to the key. -/
theorem last?_eq_getLast? (ws : List (κ × ν)) (k : κ) :
    last? ws k = ((ws.filter fun w => w.1 = k).getLast?).map Prod.snd := by
  induction ws with
  | nil => rfl
  | cons w ws ih =>
    rw [last?_cons, ih, List.filter_cons]
    by_cases hk : w.1 = k
    · simp only [hk, if_true, decide_true, List.getLast?_cons]
      cases (ws.filter fun w => w.1 = k).getLast? <;> rfl
    · simp [hk]

/-- No assignment is found exactly if there is none. -/
theorem last?_eq_none_iff (ws : List (κ × ν)) (k : κ) : last? ws k = none ↔ ∀ w ∈ ws, w.1 ≠ k := by
  induction ws with
  | nil => simp
  | cons w ws ih =>
    rw [last?_cons, Option.or_eq_none_iff, ih, List.forall_mem_cons, and_comm]
    simp

section Lossy
variable (ws : List ((κ × ν) × Bool)) (k : κ)

/-- Every lost assignment to the key is followed by a kept one; the flag says which are kept. -/
def Repaired : Prop := ∀ before w after, ws = before ++ (w,false) :: after → w.1 = k →
  ∃ v, (v,true) ∈ after ∧ v.1 = k

variable {ws k}

omit [DecidableEq κ] in
/-- Repairs stand behind what they repair. -/
theorem Repaired.tail {w : (κ × ν) × Bool} (h : Repaired (w :: ws) k) : Repaired ws k := by
  intro before v after he hv
  exact h (w :: before) v after (congrArg (w :: ·) he) hv

/-- Losses that are repaired do not show. -/
theorem last?_kept (h : Repaired ws k) :
    last? ((ws.filter Prod.snd).map Prod.fst) k = last? (ws.map Prod.fst) k := by
  induction ws with
  | nil => rfl
  | cons w ws ih =>
    have ht := ih h.tail
    obtain ⟨w,_ | _⟩ := w
    · rw [List.filter_cons_of_neg Bool.false_ne_true, List.map_cons, last?_cons, ht]
      by_cases hk : w.1 = k
      · obtain ⟨v,hv,hvk⟩ := h [] w ws rfl hk
        have hsome : last? (ws.map Prod.fst) k ≠ none := fun hn =>
          (last?_eq_none_iff _ k).mp hn v (List.mem_map.mpr ⟨_,hv,rfl⟩) hvk
        rw [Option.or_of_isSome (Option.isSome_iff_ne_none.mpr hsome)]
      · rw [if_neg hk, Option.or_none]
    · rw [List.filter_cons_of_pos rfl, List.map_cons, List.map_cons, last?_cons, last?_cons, ht]

end Lossy

section Coarse
variable {κ' : Type} [DecidableEq κ'] (g : κ → κ')

/-- The same assignments to the images of their keys. -/
def coarse (ws : List (κ × ν)) : List (κ' × ν) := ws.map fun w => (g w.1, w.2)

/-- Where no other key of the sequence has the same image, nothing is confused. -/
theorem last?_coarse {ws : List (κ × ν)} {k : κ} (alone : ∀ w ∈ ws, g w.1 = g k → w.1 = k) :
    last? (coarse g ws) (g k) = last? ws k := by
  induction ws with
  | nil => rfl
  | cons w ws ih =>
    have hsame : g w.1 = g k ↔ w.1 = k := ⟨alone w List.mem_cons_self,fun h => h ▸ rfl⟩
    rw [coarse, List.map_cons, last?_cons, last?_cons, ← coarse,
      ih fun w hw => alone w (List.mem_cons_of_mem _ hw)]
    simp only [hsame]

/-- What is seen at an image is the value that some key with this image has. -/
theorem exists_of_last?_coarse {ws : List (κ × ν)} {k' : κ'} {v : ν}
    (h : last? (coarse g ws) k' = some v) : ∃ k, g k = k' ∧ last? ws k = some v := by
  induction ws with
  | nil => cases h
  | cons w ws ih =>
    rw [coarse, List.map_cons, last?_cons, ← coarse] at h
    cases hrest : last? (coarse g ws) k' with
    | some v' =>
      rw [hrest] at h
      obtain ⟨k,hk,hlast⟩ := ih (hrest.trans h)
      exact ⟨k,hk,by rw [last?_cons, hlast]; rfl⟩
    | none =>
      rw [hrest, Option.none_or] at h
      by_cases hk : g w.1 = k'
      · rw [if_pos hk] at h
        have hnone : last? ws w.1 = none := by
          rw [last?_eq_none_iff] at hrest ⊢
          intro u hu he
          exact hrest _ (List.mem_map_of_mem hu) (by rw [he, hk])
        exact ⟨w.1,hk,by rw [last?_cons, hnone, if_pos rfl]; exact h⟩
      · rw [if_neg hk] at h
        cases h

end Coarse

@[simp] theorem writes_nil (store : κ → ν) : writes store [] = store := rfl

/-- A write is a change of one place before the others. -/
theorem writes_cons (store : κ → ν) (w : κ × ν) (ws : List (κ × ν)) :
    writes store (w :: ws) = writes (Function.update store w.1 w.2) ws := rfl

/-- Writes one after the other are composed. -/
theorem writes_append (store : κ → ν) (us ws : List (κ × ν)) :
    writes store (us ++ ws) = writes (writes store us) ws := List.foldl_append

/-- A store after assignments holds the last value of each assigned key. -/
theorem writes_apply (store : κ → ν) (ws : List (κ × ν)) (k : κ) :
    writes store ws k = (last? ws k).getD (store k) := by
  induction ws generalizing store with
  | nil => rfl
  | cons w ws ih =>
    rw [writes_cons, ih, last?_cons]
    cases last? ws k with
    | some v => rfl
    | none =>
      by_cases hk : w.1 = k
      · simp [hk]
      · simp [hk, Function.update_of_ne (Ne.symm hk)]

/-- Repeating a sequence of assignments changes nothing. -/
theorem writes_again (store : κ → ν) (ws : List (κ × ν)) : writes (writes store ws) ws = writes store ws := by
  funext k
  rw [writes_apply, writes_apply]
  cases last? ws k <;> rfl

/-- Assignments leave two stores equal exactly where both agreed or were overwritten. -/
theorem writes_eq_iff (store other : κ → ν) (ws : List (κ × ν)) :
    writes store ws = writes other ws ↔ ∀ k, last? ws k = none → store k = other k := by
  constructor
  · intro h k hk
    have := congrFun h k
    rwa [writes_apply, writes_apply, hk] at this
  · intro h
    funext k
    rw [writes_apply, writes_apply]
    cases hk : last? ws k with
    | some v => rfl
    | none => exact h k hk

end PredictionMarket.Foundation.LastWrite

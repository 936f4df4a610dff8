import PredictionMarket.Foundation.LastWrite
import Mathlib.Data.List.Induction

/-! Assignments mixed with hints. A hint writes one provisional value, whatever the key
holds; it is harmless where nothing else was known or where it is overwritten in time. -/
namespace PredictionMarket.Foundation.Provisional
open LastWrite
variable {κ ν : Type} [DecidableEq κ]

inductive Event (κ ν : Type) where
  | assign (k : κ) (v : ν)
  | hint (k : κ)

def Event.write (provisional : ν) : Event κ ν → κ × ν
  | assign k v => (k,v)
  | hint k => (k,provisional)

def Event.assigned? : Event κ ν → Option (κ × ν)
  | assign k v => some (k,v)
  | hint _ => none

/-- The store after the events, hints included. -/
def run (provisional : ν) (store : κ → ν) (events : List (Event κ ν)) : κ → ν :=
  writes store (events.map (Event.write provisional))

/-- The value last assigned to a key, hints not counted. -/
def lastAssigned (events : List (Event κ ν)) : κ → Option ν := last? (events.filterMap Event.assigned?)

variable {provisional : ν} {store : κ → ν}

private theorem run_snoc (events : List (Event κ ν)) (e : Event κ ν) :
    run provisional store (events ++ [e]) =
      Function.update (run provisional store events) (e.write provisional).1 (e.write provisional).2 := by
  rw [run, List.map_append, writes_append]
  rfl

private theorem lastAssigned_append (xs ys : List (Event κ ν)) (k : κ) :
    lastAssigned (xs ++ ys) k = (lastAssigned ys k).or (lastAssigned xs k) := by
  rw [lastAssigned, List.filterMap_append, last?_append]
  rfl

private theorem lastAssigned_snoc_hint (xs : List (Event κ ν)) (k k' : κ) :
    lastAssigned (xs ++ [.hint k']) k = lastAssigned xs k := by
  rw [lastAssigned_append]
  rfl

/-- Where only hints touch a key, it keeps the provisional value. -/
theorem run_keeps {before after : List (Event κ ν)} {k : κ}
    (h : run provisional store before k = provisional) (hk : lastAssigned after k = none) :
    run provisional store (before ++ after) k = provisional := by
  induction after using List.reverseRecOn with
  | nil => simpa using h
  | append_singleton after e ih =>
    rw [lastAssigned_append, Option.or_eq_none_iff] at hk
    rw [← List.append_assoc, run_snoc]
    by_cases he : (e.write provisional).1 = k
    · cases e with
      | hint k' => rw [← he]; exact Function.update_self _ _ _
      | assign k' v =>
        obtain rfl : k' = k := he
        simp [lastAssigned, Event.assigned?, last?_cons] at hk
    · rw [Function.update_of_ne (Ne.symm he)]
      exact ih hk.2

variable (provisional store) in
/-- A key holds what was last assigned, or else the provisional value, from a first hint
after that assignment. -/
theorem provenance (events : List (Event κ ν)) (k : κ) :
    run provisional store events k = (lastAssigned events k).getD (store k) ∨
    ∃ before after, events = before ++ .hint k :: after ∧ lastAssigned after k = none ∧
      run provisional store before k = (lastAssigned before k).getD (store k) ∧
      run provisional store events k = provisional := by
  induction events using List.reverseRecOn with
  | nil => exact .inl rfl
  | append_singleton events e ih =>
    rw [run_snoc]
    cases e with
    | assign k' v =>
      rw [lastAssigned_append]
      by_cases hk : k' = k
      · subst hk
        exact .inl (by simp [Event.write, lastAssigned, Event.assigned?, last?_cons])
      · have hn : lastAssigned [Event.assign k' v] k = none := by
          simp [lastAssigned, Event.assigned?, last?_cons, hk]
        rw [hn, Option.none_or, Event.write, Function.update_of_ne (Ne.symm hk)]
        rcases ih with ih | ⟨before,after,rfl,ha,hb,hv⟩
        · exact .inl ih
        · refine .inr ⟨before,after ++ [.assign k' v],by simp,?_,hb,hv⟩
          rw [lastAssigned_append, hn, ha]
          rfl
    | hint k' =>
      rw [lastAssigned_snoc_hint, Event.write]
      by_cases hk : k' = k
      · subst hk
        rw [Function.update_self]
        rcases ih with ih | ⟨before,after,rfl,ha,hb,_⟩
        · exact .inr ⟨events,[],rfl,rfl,ih,rfl⟩
        · refine .inr ⟨before,after ++ [.hint k'],by simp,?_,hb,rfl⟩
          rwa [lastAssigned_snoc_hint]
      · rw [Function.update_of_ne (Ne.symm hk)]
        rcases ih with ih | ⟨before,after,rfl,ha,hb,hv⟩
        · exact .inl ih
        · refine .inr ⟨before,after ++ [.hint k'],by simp,?_,hb,hv⟩
          rwa [lastAssigned_snoc_hint]

variable (provisional store) (vacant : ν)

/-- Hints give way: assigned keys end with the value last assigned, and a hint changes a
key only where it is vacant. -/
structure Undisturbed (events : List (Event κ ν)) : Prop where
  final : ∀ k v, lastAssigned events k = some v → run provisional store events k = v
  fills : ∀ before k after, events = before ++ .hint k :: after →
    run provisional store before k ≠ vacant →
      run provisional store (before ++ [.hint k]) k = run provisional store before k

/-- A hint finds its own value as the last one assigned, or a vacant one that is assigned
again later; without an assignment before it, it finds the store vacant or in agreement. -/
def Harmless (events : List (Event κ ν)) : Prop :=
  ∀ before k after, events = before ++ .hint k :: after →
    (∀ v, lastAssigned before k = some v →
      v = provisional ∨ v = vacant ∧ (lastAssigned after k).isSome) ∧
    (lastAssigned before k = none → store k = vacant ∨ store k = provisional)

variable {provisional store vacant} {events : List (Event κ ν)}

/-- What a hint finds, by provenance: a later hint finds what an earlier one wrote. -/
theorem Undisturbed.found (h : Undisturbed provisional store vacant events)
    {before after : List (Event κ ν)} {k : κ} (he : events = before ++ .hint k :: after) :
    (lastAssigned before k).getD (store k) = vacant ∨
      (lastAssigned before k).getD (store k) = provisional := by
  have agree : ∀ before after, events = before ++ .hint k :: after →
      run provisional store before k = vacant ∨ run provisional store before k = provisional := by
    intro before after he
    apply or_iff_not_imp_left.mpr
    intro hv
    have hf := h.fills before k after he hv
    rw [run_snoc] at hf
    exact hf.symm.trans (Function.update_self ..)
  rcases provenance provisional store before k with
    hb | ⟨first,between,rfl,hn,hb,_⟩
  · rw [← hb]
    exact agree before after he
  · have hl : lastAssigned (first ++ .hint k :: between) k = lastAssigned first k := by
      rw [List.append_cons, lastAssigned_append, hn, lastAssigned_snoc_hint]
      rfl
    rw [hl, ← hb]
    exact agree first _ (by rw [he, List.append_assoc, List.cons_append])

private theorem Undisturbed.harmless (hne : vacant ≠ provisional)
    (h : Undisturbed provisional store vacant events) : Harmless provisional store vacant events := by
  intro before k after he
  have hfound := h.found he
  constructor
  · intro v hl
    rw [hl, Option.getD_some] at hfound
    rcases hfound with rfl | rfl
    · refine .inr ⟨rfl,?_⟩
      by_contra hn
      rw [Bool.not_eq_true, Option.isSome_eq_false_iff, Option.isNone_iff_eq_none] at hn
      have hlast : lastAssigned events k = some v := by
        rw [he, List.append_cons, lastAssigned_append, hn, lastAssigned_snoc_hint, hl]
        rfl
      have hwrites : run provisional store (before ++ [.hint k]) k = provisional := by
        rw [run_snoc]
        exact Function.update_self ..
      have hkept := run_keeps hwrites hn
      rw [← List.append_cons, ← he, h.final k v hlast] at hkept
      exact hne hkept
    · exact .inl rfl
  · intro hl
    rwa [hl] at hfound

private theorem Harmless.undisturbed (h : Harmless provisional store vacant events) :
    Undisturbed provisional store vacant events := by
  constructor
  · intro k v hv
    rcases provenance provisional store events k with
      he | ⟨before,after,he,hn,_,hp⟩
    · rw [he, hv]
      rfl
    · have hl : lastAssigned before k = some v := by
        rwa [he, List.append_cons, lastAssigned_append, hn, lastAssigned_snoc_hint] at hv
      rcases (h before k after he).1 v hl with rfl | ⟨_,hs⟩
      · exact hp
      · rw [hn] at hs
        cases hs
  · intro before k after he hv
    rw [run_snoc]
    refine (Function.update_self ..).trans ?_
    have hh := h before k after he
    rcases provenance provisional store before k with hb | ⟨_,_,_,_,_,hp⟩
    · rw [hb] at hv ⊢
      cases hl : lastAssigned before k with
      | none =>
        rw [hl] at hv
        exact ((hh.2 hl).resolve_left hv).symm
      | some v =>
        rw [hl] at hv
        rcases hh.1 v hl with rfl | ⟨rfl,_⟩
        · rfl
        · exact absurd rfl hv
    · exact hp.symm

/-- Hints give way exactly when each of them is harmless where it stands. -/
theorem undisturbed_iff (hne : vacant ≠ provisional) :
    Undisturbed provisional store vacant events ↔ Harmless provisional store vacant events :=
  ⟨Undisturbed.harmless hne,Harmless.undisturbed⟩

end PredictionMarket.Foundation.Provisional

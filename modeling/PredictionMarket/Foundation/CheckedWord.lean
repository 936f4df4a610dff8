import Mathlib.Data.UInt

/-! Unsigned machine words whose operations must not wrap: a checked operation has a
result exactly if the exact number fits, and then it is the one that the machine computes. -/
namespace PredictionMarket.Foundation.CheckedWord

def word32? (n : Nat) : Option UInt32 := if n < UInt32.size then some (UInt32.ofNat n) else none

def word64? (n : Nat) : Option UInt64 := if n < UInt64.size then some (UInt64.ofNat n) else none

def add32? (a b : UInt32) : Option UInt32 := word32? (a.toNat + b.toNat)

def mul32? (a b : UInt32) : Option UInt32 := word32? (a.toNat * b.toNat)

def add64? (a b : UInt64) : Option UInt64 := word64? (a.toNat + b.toNat)

def mul64? (a b : UInt64) : Option UInt64 := word64? (a.toNat * b.toNat)

/-- Narrowing to 32 bits without losing any. -/
def narrow? (a : UInt64) : Option UInt32 := word32? a.toNat

/-- Where the words have room the checked sum is the sum. -/
theorem add32?_eq {a b : UInt32} (h : a.toNat + b.toNat < UInt32.size) : add32? a b = some (a + b) := by
  rw [add32?, word32?, if_pos h, UInt32.ofNat_add, UInt32.ofNat_toNat, UInt32.ofNat_toNat]

/-- Where the words have room the checked product is the product. -/
theorem mul32?_eq {a b : UInt32} (h : a.toNat * b.toNat < UInt32.size) : mul32? a b = some (a * b) := by
  rw [mul32?, word32?, if_pos h, UInt32.ofNat_mul, UInt32.ofNat_toNat, UInt32.ofNat_toNat]

/-- Where the words have room the checked sum is the sum. -/
theorem add64?_eq {a b : UInt64} (h : a.toNat + b.toNat < UInt64.size) : add64? a b = some (a + b) := by
  rw [add64?, word64?, if_pos h, UInt64.ofNat_add, UInt64.ofNat_toNat, UInt64.ofNat_toNat]

/-- Where the words have room the checked product is the product. -/
theorem mul64?_eq {a b : UInt64} (h : a.toNat * b.toNat < UInt64.size) : mul64? a b = some (a * b) := by
  rw [mul64?, word64?, if_pos h, UInt64.ofNat_mul, UInt64.ofNat_toNat, UInt64.ofNat_toNat]

/-- Where the value fits the narrower word it is kept. -/
theorem narrow?_eq {a : UInt64} (h : a.toNat < UInt32.size) : narrow? a = some a.toUInt32 := if_pos h

/-- A sum that fits is not reduced. -/
theorem toNat_add32 {a b : UInt32} (h : a.toNat + b.toNat < UInt32.size) :
    (a + b).toNat = a.toNat + b.toNat := by
  rw [UInt32.toNat_add]
  exact Nat.mod_eq_of_lt h

/-- A product that fits is not reduced. -/
theorem toNat_mul32 {a b : UInt32} (h : a.toNat * b.toNat < UInt32.size) :
    (a * b).toNat = a.toNat * b.toNat := by
  rw [UInt32.toNat_mul]
  exact Nat.mod_eq_of_lt h

/-- A sum that fits is not reduced. -/
theorem toNat_add64 {a b : UInt64} (h : a.toNat + b.toNat < UInt64.size) :
    (a + b).toNat = a.toNat + b.toNat := by
  rw [UInt64.toNat_add]
  exact Nat.mod_eq_of_lt h

/-- A product that fits is not reduced. -/
theorem toNat_mul64 {a b : UInt64} (h : a.toNat * b.toNat < UInt64.size) :
    (a * b).toNat = a.toNat * b.toNat := by
  rw [UInt64.toNat_mul]
  exact Nat.mod_eq_of_lt h

/-- A loop never wraps if its body does not while an invariant on the state and the
number of rounds holds, and the body restores that invariant. -/
theorem foldlM_checked {σ α : Type} {step? : σ → α → Option σ} {step : σ → α → σ}
    {Inv : Nat → σ → Prop} {limit : Nat} (xs : List α)
    (body : ∀ k s, ∀ x ∈ xs, k < limit → Inv k s → step? s x = some (step s x) ∧ Inv (k + 1) (step s x))
    {k : Nat} {s : σ} (hk : k + xs.length ≤ limit) (hs : Inv k s) :
    xs.foldlM step? s = some (xs.foldl step s) ∧ Inv (k + xs.length) (xs.foldl step s) := by
  induction xs generalizing k s with
  | nil => exact ⟨rfl,hs⟩
  | cons x xs ih =>
    rw [List.length_cons] at hk
    obtain ⟨hstep,hnext⟩ := body k s x List.mem_cons_self (by omega) hs
    have htail := ih (fun k s y hy => body k s y (List.mem_cons_of_mem x hy)) (by omega) hnext
    rw [List.foldlM_cons, hstep, List.foldl_cons, List.length_cons, Nat.add_comm xs.length, ← Nat.add_assoc]
    exact htail

end PredictionMarket.Foundation.CheckedWord

import Mathlib.Data.BitVec
import Mathlib.Data.Fin.Basic
import Mathlib.Logic.Function.Basic
import Mathlib.Tactic.Ring

/-! Ring storage addressed by free-running counters. Positions grow without
bound; a machine counter is a position modulo its word, and a power-of-two ring
keeps the cell of a position readable from the wrapped counter alone. -/
namespace PredictionMarket.Foundation.Ring
variable {α : Type} {n : Nat}

/-- The cell of an unbounded position. -/
def cell (n : Nat) [NeZero n] (position : Nat) : Fin n := Fin.ofNat n position

private theorem cell_val (n : Nat) [NeZero n] (position : Nat) : (cell n position).val = position % n := rfl

/-- Positions less than one lap apart never share a cell. -/
theorem cell_injective [NeZero n] {start i j : Nat} (hi : i < n) (hj : j < n)
    (h : cell n (start + i) = cell n (start + j)) : i = j := by
  have hm : (start + i) % n = (start + j) % n := by simpa only [cell_val] using congrArg Fin.val h
  have hd : i % n = j % n := Nat.ModEq.add_left_cancel' start hm
  rwa [Nat.mod_eq_of_lt hi, Nat.mod_eq_of_lt hj] at hd

/-- The slots hold exactly these items from position `start` on, and nothing else. -/
structure Holds [NeZero n] (slots : Fin n → Option α) (start : Nat) (items : List α) : Prop where
  fits : items.length ≤ n
  live : ∀ i (h : i < items.length), slots (cell n (start + i)) = some items[i]
  raw : ∀ c, (∀ i < items.length, cell n (start + i) ≠ c) → slots c = none

namespace Holds
variable [NeZero n] {slots : Fin n → Option α} {start : Nat} {items : List α}

/-- An empty ring holds nothing. -/
theorem empty (start : Nat) : Holds (n := n) (fun _ => (none : Option α)) start [] :=
  ⟨Nat.zero_le n,fun _ h => absurd h (Nat.not_lt_zero _),fun _ _ => rfl⟩

/-- With room left, the next cell is raw storage. -/
theorem next_raw (h : Holds slots start items) (room : items.length < n) :
    slots (cell n (start + items.length)) = none := by
  apply h.raw
  intro i hi he
  exact absurd (cell_injective (hi.trans room) room he) (Nat.ne_of_lt hi)

/-- The first item is in the slot of the first index. -/
theorem head {item : α} (h : Holds slots start (item :: items)) :
    slots (cell n start) = some item := h.live 0 (Nat.succ_pos _)

/-- An item put into the next free slot is the last one. -/
theorem snoc (h : Holds slots start items) (room : items.length < n) (item : α) :
    Holds (Function.update slots (cell n (start + items.length)) (some item)) start
      (items ++ [item]) where
  fits := by rw [List.length_append]; exact room
  live i hi := by
    rw [List.length_append, List.length_singleton] at hi
    by_cases old : i < items.length
    · have hne : cell n (start + i) ≠ cell n (start + items.length) := by
        intro he
        exact absurd (cell_injective (old.trans room) room he) (Nat.ne_of_lt old)
      rw [Function.update_of_ne hne, h.live i old, List.getElem_append_left old]
    · obtain rfl : i = items.length := by omega
      rw [Function.update_self]
      simp
  raw c hc := by
    have hne : c ≠ cell n (start + items.length) := by
      intro he
      exact hc items.length (by simp) he.symm
    rw [Function.update_of_ne hne]
    apply h.raw
    intro i hi
    exact hc i (by rw [List.length_append]; omega)

/-- Behind the slot of the first item the others are left. -/
theorem tail {item : α} (h : Holds slots start (item :: items)) :
    Holds (Function.update slots (cell n start) none) (start + 1) items := by
  have hfit : items.length + 1 ≤ n := by simpa using h.fits
  refine ⟨by omega,?_,?_⟩
  · intro i hi
    have hne : cell n (start + 1 + i) ≠ cell n start := by
      intro he
      rw [show start + 1 + i = start + (i + 1) by omega] at he
      exact absurd (cell_injective (j := 0) (by omega) (by omega) he) (Nat.succ_ne_zero i)
    rw [Function.update_of_ne hne]
    have hl := h.live (i + 1) (by simpa using hi)
    rwa [show start + 1 + i = start + (i + 1) by omega]
  · intro c hc
    by_cases hs : c = cell n start
    · rw [hs, Function.update_self]
    · rw [Function.update_of_ne hs]
      apply h.raw
      intro i hi
      cases i with
      | zero => exact Ne.symm hs
      | succ i =>
        have := hc i (by simpa using hi)
        rwa [show start + (i + 1) = start + 1 + i by omega]

/-- The live cells are those of the window. -/
theorem live_iff (h : Holds slots start items) (c : Fin n) (item : α) :
    slots c = some item ↔ ∃ i < items.length, cell n (start + i) = c ∧ items[i]? = some item := by
  constructor
  · intro hc
    by_contra hnot
    have hraw : slots c = none := by
      apply h.raw
      rintro i hi rfl
      rw [h.live i hi] at hc
      exact hnot ⟨i,hi,rfl,(List.getElem?_eq_getElem hi).trans hc⟩
    rw [hraw] at hc
    cases hc
  · rintro ⟨i,hi,rfl,hitem⟩
    rw [h.live i hi, ← hitem, List.getElem?_eq_getElem hi]

/-- Only the residue of the starting position matters. -/
theorem congr_start {start' : Nat} (h : Holds slots start items) (same : start % n = start' % n) :
    Holds slots start' items := by
  have hc (i : Nat) : cell n (start' + i) = cell n (start + i) := by
    apply Fin.ext
    rw [cell_val, cell_val, Nat.add_mod start', ← same, ← Nat.add_mod]
  refine ⟨h.fits,?_,?_⟩
  · intro i hi
    rw [hc]
    exact h.live i hi
  · intro c hr
    apply h.raw
    intro i hi
    rw [← hc]
    exact hr i hi

/-- The slots determine the items: there is only one reading of a ring. -/
theorem unique {others : List α} (h : Holds slots start items) (h' : Holds slots start others)
    (same : items.length = others.length) : items = others := by
  apply List.ext_getElem same
  intro i hi hi'
  exact Option.some.inj ((h.live i hi).symm.trans (h'.live i hi'))

end Holds

/-! Wrapped counters. -/
section Counter
variable {w : Nat}

/-- A counter that started at `base` and was incremented `i` times. -/
def counter (base : BitVec w) (i : Nat) : BitVec w := base + BitVec.ofNat w i

@[simp] theorem counter_zero (base : BitVec w) : counter base 0 = base := by simp [counter]

/-- The next counter is the counter plus one, also where it wraps. -/
theorem counter_succ (base : BitVec w) (i : Nat) : counter base i + 1 = counter base (i + 1) := by
  rw [counter, counter, BitVec.add_assoc, BitVec.ofNat_add]
  rfl

private theorem counter_toNat (base : BitVec w) (i : Nat) :
    (counter base i).toNat = (base.toNat + i) % 2^w := by
  simp [counter, BitVec.toNat_add]

/-- Distances below one word survive the wrap. -/
theorem counter_sub (base : BitVec w) {i j : Nat} (hij : i ≤ j) (hlt : j - i < 2^w) :
    (counter base j - counter base i).toNat = j - i := by
  have he : counter base j - counter base i = BitVec.ofNat w (j - i) := by
    obtain ⟨d,rfl⟩ := Nat.exists_eq_add_of_le hij
    rw [Nat.add_sub_cancel_left, counter, counter, BitVec.ofNat_add]
    ring
  rw [he, BitVec.toNat_ofNat, Nat.mod_eq_of_lt hlt]

/-- Counters less than a whole range apart differ. -/
theorem counter_eq_iff (base : BitVec w) {i j : Nat} (hij : i ≤ j) (hlt : j - i < 2^w) :
    counter base i = counter base j ↔ i = j := by
  constructor
  · intro h
    have hd := counter_sub base hij hlt
    rw [h, BitVec.sub_self, BitVec.toNat_zero] at hd
    omega
  · intro h
    rw [h]

/-- Masking with a power of two less one picks the cell of the true position. -/
theorem counter_mask (base : BitVec w) (i k : Nat) (hk : k < w) :
    (counter base i &&& (BitVec.ofNat w (2^k) - 1)).toNat = (base.toNat + i) % 2^k := by
  have hlt : 2^k < 2^w := Nat.pow_lt_pow_right (by omega) hk
  have hone : (1 : BitVec w).toNat = 1 := BitVec.toNat_one (Nat.zero_lt_of_lt hk)
  have hm : (BitVec.ofNat w (2^k) - 1).toNat = 2^k - 1 := by
    rw [BitVec.toNat_sub_of_le, hone, BitVec.toNat_ofNat, Nat.mod_eq_of_lt hlt]
    rw [BitVec.le_def, hone, BitVec.toNat_ofNat, Nat.mod_eq_of_lt hlt]
    exact Nat.one_le_two_pow
  rw [BitVec.toNat_and, hm, Nat.and_two_pow_sub_one_eq_mod, counter_toNat,
    Nat.mod_mod_of_dvd _ (Nat.pow_dvd_pow 2 hk.le)]

end Counter
end PredictionMarket.Foundation.Ring

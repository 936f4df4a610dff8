import Mathlib.Data.List.Basic

/-! Journals that are written line by line through a buffer. What reaches the disk is a
beginning of them; how much of it can be relied on is the number of lines that are there whole. What
is written is encoded, so that a symbol of a line may be cut on the disk. -/
namespace PredictionMarket.Foundation.Journal
variable {α β : Type} {lines : List (List α)} {disk : List α} {k : Nat}

/-- The first `k` lines are on the disk. -/
structure Durable (lines : List (List α)) (disk : List α) (k : Nat) : Prop where
  le : k ≤ lines.length
  onDisk : (lines.take k).flatten <+: disk

namespace Durable

/-- Nothing at all is durable to begin with. -/
theorem none (lines : List (List α)) (disk : List α) : Durable lines disk 0 :=
  ⟨Nat.zero_le _,List.nil_prefix⟩

/-- More lines make none of the earlier ones less durable, and no more does a longer file. -/
theorem mono (h : Durable lines disk k) (more : List (List α)) {disk' : List α} (longer : disk <+: disk') :
    Durable (lines ++ more) disk' k where
  le := by
    rw [List.length_append]
    exact Nat.le_add_right_of_le h.le
  onDisk := by
    rw [List.take_append_of_le_length h.le]
    exact h.onDisk.trans longer

/-- Behind a flush every line is durable. -/
theorem flushed (h : lines.flatten <+: disk) : Durable lines disk lines.length :=
  ⟨Nat.le_refl _,by rwa [List.take_length]⟩

end Durable

/-- What a crash leaves: a beginning of the journal in which at most the last `n` lines are
missing or cut. -/
structure Survives (lines : List (List α)) (disk : List α) (n : Nat) : Prop where
  beginning : disk <+: lines.flatten
  kept : ∃ k, Durable lines disk k ∧ lines.length ≤ k + n

/-- What the disk may hold of a file: what has been flushed, and no more than what has been
written. -/
structure OnDisk (encode : α → List β) (flushed content : List α) (bytes : List β) : Prop where
  flushed : flushed.flatMap encode <+: bytes
  written : bytes <+: content.flatMap encode

private theorem flatMap_beginning (encode : α → List β) {short long : List α} (h : short <+: long) :
    short.flatMap encode <+: long.flatMap encode := by
  obtain ⟨rest,rfl⟩ := h
  rw [List.flatMap_append]
  exact List.prefix_append _ _

private theorem flatten_encoded (encode : α → List β) (lines : List (List α)) :
    (lines.map (List.flatMap encode)).flatten = lines.flatten.flatMap encode := by
  induction lines with
  | nil => rfl
  | cons line lines ih => rw [List.map_cons, List.flatten_cons, ih, List.flatten_cons, List.flatMap_append]

/-- A journal survives by the lines that have been flushed whole, wherever the encoding is cut. -/
theorem OnDisk.survives {encode : α → List β} {flushed content : List α} {bytes : List β} {n : Nat}
    (h : OnDisk encode flushed content bytes) (beginning : content <+: lines.flatten)
    (durable : Durable lines flushed k) (few : lines.length ≤ k + n) :
    Survives (lines.map (List.flatMap encode)) bytes n where
  beginning := by
    rw [flatten_encoded]
    exact h.written.trans (flatMap_beginning encode beginning)
  kept := by
    refine ⟨k,⟨by rw [List.length_map]; exact durable.le,?_⟩,by rwa [List.length_map]⟩
    rw [← List.map_take, flatten_encoded]
    exact (flatMap_beginning encode durable.onDisk).trans h.flushed

end PredictionMarket.Foundation.Journal

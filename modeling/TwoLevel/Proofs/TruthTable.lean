import Mathlib
import TwoLevel.TruthTable
import TwoLevel.Proofs.Assignment
import TwoLevel.Proofs.Lists

/-!
# Ones and zeros of a truth table

This file proves that the rows with output true and those with output false divide the rows of a
table between them.

## Main definitions

- `IsPartition` — two lists that name every row once

## Main statements

- `TruthTable.mem_indicesOf`, `TruthTable.indicesOf_ofFun` — which rows are listed
- `TruthTable.isPartition` — the ones and zeros of a table are a partition of its rows
-/

namespace TwoLevel

/-- Two lists that together name every row over some letters exactly once. -/
def IsPartition (letters : Letters) (minterms maxterms : List Nat) : Prop :=
  (minterms ++ maxterms).Perm (List.range (2 ^ letters.size))

instance (letters : Letters) (minterms maxterms : List Nat) :
    Decidable (IsPartition letters minterms maxterms) :=
  inferInstanceAs (Decidable (List.Perm _ _))

namespace IsPartition

variable {letters : Letters} {minterms maxterms : List Nat}

theorem symm (h : IsPartition letters minterms maxterms) :
    IsPartition letters maxterms minterms :=
  List.perm_append_comm.trans h

theorem nodup (h : IsPartition letters minterms maxterms) : minterms.Nodup :=
  (List.nodup_append.1 (h.nodup_iff.2 List.nodup_range)).1

theorem lt_of_mem (h : IsPartition letters minterms maxterms) {row : Nat}
    (hrow : row ∈ minterms) : row < 2 ^ letters.size :=
  List.mem_range.1 (h.mem_iff.1 (List.mem_append_left _ hrow))

end IsPartition

namespace TruthTable

variable {t : TruthTable} {row : Nat}

/-- A row is listed under a value when this is its output. -/
theorem mem_indicesOf {value : Bool} : row ∈ t.indicesOf value ↔ t.outputs[row]? = some value := by
  rw [indicesOf, List.mem_filterMap]
  constructor
  · rintro ⟨⟨output, index⟩, hmem, h⟩
    rw [List.mem_zipIdx_iff_getElem?] at hmem
    dsimp only at hmem h
    by_cases hvalue : output = value
    · rw [if_pos hvalue, Option.some.injEq] at h
      rw [← h, hmem, hvalue]
    · rw [if_neg hvalue] at h
      cases h
  · intro h
    exact ⟨(value, row), List.mem_zipIdx_iff_getElem?.2 h, by simp⟩

theorem getElem?_outputs_eq_none : t.outputs[row]? = none ↔ 2 ^ t.letters.size ≤ row := by
  rw [List.getElem?_eq_none_iff, t.length_outputs, t.letters.rowCount_eq]

theorem pairwise_indicesOf (value : Bool) (t : TruthTable) :
    (t.indicesOf value).Pairwise (· < ·) := by
  have hsorted : t.outputs.zipIdx.Pairwise fun a b => a.2 < b.2 := by
    rw [List.pairwise_iff_getElem]
    intro i j hi hj hij
    simpa using hij
  refine List.Pairwise.filterMap _ (fun a b hab i hi j hj => ?_) hsorted
  by_cases ha : a.1 = value
  · by_cases hb : b.1 = value
    · simp only [ha, if_true, Option.some.injEq, hb] at hi hj
      omega
    · simp [hb] at hj
  · simp [ha] at hi

/-- The outputs of a tabulated function. -/
theorem getElem?_ofFun (letters : Letters) (f : Nat → Bool) (row : Nat) :
    (ofFun letters f).outputs[row]? = if row < 2 ^ letters.size then some (f row) else none := by
  rw [ofFun, List.getElem?_map, letters.rowCount_eq]
  split
  case isTrue hrow => rw [List.getElem?_range hrow, Option.map_some]
  case isFalse hrow => rw [List.getElem?_eq_none (by simpa using hrow), Option.map_none]

/-- The rows that a tabulated function lists under a value. -/
theorem indicesOf_ofFun (letters : Letters) (f : Nat → Bool) (value : Bool) :
    (ofFun letters f).indicesOf value =
      (List.range (2 ^ letters.size)).filter fun row => f row == value := by
  refine eq_of_pairwise_lt (f := id) (pairwise_indicesOf value _)
    (List.pairwise_lt_range.filter _) fun row => ?_
  rw [mem_indicesOf, List.mem_filter, List.mem_range, beq_iff_eq, getElem?_ofFun,
    Option.ite_none_right_eq_some, Option.some.injEq]

/-- The ones and the zeros of a table are a partition of its rows. -/
theorem isPartition (t : TruthTable) : IsPartition t.letters t.minterms t.maxterms := by
  have hnodup : ∀ value, (t.indicesOf value).Nodup := fun value =>
    (pairwise_indicesOf value t).imp fun hlt => Nat.ne_of_lt hlt
  have hall : (t.minterms ++ t.maxterms).Nodup := by
    refine List.nodup_append.2 ⟨hnodup true, hnodup false, ?_⟩
    rintro i hone j hzero rfl
    rw [minterms, mem_indicesOf] at hone
    rw [maxterms, mem_indicesOf, hone] at hzero
    cases hzero
  refine (List.perm_ext_iff_of_nodup hall List.nodup_range).2 fun row => ?_
  rw [List.mem_append, minterms, maxterms, mem_indicesOf, mem_indicesOf, List.mem_range,
    ← Nat.not_le, ← getElem?_outputs_eq_none]
  cases t.outputs[row]? with
  | none => simp
  | some output => cases output <;> simp

end TruthTable

end TwoLevel

import Mathlib
import TwoLevel.Assignment
import TwoLevel.Letters

/-!
# Row indices

This file proves that an index names the row from whose values it is computed, as long as a word of
sixty-four digits has room for all values.

## Main statements

- `Assignment.index_ofIndex` — the index of the values of a row
- `Assignment.bitAt_index`, `Assignment.ofIndex_index` — the row that an assignment names
- `Letters.rowCount_eq` — the number of rows over some letters
-/

namespace TwoLevel

theorem Letters.rowCount_eq (s : Letters) : s.rowCount = 2 ^ s.size := Nat.one_shiftLeft _

/-- A word of a cube has a digit for every letter. -/
theorem Letters.size_le_word (s : Letters) : s.size ≤ 32 := s.size_le.trans (by decide)

/-- A row index has a digit for every letter. -/
theorem Letters.size_le_index (s : Letters) : s.size ≤ 64 := s.size_le.trans (by decide)

/-- A row of a table has no digits beyond the variables. -/
theorem testBit_eq_false_of_le {row w place : Nat} (hrow : row < 2 ^ w) (hplace : w ≤ place) :
    row.testBit place = false :=
  Nat.testBit_lt_two_pow (lt_of_lt_of_le hrow (Nat.pow_le_pow_right (by omega) hplace))

/-- When the first `k` values of a row have been read, the index holds its leading digits. -/
theorem foldl_bitAt {index w : Nat} (hindex : index < 2 ^ w) (hw : w ≤ 64) {k : Nat} (hk : k ≤ w) :
    ((List.range k).map (bitAt index w)).foldl
      (fun acc value => (2 * acc + value.toNat) % UInt64.size) 0 = index >>> (w - k) := by
  induction k with
  | zero => simp [Nat.shiftRight_eq_div_pow, Nat.div_eq_of_lt hindex]
  | succ k ih =>
    have hdigit : 2 * index >>> (w - k) + (bitAt index w k).toNat = index >>> (w - (k + 1)) := by
      have hshift : index >>> (w - k) = index >>> (w - (k + 1)) / 2 := by
        rw [show w - k = w - (k + 1) + 1 by omega, Nat.shiftRight_add, Nat.shiftRight_one]
      have hbit : (bitAt index w k).toNat = index >>> (w - (k + 1)) % 2 := by
        rw [bitAt, Nat.sub_sub, Nat.add_comm 1 k, Nat.testBit, Nat.and_comm, Nat.and_one_is_mod]
        rcases Nat.mod_two_eq_zero_or_one (index >>> (w - (k + 1))) with h | h <;> simp [h]
      omega
    have hsmall : index >>> (w - (k + 1)) < UInt64.size := by
      rw [Nat.shiftRight_eq_div_pow]
      calc index / 2 ^ (w - (k + 1)) ≤ index := Nat.div_le_self _ _
        _ < 2 ^ w := hindex
        _ ≤ 2 ^ 64 := Nat.pow_le_pow_right (by omega) hw
    rw [List.range_succ, List.map_append, List.foldl_append, ih (by omega)]
    rw [List.map_cons, List.map_nil, List.foldl_cons, List.foldl_nil, hdigit,
      Nat.mod_eq_of_lt hsmall]

namespace Assignment

/-- The index of the values of a row is the index of the row. -/
theorem index_ofIndex {index w : Nat} (hindex : index < 2 ^ w) (hw : w ≤ 64) :
    (ofIndex index w).index = index := by
  rw [Assignment.index, ofIndex, foldl_bitAt hindex hw le_rfl, Nat.sub_self, Nat.shiftRight_zero]

theorem index_append (values : List Bool) (value : Bool) :
    index ⟨values ++ [value]⟩ = (2 * index ⟨values⟩ + value.toNat) % UInt64.size := by
  rw [index, index, List.foldl_append, List.foldl_cons, List.foldl_nil]

theorem index_lt {values : List Bool} (h : values.length ≤ 64) :
    index ⟨values⟩ < 2 ^ values.length := by
  induction values using List.reverseRecOn with
  | nil => decide
  | append_singleton values value ih =>
    rw [List.length_append, List.length_singleton] at h ⊢
    have hbefore := ih (by omega)
    have hvalue := value.toNat_le
    rw [index_append, pow_succ]
    exact (Nat.mod_le _ _).trans_lt (by omega)

/-- The row that an assignment names has the values of the assignment. -/
theorem bitAt_index {values : List Bool} (h : values.length ≤ 64) {position : Nat}
    (hposition : position < values.length) :
    bitAt (index ⟨values⟩) values.length position = values[position] := by
  induction values using List.reverseRecOn with
  | nil => simp at hposition
  | append_singleton values value ih =>
    rw [List.length_append, List.length_singleton] at h hposition
    have hroom : 2 * index ⟨values⟩ + value.toNat < UInt64.size := by
      have hlt : index ⟨values⟩ < 2 ^ values.length := index_lt (by omega)
      have hpow : 2 ^ values.length ≤ 2 ^ 63 := Nat.pow_le_pow_right (by omega) (by omega)
      have hvalue := value.toNat_le
      have hsize : UInt64.size = 2 * 2 ^ 63 := by decide
      omega
    rw [index_append, Nat.mod_eq_of_lt hroom, bitAt, List.length_append, List.length_singleton]
    by_cases hlast : position = values.length
    · -- The value read last is the lowest digit.
      subst hlast
      rw [List.getElem_concat_length rfl, Nat.add_sub_cancel, Nat.sub_self, Nat.testBit_zero]
      cases value <;> simp
    · have hbefore : position < values.length := by omega
      have hplace : values.length + 1 - 1 - position = values.length - 1 - position + 1 := by omega
      have hhalf : (2 * index ⟨values⟩ + value.toNat) / 2 = index ⟨values⟩ := by
        have hvalue := value.toNat_lt
        omega
      rw [hplace, Nat.testBit_succ, hhalf, List.getElem_append_left hbefore]
      exact ih (by omega) hbefore

/-- The row with the index of an assignment has the values of the assignment. -/
theorem ofIndex_index {a : Assignment} {w : Nat} (hlength : a.values.length = w) (hw : w ≤ 64) :
    ofIndex a.index w = a := by
  subst hlength
  refine congrArg Assignment.mk (List.ext_getElem (by simp) fun position _ hposition => ?_)
  rw [List.getElem_map, List.getElem_range]
  exact bitAt_index hw hposition

end Assignment

end TwoLevel

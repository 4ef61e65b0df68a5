import TwoLevel.Proofs.Assignment
import TwoLevel.Proofs.Lists

/-!
# Rows as values of letters

This file relates the rows of a table to the values that they give to its letters: a row gives each
letter its digit, and every choice of values for the letters belongs to a row.

## Main definitions

- `Letters.valueAt` — the values that a row gives to the letters
- `Letters.ReadsRow` — truth values that agree with a row
- `Letters.rowOf` — the row that gives the letters some values
- `DependsOn` — a function of truth values that looks only at some letters
- `Letters.restrict`, `Letters.joinRows` — rows over fewer and over more letters

## Main statements

- `Letters.valueAt_rowOf` — the row of some values gives these values
- `Letters.range_perm_joinRows` — the rows over more letters
-/

namespace TwoLevel

namespace Letters

/-- The value of a letter in the row with a given index; other characters are false. -/
def valueAt (s : Letters) (row : Nat) (name : Char) : Bool :=
  (s.indexOf? name).elim false (bitAt row s.size)

/-- Truth values that agree with a row: the letter at a place of the order has the digit of the row
that belongs to this place, and the first letter the most significant one. -/
def ReadsRow (s : Letters) (row : Nat) (v : Char → Bool) : Prop :=
  ∀ place name, s.get? place = some name → v name = row.testBit (s.size - 1 - place)

/-- The row in which the letters have given values. -/
def rowOf (s : Letters) (value : Char → Bool) : Nat := Assignment.index ⟨s.toList.map value⟩

variable {s : Letters} {name : Char} {position row : Nat}

theorem nodup (s : Letters) : s.toList.Nodup := s.toList_pairwise.imp fun h => ne_of_lt h

theorem indexOf?_eq_some :
    s.indexOf? name = some position ↔ s.toList[position]? = some name := by
  rw [indexOf?, List.idxOf?_eq_some_iff]
  constructor
  · rintro ⟨hlt, hname, -⟩
    rw [List.getElem?_eq_getElem hlt, hname]
  · intro h
    obtain ⟨hlt, hname⟩ := List.getElem?_eq_some_iff.1 h
    refine ⟨hlt, hname, fun j hj hname' => ?_⟩
    have hsame : s.toList[j] = s.toList[position] := hname'.trans hname.symm
    exact absurd ((s.nodup.getElem_inj_iff).1 hsame) (Nat.ne_of_lt hj)

theorem indexOf?_eq_none : s.indexOf? name = none ↔ name ∉ s.toList := by
  rw [indexOf?, List.idxOf?_eq_none_iff]

theorem valueAt_eq_bitAt (h : s.toList[position]? = some name) :
    s.valueAt row name = bitAt row s.size position := by
  rw [valueAt, indexOf?_eq_some.2 h, Option.elim_some]

theorem readsRow_valueAt (s : Letters) (row : Nat) : s.ReadsRow row (s.valueAt row) :=
  fun _ _ hname => valueAt_eq_bitAt hname

/-- Truth values that agree with a row are those that it gives to the letters. -/
theorem ReadsRow.eq_valueAt {v : Char → Bool} (h : s.ReadsRow row v) (hname : name ∈ s.toList) :
    v name = s.valueAt row name := by
  obtain ⟨place, hget⟩ := List.getElem?_of_mem hname
  rw [h place name hget, valueAt_eq_bitAt hget, bitAt]

/-- The letter at a place of the words of a cube has the digit of the row there. -/
theorem valueAt_eq_testBit {place : Nat} (hplace : place < s.size)
    (h : s.toList[s.size - 1 - place]? = some name) : s.valueAt row name = row.testBit place := by
  rw [valueAt_eq_bitAt h, bitAt, show s.size - 1 - (s.size - 1 - place) = place by omega]

theorem exists_letter_at {place : Nat} (hplace : place < s.size) :
    ∃ name ∈ s.toList, s.toList[s.size - 1 - place]? = some name := by
  have hlt : s.size - 1 - place < s.toList.length := by
    rw [← size]
    omega
  exact ⟨_, List.getElem_mem hlt, List.getElem?_eq_getElem hlt⟩

theorem exists_place_of_mem (hname : name ∈ s.toList) :
    ∃ place < s.size, s.toList[s.size - 1 - place]? = some name := by
  obtain ⟨position, hlt, hget⟩ := List.getElem_of_mem hname
  rw [← size] at hlt
  refine ⟨s.size - 1 - position, by omega, ?_⟩
  rw [show s.size - 1 - (s.size - 1 - position) = position by omega]
  exact List.getElem?_eq_some_iff.2 ⟨hlt, hget⟩

theorem rowOf_lt (s : Letters) (value : Char → Bool) : s.rowOf value < 2 ^ s.size := by
  have hlength : (s.toList.map value).length = s.size := List.length_map ..
  rw [← hlength]
  exact Assignment.index_lt (hlength.trans_le s.size_le_index)

/-- In the row of some values every letter has its value. -/
theorem valueAt_rowOf (value : Char → Bool) (hname : name ∈ s.toList) :
    s.valueAt (s.rowOf value) name = value name := by
  obtain ⟨position, hlt, hget⟩ := List.getElem_of_mem hname
  have hlength : (s.toList.map value).length = s.size := List.length_map ..
  have hplace : position < (s.toList.map value).length := by rwa [hlength]
  have hbit := Assignment.bitAt_index (hlength.trans_le s.size_le_index) hplace
  rw [valueAt_eq_bitAt (List.getElem?_eq_some_iff.2 ⟨hlt, hget⟩), rowOf, ← hlength, hbit,
    List.getElem_map, hget]

theorem readsRow_rowOf (s : Letters) (v : Char → Bool) : s.ReadsRow (s.rowOf v) v := by
  intro place name hname
  rw [← valueAt_rowOf v (List.mem_of_getElem? hname)]
  exact valueAt_eq_bitAt hname

/-- Rows that give the letters the same values are equal. -/
theorem row_ext {other : Nat} (hrow : row < 2 ^ s.size) (hother : other < 2 ^ s.size)
    (h : ∀ name ∈ s.toList, s.valueAt row name = s.valueAt other name) : row = other := by
  apply Nat.eq_of_testBit_eq
  intro place
  by_cases hplace : place < s.size
  · obtain ⟨name, hname, hget⟩ := exists_letter_at hplace
    have hvalue := h name hname
    rwa [valueAt_eq_testBit hplace hget, valueAt_eq_testBit hplace hget] at hvalue
  · have hplace : s.size ≤ place := Nat.le_of_not_lt hplace
    rw [testBit_eq_false_of_le hrow hplace, testBit_eq_false_of_le hother hplace]

end Letters

/-! ### Functions of the letters -/

/-- The value of a function depends only on the values of some letters. -/
def DependsOn (s : Letters) (P : (Char → Bool) → Bool) : Prop :=
  ∀ v w : Char → Bool, (∀ name ∈ s.toList, v name = w name) → P v = P w

namespace DependsOn

variable {s s' : Letters} {P : (Char → Bool) → Bool} {v : Char → Bool} {row : Nat}

theorem mono (hP : DependsOn s P) (hsub : s.toList ⊆ s'.toList) : DependsOn s' P :=
  fun v w h => hP v w fun name hname => h name (hsub hname)

/-- The value at the row of some values. -/
theorem valueAt_rowOf (hP : DependsOn s P) (v : Char → Bool) : P (s.valueAt (s.rowOf v)) = P v :=
  hP _ _ fun _ hname => Letters.valueAt_rowOf v hname

theorem eq_of_readsRow (hP : DependsOn s P) (hv : s.ReadsRow row v) : P v = P (s.valueAt row) :=
  hP _ _ fun _ hname => hv.eq_valueAt hname

end DependsOn

/-! ### More letters -/

namespace Letters

variable {s : Letters} {name : Char} {row : Nat}

/-- The row over some letters that gives them the values of a row over other letters. -/
def restrict (s s' : Letters) (row : Nat) : Nat := s.rowOf (s'.valueAt row)

variable {s' : Letters}

theorem restrict_lt (s s' : Letters) (row : Nat) : s.restrict s' row < 2 ^ s.size := s.rowOf_lt _

theorem valueAt_restrict (hname : name ∈ s.toList) :
    s.valueAt (s.restrict s' row) name = s'.valueAt row name :=
  valueAt_rowOf _ hname

/-- A set of letters is what it keeps of a larger one. -/
theorem filter_contains (hsub : s.toList ⊆ s'.toList) :
    s'.toList.filter s.toList.contains = s.toList := by
  refine eq_of_pairwise_lt (f := id) (s'.toList_pairwise.filter _) s.toList_pairwise
    fun name => ?_
  rw [List.mem_filter, List.contains_iff_mem]
  exact ⟨fun h => h.2, fun h => ⟨hsub h, h⟩⟩

theorem sublist_of_subset (hsub : s.toList ⊆ s'.toList) : s.toList.Sublist s'.toList := by
  rw [← filter_contains hsub]
  exact List.filter_sublist

/-- The letters of the first set that are not in the second. -/
def without (s' s : Letters) : Letters :=
  ⟨s'.toList.filter fun name => !s.toList.contains name,
    List.filter_sublist.trans s'.sublist⟩

theorem mem_without : name ∈ (s'.without s).toList ↔ name ∈ s'.toList ∧ name ∉ s.toList := by
  simp [without]

/-- The row in which some letters have the values of one row, and all others those of another. -/
def joinRows (s s' : Letters) (row other : Nat) : Nat :=
  s'.rowOf fun name =>
    if name ∈ s.toList then s.valueAt row name else (s'.without s).valueAt other name

theorem restrict_joinRows (hsub : s.toList ⊆ s'.toList) (hrow : row < 2 ^ s.size) (other : Nat) :
    s.restrict s' (s.joinRows s' row other) = row := by
  refine row_ext (s.rowOf_lt _) hrow fun name hname => ?_
  rw [valueAt_restrict hname, joinRows, valueAt_rowOf _ (hsub hname), if_pos hname]

theorem restrict_without_joinRows {other : Nat} (hother : other < 2 ^ (s'.without s).size)
    (row : Nat) : (s'.without s).restrict s' (s.joinRows s' row other) = other := by
  refine row_ext (rowOf_lt _ _) hother fun name hname => ?_
  obtain ⟨hmem, hnot⟩ := mem_without.1 hname
  rw [valueAt_restrict hname, joinRows, valueAt_rowOf _ hmem, if_neg hnot]

theorem joinRows_restrict {r : Nat} (hr : r < 2 ^ s'.size) :
    s.joinRows s' (s.restrict s' r) ((s'.without s).restrict s' r) = r := by
  refine row_ext (s'.rowOf_lt _) hr fun name hname => ?_
  rw [joinRows, valueAt_rowOf _ hname]
  split
  · next hmem => exact valueAt_restrict hmem
  · next hnot => exact valueAt_restrict (mem_without.2 ⟨hname, hnot⟩)

/-- Every row over some letters is joined from a row over fewer letters and a row over the rest. -/
theorem range_perm_joinRows (hsub : s.toList ⊆ s'.toList) :
    (List.range (2 ^ s'.size)).Perm ((List.range (2 ^ s.size)).flatMap fun row =>
      (List.range (2 ^ (s'.without s).size)).map (s.joinRows s' row)) := by
  refine (List.perm_ext_iff_of_nodup List.nodup_range ?_).2 fun r => ?_
  · rw [List.nodup_flatMap]
    constructor
    · intro row _
      refine List.nodup_range.map_on fun m hm m' hm' heq => ?_
      rw [← restrict_without_joinRows (List.mem_range.1 hm) row, heq,
        restrict_without_joinRows (List.mem_range.1 hm') row]
    · refine List.nodup_range.imp_of_mem fun {row row'} hrow hrow' hne => ?_
      refine List.disjoint_left.2 fun r hr hr' => hne ?_
      obtain ⟨m, -, rfl⟩ := List.mem_map.1 hr
      obtain ⟨m', -, heq⟩ := List.mem_map.1 hr'
      rw [← restrict_joinRows hsub (List.mem_range.1 hrow) m, ← heq,
        restrict_joinRows hsub (List.mem_range.1 hrow') m']
  · rw [List.mem_range, List.mem_flatMap]
    constructor
    · intro hr
      refine ⟨s.restrict s' r, List.mem_range.2 (s.rowOf_lt _), List.mem_map.2 ?_⟩
      exact ⟨_, List.mem_range.2 (rowOf_lt _ _), joinRows_restrict hr⟩
    · rintro ⟨row, -, hr⟩
      obtain ⟨m, -, rfl⟩ := List.mem_map.1 hr
      exact s'.rowOf_lt _

end Letters

end TwoLevel

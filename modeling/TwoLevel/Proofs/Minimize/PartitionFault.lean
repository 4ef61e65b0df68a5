import TwoLevel.Proofs.Minimize.Partition
import Mathlib.Order.Bounds.Basic

/-!
# What is wrong with a partition

This file says which row is reported when two lists do not partition the rows of a table. Faults of
several kinds may come together: rows that the table does not have, rows that are listed twice, in
one list or in both, and rows that are listed nowhere. The lists are read as one, and what is
listed wrongly is reported before what is missing.

## Main definitions

- `ClashesAt` — a place of a list with a number that is out of range or occurs earlier
- `IsFault` — the row that is reported for a list

## Main statements

- `firstClash?_eq_some_iff`, `leastMissing?_eq_some_iff` — the two scans of the check
- `partitionFault?_eq_some_iff` — the check reports `IsFault`
- `partition_outcome` — two lists have forms, or the row that is reported for them
-/

namespace TwoLevel

/-- The number at a place of a list is out of range or occurs earlier in the list. -/
def ClashesAt (bound : Nat) (rows : List Nat) (place : Nat) : Prop :=
  ∃ row, rows[place]? = some row ∧ (bound ≤ row ∨ row ∈ rows.take place)

/-- The row that is reported for a list that should name every number below `bound` once. -/
inductive IsFault (bound : Nat) (rows : List Nat) : Nat → Prop where
  /-- The first number of the list that is out of range or repeats an earlier one. -/
  | clash {place row : Nat} (hfirst : IsLeast {place | ClashesAt bound rows place} place)
      (hrow : rows[place]? = some row) : IsFault bound rows row
  /-- If there is none, the least number below the bound that is not listed. -/
  | missing {row : Nat} (hnone : ∀ place, ¬ClashesAt bound rows place)
      (hleast : IsLeast {row | row < bound ∧ row ∉ rows} row) : IsFault bound rows row

variable {bound start row place : Nat} {rows seen listed : List Nat} {p : Nat → Prop}

/-! ### Looking for the least number from a start on -/

theorem isLeast_from_of_holds (hstart : p start) :
    IsLeast {n | start ≤ n ∧ p n} row ↔ start = row := by
  have hleast : IsLeast {n | start ≤ n ∧ p n} start := ⟨⟨le_rfl, hstart⟩, fun _ hn => hn.1⟩
  exact ⟨hleast.unique, fun h => h ▸ hleast⟩

theorem isLeast_from_of_not (hstart : ¬p start) :
    IsLeast {n | start ≤ n ∧ p n} row ↔ IsLeast {n | start + 1 ≤ n ∧ p n} row := by
  have hset : {n | start ≤ n ∧ p n} = {n | start + 1 ≤ n ∧ p n} := by
    ext n
    refine and_congr_left fun hn => ⟨fun hle => ?_, Nat.le_of_succ_le⟩
    exact Nat.lt_of_le_of_ne hle fun heq => hstart (heq ▸ hn)
  rw [hset]

/-! ### The first number that is listed wrongly -/

theorem clashesAt_reverse_append (seen : List Nat) (row : Nat) (rows : List Nat) :
    ClashesAt bound (seen.reverse ++ row :: rows) seen.length ↔ bound ≤ row ∨ row ∈ seen := by
  simp [ClashesAt]

theorem ClashesAt.lt_length (h : ClashesAt bound rows place) : place < rows.length := by
  obtain ⟨row, hrow, -⟩ := h
  exact (List.getElem?_eq_some_iff.1 hrow).1

/-- The numbers that have been seen and those to come are two parts of one list, and the scan goes
through the places of the second part. -/
theorem firstClash?_eq_some_iff_from (seen rows : List Nat) :
    firstClash? bound seen rows = some row ↔
      ∃ place, IsLeast {place | seen.length ≤ place ∧ ClashesAt bound (seen.reverse ++ rows) place}
          place ∧ (seen.reverse ++ rows)[place]? = some row := by
  induction rows generalizing seen with
  | nil =>
    simp only [firstClash?, reduceCtorEq, false_iff, not_exists, not_and]
    intro place hplace
    have hlt := hplace.1.2.lt_length
    have hle := hplace.1.1
    simp only [List.append_nil, List.length_reverse] at hlt
    omega
  | cons next rows ih =>
    rw [firstClash?]
    split
    · next hclash =>
      rw [Bool.or_eq_true, decide_eq_true_eq, List.contains_iff_mem,
        ← clashesAt_reverse_append seen next rows] at hclash
      simp [isLeast_from_of_holds hclash]
    · next hfresh =>
      rw [Bool.or_eq_true, decide_eq_true_eq, List.contains_iff_mem,
        ← clashesAt_reverse_append seen next rows] at hfresh
      simp only [isLeast_from_of_not hfresh]
      -- The whole list stays the same when one more number has been seen.
      simpa using ih (next :: seen)

theorem firstClash?_eq_some_iff :
    firstClash? bound [] rows = some row ↔
      ∃ place, IsLeast {place | ClashesAt bound rows place} place ∧ rows[place]? = some row := by
  simpa using firstClash?_eq_some_iff_from [] rows

theorem firstClash?_eq_none_iff_not_clashesAt :
    firstClash? bound [] rows = none ↔ ∀ place, ¬ClashesAt bound rows place := by
  classical
  rw [Option.eq_none_iff_forall_ne_some]
  constructor
  · intro hnone place hplace
    have hleast : IsLeast {place | ClashesAt bound rows place} (Nat.find ⟨place, hplace⟩) :=
      ⟨Nat.find_spec ⟨place, hplace⟩, fun _ => Nat.find_min' ⟨place, hplace⟩⟩
    obtain ⟨row, hrow, -⟩ := hleast.1
    exact hnone row (firstClash?_eq_some_iff.2 ⟨_, hleast, hrow⟩)
  · intro hnone row hrow
    obtain ⟨place, hleast, -⟩ := firstClash?_eq_some_iff.1 hrow
    exact hnone place hleast.1

/-! ### The least number that is missing -/

theorem leastMissing?_eq_some_iff :
    leastMissing? bound listed start = some row ↔
      IsLeast {row | start ≤ row ∧ row < bound ∧ row ∉ listed} row := by
  induction hn : bound - start generalizing start with
  | zero =>
    rw [leastMissing?, if_neg (by omega)]
    simp only [reduceCtorEq, false_iff]
    intro hleast
    have hle := hleast.1.1
    have hlt := hleast.1.2.1
    omega
  | succ n ih =>
    have hlt : start < bound := by omega
    rw [leastMissing?, if_pos hlt]
    split
    · next hmem =>
      rw [List.contains_iff_mem] at hmem
      exact (ih (by omega)).trans
        (isLeast_from_of_not (p := fun row => row < bound ∧ row ∉ listed) fun h => h.2 hmem).symm
    · next hmissing =>
      rw [List.contains_iff_mem] at hmissing
      rw [Option.some_inj]
      exact (isLeast_from_of_holds (p := fun row => row < bound ∧ row ∉ listed)
        ⟨hlt, hmissing⟩).symm

/-! ### The check -/

/-- The check reports what is wrong with a list, and nothing else. -/
theorem partitionFault?_eq_some_iff :
    partitionFault? bound rows = some row ↔ IsFault bound rows row := by
  rw [partitionFault?, Option.or_eq_some_iff, firstClash?_eq_none_iff_not_clashesAt,
    firstClash?_eq_some_iff, leastMissing?_eq_some_iff]
  simp only [Nat.zero_le, true_and]
  constructor
  · rintro (⟨place, hfirst, hrow⟩ | ⟨hnone, hleast⟩)
    · exact .clash hfirst hrow
    · exact .missing hnone hleast
  · rintro (⟨hfirst, hrow⟩ | ⟨hnone, hleast⟩)
    · exact .inl ⟨_, hfirst, hrow⟩
    · exact .inr ⟨hnone, hleast⟩

theorem perm_range_iff_count :
    rows.Perm (List.range bound) ↔
      (∀ row < bound, rows.count row = 1) ∧ ∀ row ∈ rows, row < bound := by
  constructor
  · intro hperm
    refine ⟨fun row hrow => ?_, fun row hrow => List.mem_range.1 (hperm.mem_iff.1 hrow)⟩
    rw [hperm.count_eq, List.nodup_range.count, if_pos (List.mem_range.2 hrow)]
  · rintro ⟨honce, hbound⟩
    refine List.perm_iff_count.2 fun row => ?_
    rw [List.nodup_range.count]
    split
    · next hrow => exact honce row (List.mem_range.1 hrow)
    · next hrow =>
      exact List.count_eq_zero.2 fun hmem => hrow (List.mem_range.2 (hbound row hmem))

section

variable {strategy : Strategy} {letters : Letters} {minterms maxterms : List Nat}

namespace Minimized

theorem ofPartition_eq_noLetters (hsize : letters.size = 0) :
    ofPartition strategy letters minterms maxterms = .error .noLetters := by
  rw [ofPartition, ofPartitionIn, if_pos hsize]

theorem ofPartition_eq_error_iff (hsize : 0 < letters.size) {reason : MinimizeError} :
    ofPartition strategy letters minterms maxterms = .error reason ↔
      ∃ row, partitionFault? (2 ^ letters.size) (minterms ++ maxterms) = some row ∧
        reason = .notPartition row := by
  rw [ofPartition, ofPartitionIn, if_neg (by omega), letters.rowCount_eq]
  cases partitionFault? (2 ^ letters.size) (minterms ++ maxterms) with
  | none => simp
  | some row => simp [eq_comm]

theorem exists_ofPartition_eq_ok_iff (hsize : 0 < letters.size) :
    (∃ m, ofPartition strategy letters minterms maxterms = .ok m) ↔
      partitionFault? (2 ^ letters.size) (minterms ++ maxterms) = none := by
  rw [ofPartition, ofPartitionIn, if_neg (by omega), letters.rowCount_eq]
  cases partitionFault? (2 ^ letters.size) (minterms ++ maxterms) <;> simp

end Minimized

end

/-- Two lists have forms exactly if together they name every row of the table once, and nothing
else. Otherwise the first number that does not belong where it is listed is reported, whether the
table has no such row or one of the lists has named it before; and if there is none, the least row
that no list names. Without letters there is no form, whatever is listed. -/
theorem partition_outcome (strategy : Strategy) (letters : Letters) (minterms maxterms : List Nat) :
    (letters.size = 0 →
      Minimized.ofPartition strategy letters minterms maxterms = .error .noLetters) ∧
    (0 < letters.size →
      ((∃ m, Minimized.ofPartition strategy letters minterms maxterms = .ok m) ↔
        (∀ row < 2 ^ letters.size, (minterms ++ maxterms).count row = 1) ∧
          ∀ row ∈ minterms ++ maxterms, row < 2 ^ letters.size) ∧
      ∀ reason, Minimized.ofPartition strategy letters minterms maxterms = .error reason ↔
        ∃ row, IsFault (2 ^ letters.size) (minterms ++ maxterms) row ∧
          reason = .notPartition row) := by
  refine ⟨Minimized.ofPartition_eq_noLetters, fun hsize => ⟨?_, fun reason => ?_⟩⟩
  · rw [Minimized.exists_ofPartition_eq_ok_iff hsize, partitionFault?_eq_none_iff,
      perm_range_iff_count]
  · simp only [Minimized.ofPartition_eq_error_iff hsize, partitionFault?_eq_some_iff]

/-- With a row listed twice, one out of range and one missing, the order in the lists decides. -/
theorem partition_outcome_several_faults :
    Minimized.ofPartition .greedy .empty [0, 0] [7] = .error .noLetters ∧
    (∃ m, Minimized.ofPartition .greedy (.ofChars ['A', 'B']) [3, 0] [2, 1] = .ok m) ∧
    IsFault 4 [0, 1, 1, 5] 1 ∧ IsFault 4 [0, 5, 1, 1] 5 ∧ IsFault 4 [3, 0] 1 := by
  have hsize : (Letters.ofChars ['A', 'B']).size = 2 := by decide
  have houtcome (minterms maxterms : List Nat) :=
    (partition_outcome .greedy (.ofChars ['A', 'B']) minterms maxterms).2 (by rw [hsize]; decide)
  rw [hsize] at houtcome
  have hfault (minterms maxterms row)
      (h : Minimized.ofPartition .greedy (.ofChars ['A', 'B']) minterms maxterms =
        .error (.notPartition row)) : IsFault 4 (minterms ++ maxterms) row := by
    obtain ⟨row', hrow', heq⟩ := ((houtcome minterms maxterms).2 _).1 h
    cases heq
    exact hrow'
  refine ⟨(partition_outcome ..).1 rfl, (houtcome _ _).1.2 (by decide), ?_, ?_, ?_⟩
  · exact hfault [0, 1] [1, 5] 1 (by cbv)
  · exact hfault [0, 5, 1] [1] 5 (by cbv)
  · exact hfault [] [3, 0] 1 (by cbv)

end TwoLevel

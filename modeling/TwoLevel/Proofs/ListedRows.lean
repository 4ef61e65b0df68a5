import TwoLevel.Proofs.Tabulation

/-!
# Tables of listed rows

This file proves how a table depends on the list of rows from which it is built. The rows are marked
one by one, but the list may come in any order and repeat rows; only its elements matter. If one of
them is out of range there is no table, whatever has been marked before, and the first such row is
reported. A table is built again from its own ones.

## Main definitions

- `TruthTable.HasOnes` — a table that is true exactly on listed rows

## Main statements

- `TruthTable.markAll_eq`, `TruthTable.ofMinterms_eq` — the outcome of marking, without the outputs in
  between
- `TruthTable.ofMinterms_eq_error_iff` — which row is reported
- `TruthTable.ofMinterms_minterms` — a table is determined by its ones
- `ofMinterms_outcome` — all outcomes of building a table from a list of rows
-/

namespace TwoLevel

namespace TruthTable

/-- A table over some letters that is true exactly on listed rows: its ones are the listed rows in
ascending order and without repetitions, its zeros are all other rows in ascending order, and every
list of the same rows gives the same table. -/
structure HasOnes (s : Letters) (rows : List Nat) (t : TruthTable) : Prop where
  letters_eq : t.letters = s
  minterms_eq : t.minterms = rows.dedup.mergeSort
  maxterms_eq : t.maxterms = (List.range (2 ^ s.size)).filter fun row => row ∉ rows
  ofMinterms_eq : ∀ rows', (∀ row, row ∈ rows' ↔ row ∈ rows) → ofMinterms s rows' = .ok t

variable {s : Letters} {rows rows' : List Nat} {t : TruthTable} {e : MinimizeError}

/-! ### Marking rows one by one -/

theorem eq_of_outputs_eq {t u : TruthTable} (hletters : t.letters = u.letters)
    (houtputs : t.outputs = u.outputs) : t = u := by
  cases t
  cases u
  simp_all

/-- What has been marked does not change which row is reported, and if none is, it stays marked
beside the listed rows. -/
theorem markAll_eq {count : Nat} (outputs : Vector Bool count) (rows : List Nat) :
    markAll outputs rows = (rows.find? (count ≤ ·)).elim
      (.ok (Vector.ofFn fun i => outputs[i] || rows.contains i.val)) (.error <| .notPartition ·) := by
  -- Every mark changes the outputs, so the induction is for all of them.
  induction rows generalizing outputs with
  | nil => simp [markAll]
  | cons row rows ih =>
    rw [markAll]
    by_cases hrow : row < count
    · rw [dif_pos hrow, ih, List.find?_cons_of_neg (by simpa using hrow)]
      have hmark : ∀ i : Fin count, ((outputs.set row true hrow)[i] || rows.contains i.val) =
          (outputs[i] || (row :: rows).contains i.val) := by
        intro i
        rw [Fin.getElem_fin, Vector.getElem_set, List.contains_cons, Fin.getElem_fin]
        by_cases hi : row = i.val
        · rw [if_pos hi, hi, beq_self_eq_true, Bool.true_or, Bool.or_true]
        · rw [if_neg hi, beq_false_of_ne (Ne.symm hi), Bool.false_or]
      simp only [hmark]
    · rw [dif_neg hrow, List.find?_cons_of_pos (by simpa using hrow), Option.elim_some]

/-- The outcome of marking all listed rows: the first of them that is out of range, or the table of
the rows that are listed. -/
theorem ofMinterms_eq (s : Letters) (rows : List Nat) :
    ofMinterms s rows = (rows.find? (2 ^ s.size ≤ ·)).elim
      (.ok (ofFun s rows.contains)) (.error <| .notPartition ·) := by
  rw [ofMinterms, markAll_eq, ← s.rowCount_eq]
  cases rows.find? (s.rowCount ≤ ·) with
  | none =>
    refine congrArg Except.ok (eq_of_outputs_eq rfl (List.ext_getElem? fun row => ?_))
    rw [Vector.getElem?_toList, Vector.getElem?_ofFn, getElem?_ofFun, s.rowCount_eq]
    split
    · rw [Fin.getElem_fin, Vector.getElem_replicate, Bool.false_or]
    · rfl
  | some row => rfl

/-! ### What a list of rows determines -/

/-- The first listed row that is out of range is reported. -/
theorem ofMinterms_eq_error_iff : ofMinterms s rows = .error e ↔
    ∃ before row after, e = .notPartition row ∧ rows = before ++ row :: after ∧
      2 ^ s.size ≤ row ∧ ∀ r ∈ before, r < 2 ^ s.size := by
  have hfirst : ofMinterms s rows = .error e ↔
      ∃ row, e = .notPartition row ∧ rows.find? (2 ^ s.size ≤ ·) = some row := by
    rw [ofMinterms_eq]
    cases rows.find? (2 ^ s.size ≤ ·) with
    | none => simp
    | some row => simp [eq_comm]
  simp only [hfirst, List.find?_eq_some_iff_append, decide_eq_true_eq, Bool.not_eq_true',
    decide_eq_false_iff_not, Nat.not_le]
  constructor
  · rintro ⟨row, he, hlarge, before, after, hsplit, hbefore⟩
    exact ⟨before, row, after, he, hsplit, hlarge, hbefore⟩
  · rintro ⟨before, row, after, he, hsplit, hlarge, hbefore⟩
    exact ⟨row, he, hlarge, before, after, hsplit, hbefore⟩

/-- If all listed rows are in range, the table is true exactly on them. -/
theorem ofMinterms_of_lt (h : ∀ row ∈ rows, row < 2 ^ s.size) :
    ofMinterms s rows = .ok (ofFun s rows.contains) := by
  have hnone : rows.find? (2 ^ s.size ≤ ·) = none := by
    rw [List.find?_eq_none]
    intro row hrow
    simpa using h row hrow
  rw [ofMinterms_eq, hnone, Option.elim_none]

theorem exists_ofMinterms_eq_ok_iff :
    (∃ t, ofMinterms s rows = .ok t) ↔ ∀ row ∈ rows, row < 2 ^ s.size := by
  refine ⟨?_, fun h => ⟨_, ofMinterms_of_lt h⟩⟩
  rintro ⟨t, ht⟩ row hrow
  by_contra hlarge
  have hsome : (rows.find? (2 ^ s.size ≤ ·)).isSome := by
    rw [List.find?_isSome]
    exact ⟨row, hrow, by simpa using hlarge⟩
  obtain ⟨first, hfirst⟩ := Option.isSome_iff_exists.1 hsome
  rw [ofMinterms_eq, hfirst, Option.elim_some] at ht
  cases ht

/-- The listed rows in ascending order without repetitions. -/
theorem minterms_ofFun_contains (h : ∀ row ∈ rows, row < 2 ^ s.size) :
    (ofFun s rows.contains).minterms = rows.dedup.mergeSort := by
  have hsorted : rows.dedup.mergeSort.Pairwise (· < ·) := by
    have hnodup : rows.dedup.mergeSort.Nodup :=
      (List.mergeSort_perm _ _).nodup_iff.2 rows.nodup_dedup
    exact (List.pairwise_mergeSort' (· ≤ ·) _).imp₂
      (fun _ _ hle hne => lt_of_le_of_ne hle hne) hnodup
  refine eq_of_pairwise_lt (f := id) (pairwise_indicesOf true _) hsorted fun row => ?_
  rw [minterms, indicesOf_ofFun, List.mem_filter, List.mem_range, beq_true, List.contains_iff_mem,
    List.mem_mergeSort, List.mem_dedup]
  exact ⟨fun hrow => hrow.2, fun hrow => ⟨h row hrow, hrow⟩⟩

theorem maxterms_ofFun_contains (s : Letters) (rows : List Nat) :
    (ofFun s rows.contains).maxterms =
      (List.range (2 ^ s.size)).filter fun row => row ∉ rows := by
  rw [maxterms, indicesOf_ofFun]
  refine List.filter_congr fun row _ => ?_
  simp

/-- A table that is built from a list of rows is true exactly on them. -/
theorem hasOnes_of_ofMinterms (h : ofMinterms s rows = .ok t) : t.HasOnes s rows := by
  have hlt := exists_ofMinterms_eq_ok_iff.1 ⟨t, h⟩
  rw [ofMinterms_of_lt hlt, Except.ok.injEq] at h
  subst h
  refine ⟨rfl, minterms_ofFun_contains hlt, maxterms_ofFun_contains s rows,
    fun rows' hsame => ?_⟩
  have hcontains : rows'.contains = rows.contains := by
    funext row
    rw [Bool.eq_iff_iff, List.contains_iff_mem, List.contains_iff_mem, hsame]
  rw [ofMinterms_of_lt fun row hrow => hlt row ((hsame row).1 hrow), hcontains]

/-- A table is determined by its ones. -/
theorem ofMinterms_minterms (t : TruthTable) : ofMinterms t.letters t.minterms = .ok t := by
  have houtputs : (ofFun t.letters t.minterms.contains).outputs = t.outputs := by
    refine List.ext_getElem? fun row => ?_
    rw [getElem?_ofFun]
    cases hrow : t.outputs[row]? with
    | none => rw [if_neg (Nat.not_lt.2 (getElem?_outputs_eq_none.1 hrow))]
    | some value =>
      have hlt : row < 2 ^ t.letters.size := by
        rw [← t.size_eq]
        exact (List.getElem?_eq_some_iff.1 hrow).1
      rw [if_pos hlt, Option.some.injEq, Bool.eq_iff_iff, List.contains_iff_mem, minterms,
        mem_indicesOf, hrow, Option.some.injEq]
  rw [ofMinterms_of_lt fun row hrow => t.isPartition.lt_of_mem hrow, Except.ok.injEq]
  exact eq_of_outputs_eq rfl houtputs

end TruthTable

/-- A list of rows has a table exactly if all its rows are in range, else the first row that is not
is reported. The table is true exactly on the listed rows, which may come in any order and
repeatedly. Every table, and so every table of a formula, is built again from its ones. -/
theorem ofMinterms_outcome (s : Letters) (rows : List Nat) :
    ((∃ t, TruthTable.ofMinterms s rows = .ok t) ↔ ∀ row ∈ rows, row < 2 ^ s.size) ∧
    (∀ e, TruthTable.ofMinterms s rows = .error e ↔
      ∃ before row after, e = .notPartition row ∧ rows = before ++ row :: after ∧
        2 ^ s.size ≤ row ∧ ∀ r ∈ before, r < 2 ^ s.size) ∧
    (∀ t, TruthTable.ofMinterms s rows = .ok t → t.HasOnes s rows) ∧
    (∀ t : TruthTable, TruthTable.ofMinterms t.letters t.minterms = .ok t) ∧
    ∀ limit f t, TruthTable.ofFormula limit f = .ok t →
      TruthTable.ofMinterms f.letters t.minterms = .ok t := by
  refine ⟨TruthTable.exists_ofMinterms_eq_ok_iff, fun e => TruthTable.ofMinterms_eq_error_iff,
    fun t => TruthTable.hasOnes_of_ofMinterms, TruthTable.ofMinterms_minterms,
    fun limit f t ht => ?_⟩
  have hletters : t.letters = f.letters := by
    rw [TruthTable.ofFormula] at ht
    split at ht
    · cases ht
    · cases ht
      rfl
  rw [← hletters]
  exact t.ofMinterms_minterms

/-- Rows over no letters: there is only the row zero, which may be listed twice. -/
theorem ofMinterms_outcome_no_letters :
    (∃ t, TruthTable.ofMinterms .empty [0, 0] = .ok t ∧ t.HasOnes .empty [0, 0]) ∧
      TruthTable.ofMinterms .empty [0, 7, 1] = .error (.notPartition 7) := by
  obtain ⟨hok, -, hones, -⟩ := ofMinterms_outcome .empty [0, 0]
  obtain ⟨t, ht⟩ := hok.2 (by decide)
  refine ⟨⟨t, ht, hones t ht⟩, ((ofMinterms_outcome .empty [0, 7, 1]).2.1 _).2 ?_⟩
  exact ⟨[0], 7, [1], rfl, rfl, by decide, by decide⟩

end TwoLevel

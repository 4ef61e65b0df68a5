import TwoLevel.Proofs.Formula
import TwoLevel.Proofs.Letters
import TwoLevel.Proofs.TruthTable

/-!
# Tables of functions

This file proves that the table of a formula lists the values of its expression. A table is related
to a function of truth values: in every row the output is the value of the function when each letter
has its digit of the row.

## Main definitions

- `TruthTable.Tabulates` — a table lists the values of a function of its letters

## Main statements

- `DependsOn.tabulates` — tabulating a function row by row
- `truthTable_ofFormula` — the letters and the table of a formula that is read from a text
-/

namespace TwoLevel

/-- A table over some letters that lists the values of a function: the rows come in the order of
their indices, the output of a row is the value of the function at any truth values that agree with
it, and the ones and the zeros are ascending lists that divide the rows between them. -/
structure TruthTable.Tabulates (t : TruthTable) (s : Letters) (F : (Char → Bool) → Bool) :
    Prop where
  letters_eq : t.letters = s
  size_eq : t.size = 2 ^ s.size
  index_rows : t.rows.map (fun row => row.assignment.index) = List.range (2 ^ s.size)
  output_eq : ∀ row < 2 ^ s.size, ∀ v, s.ReadsRow row v → t.outputs[row]? = some (F v)
  row_eq : ∀ row < 2 ^ s.size, ∀ v, s.ReadsRow row v →
    t.rows[row]? = some ⟨.ofIndex row s.size, F v⟩
  pairwise_minterms : t.minterms.Pairwise (· < ·)
  pairwise_maxterms : t.maxterms.Pairwise (· < ·)
  isPartition : IsPartition s t.minterms t.maxterms
  mem_minterms : ∀ row < 2 ^ s.size, ∀ v, s.ReadsRow row v → (row ∈ t.minterms ↔ F v = true)
  mem_maxterms : ∀ row < 2 ^ s.size, ∀ v, s.ReadsRow row v → (row ∈ t.maxterms ↔ F v = false)

variable {s : Letters} {F : (Char → Bool) → Bool} {t : TruthTable} {text : List Char}
  {f : Formula}

namespace TruthTable

theorem size_eq (t : TruthTable) : t.size = 2 ^ t.letters.size := by
  rw [size, t.length_outputs, t.letters.rowCount_eq]

theorem getElem?_rows (t : TruthTable) (row : Nat) : t.rows[row]? = t.row? row := by
  rw [rows, row?, List.getElem?_map, List.getElem?_zipIdx, Option.map_map, Nat.zero_add]
  rfl

theorem index_rows (t : TruthTable) :
    t.rows.map (fun row => row.assignment.index) = List.range (2 ^ t.letters.size) := by
  have hindex : ∀ entry ∈ t.outputs.zipIdx,
      (Assignment.ofIndex entry.2 t.width).index = entry.2 := by
    intro entry hentry
    have hlt := (List.getElem?_eq_some_iff.1 (List.mem_zipIdx_iff_getElem?.1 hentry)).1
    rw [t.length_outputs, t.letters.rowCount_eq] at hlt
    -- Rows have so few letters that their indices fit into a word.
    exact Assignment.index_ofIndex hlt t.letters.size_le_index
  have hplaces : t.outputs.zipIdx.map Prod.snd = List.range (2 ^ t.letters.size) := by
    rw [List.zipIdx_map_snd, ← List.range_eq_range', ← t.size_eq, size]
  rw [rows, List.map_map, ← hplaces]
  exact List.map_congr_left hindex

end TruthTable

/-- The table of a function row by row lists its values. -/
theorem DependsOn.tabulates (hF : DependsOn s F) :
    (TruthTable.ofFun s fun row => F (s.valueAt row)).Tabulates s F := by
  have houtput : ∀ row < 2 ^ s.size, ∀ v, s.ReadsRow row v →
      (TruthTable.ofFun s fun row => F (s.valueAt row)).outputs[row]? = some (F v) := by
    intro row hrow v hv
    rw [TruthTable.getElem?_ofFun, if_pos hrow, hF.eq_of_readsRow hv]
  refine ⟨rfl, TruthTable.size_eq _, TruthTable.index_rows _, houtput, fun row hrow v hv => ?_,
    TruthTable.pairwise_indicesOf true _, TruthTable.pairwise_indicesOf false _,
    TruthTable.isPartition _, fun row hrow v hv => ?_, fun row hrow v hv => ?_⟩
  · rw [TruthTable.getElem?_rows, TruthTable.row?, houtput row hrow v hv]
    rfl
  · rw [TruthTable.minterms, TruthTable.mem_indicesOf, houtput row hrow v hv, Option.some.injEq]
  · rw [TruthTable.maxterms, TruthTable.mem_indicesOf, houtput row hrow v hv, Option.some.injEq]

namespace Formula

theorem dependsOn (h : parse text = .ok f) : DependsOn f.letters f.root.eval :=
  fun _ _ hvw => Expr.eval_congr fun name hname => hvw name ((mem_letters h).2 hname)

end Formula

/-- A table of a formula lists the values of its expression. -/
theorem TruthTable.tabulates_of_ofFormula {limit : Nat} (hf : Formula.parse text = .ok f)
    (ht : ofFormula limit f = .ok t) : t.Tabulates f.letters f.root.eval := by
  rw [ofFormula] at ht
  split at ht
  · cases ht
  · cases ht
    exact (Formula.dependsOn hf).tabulates

/-- The letters of a formula that is read from a text are those of its expression in ascending
order, at least one and at most twenty-six. The formula has a table exactly if they are no more than
the limit allows, which is never more than twenty-six; the table lists the values of the expression,
and the fault names the number of letters and the limit. -/
theorem truthTable_ofFormula (h : Formula.parse text = .ok f) (limit : Nat) :
    f.letters.toList.Pairwise (· < ·) ∧
    (∀ name, name ∈ f.letters.toList ↔ name ∈ f.root.letters) ∧
    0 < f.letters.size ∧ f.letters.size ≤ 26 ∧
    (f.letters.size ≤ min limit 26 →
      ∃ t, TruthTable.ofFormula limit f = .ok t ∧ t.Tabulates f.letters f.root.eval) ∧
    (min limit 26 < f.letters.size → TruthTable.ofFormula limit f =
      .error (.tooManyLetters f.letters.size (min limit 26))) := by
  refine ⟨f.letters.toList_pairwise, fun name => Formula.mem_letters h, Formula.size_pos h,
    f.letters.size_le, fun hle => ?_, fun hlt => if_pos hlt⟩
  exact ⟨_, if_neg (Nat.not_lt.2 hle), (Formula.dependsOn h).tabulates⟩

/-- Three letters within a limit of three, but not within one of two. -/
theorem truthTable_ofFormula_three :
    ∃ f, Formula.parse ['c', '.', 'a', '^', 'B'] = .ok f ∧
      f.letters.size ≤ min 3 26 ∧
      (∃ t, TruthTable.ofFormula 3 f = .ok t ∧ t.minterms.Pairwise (· < ·) ∧ t.size = 8) ∧
      min 2 26 < f.letters.size ∧
      TruthTable.ofFormula 2 f = .error (.tooManyLetters 3 2) := by
  let f : Formula := ⟨.binary .xor (.binary .and (.letter 'C') (.letter 'A')) (.letter 'B'),
    .ofChars ['C', 'A', 'B']⟩
  have hf : Formula.parse ['c', '.', 'a', '^', 'B'] = .ok f := rfl
  have hsize : f.letters.size = 3 := by decide
  obtain ⟨t, ht, htable⟩ := (truthTable_ofFormula hf 3).2.2.2.2.1 (by rw [hsize]; decide)
  have hlarge := (truthTable_ofFormula hf 2).2.2.2.2.2 (by rw [hsize]; decide)
  rw [hsize] at hlarge
  refine ⟨f, hf, by rw [hsize]; decide, ⟨t, ht, htable.pairwise_minterms, ?_⟩,
    by rw [hsize]; decide, hlarge⟩
  rw [htable.size_eq, hsize]
  rfl

end TwoLevel

import TwoLevel.Proofs.Form.Terms
import TwoLevel.Proofs.Minimize.Value
import TwoLevel.Proofs.Tabulation

/-!
# Ways to evaluate a formula

This file proves that the value of a formula under an assignment is found in three ways: from its
expression, in a row of its table, and from either of its minimized forms. The expression looks up
the value of a letter in a list, the table takes it from a digit of the number of a row, and the
forms compare this number with cubes. All three meet in the notion of truth values that agree with a
row. Only the expression is content with too few or too many values; the row that belongs to such an
assignment is the one whose values are those of the assignment as far as they go.

## Main definitions

- `Assignment.fitted` — an assignment cut or filled up to a number of values
- `Formula.valueUnder` — the values that an assignment gives to the letters of a formula

## Main statements

- `Formula.readsRow_valueUnder` — the values of the letters agree with the row of the assignment
- `TruthTable.Tabulates.exists_minimize` — the forms of a tabulated function have its values
- `evaluation_agrees` — expression, table and forms have the same value
-/

namespace TwoLevel

namespace Assignment

/-- The first `n` values of an assignment; values that are missing count as false. -/
def fitted (a : Assignment) (n : Nat) : Assignment :=
  ⟨a.values.take n ++ List.replicate (n - a.values.length) false⟩

variable {a : Assignment} {n position : Nat}

theorem length_fitted (a : Assignment) (n : Nat) : (a.fitted n).values.length = n := by
  rw [fitted, List.length_append, List.length_take, List.length_replicate]
  omega

theorem fitted_of_length (h : a.values.length = n) : a.fitted n = a := by
  simp [fitted, ← h]

/-- Behind the last value an assignment is filled up with false. -/
theorem getElem_fitted (hposition : position < (a.fitted n).values.length) :
    (a.fitted n).values[position] = (a.value? position).getD false := by
  have hn : position < n := by rwa [length_fitted] at hposition
  have hgetElem? : (a.fitted n).values[position]? = some ((a.value? position).getD false) := by
    rw [fitted, value?, List.getElem?_append, List.length_take]
    by_cases hlt : position < a.values.length
    · rw [if_pos (by omega), List.getElem?_take_of_lt hn, List.getElem?_eq_getElem hlt,
        Option.getD_some]
    · rw [if_neg (by omega), List.getElem?_replicate, if_pos (by omega),
        List.getElem?_eq_none (by omega), Option.getD_none]
  rw [List.getElem?_eq_getElem hposition] at hgetElem?
  exact Option.some.inj hgetElem?

end Assignment

/-! ### The row of an assignment -/

namespace Formula

/-- The values that an assignment gives to the letters of a formula: a letter without a value is
false. -/
def valueUnder (f : Formula) (a : Assignment) (name : Char) : Bool :=
  ((f.letters.indexOf? name).bind a.value?).getD false

theorem eval_eq (f : Formula) (a : Assignment) : f.eval a = f.root.eval (f.valueUnder a) := rfl

/-- The value of a letter is the digit of its place in the row of the fitted assignment. -/
theorem readsRow_valueUnder (f : Formula) (a : Assignment) :
    f.letters.ReadsRow (a.fitted f.letters.size).index (f.valueUnder a) := by
  intro place name hname
  have hlength := a.length_fitted f.letters.size
  have hplace : place < (a.fitted f.letters.size).values.length := by
    rw [hlength]
    exact (List.getElem?_eq_some_iff.1 hname).1
  calc f.valueUnder a name = (a.value? place).getD false := by
        rw [valueUnder, Letters.indexOf?_eq_some.2 hname, Option.bind_some]
    _ = (a.fitted f.letters.size).values[place] := (Assignment.getElem_fitted hplace).symm
    _ = bitAt (a.fitted f.letters.size).index (a.fitted f.letters.size).values.length place :=
        (Assignment.bitAt_index (hlength.trans_le f.letters.size_le_index) hplace).symm
    _ = (a.fitted f.letters.size).index.testBit (f.letters.size - 1 - place) := by
        rw [hlength, bitAt]

theorem index_fitted_lt (f : Formula) (a : Assignment) :
    (a.fitted f.letters.size).index < 2 ^ f.letters.size := by
  have hlength := a.length_fitted f.letters.size
  have hlt : (a.fitted f.letters.size).index < 2 ^ (a.fitted f.letters.size).values.length :=
    Assignment.index_lt (hlength.trans_le f.letters.size_le_index)
  rwa [hlength] at hlt

end Formula

/-! ### The table and the forms -/

namespace TruthTable.Tabulates

variable {t : TruthTable} {s : Letters} {F : (Char → Bool) → Bool} {row : Nat} {v : Char → Bool}

theorem row?_eq (h : t.Tabulates s F) (hrow : row < 2 ^ s.size) (hv : s.ReadsRow row v) :
    t.row? row = some ⟨.ofIndex row s.size, F v⟩ := by
  rw [← t.getElem?_rows]
  exact h.row_eq row hrow v hv

/-- The forms of a table have the value of the tabulated function on every row. -/
theorem exists_minimize (h : t.Tabulates s F) (hsize : 0 < s.size) (strategy : Strategy) :
    ∃ m, t.minimize strategy = .ok m ∧ ∀ row < 2 ^ s.size, ∀ v, s.ReadsRow row v →
      m.sop.evalIndex row = F v ∧ m.pos.evalIndex row = F v := by
  obtain ⟨m, hm, hvalue⟩ := Minimized.exists_ofPartitionIn hsize h.isPartition .listed strategy
  rw [← h.letters_eq] at hm
  refine ⟨m, hm, fun row hrow v hv => ?_⟩
  obtain ⟨hsop, hpos⟩ := hvalue row hrow
  constructor
  · exact bool_eq_of_iff true (hsop.trans (h.mem_minterms row hrow v hv))
  · exact bool_eq_of_iff false (hpos.trans (h.mem_maxterms row hrow v hv))

end TruthTable.Tabulates

/-- A formula within the limit has one value under an assignment, however it is found. The row of
its table that belongs to the assignment, cut to the letters of the formula or filled up with false,
has the value of the expression as its output; and for an assignment with a value for each letter
and no more, both minimized forms have it as well, under either strategy. -/
theorem evaluation_agrees {text : List Char} {f : Formula} (h : Formula.parse text = .ok f)
    {limit : Nat} (hlimit : f.letters.size ≤ min limit 26) :
    ∃ t, TruthTable.ofFormula limit f = .ok t ∧
      (∀ a : Assignment, t.row? (a.fitted f.letters.size).index =
        some ⟨a.fitted f.letters.size, f.eval a⟩) ∧
      ∀ strategy, ∃ m, f.minimize ⟨limit, strategy⟩ = .ok m ∧
        ∀ a : Assignment, a.values.length = f.letters.size →
          m.sop.eval a = f.eval a ∧ m.pos.eval a = f.eval a := by
  obtain ⟨t, ht⟩ : ∃ t, TruthTable.ofFormula limit f = .ok t := ⟨_, if_neg (Nat.not_lt.2 hlimit)⟩
  have htable := TruthTable.tabulates_of_ofFormula h ht
  refine ⟨t, ht, fun a => ?_, fun strategy => ?_⟩
  · have hrow := htable.row?_eq (f.index_fitted_lt a) (f.readsRow_valueUnder a)
    rwa [Assignment.ofIndex_index (a.length_fitted _) f.letters.size_le_index,
      ← Formula.eval_eq] at hrow
  · obtain ⟨m, hm, hvalue⟩ := htable.exists_minimize (Formula.size_pos h) strategy
    refine ⟨m, Formula.minimize_of_ofFormula ht hm, fun a ha => ?_⟩
    have hforms := hvalue _ (f.index_fitted_lt a) _ (f.readsRow_valueUnder a)
    rwa [Assignment.fitted_of_length ha, ← Formula.eval_eq] at hforms

/-- With one value for three letters the others are false, and a fourth value is not looked at. -/
theorem evaluation_agrees_short_and_long :
    ∃ f t m, Formula.parse ['a', '.', 'b', '\'', '+', 'c'] = .ok f ∧
      f.letters.size ≤ min 20 26 ∧
      TruthTable.ofFormula 20 f = .ok t ∧
      t.row? 4 = some ⟨⟨[true, false, false]⟩, f.eval ⟨[true]⟩⟩ ∧
      t.row? 2 = some ⟨⟨[false, true, false]⟩, f.eval ⟨[false, true, false, true]⟩⟩ ∧
      f.eval ⟨[true]⟩ = true ∧
      f.minimize ⟨20, .exact⟩ = .ok m ∧
      [true, false, false].length = f.letters.size ∧
      m.sop.eval ⟨[true, false, false]⟩ = true ∧ m.pos.eval ⟨[true, false, false]⟩ = true := by
  let f : Formula := ⟨.binary .or (.binary .and (.letter 'A') (.not (.letter 'B'))) (.letter 'C'),
    .ofChars ['A', 'B', 'C']⟩
  have hf : Formula.parse ['a', '.', 'b', '\'', '+', 'c'] = .ok f := rfl
  have hsize : f.letters.size = 3 := by decide
  have hlimit : f.letters.size ≤ min 20 26 := by rw [hsize]; decide
  obtain ⟨t, ht, hrow, hforms⟩ := evaluation_agrees hf hlimit
  obtain ⟨m, hm, hvalue⟩ := hforms .exact
  have hexact : [true, false, false].length = f.letters.size := hsize.symm
  rw [hsize] at hrow
  refine ⟨f, t, m, hf, hlimit, ht, hrow ⟨[true]⟩, hrow ⟨[false, true, false, true]⟩, by decide, hm,
    hexact, ?_, ?_⟩
  · exact (hvalue _ hexact).1
  · exact (hvalue _ hexact).2

end TwoLevel

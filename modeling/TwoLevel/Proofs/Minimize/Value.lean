import TwoLevel.Proofs.Cover.Selection
import TwoLevel.Proofs.Cube.Rounds
import TwoLevel.Proofs.Minimize.Partition

/-!
# The value of minimized forms

This file proves that both forms of a function have its value on every row. The primes of the rows
that a form must cover lie within these rows and cover all of them, and a selection from the primes
keeps both properties.

## Main statements

- `Form.evalIndex_ofTargets` — the rows on which a form has the value of a plain literal
- `minimize_value` — both forms of a table, and of a partition, have the value of the function
-/

namespace TwoLevel

variable {letters : Letters} {targets : List Nat} {order : VisitOrder} {strategy : Strategy}
  {kind : FormKind} {row : Nat}

namespace Cube

/-- The primes of some rows cover all of them. -/
theorem covering_primes {w : Nat} {rows : List Nat} (hw : w ≤ 32)
    (hrows : ∀ row ∈ rows, row < 2 ^ w) (order : VisitOrder) :
    Covering (primes order w rows) rows :=
  fun _ hrow => exists_mem_primes hw hrows order hrow

end Cube

/-- The cubes of a form whose targets are some, but not all rows. -/
def coverOf (order : VisitOrder) (strategy : Strategy) (plain : Bool) (w : Nat)
    (targets : List Nat) : List Cube :=
  (Selection.ofPrimes (Cube.primes order w targets) targets plain strategy).cubes

namespace FormKind

theorem decide_eq_sumOfProducts (kind : FormKind) :
    decide (kind = .sumOfProducts) = kind.plain := by
  cases kind <;> rfl

theorem decide_eq_productOfSums (kind : FormKind) :
    decide (kind = .productOfSums) = !kind.plain := by
  cases kind <;> rfl

end FormKind

namespace Form

theorem evalIndex_of_constant {f : Form} {value : Bool} (h : f.body = .constant value)
    (row : Nat) : f.evalIndex row = value := by
  rw [evalIndex, h]

/-- A form that is not constant has the value of a plain literal on the rows of its cubes. -/
theorem evalIndex_of_cubes {f : Form} {cs : List Cube} (h : f.body = .cubes cs) (row : Nat) :
    f.evalIndex row = f.kind.plain ↔ cs.any (·.covers row) = true := by
  rw [evalIndex, h]
  cases f.kind with
  | sumOfProducts => rfl
  | productOfSums => simp [FormKind.plain]

/-- The body of a form that has nothing to cover. -/
theorem body_ofTargets_nil : (ofTargets order strategy kind letters []).body =
    .constant (kind = .productOfSums) := rfl

/-- The body of a form whose targets are some, but not all rows. -/
theorem body_ofTargets (hne : targets ≠ []) (hlen : targets.length ≠ 2 ^ letters.size) :
    (ofTargets order strategy kind letters targets).body =
      .cubes (coverOf order strategy kind.plain letters.size targets) := by
  rw [← letters.rowCount_eq] at hlen
  rw [ofTargets, derive, if_neg (by simpa using hne), if_neg hlen]
  rfl

/-- The body of a form that has to cover all rows. -/
theorem body_ofTargets_of_length (hlen : targets.length = 2 ^ letters.size) :
    (ofTargets order strategy kind letters targets).body =
      .constant (kind = .sumOfProducts) := by
  have hne : ¬targets.isEmpty = true := by
    rw [List.isEmpty_iff_length_eq_zero, hlen]
    exact (Nat.two_pow_pos _).ne'
  rw [← letters.rowCount_eq] at hlen
  rw [ofTargets, derive, if_neg hne, if_pos hlen]
  rfl

end Form

theorem isPrime_of_mem_coverOf (hrows : ∀ row ∈ targets, row < 2 ^ letters.size) {plain : Bool}
    {c : Cube} (hc : c ∈ coverOf order strategy plain letters.size targets) :
    c.IsPrime letters.size targets := by
  have hw := letters.size_le_word
  have hmem := Selection.mem_of_mem_cubes (Cube.nodup_primes order)
    (Cube.covering_primes hw hrows order) hc
  exact (Cube.mem_primes hw hrows order).1 hmem

/-- The cubes of a form are primes of its targets. -/
theorem Form.isPrime_of_mem_cubes (hrows : ∀ row ∈ targets, row < 2 ^ letters.size) {c : Cube}
    (hc : c ∈ (ofTargets order strategy kind letters targets).cubes) :
    c.IsPrime letters.size targets := by
  by_cases hnil : targets = []
  · subst hnil
    rw [cubes, body_ofTargets_nil] at hc
    exact absurd hc List.not_mem_nil
  · by_cases hlen : targets.length = 2 ^ letters.size
    · rw [cubes, body_ofTargets_of_length hlen] at hc
      exact absurd hc List.not_mem_nil
    · rw [cubes, body_ofTargets hnil hlen] at hc
      exact isPrime_of_mem_coverOf hrows hc

/-- A row lies in a selected cube exactly if it is a target. -/
theorem any_coverOf (hrows : ∀ row ∈ targets, row < 2 ^ letters.size)
    (hrow : row < 2 ^ letters.size) (plain : Bool) :
    (coverOf order strategy plain letters.size targets).any (·.covers row) = true ↔
      row ∈ targets := by
  rw [List.any_eq_true]
  constructor
  · rintro ⟨c, hc, hcrow⟩
    exact (isPrime_of_mem_coverOf hrows hc).subset row hrow hcrow
  · intro hmem
    have hcov := Cube.covering_primes letters.size_le_word hrows order
    exact Selection.covering (Cube.nodup_primes order) hcov row hmem

/-- A form has the value of a plain literal exactly on its targets. -/
theorem Form.evalIndex_ofTargets (hnodup : targets.Nodup)
    (hrows : ∀ row ∈ targets, row < 2 ^ letters.size) (hrow : row < 2 ^ letters.size) :
    (ofTargets order strategy kind letters targets).evalIndex row = kind.plain ↔
      row ∈ targets := by
  by_cases hempty : targets = []
  · subst hempty
    rw [evalIndex_of_constant body_ofTargets_nil, FormKind.decide_eq_productOfSums]
    simp
  · by_cases hlen : targets.length = 2 ^ letters.size
    · have hmem : row ∈ targets := (forall_mem_iff_length_eq hnodup hrows).2 hlen row hrow
      rw [evalIndex_of_constant (body_ofTargets_of_length hlen), FormKind.decide_eq_sumOfProducts]
      simp [hmem]
    · rw [← any_coverOf hrows hrow kind.plain]
      exact evalIndex_of_cubes (body_ofTargets hempty hlen) row

namespace Minimized

/-- A partition of the rows has two forms, which have the value of its function on every row. -/
theorem exists_ofPartitionIn {minterms maxterms : List Nat} (hsize : 0 < letters.size)
    (hpart : IsPartition letters minterms maxterms) (order : VisitOrder) (strategy : Strategy) :
    ∃ m, ofPartitionIn order strategy letters minterms maxterms = .ok m ∧
      ∀ row < 2 ^ letters.size, (m.sop.evalIndex row = true ↔ row ∈ minterms) ∧
        (m.pos.evalIndex row = false ↔ row ∈ maxterms) := by
  refine ⟨_, ofPartitionIn_eq_ok hsize hpart order strategy, fun row hrow => ⟨?_, ?_⟩⟩
  · exact Form.evalIndex_ofTargets hpart.nodup (fun _ => hpart.lt_of_mem) hrow
  · exact Form.evalIndex_ofTargets hpart.symm.nodup (fun _ => hpart.symm.lt_of_mem) hrow

end Minimized

/-- Minimization succeeds, and both forms have the value of the function on every row: for a table,
by the index of the row and by its values, and for a partition of the rows. -/
theorem minimize_value :
    (∀ (t : TruthTable) (strategy : Strategy), 0 < t.width →
      ∃ m, t.minimize strategy = .ok m ∧ ∀ row < 2 ^ t.width,
        t.outputs[row]? = some (m.sop.evalIndex row) ∧
        t.outputs[row]? = some (m.pos.evalIndex row) ∧
        t.outputs[row]? = some (m.sop.eval (.ofIndex row t.width)) ∧
        t.outputs[row]? = some (m.pos.eval (.ofIndex row t.width))) ∧
    ∀ (letters : Letters) (minterms maxterms : List Nat) (strategy : Strategy),
      0 < letters.size → IsPartition letters minterms maxterms →
      ∃ m, Minimized.ofPartition strategy letters minterms maxterms = .ok m ∧
        ∀ row < 2 ^ letters.size, (m.sop.evalIndex row = true ↔ row ∈ minterms) ∧
          (m.pos.evalIndex row = false ↔ row ∈ maxterms) := by
  constructor
  · intro t strategy hwidth
    obtain ⟨m, hm, hvalue⟩ :=
      Minimized.exists_ofPartitionIn hwidth t.isPartition .listed strategy
    refine ⟨m, hm, fun row hrow => ?_⟩
    obtain ⟨hsop, hpos⟩ := hvalue row hrow
    rw [TruthTable.minterms, TruthTable.mem_indicesOf] at hsop
    rw [TruthTable.maxterms, TruthTable.mem_indicesOf] at hpos
    have hindex : (Assignment.ofIndex row t.width).index = row :=
      Assignment.index_ofIndex hrow (t.letters.size_le_word.trans (by decide))
    rw [Form.eval, Form.eval, hindex]
    have hboth : t.outputs[row]? = some (m.sop.evalIndex row) ∧
        t.outputs[row]? = some (m.pos.evalIndex row) := by
      cases hout : t.outputs[row]? with
      | none => exact absurd (TruthTable.getElem?_outputs_eq_none.1 hout) (Nat.not_le.2 hrow)
      | some output =>
        rw [hout, Option.some.injEq] at hsop hpos
        cases output with
        | false => exact ⟨by simpa using hsop, by simpa using hpos⟩
        | true => exact ⟨by simpa using hsop, by simpa using hpos⟩
    exact ⟨hboth.1, hboth.2, hboth.1, hboth.2⟩
  · intro letters minterms maxterms strategy hsize hpart
    exact Minimized.exists_ofPartitionIn hsize hpart .listed strategy

/-- A function of three letters without essential cubes, given as a table and as a partition. -/
theorem minimize_value_cyclic :
    (0 < (TruthTable.ofFun (.ofChars ['A', 'B', 'C']) [0, 1, 2, 5, 6, 7].contains).width ∧
      ∃ m, (TruthTable.ofFun (.ofChars ['A', 'B', 'C']) [0, 1, 2, 5, 6, 7].contains).minimize
        .greedy = .ok m ∧ m.sop.evalIndex 5 = true ∧ m.pos.eval (.ofIndex 4 3) = false) ∧
    0 < (Letters.ofChars ['A', 'B', 'C']).size ∧
      IsPartition (.ofChars ['A', 'B', 'C']) [0, 1, 2, 5, 6, 7] [3, 4] ∧
      ∃ m, Minimized.ofPartition .exact (.ofChars ['A', 'B', 'C'])
        [0, 1, 2, 5, 6, 7] [3, 4] = .ok m ∧
        m.sop.evalIndex 5 = true ∧ m.pos.evalIndex 4 = false := by
  have hsize : (Letters.ofChars ['A', 'B', 'C']).size = 3 := by decide
  have hpart : IsPartition (.ofChars ['A', 'B', 'C']) [0, 1, 2, 5, 6, 7] [3, 4] := by
    rw [IsPartition, hsize]
    decide
  have hwidth : 0 < (TruthTable.ofFun (.ofChars ['A', 'B', 'C'])
      [0, 1, 2, 5, 6, 7].contains).width := by decide
  obtain ⟨m, hm, hvalue⟩ := minimize_value.1 _ .greedy hwidth
  obtain ⟨n, hn, hvalue'⟩ := minimize_value.2 _ _ _ .exact (by rw [hsize]; decide) hpart
  rw [hsize] at hvalue'
  refine ⟨⟨hwidth, m, hm, ?_, ?_⟩, by rw [hsize]; decide, hpart, n, hn, ?_, ?_⟩
  · exact (Option.some.inj (hvalue 5 (by decide)).1).symm
  · exact (Option.some.inj (hvalue 4 (by decide)).2.2.2).symm
  · exact (hvalue' 5 (by decide)).1.2 (by decide)
  · exact (hvalue' 4 (by decide)).2.2 (by decide)

end TwoLevel

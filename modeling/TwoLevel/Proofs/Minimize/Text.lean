import TwoLevel.Proofs.Form.Text
import TwoLevel.Proofs.Minimize.Minimal
import TwoLevel.Proofs.RoundTrip

/-!
# Texts of minimized forms

This file proves that the text of a minimized form is an expression of the function. A prime of a
function that is not constant has literals, so every term has an expression; the text denotes these
expressions, joined from the left in the order of the terms.

## Main definitions

- `FormKind.expr?` — the expression of some terms

## Main statements

- `Form.exists_parse` — the formula that the text of a form with terms denotes
- `Form.exists_parse_ofTargets` — the same for a form of some, but not all rows
- `Form.exists_parse_table` — its value in terms of the table
- `parse_minimized` — both texts of a partition denote its function
-/

namespace TwoLevel

/-- Some expressions joined by an operator from the left; no expressions have none. -/
def Expr.joinAll? (op : Operator) : List Expr → Option Expr
  | [] => none
  | e :: es => some (e.join op es)

/-- The expression of some terms: the literals of each term are joined from the left, and so are the
terms. There is none without terms, or if a term has no literals. -/
def FormKind.expr? (kind : FormKind) (terms : List (List Literal)) : Option Expr :=
  (terms.mapM kind.termExpr?).bind (Expr.joinAll? kind.outer)

variable {s : Letters} {targets : List Nat} {order : VisitOrder} {strategy : Strategy}
  {kind : FormKind} {f : Form} {c : Cube} {row : Nat} {terms : List (List Literal)}

theorem FormKind.expr?_eq_some {e : Expr} {es : List Expr}
    (h : List.Forall₂ (fun term e => kind.termExpr? term = some e) terms (e :: es)) :
    kind.expr? terms = some (e.join kind.outer es) := by
  rw [expr?, mapM_eq_some h]
  rfl

theorem Denotes.ne_nil (h : Denotes kind s targets terms)
    (hrows : ∀ row ∈ targets, row < 2 ^ s.size) (hne : targets ≠ []) : terms ≠ [] := by
  rintro rfl
  obtain ⟨row, hrow⟩ := List.exists_mem_of_ne_nil _ hne
  have hvalue := (h.value_iff row (hrows row hrow)).2 hrow
  obtain ⟨term, hterm, -⟩ := FormKind.value_eq_plain.1 hvalue
  cases hterm

namespace Form

theorem render_eq (h : f.constant? = none) : f.render = f.tokens.map Token.symbol := by
  rw [constant?] at h
  rw [render]
  split at h
  · cases h
  · rfl

/-- The text of a form whose terms have literals denotes the expression of its terms. -/
theorem exists_parse (hconst : f.constant? = none) (hfits : ∀ c ∈ f.cubes, c.Fits f.letters.size)
    (hne : f.cubes ≠ []) (hliterals : ∀ c ∈ f.cubes, f.literals c ≠ []) :
    ∃ g, Formula.parse f.render = .ok g ∧ f.kind.expr? f.terms = some g.root ∧
      g.letters.toList ⊆ f.letters.toList ∧ ∀ v, g.root.eval v = f.kind.value v f.terms := by
  obtain ⟨e, es, htrees, hderives⟩ := derives_tokens hfits hne hliterals
  have hletters : ∀ name ∈ (e.join f.kind.outer es).letters, name ∈ f.letters.toList := by
    intro name hname
    obtain ⟨term, hterm, l, hl, rfl⟩ := FormKind.mem_letters_join htrees hname
    exact letter_mem_of_mem_terms hterm hl
  obtain ⟨g, hg, hroot⟩ := Formula.parse_symbols_alphabet hderives
    fun name hname => f.letters.sublist.subset (hletters name hname)
  refine ⟨g, by rwa [render_eq hconst], ?_, fun name hname => hletters name ?_, fun v => ?_⟩
  · rw [hroot, FormKind.expr?_eq_some htrees]
  · rwa [Formula.mem_letters hg, hroot] at hname
  · rw [hroot, FormKind.eval_join htrees]

/-! ### Forms of some, but not all rows -/

/-- A form that is not constant has something to cover, but not everything. -/
theorem ne_of_constant?_eq_none (h : (ofTargets order strategy kind s targets).constant? = none) :
    targets ≠ [] ∧ targets.length ≠ 2 ^ s.size := by
  constructor
  · rintro rfl
    rw [constant?, body_ofTargets_nil] at h
    cases h
  · intro hlen
    rw [constant?, body_ofTargets_of_length hlen] at h
    cases h

theorem literals_ne_nil (hc : c.Implicant f.letters.size targets)
    (hrow : row < 2 ^ f.letters.size) (hout : row ∉ targets) : f.literals c ≠ [] := by
  intro hnil
  -- A term without literals is met on every row.
  have hmeets : f.kind.Meets (f.letters.valueAt row) (f.literals c) := by
    rw [hnil]
    exact fun l hl => absurd hl List.not_mem_nil
  exact hout (hc.subset row hrow ((meets_literals hc.fits hrow).1 hmeets))

section

variable (hrows : ∀ row ∈ targets, row < 2 ^ s.size)
  (hconst : (ofTargets order strategy kind s targets).constant? = none)

include hrows hconst

/-- The terms of a form that is not constant have the value of a plain literal on the targets. -/
theorem value_terms_ofTargets {v : Char → Bool} (hrow : row < 2 ^ s.size) (hv : s.ReadsRow row v) :
    kind.value v (ofTargets order strategy kind s targets).terms = kind.plain ↔ row ∈ targets := by
  obtain ⟨hne, hlen⟩ := ne_of_constant?_eq_none hconst
  have hdenotes : Denotes kind s targets (ofTargets order strategy kind s targets).terms :=
    denotes_ofTargets hrows hne hlen
  have hsame : kind.value v (ofTargets order strategy kind s targets).terms =
      kind.value (s.valueAt row) (ofTargets order strategy kind s targets).terms :=
    FormKind.value_congr fun term hterm l hl => hv.eq_valueAt (hdenotes.letter_mem term hterm l hl)
  rw [hsame, hdenotes.value_iff row hrow]

variable (hnodup : targets.Nodup)

include hnodup

theorem exists_notMem_of_constant?_eq_none : ∃ row < 2 ^ s.size, row ∉ targets := by
  -- Otherwise there are as many targets as rows.
  by_contra hall
  simp only [not_exists, not_and, not_not] at hall
  refine (ne_of_constant?_eq_none hconst).2 (Nat.le_antisymm ?_ ?_)
  · have hle := (hnodup.subperm fun row hrow => List.mem_range.2 (hrows row hrow)).length_le
    rwa [List.length_range] at hle
  · have hle := (List.nodup_range.subperm fun row hrow => hall row (List.mem_range.1 hrow)).length_le
    rwa [List.length_range] at hle

/-- The text of a form that is not constant denotes the expression of its terms, all of which have
literals. -/
theorem exists_parse_ofTargets :
    (∀ c ∈ (ofTargets order strategy kind s targets).cubes, 0 < c.literalCount) ∧
    ∃ g, Formula.parse (ofTargets order strategy kind s targets).render = .ok g ∧
      kind.expr? (ofTargets order strategy kind s targets).terms = some g.root ∧
      g.letters.toList ⊆ s.toList ∧
      ∀ v, g.root.eval v = kind.value v (ofTargets order strategy kind s targets).terms := by
  obtain ⟨hne, hlen⟩ := ne_of_constant?_eq_none hconst
  obtain ⟨row, hrow, hout⟩ := exists_notMem_of_constant?_eq_none hrows hconst hnodup
  have hprime : ∀ c ∈ (ofTargets order strategy kind s targets).cubes,
      c.IsPrime s.size targets := fun c hc => isPrime_of_mem_cubes hrows hc
  have hliterals : ∀ c ∈ (ofTargets order strategy kind s targets).cubes,
      (ofTargets order strategy kind s targets).literals c ≠ [] :=
    fun c hc => literals_ne_nil (hprime c hc).toImplicant hrow hout
  have hcubes : (ofTargets order strategy kind s targets).cubes ≠ [] := by
    intro hnil
    apply (denotes_ofTargets hrows hne hlen).ne_nil hrows hne
    rw [terms, hnil, List.map_nil]
  refine ⟨fun c hc => ?_, exists_parse hconst (fun c hc => (hprime c hc).fits) hcubes hliterals⟩
  rw [← length_literals (f := ofTargets order strategy kind s targets) (hprime c hc).fits]
  exact List.length_pos_iff.2 (hliterals c hc)

/-- The text of a form of a table denotes an expression of the table. -/
theorem exists_parse_table {output : Nat → Bool}
    (houtput : ∀ row < 2 ^ s.size, row ∈ targets ↔ output row = kind.plain) :
    (∀ c ∈ (ofTargets order strategy kind s targets).cubes, 0 < c.literalCount) ∧
    ∃ g, Formula.parse (ofTargets order strategy kind s targets).render = .ok g ∧
      kind.expr? (ofTargets order strategy kind s targets).terms = some g.root ∧
      g.letters.toList ⊆ s.toList ∧
      ∀ row < 2 ^ s.size, ∀ v, s.ReadsRow row v → g.root.eval v = output row := by
  obtain ⟨hliterals, g, hg, hroot, hletters, heval⟩ :=
    exists_parse_ofTargets hrows hconst hnodup
  refine ⟨hliterals, g, hg, hroot, hletters, fun row hrow v hv => ?_⟩
  apply bool_eq_of_iff kind.plain
  rw [heval, value_terms_ofTargets hrows hconst hrow hv]
  exact houtput row hrow

end

end Form

/-- In a partition the zeros are the rows that are not ones. -/
theorem IsPartition.mem_maxterms {minterms maxterms : List Nat}
    (hpart : IsPartition s minterms maxterms) (hrow : row < 2 ^ s.size) :
    row ∈ maxterms ↔ row ∉ minterms := by
  have hnodup := List.nodup_append.1 (hpart.nodup_iff.2 List.nodup_range)
  have hmem := hpart.mem_iff.2 (List.mem_range.2 hrow)
  rw [List.mem_append] at hmem
  exact ⟨fun hzero hone => hnodup.2.2 row hone row hzero rfl, fun hone => hmem.resolve_left hone⟩

/-- The texts of minimized forms denote the function. A form of a partition that is not constant has
literals in all its terms, and its text is read as the expression of its terms: the literals of a
term are joined from the left, by conjunctions in a sum of products and by disjunctions in a product
of sums, and the terms are joined from the left by the other operator, all in their order. The
expression has no other letters than the form, and in every row it has the value of the function. -/
theorem parse_minimized {minterms maxterms : List Nat} (hsize : 0 < s.size)
    (hpart : IsPartition s minterms maxterms) (strategy : Strategy) :
    ∃ m, Minimized.ofPartition strategy s minterms maxterms = .ok m ∧
      m.sop.kind = .sumOfProducts ∧ m.pos.kind = .productOfSums ∧
      ∀ form ∈ [m.sop, m.pos], form.letters = s ∧
        (form.constant? = none →
          (∀ c ∈ form.cubes, 0 < c.literalCount) ∧
          ∃ g, Formula.parse form.render = .ok g ∧ form.kind.expr? form.terms = some g.root ∧
            g.letters.toList ⊆ s.toList ∧
            ∀ row < 2 ^ s.size, ∀ v, s.ReadsRow row v →
              g.root.eval v = decide (row ∈ minterms)) := by
  refine ⟨_, Minimized.ofPartitionIn_eq_ok hsize hpart .listed strategy, rfl, rfl,
    fun form hform => ?_⟩
  rcases List.mem_pair.1 hform with rfl | rfl
  · refine ⟨rfl, fun hconst => ?_⟩
    refine Form.exists_parse_table (fun _ => hpart.lt_of_mem) hconst hpart.nodup fun row hrow => ?_
    exact decide_eq_true_iff.symm
  · refine ⟨rfl, fun hconst => ?_⟩
    refine Form.exists_parse_table (fun _ => hpart.symm.lt_of_mem) hconst hpart.symm.nodup
      fun row hrow => ?_
    -- A product of sums is false on the zeros, which are the rows that are not ones.
    rw [hpart.mem_maxterms hrow]
    exact decide_eq_false_iff_not.symm

/-- The product of sums of a function of three letters, whose text is false in a row of zeros. -/
theorem parse_minimized_cyclic :
    0 < (Letters.ofChars ['A', 'B', 'C']).size ∧
      IsPartition (.ofChars ['A', 'B', 'C']) [0, 1, 2, 5, 6, 7] [3, 4] ∧
      ∃ m, Minimized.ofPartition .exact (.ofChars ['A', 'B', 'C'])
          [0, 1, 2, 5, 6, 7] [3, 4] = .ok m ∧
        m.pos ∈ [m.sop, m.pos] ∧ m.pos.constant? = none ∧ 4 < 2 ^ 3 ∧
        (Letters.ofChars ['A', 'B', 'C']).ReadsRow 4
          ((Letters.ofChars ['A', 'B', 'C']).valueAt 4) ∧
        ∃ g, Formula.parse m.pos.render = .ok g ∧
          g.root.eval ((Letters.ofChars ['A', 'B', 'C']).valueAt 4) = false := by
  have hsize : (Letters.ofChars ['A', 'B', 'C']).size = 3 := by decide
  have hpart : IsPartition (.ofChars ['A', 'B', 'C']) [0, 1, 2, 5, 6, 7] [3, 4] := by
    rw [IsPartition, hsize]
    decide
  have hpos : 0 < (Letters.ofChars ['A', 'B', 'C']).size := by rw [hsize]; decide
  have hrow := (Letters.ofChars ['A', 'B', 'C']).readsRow_valueAt 4
  obtain ⟨m, hm, -, -, hforms⟩ := parse_minimized hpos hpart .exact
  have hsame := (Minimized.ofPartitionIn_eq_ok hpos hpart .listed .exact).symm.trans hm
  have hconst : m.pos.constant? = none := by
    rw [← Except.ok.inj hsame, Form.constant?, Form.body_ofTargets (by decide)
      (by rw [hsize]; decide)]
  have hmem : m.pos ∈ [m.sop, m.pos] := by simp
  obtain ⟨-, g, hg, -, -, heval⟩ := (hforms m.pos hmem).2 hconst
  rw [hsize] at heval
  exact ⟨hpos, hpart, m, hm, hmem, hconst, by decide, hrow, g, hg,
    heval 4 (by decide) _ hrow⟩

end TwoLevel

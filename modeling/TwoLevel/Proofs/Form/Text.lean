import TwoLevel.Proofs.Expr.Grammar
import TwoLevel.Proofs.Form.Terms

/-!
# Forms as expressions

This file proves that the tokens of a form with terms are a phrase of the notation: they mean the
terms joined from the left, each of them the literals joined from the left. The parentheses around
the sums of a product are just those that the grammar asks for.

## Main definitions

- `Literal.expr`, `FormKind.termExpr?` — the expressions of literals and terms

## Main statements

- `Form.derives_tokens` — what the tokens of a form mean
- `FormKind.eval_join` — the value of this expression is that of the terms
-/

namespace TwoLevel

/-- The expression of a literal. -/
def Literal.expr (l : Literal) : Expr :=
  if l.complemented then .not (.letter l.letter) else .letter l.letter

/-- The expression of a term, its literals joined from the left; an empty term has none. -/
def FormKind.termExpr? (kind : FormKind) : List Literal → Option Expr
  | [] => none
  | l :: ls => some (l.expr.join kind.inner (ls.map Literal.expr))

variable {f : Form} {kind : FormKind} {c : Cube} {e : Expr} {es : List Expr} {v : Char → Bool}
  {term : List Literal} {terms : List (List Literal)}

theorem intercalate_cons {α : Type} (a : α) (first : List α) (others : List (List α)) :
    List.intercalate [a] (first :: others) = first ++ others.flatMap (a :: ·) := by
  induction others generalizing first with
  | nil => simp
  | cons other others ih =>
    rw [List.intercalate_cons_cons, ih other, List.flatMap_cons]
    simp

/-! ### Tokens -/

namespace Literal

theorem derives (l : Literal) : Derives 4 l.tokens l.expr := by
  rw [tokens, expr]
  split
  · exact (Derives.letter l.letter).lift.not
  · exact (Derives.letter l.letter).lift

end Literal

/-- The tokens of a term without parentheses. -/
theorem FormKind.derives_term (h : kind.termExpr? term = some e) :
    Derives kind.inner.precedence
      (List.intercalate [.binary kind.inner] (term.map Literal.tokens)) e := by
  cases term with
  | nil => cases h
  | cons l ls =>
    obtain rfl := Option.some.inj h
    have hop := kind.inner.precedence_mem
    rw [List.map_cons, intercalate_cons]
    refine (l.derives.of_le (by omega)).join ?_
    rw [List.forall₂_map_left_iff, List.forall₂_map_right_iff, List.forall₂_same]
    exact fun l _ => l.derives.of_le (by omega)

namespace Form

/-- The tokens of a term are a phrase that may stand among several terms, or alone. -/
theorem derives_termTokens (hc : c.Fits f.letters.size)
    (h : f.kind.termExpr? (f.literals c) = some e) :
    Derives (if 1 < f.termCount then f.kind.outer.precedence + 1 else 1) (f.termTokens c) e := by
  have hterm := FormKind.derives_term h
  rw [termTokens, ← length_literals hc]
  by_cases hseveral : 1 < f.termCount
  · rw [if_pos hseveral]
    cases hkind : f.kind with
    | sumOfProducts =>
      -- Products bind more tightly than the sum around them and need no parentheses.
      rw [hkind] at hterm
      show Derives 2 _ e
      simpa using hterm.of_le (by decide : 2 ≤ 3)
    | productOfSums =>
      rw [hkind] at hterm h
      show Derives 4 _ e
      by_cases hlong : 1 < (f.literals c).length
      · have hgroup := hterm.group.lift
        simpa [hseveral, hlong] using hgroup
      · -- A sum of a single literal binds as tightly as the literal.
        cases hliterals : f.literals c with
        | nil => simp [hliterals, FormKind.termExpr?] at h
        | cons l ls =>
          obtain rfl : ls = [] := by
            rw [hliterals, List.length_cons] at hlong
            exact List.length_eq_zero_iff.1 (by omega)
          rw [hliterals] at h
          obtain rfl := Option.some.inj h
          simpa [hseveral, Expr.join] using l.derives
  · have hop := f.kind.inner.precedence_mem
    rw [if_neg hseveral]
    simpa [hseveral] using hterm.of_le hop.1

/-- The tokens of a form whose terms have literals mean the expressions of the terms, joined from
the left. -/
theorem derives_tokens (hfits : ∀ c ∈ f.cubes, c.Fits f.letters.size) (hne : f.cubes ≠ [])
    (hliterals : ∀ c ∈ f.cubes, f.literals c ≠ []) :
    ∃ e es, List.Forall₂ (fun term e => f.kind.termExpr? term = some e) f.terms (e :: es) ∧
      Derives 1 f.tokens (e.join f.kind.outer es) := by
  have hop := f.kind.outer.precedence_mem
  obtain ⟨trees, htrees⟩ : ∃ trees, List.Forall₂
      (fun c e => c.Fits f.letters.size ∧ f.kind.termExpr? (f.literals c) = some e)
      f.cubes trees := by
    refine exists_forall₂ fun c hc => ?_
    obtain ⟨l, ls, hls⟩ := List.exists_cons_of_ne_nil (hliterals c hc)
    exact ⟨_, hfits c hc, by rw [hls]; rfl⟩
  have hterms : List.Forall₂ (fun term e => f.kind.termExpr? term = some e) f.terms trees := by
    rw [terms, List.forall₂_map_left_iff]
    exact htrees.imp fun _ _ h => h.2
  have hcount : f.termCount = f.cubes.length := rfl
  rw [tokens]
  generalize f.cubes = cubes at htrees hne hcount
  cases htrees with
  | nil => exact absurd rfl hne
  | @cons c e cs es hfirst hothers =>
    refine ⟨e, es, hterms, ?_⟩
    have hfirst := derives_termTokens hfirst.1 hfirst.2
    have hall := hothers
    rw [List.map_cons, intercalate_cons]
    -- A single term stands alone, and several are joined; the parentheses differ.
    cases hothers with
    | nil =>
      rw [List.length_singleton] at hcount
      rw [if_neg (by omega)] at hfirst
      simpa [Expr.join] using hfirst
    | cons =>
      have hseveral : 1 < f.termCount := by
        rw [hcount, List.length_cons, List.length_cons]
        omega
      rw [if_pos hseveral] at hfirst
      refine (hfirst.lift.join ?_).of_le hop.1
      rw [List.forall₂_map_left_iff]
      refine hall.imp fun d e' h => ?_
      have hterm := derives_termTokens h.1 h.2
      rwa [if_pos hseveral] at hterm

end Form

/-! ### Letters -/

theorem Expr.mem_letters_join {op : Operator} {name : Char} :
    name ∈ (e.join op es).letters ↔ ∃ e' ∈ e :: es, name ∈ e'.letters := by
  induction es generalizing e with
  | nil => simp [join]
  | cons e' es ih =>
    rw [join, List.foldl_cons, ← join, ih]
    simp [letters, or_assoc]

theorem FormKind.mem_letters_termExpr? {name : Char} (h : kind.termExpr? term = some e)
    (hname : name ∈ e.letters) : ∃ l ∈ term, l.letter = name := by
  cases term with
  | nil => cases h
  | cons l ls =>
    obtain rfl := Option.some.inj h
    obtain ⟨e', he', hmem⟩ := Expr.mem_letters_join.1 hname
    rw [← List.map_cons] at he'
    obtain ⟨l', hl', rfl⟩ := List.mem_map.1 he'
    refine ⟨l', hl', ?_⟩
    rw [Literal.expr] at hmem
    split at hmem <;> simpa [Expr.letters, eq_comm] using hmem

/-- The letters of the expression of a form are those of its literals. -/
theorem FormKind.mem_letters_join {name : Char}
    (h : List.Forall₂ (fun term e => kind.termExpr? term = some e) terms (e :: es))
    (hname : name ∈ (e.join kind.outer es).letters) :
    ∃ term ∈ terms, ∃ l ∈ term, l.letter = name := by
  obtain ⟨e', he', hmem⟩ := Expr.mem_letters_join.1 hname
  generalize e :: es = trees at h he'
  induction h with
  | nil => cases he'
  | @cons term tree terms trees hfirst _ ih =>
    rcases List.mem_cons.1 he' with rfl | he'
    · exact ⟨term, List.mem_cons_self, mem_letters_termExpr? hfirst hmem⟩
    · obtain ⟨term', hterm', hl⟩ := ih he'
      exact ⟨term', List.mem_cons_of_mem _ hterm', hl⟩

/-! ### Values -/

namespace Expr

theorem eval_join_or : (e.join .or es).eval v = (e :: es).any (·.eval v) := by
  induction es generalizing e with
  | nil => simp [join]
  | cons e' es ih =>
    rw [join, List.foldl_cons, ← join, ih]
    simp [eval, Operator.apply, Bool.or_assoc]

theorem eval_join_and : (e.join .and es).eval v = (e :: es).all (·.eval v) := by
  induction es generalizing e with
  | nil => simp [join]
  | cons e' es ih =>
    rw [join, List.foldl_cons, ← join, ih]
    simp [eval, Operator.apply, Bool.and_assoc]

end Expr

theorem Literal.eval_expr (l : Literal) : l.expr.eval v = l.value v := by
  rw [expr, value]
  cases l.complemented <;> simp [Expr.eval]

/-- The expression of a product has the value of its literals together. -/
theorem Literal.all_value (h : FormKind.sumOfProducts.termExpr? term = some e) :
    term.all (·.value v) = e.eval v := by
  cases term with
  | nil => cases h
  | cons l ls =>
    obtain rfl := Option.some.inj h
    rw [FormKind.inner, Expr.eval_join_and, ← List.map_cons, List.all_map]
    exact List.all_congr rfl fun l => (l.eval_expr).symm

/-- The expression of a sum has the value of one of its literals. -/
theorem Literal.any_value (h : FormKind.productOfSums.termExpr? term = some e) :
    term.any (·.value v) = e.eval v := by
  cases term with
  | nil => cases h
  | cons l ls =>
    obtain rfl := Option.some.inj h
    rw [FormKind.inner, Expr.eval_join_or, ← List.map_cons, List.any_map]
    exact List.any_congr rfl fun l => (l.eval_expr).symm

/-- The expression of a form has the value of its terms. -/
theorem FormKind.eval_join
    (h : List.Forall₂ (fun term e => kind.termExpr? term = some e) terms (e :: es)) :
    (e.join kind.outer es).eval v = kind.value v terms := by
  cases kind with
  | sumOfProducts =>
    rw [outer, Expr.eval_join_or, value]
    generalize e :: es = trees at h
    induction h with
    | nil => rfl
    | cons hfirst _ ih => rw [List.any_cons, List.any_cons, Literal.all_value hfirst, ih]
  | productOfSums =>
    rw [outer, Expr.eval_join_and, value]
    generalize e :: es = trees at h
    induction h with
    | nil => rfl
    | cons hfirst _ ih => rw [List.all_cons, List.all_cons, Literal.any_value hfirst, ih]

end TwoLevel

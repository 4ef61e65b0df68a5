import TwoLevel.Expr.Grammar
import TwoLevel.Proofs.Lists

/-!
# Phrases as sequences

The grammar of expressions says how a phrase grows by one operator at a time. This file states the
notation once more by productions with repetitions, which mention no expressions, and proves that
both describe the same phrases.

## Main definitions

- `IsPhrase` — the tokens of a phrase: sequences of operands, negations, letters and groups
- `Expr.join` — expressions joined by an operator from the left

## Main statements

- `Derives.join` — what a sequence of operands means
- `isPhrase_iff` — a phrase is what means some expression
-/

namespace TwoLevel

/-- The tokens of a phrase of some level: disjunctions, exclusive disjunctions and conjunctions have
the levels of their operators, then come negations, then letters and groups. -/
inductive IsPhrase : Nat → List Token → Prop where
  /-- One or more phrases of the next level with an operator between them. -/
  | sequence (op : Operator) {first : List Token} {others : List (List Token)}
      (hfirst : IsPhrase (op.precedence + 1) first)
      (hothers : ∀ other ∈ others, IsPhrase (op.precedence + 1) other) :
      IsPhrase op.precedence (first ++ others.flatMap (.binary op :: ·))
  /-- A letter or a group with any number of apostrophes behind it. -/
  | negations {tokens : List Token} (h : IsPhrase 5 tokens) (count : Nat) :
      IsPhrase 4 (tokens ++ List.replicate count .not)
  /-- A letter. -/
  | letter (name : Char) : IsPhrase 5 [.letter name]
  /-- A phrase of the first level in parentheses. -/
  | group {tokens : List Token} (h : IsPhrase 1 tokens) :
      IsPhrase 5 (.leftParen :: (tokens ++ [.rightParen]))

variable {level : Nat} {tokens left right : List Token} {op : Operator}

/-- An expression joined with others by an operator, from the left. -/
def Expr.join (op : Operator) (first : Expr) (others : List Expr) : Expr :=
  others.foldl (.binary op) first

theorem Operator.precedence_mem (op : Operator) : 1 ≤ op.precedence ∧ op.precedence ≤ 3 := by
  cases op <;> decide

theorem exists_precedence_eq (hpos : 1 ≤ level) (hle : level ≤ 3) :
    ∃ op : Operator, op.precedence = level := by
  obtain rfl | rfl | rfl : level = 1 ∨ level = 2 ∨ level = 3 := by omega
  · exact ⟨.or, rfl⟩
  · exact ⟨.xor, rfl⟩
  · exact ⟨.and, rfl⟩

namespace IsPhrase

theorem level_le (h : IsPhrase level tokens) : level ≤ 5 := by
  cases h with
  | sequence op => have := op.precedence_mem; omega
  | negations => omega
  | letter => omega
  | group => omega

/-- A phrase of a level is also one of the level before. -/
theorem lift (hpos : 1 ≤ level) (h : IsPhrase (level + 1) tokens) : IsPhrase level tokens := by
  have hle := h.level_le
  by_cases hlevel : level = 4
  · subst hlevel
    simpa using h.negations 0
  · obtain ⟨op, rfl⟩ := exists_precedence_eq hpos (by omega)
    have hnone : ∀ other ∈ ([] : List (List Token)), IsPhrase (op.precedence + 1) other := by simp
    simpa using sequence op h hnone

theorem not (h : IsPhrase 4 tokens) : IsPhrase 4 (tokens ++ [.not]) := by
  generalize hlevel : 4 = level at h
  cases h with
  | sequence op => have := op.precedence_mem; omega
  | @negations tokens h count =>
    rw [List.append_assoc, ← List.replicate_succ']
    exact h.negations (count + 1)
  | letter => omega
  | group => omega

theorem binary (hleft : IsPhrase op.precedence left) (hright : IsPhrase (op.precedence + 1) right) :
    IsPhrase op.precedence (left ++ .binary op :: right) := by
  have hop := op.precedence_mem
  generalize hlevel : op.precedence = level at hleft
  cases hleft with
  | @sequence op' first others hfirst hothers =>
    obtain rfl := Operator.precedence_injective hlevel
    have hothers' : ∀ other ∈ others ++ [right], IsPhrase (op.precedence + 1) other := by
      intro other hother
      rcases List.mem_append.1 hother with hother | hother
      · exact hothers other hother
      · rwa [List.mem_singleton.1 hother]
    simpa using sequence op hfirst hothers'
  | negations => omega
  | letter => omega
  | group => omega

end IsPhrase

namespace Derives

variable {e : Expr}

theorem length_pos (h : Derives level tokens e) : 0 < tokens.length := by
  induction h with
  | lift h ih => exact ih
  | _ => simp

theorem level_le (h : Derives level tokens e) : level ≤ 5 := by
  induction h with
  | binary op => have := op.precedence_mem; omega
  | lift h ih => omega
  | _ => omega

/-- A phrase that is followed by others of the next level, with an operator between them, means
their expressions joined from the left. -/
theorem join {first : List Token} {others : List (List Token)} {es : List Expr}
    (hfirst : Derives op.precedence first e)
    (hothers : List.Forall₂ (Derives (op.precedence + 1)) others es) :
    Derives op.precedence (first ++ others.flatMap (.binary op :: ·)) (e.join op es) := by
  induction hothers generalizing first e with
  | nil => simpa [Expr.join] using hfirst
  | cons hother _ ih => simpa [Expr.join] using ih (hfirst.binary op hother)

theorem exists_negations (h : Derives 4 tokens e) (count : Nat) :
    ∃ e, Derives 4 (tokens ++ List.replicate count .not) e := by
  induction count with
  | zero => exact ⟨e, by simpa using h⟩
  | succ count ih =>
    obtain ⟨e', he'⟩ := ih
    refine ⟨.not e', ?_⟩
    rw [List.replicate_succ', ← List.append_assoc]
    exact he'.not

theorem isPhrase (h : Derives level tokens e) (hpos : 1 ≤ level) :
    IsPhrase level tokens := by
  induction h with
  | letter name => exact .letter name
  | group h ih => exact (ih le_rfl).group
  | not h ih => exact (ih (by omega)).not
  | binary op hl hr ihl ihr => exact (ihl hpos).binary (ihr (by omega))
  | lift h ih => exact (ih (by omega)).lift hpos

end Derives

/-- A phrase is a list of tokens that means some expression. -/
theorem isPhrase_iff (hpos : 1 ≤ level) :
    IsPhrase level tokens ↔ ∃ e, Derives level tokens e := by
  refine ⟨fun h => ?_, fun ⟨e, h⟩ => h.isPhrase hpos⟩
  clear hpos
  induction h with
  | sequence op hfirst hothers ihfirst ihothers =>
    obtain ⟨e, he⟩ := ihfirst
    obtain ⟨es, hes⟩ := exists_forall₂ ihothers
    exact ⟨_, he.lift.join hes⟩
  | negations h count ih =>
    obtain ⟨e, he⟩ := ih
    exact he.lift.exists_negations count
  | letter name => exact ⟨_, .letter name⟩
  | group h ih =>
    obtain ⟨e, he⟩ := ih
    exact ⟨e, he.group⟩

end TwoLevel

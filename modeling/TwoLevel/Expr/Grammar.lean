import TwoLevel.Expr.Printer

/-!
# The grammar of expressions

This file defines the notation by a grammar. A phrase has a level: a phrase of an operator's level
may be a sequence of phrases of the next level joined by this operator, the last two levels are
those of negations and of letters and groups. The grammar also says which expression a phrase means;
operators of one level associate to the left.

## Main definitions

- `Derives` — the tokens of a phrase of some level, and the expression that it means
- `Place.level` — the level of the phrases that may stand at a place

## Main statements

- `derives_tokensAt` — an expression is printed as a phrase that means it
-/

namespace TwoLevel

/-- A phrase of some level and the expression that it means. -/
inductive Derives : Nat → List Token → Expr → Prop where
  /-- A letter is a phrase of the last level. -/
  | letter (name : Char) : Derives 5 [.letter name] (.letter name)
  /-- So is any phrase of the first level in parentheses, which means the same. -/
  | group {tokens : List Token} {e : Expr} (h : Derives 1 tokens e) :
      Derives 5 (.leftParen :: (tokens ++ [.rightParen])) e
  /-- An apostrophe negates the phrase of the fourth level before it. -/
  | not {tokens : List Token} {e : Expr} (h : Derives 4 tokens e) :
      Derives 4 (tokens ++ [.not]) (.not e)
  /-- An operator joins a phrase of its own level with one of the next level. -/
  | binary {left right : List Token} {l r : Expr} (op : Operator)
      (hl : Derives op.precedence left l) (hr : Derives (op.precedence + 1) right r) :
      Derives op.precedence (left ++ .binary op :: right) (.binary op l r)
  /-- A phrase of a level is also one of the level before. -/
  | lift {level : Nat} {tokens : List Token} {e : Expr} (h : Derives (level + 1) tokens e) :
      Derives level tokens e

/-- A phrase of a level is also one of every level before. -/
theorem Derives.of_le {low high : Nat} {tokens : List Token} {e : Expr}
    (h : Derives high tokens e) (hle : low ≤ high) : Derives low tokens e := by
  induction hle with
  | refl => exact h
  | step _ ih => exact ih h.lift

namespace Place

/-- The level of the phrases that may stand at a place. -/
def level : Place → Nat
  | top => 1
  | negated => 4
  | leftOf op => op.precedence
  | rightOf op => op.precedence + 1

/-- Negations may stand at every place. -/
theorem level_le (place : Place) : place.level ≤ 4 := by
  cases place with
  | top => decide
  | negated => decide
  | leftOf op => cases op <;> decide
  | rightOf op => cases op <;> decide

/-- An operation that is not wrapped may stand at a place. -/
theorem level_le_of_wraps {place : Place} {op : Operator} (h : place.wraps op = false) :
    place.level ≤ op.precedence := by
  cases place with
  | top => cases op <;> decide
  | negated => cases h
  | leftOf parent => simpa [wraps, level] using h
  | rightOf parent => exact Nat.lt_of_not_le (of_decide_eq_false h)

end Place

/-- An expression is printed as a phrase that means it, at every place. -/
theorem derives_tokensAt (place : Place) (e : Expr) :
    Derives place.level (e.tokensAt place) e := by
  induction e generalizing place with
  | letter name => exact (Derives.letter name).of_le (Nat.le_succ_of_le place.level_le)
  | not operand ih => exact (Derives.not (ih .negated)).of_le place.level_le
  | binary op left right ihl ihr =>
    have inner := Derives.binary op (ihl (.leftOf op)) (ihr (.rightOf op))
    by_cases hwrap : place.wraps op = true
    · have hpos : 1 ≤ op.precedence := by cases op <;> decide
      simp only [Expr.tokensAt, hwrap, if_true]
      exact (Derives.group (inner.of_le hpos)).of_le (Nat.le_succ_of_le place.level_le)
    · simp only [Expr.tokensAt, hwrap, Bool.false_eq_true, if_false]
      exact inner.of_le (Place.level_le_of_wraps (by simpa using hwrap))

end TwoLevel

import TwoLevel.Operator

/-!
# Expressions

This file defines expression trees, the value of an expression under an assignment of truth values
to its variables, and the measures of a tree.

## Main definitions

- `Expr` — variables, negations and binary operations
- `Expr.eval` — the value of a tree
- `Expr.depth` — the number of nodes on the longest path from the root
- `Expr.letters` — the variables from left to right, once per occurrence
- `Expr.countNot`, `Expr.countOp` — how many nodes of a kind a tree has
-/

namespace TwoLevel

/-- An expression over single-letter variables. -/
inductive Expr where
  | letter (name : Char)
  | not (operand : Expr)
  | binary (op : Operator) (left right : Expr)
  deriving DecidableEq

namespace Expr

/-- The value of an expression when `value` gives the value of each variable. -/
def eval (value : Char → Bool) : Expr → Bool
  | letter name => value name
  | not operand => !operand.eval value
  | binary op left right => op.apply (left.eval value) (right.eval value)

/-- The number of nodes on the longest path from the root to a leaf. -/
def depth : Expr → Nat
  | letter _ => 1
  | not operand => operand.depth + 1
  | binary _ left right => max left.depth right.depth + 1

/-- The variables from left to right, once per occurrence. -/
def letters : Expr → List Char
  | letter name => [name]
  | not operand => operand.letters
  | binary _ left right => left.letters ++ right.letters

/-- The number of negations. -/
def countNot : Expr → Nat
  | letter _ => 0
  | not operand => operand.countNot + 1
  | binary _ left right => left.countNot + right.countNot

/-- The number of operations by `op`. -/
def countOp (op : Operator) : Expr → Nat
  | letter _ => 0
  | not operand => operand.countOp op
  | binary o left right => left.countOp op + right.countOp op + if o = op then 1 else 0

/-- The value depends only on the values of the variables that occur. -/
theorem eval_congr {v w : Char → Bool} {e : Expr} (h : ∀ c ∈ e.letters, v c = w c) :
    e.eval v = e.eval w := by
  induction e with
  | letter name => exact h name (by simp [letters])
  | not operand ih => simp [eval, ih h]
  | binary op left right ihl ihr =>
    have hl : left.eval v = left.eval w := ihl fun c hc => h c (by simp [letters, hc])
    have hr : right.eval v = right.eval w := ihr fun c hc => h c (by simp [letters, hc])
    simp [eval, hl, hr]

end Expr

end TwoLevel

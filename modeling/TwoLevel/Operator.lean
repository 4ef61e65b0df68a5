/-!
# Binary operators

This file defines the three binary operators of the notation with their symbol, their binding
strength and their truth function. All three associate to the left.

## Main definitions

- `Operator` — conjunction, exclusive or, disjunction
- `Operator.precedence` — binding strength, greater for the operator that binds more tightly
- `Operator.apply` — the truth function
-/

namespace TwoLevel

/-- A binary operator of the notation. -/
inductive Operator where
  /-- Conjunction, written as a full stop. -/
  | and
  /-- Exclusive or, written as a caret. -/
  | xor
  /-- Disjunction, written as a plus sign. -/
  | or
  deriving DecidableEq

namespace Operator

/-- Binding strength: conjunction binds most tightly, disjunction least. -/
def precedence : Operator → Nat
  | and => 3
  | xor => 2
  | or => 1

def symbol : Operator → Char
  | and => '.'
  | xor => '^'
  | or => '+'

/-- The truth function of the operator. -/
def apply : Operator → Bool → Bool → Bool
  | and, a, b => a && b
  | xor, a, b => a ^^ b
  | or, a, b => a || b

theorem precedence_injective {o p : Operator} (h : o.precedence = p.precedence) : o = p := by
  cases o <;> cases p <;> simp_all [precedence]

end Operator

end TwoLevel

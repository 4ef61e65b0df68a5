import TwoLevel.Expr.Basic
import TwoLevel.Token

/-!
# Printing expressions

This file prints an expression with as few parentheses as the notation allows. A tree is printed
as a list of tokens; its text is the symbols of these tokens and holds no blanks.

## Main definitions

- `Place` — where a subexpression stands in the expression around it
- `Place.wraps` — whether an operation must be put in parentheses at a place
- `Expr.tokensAt`, `Expr.tokens` — the tokens of an expression
- `Expr.render` — its text
-/

namespace TwoLevel

/-- Where a subexpression stands in the expression around it. -/
inductive Place where
  | top
  | negated
  | leftOf (op : Operator)
  | rightOf (op : Operator)
  deriving DecidableEq

/-- Whether an operation by `op` must be put in parentheses at a place. Operators associate to the
left, so an operator of equal strength is wrapped on the right only. -/
def Place.wraps : Place → Operator → Bool
  | top, _ => false
  | negated, _ => true
  | leftOf parent, op => op.precedence < parent.precedence
  | rightOf parent, op => op.precedence ≤ parent.precedence

namespace Expr

/-- The tokens of an expression that stands at a given place. -/
def tokensAt : Place → Expr → List Token
  | _, letter name => [.letter name]
  | _, not operand => operand.tokensAt .negated ++ [.not]
  | place, binary op left right =>
    let inner := left.tokensAt (.leftOf op) ++ .binary op :: right.tokensAt (.rightOf op)
    if place.wraps op then .leftParen :: (inner ++ [.rightParen]) else inner

def tokens (e : Expr) : List Token := e.tokensAt .top

/-- The text of an expression, with as few parentheses as possible and without blanks. -/
def render (e : Expr) : List Char := e.tokens.map Token.symbol

end Expr

end TwoLevel

import TwoLevel.Expr.Basic
import TwoLevel.Token

/-!
# Reading expressions

This file builds the tree of a list of lexemes. Finished subexpressions lie on one stack; operators
and opening parentheses that wait for their right side lie on another. A negation wraps the
subexpression finished last; a binary operator first combines everything that binds at least as
tightly, which makes all operators associate to the left.

## Main definitions

- `Pending` — an operator or opening parenthesis that waits for its right side
- `Reading` — the two stacks, and whether an operand must come next
- `Reading.feed` — the effect of one lexeme
- `Reading.finish` — the tree after the last lexeme
- `Expr.ofLexemes` — the tree of a list of lexemes
-/

namespace TwoLevel

/-- An operator or an opening parenthesis that waits for its right side, with its position. -/
inductive Pending where
  /-- A binary operator whose right operand is not finished. -/
  | operator (op : Operator) (position : Nat)
  /-- A parenthesis that is not closed. -/
  | paren (position : Nat)
  deriving DecidableEq

/-- The state of reading an expression from left to right. The last entry of each stack comes
first. -/
structure Reading where
  /-- The finished subexpressions that no operator has taken up. -/
  output : List Expr
  /-- The operators and parentheses that wait for their right side. -/
  pending : List Pending
  /-- Whether the next lexeme must start an operand. -/
  operandExpected : Bool
  deriving DecidableEq

namespace Reading

/-- The state before the first lexeme. -/
def start : Reading := ⟨[], [], true⟩

/-- Combine the two subexpressions finished last by an operator that stood at `position`. -/
def combine (op : Operator) (position : Nat) : List Expr → Except ParseError (List Expr)
  | right :: left :: output => .ok (.binary op left right :: output)
  | _ => .error (.missingOperand position)

/-- Carry out the pending operators that bind at least as tightly as `op`, down to the last
opening parenthesis. -/
def settle (op : Operator) :
    List Pending → List Expr → Except ParseError (List Pending × List Expr)
  | .operator top position :: pending, output =>
    if top.precedence < op.precedence then .ok (.operator top position :: pending, output)
    else do
      let output ← combine top position output
      settle op pending output
  | pending, output => .ok (pending, output)

/-- Carry out the pending operators down to the last opening parenthesis and drop this parenthesis,
when a closing one stands at `position`. -/
def close (position : Nat) :
    List Pending → List Expr → Except ParseError (List Pending × List Expr)
  | [], _ => .error (.unbalancedParenthesis position)
  | .paren _ :: pending, output => .ok (pending, output)
  | .operator op place :: pending, output => do
    let output ← combine op place output
    close position pending output

/-- Carry out all pending operators, unless a parenthesis is still open. -/
def drain : List Pending → List Expr → Except ParseError (List Expr)
  | [], output => .ok output
  | .paren position :: _, _ => .error (.unbalancedParenthesis position)
  | .operator op position :: pending, output => do
    let output ← combine op position output
    drain pending output

/-- The effect of one lexeme. -/
def feed (r : Reading) (lexeme : Lexeme) : Except ParseError Reading :=
  match lexeme.token with
  | .letter name =>
    if r.operandExpected then .ok ⟨.letter name :: r.output, r.pending, false⟩
    else .error (.missingOperator lexeme.position)
  | .not =>
    if r.operandExpected then .error (.danglingNot lexeme.position)
    else
      match r.output with
      | operand :: output => .ok ⟨.not operand :: output, r.pending, false⟩
      | [] => .error (.danglingNot lexeme.position)
  | .binary op =>
    if r.operandExpected then .error (.missingOperand lexeme.position)
    else do
      let (pending, output) ← settle op r.pending r.output
      return ⟨output, .operator op lexeme.position :: pending, true⟩
  | .leftParen =>
    if r.operandExpected then .ok ⟨r.output, .paren lexeme.position :: r.pending, true⟩
    else .error (.missingOperator lexeme.position)
  | .rightParen =>
    if r.operandExpected then .error (.missingOperand lexeme.position)
    else do
      let (pending, output) ← close lexeme.position r.pending r.output
      return ⟨output, pending, false⟩

/-- The effect of several lexemes, up to the first that does not fit. -/
def feedAll : Reading → List Lexeme → Except ParseError Reading
  | r, [] => .ok r
  | r, lexeme :: lexemes => do
    let r ← r.feed lexeme
    r.feedAll lexemes

/-- The tree when the text ends at position `stop`. -/
def finish (r : Reading) (stop : Nat) : Except ParseError Expr :=
  if r.operandExpected then .error (.missingOperand stop)
  else do
    match ← drain r.pending r.output with
    | [] => .error .emptyExpression
    | [root] => .ok root
    | _ => .error (.missingOperator stop)

end Reading

/-- The tree of the lexemes of a text that ends at position `stop`. -/
def Expr.ofLexemes (lexemes : List Lexeme) (stop : Nat) : Except ParseError Expr :=
  if lexemes.isEmpty then .error .emptyExpression
  else do
    let r ← Reading.start.feedAll lexemes
    r.finish stop

end TwoLevel

import TwoLevel.Text.Quoted

/-!
# Refused texts

This file defines the reasons for which a text is not an expression. A position counts the
characters of the text from zero, blanks included.

## Main definitions

- `ParseError` — the reasons
- `ParseError.position?` — the place a reason refers to
- `ParseError.message` — the reason in words
-/

namespace TwoLevel

/-- A reason for which a text is not an expression. -/
inductive ParseError where
  /-- The character at `position` is neither blank, nor a letter, nor a symbol of the notation. -/
  | invalidCharacter (character : Char) (position : Nat)
  /-- The apostrophe at `position` follows nothing that could be negated. -/
  | danglingNot (position : Nat)
  /-- The parenthesis at `position` has no partner. -/
  | unbalancedParenthesis (position : Nat)
  /-- The operand that starts at `position` follows another one directly. -/
  | missingOperator (position : Nat)
  /-- At `position` an operand should have started. -/
  | missingOperand (position : Nat)
  /-- The text holds no token at all. -/
  | emptyExpression
  deriving DecidableEq

namespace ParseError

/-- The position a reason refers to; only an empty text has none. -/
def position? : ParseError → Option Nat
  | invalidCharacter _ position => some position
  | danglingNot position => some position
  | unbalancedParenthesis position => some position
  | missingOperator position => some position
  | missingOperand position => some position
  | emptyExpression => none

def message : ParseError → String
  | invalidCharacter character position =>
    "Invalid character " ++ Quoted.ofChar character ++ " at position " ++ toString position
  | danglingNot position =>
    "Dangling NOT (') at position " ++ toString position ++ ": nothing to negate"
  | unbalancedParenthesis position => "Unbalanced parenthesis at position " ++ toString position
  | missingOperator position => "Missing operator before position " ++ toString position
  | missingOperand position => "Missing operand at position " ++ toString position
  | emptyExpression => "Empty expression"

end ParseError

end TwoLevel

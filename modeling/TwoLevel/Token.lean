import TwoLevel.Operator
import TwoLevel.ParseError
import TwoLevel.Text.Blank

/-!
# Tokens

This file defines the tokens of the notation and how a text is split into them. Every token is one
character long; blanks separate nothing and are skipped; a letter may be written in either case.

## Main definitions

- `Token` — letter, binary operator, negation or parenthesis
- `Token.ofChar?`, `Token.symbol` — reading and writing one token
- `Lexeme` — a token with its position in the text
- `tokenize` — all lexemes of a text, or the first character that is not allowed
-/

namespace TwoLevel

/-- A token of the notation. -/
inductive Token where
  | letter (name : Char)
  | binary (op : Operator)
  /-- Negation, written as an apostrophe behind its operand. -/
  | not
  | leftParen
  | rightParen
  deriving DecidableEq

namespace Token

/-- The token that a character denotes: a letter of the basic alphabet stands for its upper-case
form, six signs stand for themselves, and no other character is a token. -/
def ofChar? (c : Char) : Option Token :=
  if c.isAlpha then some (letter c.toUpper)
  else if c = '.' then some (binary .and)
  else if c = '+' then some (binary .or)
  else if c = '^' then some (binary .xor)
  else if c = '\'' then some not
  else if c = '(' then some leftParen
  else if c = ')' then some rightParen
  else none

def symbol : Token → Char
  | letter name => name
  | binary op => op.symbol
  | not => '\''
  | leftParen => '('
  | rightParen => ')'

/-- The variable that a token names, if it is a letter. -/
def letter? : Token → Option Char
  | letter name => some name
  | _ => none

end Token

/-- A token together with its position in the text. -/
structure Lexeme where
  token : Token
  position : Nat
  deriving DecidableEq

/-- The lexemes of a text whose first character stands at position `start`. -/
def tokenizeFrom (start : Nat) : List Char → Except ParseError (List Lexeme)
  | [] => .ok []
  | c :: cs =>
    if isBlank c then tokenizeFrom (start + 1) cs
    else
      match Token.ofChar? c with
      | none => .error (.invalidCharacter c start)
      | some token => (tokenizeFrom (start + 1) cs).map (⟨token, start⟩ :: ·)

/-- The lexemes of a text in order, or the first character that is not allowed. -/
def tokenize (text : List Char) : Except ParseError (List Lexeme) :=
  tokenizeFrom 0 text

end TwoLevel

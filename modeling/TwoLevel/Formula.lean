import TwoLevel.Expr.Parser
import TwoLevel.Expr.Printer
import TwoLevel.Letters
import TwoLevel.Assignment

/-!
# Formulas

This file defines the result of reading a text: an expression together with the set of its letters,
whose order gives the columns of its truth table.

## Main definitions

- `Formula` — an expression and its letters
- `Formula.parse` — the formula of a text, or the reason for which there is none
- `Formula.eval` — the value under an assignment of its letters
-/

namespace TwoLevel

/-- An expression with the set of its letters. -/
structure Formula where
  root : Expr
  letters : Letters
  deriving DecidableEq

namespace Formula

/-- The formula that a list of lexemes denotes, when the text ends at position `stop`. -/
def ofLexemes (lexemes : List Lexeme) (stop : Nat) : Except ParseError Formula := do
  let root ← Expr.ofLexemes lexemes stop
  return ⟨root, Letters.ofChars (lexemes.filterMap fun lexeme => lexeme.token.letter?)⟩

/-- The formula that a text denotes. A character that is not allowed is reported before anything
else; after that the reason is the first place at which the tokens stop making sense. -/
def parse (text : List Char) : Except ParseError Formula := do
  let lexemes ← tokenize text
  ofLexemes lexemes text.length

/-- The value under an assignment of the letters in order; a letter without a value counts as
false, values beyond the last letter are ignored. -/
def eval (f : Formula) (a : Assignment) : Bool :=
  f.root.eval fun name => ((f.letters.indexOf? name).bind a.value?).getD false

def render (f : Formula) : List Char := f.root.render

end Formula

end TwoLevel

import TwoLevel.Assignment
import TwoLevel.Cover.Selection
import TwoLevel.Letters
import TwoLevel.Token

/-!
# Two-level forms

This file defines sums of products and products of sums. Both are given by cubes: a product is true
exactly on its cube, a sum is false exactly on its cube. A function without zeros or without ones
has a constant form.

## Main definitions

- `FormKind` — sum of products or product of sums
- `Literal` — a letter, possibly complemented
- `Form` — a form over some letters
- `Form.terms` — the literals of each term
- `Form.evalIndex`, `Form.eval` — the value on a row
- `Form.render` — the text of a form
-/

namespace TwoLevel

/-- The two kinds of two-level forms. -/
inductive FormKind where
  /-- A disjunction of conjunctions of literals. -/
  | sumOfProducts
  /-- A conjunction of disjunctions of literals. -/
  | productOfSums
  deriving DecidableEq

namespace FormKind

/-- The value of a variable that is written as a plain literal. -/
def plain : FormKind → Bool
  | sumOfProducts => true
  | productOfSums => false

/-- The operator between the literals of a term. -/
def inner : FormKind → Operator
  | sumOfProducts => .and
  | productOfSums => .or

/-- The operator between the terms. -/
def outer : FormKind → Operator
  | sumOfProducts => .or
  | productOfSums => .and

end FormKind

/-- A letter, possibly complemented. -/
structure Literal where
  letter : Char
  complemented : Bool
  deriving DecidableEq

namespace Literal

/-- The tokens of a literal: a complement is written as an apostrophe behind the letter. -/
def tokens (l : Literal) : List Token :=
  if l.complemented then [.letter l.letter, .not] else [.letter l.letter]

def render (l : Literal) : List Char := l.tokens.map Token.symbol

end Literal

/-- What a form consists of. -/
inductive FormBody where
  /-- One value on all rows. -/
  | constant (value : Bool)
  /-- One term for each cube. -/
  | cubes (cubes : List Cube)
  deriving DecidableEq

/-- A two-level form over some letters. -/
structure Form where
  kind : FormKind
  letters : Letters
  body : FormBody
  deriving DecidableEq

namespace Form

/-- The value of a constant form. -/
def constant? (f : Form) : Option Bool :=
  match f.body with
  | .constant value => some value
  | .cubes _ => none

/-- The cubes of the terms in order; a constant form has none. -/
def cubes (f : Form) : List Cube :=
  match f.body with
  | .constant _ => []
  | .cubes cs => cs

def termCount (f : Form) : Nat := f.cubes.length

/-- The number of literals of all terms. -/
def literalCount (f : Form) : Nat := Cube.literalTotal f.cubes

/-- The literals of the term of a cube, in the order of the letters. -/
def literals (f : Form) (c : Cube) : List Literal :=
  f.letters.toList.zipIdx.filterMap fun (letter, position) =>
    (c.value? position).map fun value => ⟨letter, value != f.kind.plain⟩

/-- The literals of each term. -/
def terms (f : Form) : List (List Literal) := f.cubes.map f.literals

/-- The value on the row with a given index. -/
def evalIndex (f : Form) (index : Nat) : Bool :=
  match f.body, f.kind with
  | .constant value, _ => value
  | .cubes cs, .sumOfProducts => cs.any (·.covers index)
  | .cubes cs, .productOfSums => !cs.any (·.covers index)

/-- The value under an assignment of the letters. -/
def eval (f : Form) (a : Assignment) : Bool := f.evalIndex a.index

/-- The tokens of the term of a cube. A sum of several literals is put in parentheses if the
product has several factors. -/
def termTokens (f : Form) (c : Cube) : List Token :=
  let inner := List.intercalate [.binary f.kind.inner] ((f.literals c).map Literal.tokens)
  if f.kind = .productOfSums && 1 < f.termCount && 1 < c.literalCount then
    .leftParen :: (inner ++ [.rightParen])
  else inner

/-- The tokens of all terms with the operators between them. -/
def tokens (f : Form) : List Token :=
  List.intercalate [.binary f.kind.outer] (f.cubes.map f.termTokens)

/-- The text of a form: a digit for a constant, else its terms in the notation of expressions. -/
def render (f : Form) : List Char :=
  match f.body with
  | .constant value => [if value then '1' else '0']
  | .cubes _ => f.tokens.map Token.symbol

end Form

end TwoLevel

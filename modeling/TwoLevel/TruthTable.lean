import TwoLevel.Fault
import TwoLevel.Formula

/-!
# Truth tables

This file defines the complete table of a function of some letters: one output for each row, in
the order of the row indices. A table without letters has one row.

## Main definitions

- `TruthTable` — letters and outputs
- `TruthTable.ofFun`, `TruthTable.ofFormula`, `TruthTable.ofText` — the table of a function, of a
  formula and of a text
- `TruthTable.markAll`, `TruthTable.ofMinterms` — the table of a list of rows, marked one by one
- `TruthTable.rows`, `TruthTable.minterms`, `TruthTable.maxterms` — what a table lists
- `TruthTable.render` — a table as text
-/

namespace TwoLevel

/-- The complete table of a function of some letters, one output for each row. -/
structure TruthTable where
  letters : Letters
  outputs : List Bool
  length_outputs : outputs.length = letters.rowCount
  deriving DecidableEq

/-- A row of a table: the values of the letters, and the output. -/
structure Row where
  assignment : Assignment
  output : Bool
  deriving DecidableEq

namespace TruthTable

/-- The table whose row `i` has the output `f i`. -/
def ofFun (letters : Letters) (f : Nat → Bool) : TruthTable :=
  ⟨letters, (List.range letters.rowCount).map f, by simp⟩

/-- The number of letters that is allowed under a configured limit: never more than there are. -/
def effectiveLimit (limit : Nat) : Nat := min limit 26

/-- The table of a formula, unless it has more letters than the limit allows. -/
def ofFormula (limit : Nat) (f : Formula) : Except EvalError TruthTable :=
  let width := f.letters.size
  if effectiveLimit limit < width then .error (.tooManyLetters width (effectiveLimit limit))
  else .ok <| ofFun f.letters fun index =>
    f.root.eval fun name => (f.letters.indexOf? name).elim false (bitAt index width)

/-- Set the outputs of some rows to true, one row after another, until there is no such row. -/
def markAll {count : Nat} (outputs : Vector Bool count) :
    List Nat → Except MinimizeError (Vector Bool count)
  | [] => .ok outputs
  | row :: rows =>
    if h : row < count then markAll (outputs.set row true h) rows else .error (.notPartition row)

/-- The table on which just the listed rows are marked, or the first listed row that it does not
have. -/
def ofMinterms (letters : Letters) (minterms : List Nat) : Except MinimizeError TruthTable :=
  (markAll (Vector.replicate letters.rowCount false) minterms).map fun outputs =>
    ⟨letters, outputs.toList, outputs.length_toList⟩

/-- The table of the formula that a text denotes. -/
def ofText (limit : Nat) (text : List Char) : Except Fault TruthTable := do
  let f ← (Formula.parse text).mapError .parse
  (ofFormula limit f).mapError .evaluation

def width (t : TruthTable) : Nat := t.letters.size

def size (t : TruthTable) : Nat := t.outputs.length

/-- The row with a given index. -/
def row? (t : TruthTable) (index : Nat) : Option Row :=
  (t.outputs[index]?).map fun output => ⟨.ofIndex index t.width, output⟩

/-- All rows in the order of their indices. -/
def rows (t : TruthTable) : List Row :=
  t.outputs.zipIdx.map fun (output, index) => ⟨.ofIndex index t.width, output⟩

/-- The indices of the rows with a given output, ascending. -/
def indicesOf (value : Bool) (t : TruthTable) : List Nat :=
  t.outputs.zipIdx.filterMap fun (output, index) => if output = value then some index else none

/-- The indices of the rows with output true, ascending. -/
def minterms (t : TruthTable) : List Nat := t.indicesOf true

/-- The indices of the rows with output false, ascending. -/
def maxterms (t : TruthTable) : List Nat := t.indicesOf false

/-- The digit of a truth value. -/
def digit (value : Bool) : Char := if value then '1' else '0'

/-- A table as text: a heading, a rule, and a line for each row, with a column for each letter and
one for the output. -/
def render (t : TruthTable) : List Char :=
  let line (cells : List Char) (last : Char) : List Char :=
    cells.flatMap (fun c => [c, ' ']) ++ ['|', ' ', last, '\n']
  line t.letters.toList 'F' ++
    (List.replicate (2 * t.width) '-' ++ ['+', '-', '-', '\n']) ++
    t.rows.flatMap fun row => line (row.assignment.values.map digit) (digit row.output)

end TruthTable

end TwoLevel

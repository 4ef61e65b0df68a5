import TwoLevel.Minimize

/-!
# Descriptions of programmable logic arrays

This file writes tables and minimized forms in the text format of programmable logic arrays: some
headers, then one line for each cube with its pattern and the output that it asserts. A table is
written row by row. Of two minimized forms the products assert ones and the sums assert zeros.

## Main definitions

- `PlaKind` — whether only ones are listed, or zeros too
- `PlaLine` — a pattern and the output it asserts
- `Pla` — a description
- `Pla.ofTable`, `Pla.ofMinimized` — the descriptions of a table and of its forms
- `Pla.render` — a description as text
-/

namespace TwoLevel

/-- Which rows a description lists. -/
inductive PlaKind where
  /-- The rows with output one. -/
  | ones
  /-- The rows with output one and those with output zero. -/
  | onesAndZeros
  deriving DecidableEq

/-- A line of a description: the rows that match the inputs have the output. -/
structure PlaLine where
  inputs : List (Option Bool)
  output : Bool
  deriving DecidableEq

/-- A description of a function of some letters. -/
structure Pla where
  kind : PlaKind
  letters : Letters
  lines : List PlaLine
  deriving DecidableEq

namespace PlaLine

/-- Whether the row of an assignment matches the inputs of a line. -/
def fits (l : PlaLine) (a : Assignment) : Bool :=
  l.inputs.length = a.values.length && (l.inputs.zip a.values).all fun (i, v) => i.all (· == v)

def render (l : PlaLine) : List Char :=
  l.inputs.map Cube.symbol ++ [' ', TruthTable.digit l.output]

end PlaLine

namespace Pla

/-- The description of a table by its rows in order. -/
def ofTable (kind : PlaKind) (t : TruthTable) : Pla :=
  ⟨kind, t.letters, (t.rows.filter fun row => row.output || kind = .onesAndZeros).map fun row =>
    ⟨row.assignment.values.map some, row.output⟩⟩

/-- The lines of a form whose cubes assert `output`. A constant form asserts it everywhere or
nowhere. -/
def linesOfForm (f : Form) (output : Bool) : List PlaLine :=
  match f.body with
  | .constant value =>
    if value = output then [⟨List.replicate f.letters.size none, output⟩] else []
  | .cubes cs => cs.map fun c => ⟨c.inputs, output⟩

/-- The description of a function by its minimized forms. -/
def ofMinimized (kind : PlaKind) (m : Minimized) : Pla :=
  ⟨kind, m.letters, linesOfForm m.sop true ++
    if kind = .onesAndZeros then linesOfForm m.pos false else []⟩

/-- The headers in front of the lines. -/
def headers (p : Pla) : List (List Char) :=
  (if p.kind = .onesAndZeros then [['.', 't', 'y', 'p', 'e', ' ', 'f', 'r']] else []) ++
  [['.', 'i', ' '] ++ Nat.toDigits 10 p.letters.size] ++
  (if p.letters.toList.isEmpty then []
    else [['.', 'i', 'l', 'b'] ++ p.letters.toList.flatMap fun c => [' ', c]]) ++
  [['.', 'o', ' ', '1'], ['.', 'o', 'b', ' ', 'F'],
    ['.', 'p', ' '] ++ Nat.toDigits 10 p.lines.length]

def footer (p : Pla) : List Char :=
  match p.kind with
  | .ones => ['.', 'e']
  | .onesAndZeros => ['.', 'e', 'n', 'd']

def render (p : Pla) : List Char :=
  (p.headers ++ p.lines.map PlaLine.render ++ [p.footer]).flatMap (· ++ ['\n'])

end Pla

end TwoLevel

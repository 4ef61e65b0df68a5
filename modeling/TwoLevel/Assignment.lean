/-!
# Assignments and row indices

This file relates the two ways to name a row of a truth table: by the values of the variables, and
by a number. The first value is the most significant binary digit. Row indices are words of
sixty-four binary digits.

## Main definitions

- `bitAt` — the digit of an index that belongs to a position
- `Assignment` — the values of some variables in order
- `Assignment.index`, `Assignment.ofIndex` — from values to an index and back
-/

namespace TwoLevel

/-- The value of the variable at `position` in row `index` of a table with `width` variables. -/
def bitAt (index width position : Nat) : Bool :=
  index.testBit (width - 1 - position)

/-- The values of some variables in order. -/
structure Assignment where
  values : List Bool
  deriving DecidableEq

namespace Assignment

/-- The values that row `index` gives to `width` variables. -/
def ofIndex (index width : Nat) : Assignment :=
  ⟨(List.range width).map (bitAt index width)⟩

/-- The index of the row that an assignment names. Each value is shifted into a word of sixty-four
digits from the right, so that of a longer list the oldest values are lost. -/
def index (a : Assignment) : Nat :=
  a.values.foldl (fun acc value => (2 * acc + value.toNat) % UInt64.size) 0

def value? (a : Assignment) (position : Nat) : Option Bool := a.values[position]?

end Assignment

end TwoLevel

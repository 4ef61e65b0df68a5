import TwoLevel.Word
import Std.Data.TreeSet

/-!
# Cubes

This file defines cubes: sets of rows that fix the values of some variables and leave the others
free. A cube is stored as two words. The digit of the variable at position `p` among `w` variables
is the digit `w - 1 - p` of either word, as it is in a row index. A free digit is zero in the word
of values, so that cubes with the same rows are equal.

## Main definitions

- `Cube` — the values of the fixed variables, and which variables are free
- `Cube.ofRow` — the cube of a single row
- `Cube.covers` — whether a row lies in a cube; `Cube.CoverNone` — none of some rows lies in any of
  some cubes
- `Cube.value?`, `Cube.inputs` — a cube seen as a list of positions
- `Cube.neighbours`, `Cube.upperNeighbours`, `Cube.combine` — cubes that differ in one fixed digit,
  and their union
- `Cube.orderKey` — the order in which terms are preferred and listed
- `CubeSet` — finite sets of cubes; `Cube.ascending` lists one by the words of its cubes
-/

namespace TwoLevel

/-- A set of rows over `width` variables: those that agree with `bits` wherever `free` is zero. -/
structure Cube where
  width : Nat
  bits : Word
  free : Word
  deriving DecidableEq

namespace Cube

/-- The cube of a single row. Of a row index the lowest thirty-two digits are kept. -/
def ofRow (row width : Nat) : Cube := ⟨width, Word.ofNat row, 0⟩

/-- The place in the words of the digit that belongs to a position. -/
def placeOf (c : Cube) (position : Nat) : Nat := c.width - 1 - position

/-- The value that the variable at a position must have, or none if it is free. -/
def value? (c : Cube) (position : Nat) : Option Bool :=
  let place := c.placeOf position
  if Word.digit c.free place then none else some (Word.digit c.bits place)

/-- The required values of all variables in order. -/
def inputs (c : Cube) : List (Option Bool) := (List.range c.width).map c.value?

/-- Whether a row lies in the cube. The comparison sees the lowest thirty-two digits of the row. -/
def covers (c : Cube) (row : Nat) : Bool := (Word.ofNat row &&& ~~~c.free) == c.bits

/-- None of the rows lies in any of the cubes. -/
def CoverNone (cubes : List Cube) (rows : List Nat) : Prop :=
  ∀ c ∈ cubes, ∀ row ∈ rows, c.covers row = false

namespace CoverNone

variable {cubes : List Cube} {rows : List Nat}

theorem filter (h : CoverNone cubes rows) (p : Nat → Bool) : CoverNone cubes (rows.filter p) :=
  fun c hc row hrow => h c hc row (List.mem_filter.1 hrow).1

/-- A cube may be added when its rows are left out. -/
theorem cons (h : CoverNone cubes rows) (c : Cube) :
    CoverNone (c :: cubes) (rows.filter fun row => !c.covers row) := by
  intro d hd row hrow
  rcases List.mem_cons.1 hd with rfl | hd
  · simpa using (List.mem_filter.1 hrow).2
  · exact h.filter _ d hd row hrow

theorem contains_eq_false (h : CoverNone cubes rows) {c : Cube} {row : Nat} (hrow : row ∈ rows)
    (hcov : c.covers row = true) : cubes.contains c = false := by
  rw [List.contains_eq_mem, decide_eq_false_iff_not]
  intro hc
  rw [h c hc row hrow] at hcov
  cases hcov

end CoverNone

/-- The number of fixed variables. -/
def literalCount (c : Cube) : Nat := c.width - Word.ones c.free

/-- The number of fixed variables of some cubes together. -/
def literalTotal (cubes : List Cube) : Nat :=
  cubes.foldr (fun c rest => c.literalCount + rest) 0

/-- The number of variables that must be true. -/
def ones (c : Cube) : Nat := Word.ones c.bits

/-- The cube with the value of one digit changed. -/
def flip (c : Cube) (place : Nat) : Cube := { c with bits := c.bits ^^^ Word.single place }

/-- The cubes with the same free variables that differ in the value of exactly one variable, in
ascending order of its place. -/
def neighbours (c : Cube) : List Cube :=
  ((List.range c.width).filter fun place => !Word.digit c.free place).map c.flip

/-- The neighbours that have one more digit one. -/
def upperNeighbours (c : Cube) : List Cube :=
  ((List.range c.width).filter fun place =>
    !Word.digit c.free place && !Word.digit c.bits place).map c.flip

/-- The union of two cubes that differ in the value of exactly one variable. -/
def combine (c d : Cube) : Option Cube :=
  let difference := c.bits ^^^ d.bits
  if c.width = d.width ∧ c.free = d.free ∧ Word.ones difference = 1 then
    some ⟨c.width, c.bits &&& ~~~difference, c.free ||| difference⟩
  else none

/-- The order in which terms are preferred and listed: position by position a plain literal comes
before a complemented one, and this before a free variable. The truth value `plain` is the one that
is written as a plain literal. -/
def orderKey (plain : Bool) (c : Cube) : List Nat :=
  c.inputs.map fun
    | some value => if value = plain then 0 else 1
    | none => 2

/-- The character of a position in a pattern. -/
def symbol : Option Bool → Char
  | some false => '0'
  | some true => '1'
  | none => '-'

/-- The positions of a cube as a pattern. -/
def pattern (c : Cube) : List Char := c.inputs.map symbol

/-- The order of cubes by width, then by the word of values, then by the word of free variables. -/
def order (c d : Cube) : Ordering :=
  (compare c.width d.width).then ((compare c.bits d.bits).then (compare c.free d.free))

instance : Std.TransCmp order :=
  inferInstanceAs (Std.TransCmp (compareLex (compareOn width)
    (compareLex (compareOn bits) (compareOn free))))

instance : Std.LawfulEqCmp order where
  compare_self := Std.ReflCmp.compare_self
  eq_of_compare {c d} h := by
    simp only [order, Ordering.then_eq_eq, Std.LawfulEqCmp.compare_eq_iff_eq] at h
    cases c
    cases d
    simp_all

end Cube

/-- Finite sets of cubes. -/
abbrev CubeSet := Std.TreeSet Cube Cube.order

/-- The set of the cubes in a list. -/
def CubeSet.ofList (cubes : List Cube) : CubeSet := Std.TreeSet.ofList cubes Cube.order

theorem CubeSet.mem_ofList {cubes : List Cube} {c : Cube} : c ∈ ofList cubes ↔ c ∈ cubes := by
  simp [ofList, Std.TreeSet.mem_ofList]

namespace Cube

/-- Some cubes in ascending order, without repetitions. -/
def ascending (cubes : List Cube) : List Cube := (CubeSet.ofList cubes).toList

theorem mem_ascending {cubes : List Cube} {c : Cube} : c ∈ ascending cubes ↔ c ∈ cubes := by
  rw [ascending, Std.TreeSet.mem_toList, CubeSet.mem_ofList]

theorem pairwise_ascending (cubes : List Cube) :
    (ascending cubes).Pairwise fun c d => order c d = .lt :=
  Std.TreeSet.ordered_toList

end Cube

end TwoLevel

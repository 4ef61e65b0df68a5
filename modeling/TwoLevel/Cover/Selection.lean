import TwoLevel.Cover.Exact
import TwoLevel.Cover.Greedy

/-!
# Selecting terms

This file selects from the prime cubes of a set of rows the terms of a form. The essential cubes
are taken first: each is the only one to cover some row. The rows that they leave uncovered are
covered by further cubes, greedily or exactly.

## Main definitions

- `Strategy` — how the further cubes are chosen
- `Cube.essentials` — the essential cubes
- `Selection` — what was selected, and how
- `Selection.ofPrimes` — the selection from the prime cubes of some rows
- `Selection.cubes` — the selected cubes in order

## Main statements

- `Cube.coverNone_uncoveredRows` — the essential cubes cover no row that is left
-/

namespace TwoLevel

/-- How the cubes beyond the essential ones are chosen. -/
inductive Strategy where
  /-- Each time the cube that covers the most uncovered rows is taken. -/
  | greedy
  /-- The best cover is searched for. -/
  | exact
  deriving DecidableEq

namespace Cube

/-- Some cubes in the order in which terms are listed. -/
def sortByKey (plain : Bool) (cubes : List Cube) : List Cube :=
  cubes.mergeSort fun c d => !decide (d.orderKey plain < c.orderKey plain)

/-- The cube that covers a row if there is exactly one in the list. -/
def soleOwner? (cubes : List Cube) (row : Nat) : Option Cube :=
  match cubes.filter (·.covers row) with
  | [c] => some c
  | _ => none

/-- The cubes of the list that are the only ones to cover some of the rows. -/
def essentials (cubes : List Cube) (rows : List Nat) : List Cube :=
  cubes.filter (rows.filterMap (soleOwner? cubes)).contains

/-- The rows that none of the cubes covers, ascending. -/
def uncoveredRows (cubes : List Cube) (rows : List Nat) : List Nat :=
  (rows.filter fun row => !cubes.any (·.covers row)).mergeSort

theorem mem_uncoveredRows {cubes : List Cube} {rows : List Nat} {row : Nat} :
    row ∈ uncoveredRows cubes rows ↔ row ∈ rows ∧ ∀ c ∈ cubes, ¬c.covers row = true := by
  rw [uncoveredRows, List.mem_mergeSort, List.mem_filter, Bool.not_eq_true', List.any_eq_false]

/-- Cubes cover none of the rows that they leave uncovered. So nothing changes if the essential
cubes are no longer considered after they have been taken. -/
theorem coverNone_uncoveredRows (cubes : List Cube) (rows : List Nat) :
    CoverNone cubes (uncoveredRows cubes rows) :=
  fun c hc _ hrow => Bool.eq_false_iff.2 ((mem_uncoveredRows.1 hrow).2 c hc)

end Cube

/-- The cubes chosen beyond the essential ones, and how they were found. -/
inductive Extension where
  /-- The picks of a greedy cover in order. -/
  | greedy (picks : List Pick)
  /-- The covers found by an exact search, the best one last. -/
  | exact (improvements : List Solution)
  deriving DecidableEq

/-- The cubes that an extension adds. -/
def Extension.cubes : Extension → List Cube
  | greedy picks => picks.map Pick.cube
  | exact improvements => (improvements.getLast?.map Solution.cubes).getD []

/-- What was selected from some prime cubes to cover a set of rows. -/
structure Selection where
  /-- The number of cubes to select from. -/
  primeCount : Nat
  /-- The essential cubes in the order of their keys. -/
  essential : List Cube
  /-- The rows that the essential cubes leave uncovered, ascending. -/
  uncovered : List Nat
  /-- The choice of cubes for the uncovered rows. -/
  extension : Extension
  deriving DecidableEq

namespace Selection

/-- The selection from the prime cubes of some rows, where `plain` is the truth value that is
written as a plain literal. -/
def ofPrimes (primes : List Cube) (rows : List Nat) (plain : Bool) (strategy : Strategy) :
    Selection :=
  let cubes := Cube.sortByKey plain primes
  let essential := Cube.essentials cubes rows
  let uncovered := Cube.uncoveredRows essential rows
  ⟨cubes.length, essential, uncovered,
    match strategy with
    | .greedy => .greedy (greedyCover cubes uncovered)
    | .exact => .exact (exactImprovements plain cubes uncovered)⟩

/-- The selected cubes: the essential ones, then those of the extension. -/
def cubes (s : Selection) : List Cube := s.essential ++ s.extension.cubes

end Selection

end TwoLevel

import TwoLevel.Cube.Prime
import TwoLevel.Form
import TwoLevel.TruthTable

/-!
# Minimization

This file finds a small sum of products and a small product of sums for a function that is given by
its ones and zeros. The ones yield the products of the first form, the zeros the sums of the second.

## Main definitions

- `partitionFault?` — the row that keeps two lists from being a partition of a table
- `Derivation` — how a form is found; `Form.derive`
- `Minimized` — the two forms of a function
- `Minimized.ofPartition` — the forms of a partition of the rows
- `Config` — the limit on letters and the strategy
- `TruthTable.minimize`, `Formula.minimize` — the forms of a table and of a formula
-/

namespace TwoLevel

/-! ### Partitions of the rows -/

/-- The first element of a list that is not below `bound` or has occurred before, where `seen` are
the earlier elements. -/
def firstClash? (bound : Nat) (seen : List Nat) : List Nat → Option Nat
  | [] => none
  | row :: rows =>
    if bound ≤ row || seen.contains row then some row else firstClash? bound (row :: seen) rows

/-- The least number from `start` on and below `bound` that is not listed. -/
def leastMissing? (bound : Nat) (listed : List Nat) (start : Nat) : Option Nat :=
  if start < bound then
    if listed.contains start then leastMissing? bound listed (start + 1) else some start
  else none
termination_by bound - start

/-- The row that keeps a list from naming every number below `bound` exactly once: the first that
is out of range or repeated, else the least that is missing. -/
def partitionFault? (bound : Nat) (listed : List Nat) : Option Nat :=
  (firstClash? bound [] listed).or (leastMissing? bound listed 0)

/-! ### One form -/

/-- How a form is found. -/
inductive Derivation where
  /-- The function has one value on all rows. -/
  | constant (value : Bool)
  /-- The prime cubes are found in rounds and some of them are selected. -/
  | cover (rounds : List Round) (selection : Selection)

/-- What a form found in some way consists of. -/
def Derivation.body : Derivation → FormBody
  | constant value => .constant value
  | cover _ selection => .cubes selection.cubes

namespace Form

/-- How the form of a kind is found whose cubes must cover the rows `targets`. If there is nothing
to cover, or everything, the form is constant. -/
def derive (order : VisitOrder) (strategy : Strategy) (kind : FormKind) (letters : Letters)
    (targets : List Nat) : Derivation :=
  if targets.isEmpty then .constant (kind = .productOfSums)
  else if targets.length = letters.rowCount then .constant (kind = .sumOfProducts)
  else
    let rounds := Cube.rounds order letters.size targets
    .cover rounds (Selection.ofPrimes (Cube.primesOf rounds) targets kind.plain strategy)

/-- The form of a kind whose cubes cover the rows `targets`. -/
def ofTargets (order : VisitOrder) (strategy : Strategy) (kind : FormKind) (letters : Letters)
    (targets : List Nat) : Form :=
  ⟨kind, letters, (derive order strategy kind letters targets).body⟩

end Form

/-! ### Both forms -/

/-- The two forms of a function. -/
structure Minimized where
  sop : Form
  pos : Form
  deriving DecidableEq

namespace Minimized

def letters (m : Minimized) : Letters := m.sop.letters

/-- The forms of the function that is true on `minterms` and false on `maxterms`, when each round
visits its cubes in a given order. -/
def ofPartitionIn (order : VisitOrder) (strategy : Strategy) (letters : Letters)
    (minterms maxterms : List Nat) : Except MinimizeError Minimized :=
  if letters.size = 0 then .error .noLetters
  else
    match partitionFault? letters.rowCount (minterms ++ maxterms) with
    | some row => .error (.notPartition row)
    | none => .ok
        ⟨.ofTargets order strategy .sumOfProducts letters minterms,
          .ofTargets order strategy .productOfSums letters maxterms⟩

/-- The forms of the function that is true on `minterms` and false on `maxterms`. -/
def ofPartition (strategy : Strategy) (letters : Letters) (minterms maxterms : List Nat) :
    Except MinimizeError Minimized :=
  ofPartitionIn .listed strategy letters minterms maxterms

end Minimized

/-- The limit on the letters of a formula, and the strategy of its minimization. -/
structure Config where
  limit : Nat := 20
  strategy : Strategy := .greedy
  deriving DecidableEq

/-- The two forms of a table. -/
def TruthTable.minimize (t : TruthTable) (strategy : Strategy) : Except MinimizeError Minimized :=
  Minimized.ofPartition strategy t.letters t.minterms t.maxterms

/-- The two forms of a formula, by way of its table. -/
def Formula.minimize (f : Formula) (config : Config) : Except Fault Minimized := do
  let t ← (TruthTable.ofFormula config.limit f).mapError .evaluation
  (t.minimize config.strategy).mapError .minimization

end TwoLevel

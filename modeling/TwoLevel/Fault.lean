import TwoLevel.ParseError

/-!
# Faults

This file defines why tabulating, minimizing or writing can fail, and the common type of all
faults. A fault of a stage carries a heading when it is reported as one of the common type.

## Main definitions

- `EvalError` — a formula has too many letters for a table
- `MinimizeError` — two lists of rows are no partition of a table
- `IoFault` — the surrounding system refused to store an output
- `Fault` — any of these, or a refused text
- `Fault.message`, `Fault.cause`, `Fault.toIoFault` — the common type in words, the stage's own
  words, and the fault as one of the surrounding system
-/

namespace TwoLevel

/-- A reason for which a formula has no table. -/
inductive EvalError where
  /-- The formula has `count` letters but only `max` are allowed. -/
  | tooManyLetters (count max : Nat)
  deriving DecidableEq

namespace EvalError

/-- The number of rows over `count` letters, as a power when it exceeds a word of sixty-four
digits. -/
def rowCount (count : Nat) : String :=
  if count < 64 then toString (1 <<< count) else "2^" ++ toString count

def message : EvalError → String
  | tooManyLetters count max =>
    "Expression has " ++ toString count ++ " variables but at most " ++ toString max ++
      " are allowed (" ++ rowCount count ++ " rows would be required)"

end EvalError

/-- A reason for which lists of rows cannot be minimized. -/
inductive MinimizeError where
  | noLetters
  /-- The row is out of range, listed twice, or not listed. -/
  | notPartition (row : Nat)
  deriving DecidableEq

def MinimizeError.message : MinimizeError → String
  | noLetters => "Cannot minimize a function of zero variables"
  | notPartition row =>
    "Minterms and maxterms do not partition the truth table: row " ++ toString row ++
      " is out of range, duplicated, or missing"

/-- The kinds of refusal of the surrounding system that can be met. -/
inductive IoKind where
  | notFound
  | isADirectory
  /-- The destination takes no more bytes. -/
  | writeZero
  | invalidData
  | invalidInput
  | other
  deriving DecidableEq

/-- A refusal of the surrounding system, in its own words. -/
structure IoFault where
  kind : IoKind
  message : String
  deriving DecidableEq

namespace IoFault

/-- The fault of a destination that takes only a part of an output. -/
def writeZero : IoFault := ⟨.writeZero, "failed to write whole buffer"⟩

/-- The words in which a refusal during the writing of a PLA text is reported. -/
def writeMessage (f : IoFault) : String := "IO error: " ++ f.message

end IoFault

/-- Any fault between a text and a stored result. -/
inductive Fault where
  | parse (error : ParseError)
  | evaluation (error : EvalError)
  | minimization (error : MinimizeError)
  | io (fault : IoFault)
  deriving DecidableEq

namespace Fault

/-- The words of the stage that failed. -/
def cause : Fault → String
  | parse e => e.message
  | evaluation e => e.message
  | minimization e => e.message
  | io f => f.message

/-- The words of the stage that failed, under a heading that names the stage. -/
def message : Fault → String
  | parse e => "Parse error: " ++ e.message
  | evaluation e => "Evaluation error: " ++ e.message
  | minimization e => "Minimization error: " ++ e.message
  | io f => f.message

/-- The fault as one of the surrounding system: a refused text is invalid data and loses its
heading, a fault of the two later stages is an invalid request and keeps it. -/
def toIoFault : Fault → IoFault
  | parse e => ⟨.invalidData, e.message⟩
  | io f => f
  | f => ⟨.invalidInput, f.message⟩

end Fault

end TwoLevel

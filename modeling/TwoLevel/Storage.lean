import TwoLevel.Fault

/-!
# Storing texts

This file says what happens to a text that is handed to a place of the surrounding system: an
existing or new file takes it instead of its old content, other places refuse it, and a buffer takes
as much as fits.

## Main definitions

- `Destination` — what a path leads to
- `Destination.accept` — whether a path can be written
- `fillBuffer` — what a buffer of limited capacity takes
-/

namespace TwoLevel

/-- What a path leads to when something is to be written there. -/
inductive Destination where
  /-- A file that exists or can be created. -/
  | file
  | directory
  /-- A place in a directory that does not exist. -/
  | missing
  deriving DecidableEq

/-- Whether a path can be written; if not, the refusal in the words of the system. -/
def Destination.accept : Destination → Except IoFault Unit
  | file => .ok ()
  | directory => .error ⟨.isADirectory, "Is a directory (os error 21)"⟩
  | missing => .error ⟨.notFound, "No such file or directory (os error 2)"⟩

/-- What a buffer takes of a text, and the fault if this is not all. -/
def fillBuffer (capacity : Nat) (text : List Char) : List Char × Option IoFault :=
  (text.take capacity, if text.length ≤ capacity then none else some .writeZero)

end TwoLevel

import TwoLevel.Pla

/-!
# Options of the command line

This file defines what a call of the command line may ask for. Which arguments ask for what is left
to a reader of arguments, which is a parameter of everything that is said about calls.

## Main definitions

- `Options` — what is asked for
- `Stop` — a call that ends before anything is computed
- `ArgumentReader` — from arguments to options
-/

namespace TwoLevel

/-- What is to be computed. -/
inductive Task where
  | table
  | simplify
  | all
  deriving DecidableEq

/-- In which format the result is written. -/
inductive Format where
  | text
  | pla (kind : PlaKind)
  deriving DecidableEq

/-- What the command line asks for. -/
structure Options where
  expression : List Char
  task : Task
  limit : Nat
  strategy : Strategy
  format : Format
  path : Option String
  verbosity : Nat
  deriving DecidableEq

/-- A call that its arguments end before anything is computed: its exit code and what it prints. -/
structure Stop where
  code : Nat
  stdout : List Char
  stderr : List Char
  deriving DecidableEq

/-- A reader of arguments gives the options that they ask for, or ends the call. -/
abbrev ArgumentReader := List (List Char) → Except Stop Options

end TwoLevel

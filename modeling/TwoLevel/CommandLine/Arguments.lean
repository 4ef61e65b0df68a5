import TwoLevel.CommandLine.Options

/-!
# Reading arguments

This file defines the reader of arguments that the program uses. It goes from left to right. An
argument is an option when it begins with a hyphen and is longer than that; after a double hyphen
none is. The first thing that is wrong ends the reading, and so does a request for the version or
for help. What is printed then is this reader's own wording, and nothing else depends on it.

## Main definitions

- `OptionName` — the options, with `OptionName.ofLong?` and `OptionName.ofShort?`
- `UsageError` — a wrong use of the command line
- `Draft` — what the arguments read so far have given
- `Options.ofArgs` — the reader
-/

namespace TwoLevel

/-- The names of the options. -/
inductive OptionName where
  | task
  | limit
  | exact
  | format
  | path
  | verbose
  | help
  | version
  deriving DecidableEq

namespace OptionName

def ofLong? (name : List Char) : Option OptionName :=
  match String.ofList name with
  | "do" => some task
  | "max-vars" => some limit
  | "exact" => some exact
  | "output" => some format
  | "out-file" => some path
  | "verbose" => some verbose
  | "help" => some help
  | "version" => some version
  | _ => none

def ofShort? : Char → Option OptionName
  | 'D' => some task
  | 'o' => some format
  | 'O' => some path
  | 'v' => some verbose
  | 'h' => some help
  | 'V' => some version
  | _ => none

def long : OptionName → String
  | task => "do"
  | limit => "max-vars"
  | exact => "exact"
  | format => "output"
  | path => "out-file"
  | verbose => "verbose"
  | help => "help"
  | version => "version"

/-- Whether an option takes a value. -/
def takesValue : OptionName → Bool
  | task | limit | format | path => true
  | exact | verbose | help | version => false

end OptionName

/-- A wrong use of the command line. -/
inductive UsageError where
  | unknownOption (name : List Char)
  | missingValue (option : OptionName)
  | unexpectedValue (option : OptionName)
  | invalidValue (option : OptionName) (value : List Char)
  | repeated (option : OptionName)
  | unexpectedArgument (argument : List Char)
  | missingExpression
  deriving DecidableEq

namespace UsageError

def message : UsageError → String
  | unknownOption name => "unexpected argument '" ++ String.ofList name ++ "' found"
  | missingValue option => "a value is required for '--" ++ option.long ++ "' but none was supplied"
  | unexpectedValue option => "no value is allowed for '--" ++ option.long ++ "'"
  | invalidValue option value =>
    "invalid value '" ++ String.ofList value ++ "' for '--" ++ option.long ++ "'"
  | repeated option => "the argument '--" ++ option.long ++ "' cannot be used multiple times"
  | unexpectedArgument argument => "unexpected argument '" ++ String.ofList argument ++ "' found"
  | missingExpression => "the following required arguments were not provided: <EXPRESSION>"

end UsageError

/-! ### Calls that end early -/

namespace Stop

/-- The name and version of the program. -/
def versionText : List Char := "bool-solver 0.1.0\n".toList

/-- A summary of the options. -/
def helpText : List Char :=
  ("Truth tables and minimal SOP/POS forms for boolean expressions\n\n" ++
    "Usage: bool-solver [OPTIONS] <EXPRESSION>\n\n" ++
    "Arguments:\n" ++
    "  <EXPRESSION>  Expression, e.g. \"A.B' + A'.B\"\n\n" ++
    "Options:\n" ++
    "  -D, --do <COMMAND>            What to compute [default: all] " ++
    "[possible values: table, simplify, all]\n" ++
    "      --max-vars <MAX_VARS>     Maximum number of distinct variables [default: 20]\n" ++
    "      --exact                   Use the exact cover search instead of the greedy one\n" ++
    "  -o, --output <OUTPUT_FORMAT>  Output format [default: text] " ++
    "[possible values: text, pla-f, pla-fr]\n" ++
    "  -O, --out-file <OUTPUT_FILE>  Output file (writes to stdout if not specified)\n" ++
    "  -v, --verbose...              Increase log verbosity (-v info, -vv debug, -vvv trace)\n" ++
    "  -h, --help                    Print help\n" ++
    "  -V, --version                 Print version\n").toList

def version : Stop := ⟨0, versionText, []⟩

def help : Stop := ⟨0, helpText, []⟩

def usage (error : UsageError) : Stop :=
  ⟨2, [], "error: ".toList ++ error.message.toList ++ ['\n']⟩

end Stop

/-! ### Values -/

def Task.ofName? (name : List Char) : Option Task :=
  match String.ofList name with
  | "table" => some table
  | "simplify" => some simplify
  | "all" => some all
  | _ => none

def Format.ofName? (name : List Char) : Option Format :=
  match String.ofList name with
  | "text" => some text
  | "pla-f" => some (pla .ones)
  | "pla-fr" => some (pla .onesAndZeros)
  | _ => none

/-- The number that some decimal digits denote, a plus sign in front being allowed, if it fits into
a word of sixty-four digits. -/
def wordOfDigits? (text : List Char) : Option Nat :=
  let digits := if text.head? = some '+' then text.drop 1 else text
  if digits.isEmpty || !digits.all Char.isDigit then none
  else
    let n := digits.foldl (fun n c => 10 * n + (c.toNat - '0'.toNat)) 0
    if n < UInt64.size then some n else none

/-! ### Reading the arguments -/

/-- What the arguments read so far have given. -/
structure Draft where
  expression : Option (List Char) := none
  task : Option Task := none
  limit : Option Nat := none
  exact : Bool := false
  format : Option Format := none
  path : Option String := none
  verbosity : Nat := 0
  deriving DecidableEq

namespace Draft

/-- Fill a place that must still be empty with a value that must be allowed. -/
def fill {α : Type} (option : OptionName) (old new : Option α) (value : List Char) :
    Except Stop (Option α) :=
  match old, new with
  | some _, _ => .error (.usage (.repeated option))
  | none, some a => .ok (some a)
  | none, none => .error (.usage (.invalidValue option value))

/-- The effect of an option with a value. -/
def setValue (d : Draft) (option : OptionName) (value : List Char) : Except Stop Draft :=
  match option with
  | .task => (fill option d.task (Task.ofName? value) value).map fun x => { d with task := x }
  | .limit => (fill option d.limit (wordOfDigits? value) value).map fun x => { d with limit := x }
  | .format =>
    (fill option d.format (Format.ofName? value) value).map fun x => { d with format := x }
  | .path =>
    let name := if value.isEmpty then none else some (String.ofList value)
    (fill option d.path name value).map fun x => { d with path := x }
  | _ => .error (.usage (.unexpectedValue option))

/-- The effect of an option without a value. -/
def setFlag (d : Draft) (option : OptionName) : Except Stop Draft :=
  match option with
  | .exact =>
    if d.exact then .error (.usage (.repeated option)) else .ok { d with exact := true }
  | .verbose => .ok { d with verbosity := d.verbosity + 1 }
  | .help => .error .help
  | .version => .error .version
  | _ => .error (.usage (.missingValue option))

/-- The effect of an argument that is not an option. -/
def setExpression (d : Draft) (argument : List Char) : Except Stop Draft :=
  match d.expression with
  | none => .ok { d with expression := some argument }
  | some _ => .error (.usage (.unexpectedArgument argument))

/-- The effect of an option by its long name, with or without a value behind an equals sign. An
option that still needs a value is given back. -/
def readLong (d : Draft) (body : List Char) : Except Stop (Draft × Option OptionName) :=
  let name := body.takeWhile (· != '=')
  match OptionName.ofLong? name, body.dropWhile (· != '=') with
  | none, _ => .error (.usage (.unknownOption ('-' :: '-' :: name)))
  | some option, [] =>
    if option.takesValue then .ok (d, some option) else (d.setFlag option).map (·, none)
  | some option, _ :: value =>
    if option.takesValue then (d.setValue option value).map (·, none)
    else .error (.usage (.unexpectedValue option))

/-- The effect of a group of short names. The first option that takes a value takes the rest of the
group, without an equals sign in front; if there is no rest it is given back. -/
def readShort (d : Draft) : List Char → Except Stop (Draft × Option OptionName)
  | [] => .ok (d, none)
  | c :: cs =>
    match OptionName.ofShort? c with
    | none => .error (.usage (.unknownOption ['-', c]))
    | some option =>
      if option.takesValue then
        match cs with
        | [] => .ok (d, some option)
        | '=' :: value => (d.setValue option value).map (·, none)
        | value => (d.setValue option value).map (·, none)
      else (d.setFlag option).bind fun d => d.readShort cs

/-- The effect of the arguments behind a double hyphen. -/
def readRest (d : Draft) : List (List Char) → Except Stop Draft
  | [] => .ok d
  | argument :: arguments => (d.setExpression argument).bind fun d => d.readRest arguments

/-- Whether an argument is written like an option. -/
def looksLikeOption : List Char → Bool
  | '-' :: _ :: _ => true
  | _ => false

/-- The effect of all arguments, where `waiting` is the option before them that needs a value. -/
def readAll (d : Draft) (waiting : Option OptionName) : List (List Char) → Except Stop Draft
  | [] =>
    match waiting with
    | some option => .error (.usage (.missingValue option))
    | none => .ok d
  | argument :: arguments =>
    match waiting with
    | some option =>
      if looksLikeOption argument then .error (.usage (.missingValue option))
      else (d.setValue option argument).bind fun d => d.readAll none arguments
    | none =>
      match argument with
      | ['-', '-'] => d.readRest arguments
      | '-' :: '-' :: body =>
        (d.readLong body).bind fun (d, waiting) => d.readAll waiting arguments
      | '-' :: c :: cs =>
        (d.readShort (c :: cs)).bind fun (d, waiting) => d.readAll waiting arguments
      | _ => (d.setExpression argument).bind fun d => d.readAll none arguments

/-- The options that a draft gives when all arguments are read. -/
def toOptions (d : Draft) : Except Stop Options :=
  match d.expression with
  | none => .error (.usage .missingExpression)
  | some expression => .ok
      ⟨expression, d.task.getD .all, d.limit.getD 20, if d.exact then .exact else .greedy,
        d.format.getD .text, d.path, d.verbosity⟩

end Draft

/-- The reader of arguments that the program uses. -/
def Options.ofArgs : ArgumentReader := fun arguments =>
  (Draft.readAll {} none arguments).bind Draft.toOptions

end TwoLevel

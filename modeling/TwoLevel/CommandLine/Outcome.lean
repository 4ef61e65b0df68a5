import TwoLevel.CommandLine.Arguments
import TwoLevel.Journal
import TwoLevel.Storage

/-!
# Outcomes of the command line

This file says what the command line does for given arguments: its exit code, what it prints, and
what it stores. Everything that can fail is computed before a file is opened, so a failing call
leaves every file as it was. How arguments are read is a parameter.

The notes that a call prints beside its result, when it is asked for them, are `Options.events`. They
are not part of its outcome.

## Main definitions

- `Options.results`, `Options.report` — what is computed, and as a text
- `Options.events` — the notes on computing it
- `Plan` — what is left to do when the text is known
- `Outcome` — exit code, printed texts and the stored file
- `CommandLine.plan`, `CommandLine.execute` — from arguments to a plan, and its outcome when the
  reader of the arguments and the files are given by functions
-/

namespace TwoLevel

namespace Options

def config (o : Options) : Config := ⟨o.limit, o.strategy⟩

/-- The table, and the forms if they are asked for. -/
def results (o : Options) : Except Fault (TruthTable × Option Minimized) :=
  let s := Session.start o.config
  match o.task with
  | .table => do
    let t ← (s.table o.expression).1
    return (t, none)
  | .simplify | .all => do
    let (forms, s) := s.simplify o.expression
    let forms ← forms
    let t ← (s.table o.expression).1
    return (t, some forms)

/-- A table and its forms as a text for readers. -/
def textReport (task : Task) (t : TruthTable) (forms : Option Minimized) : List Char :=
  let heading := "Variables: ".toList ++ t.letters.render.toList ++ ['\n']
  let table := if task = .simplify then [] else '\n' :: t.render
  let lines : List Char :=
    match forms with
    | none => []
    | some m =>
      '\n' :: ("SOP: ".toList ++ m.sop.render ++ ['\n'] ++
        "POS: ".toList ++ m.pos.render ++ ['\n'])
  heading ++ table ++ lines

/-- What is asked for, as a text in the format that is asked for. -/
def report (o : Options) : Except Fault (List Char) := do
  let (t, forms) ← o.results
  return match o.format with
    | .text => textReport o.task t forms
    | .pla kind =>
      match forms with
      | some m => (Pla.ofMinimized kind m).render
      | none => (Pla.ofTable kind t).render

/-- The notes on computing what is asked for, which the verbosity selects from by their levels. -/
def events (o : Options) : List Event :=
  let s := Session.start o.config
  let (first, s) :=
    match o.task with
    | .table => ([], s)
    | .simplify | .all => (s.simplifyEvents o.expression, (s.simplify o.expression).2)
  first ++
    match o.results with
    | .error _ => if o.task = .table then s.tableEvents o.expression else []
    | .ok (t, _) => s.tableEvents o.expression ++ [.counted t.width t.minterms.length]

end Options

/-- What a call of the command line does, apart from the notes that its verbosity asks for. Those
are printed to the error stream as well, so `stderr` is only the rest of it. -/
structure Outcome where
  code : Nat
  stdout : List Char
  stderr : List Char
  /-- The path that is written and the content that it has afterwards. -/
  stored : Option (String × List Char)
  deriving DecidableEq

namespace Outcome

def ofFault (fault : Fault) : Outcome :=
  ⟨1, [], "Error: ".toList ++ fault.message.toList ++ ['\n'], none⟩

/-- Success, with a text on the standard output and nothing but notes on the error stream. -/
def printed (text : List Char) : Outcome := ⟨0, text, [], none⟩

/-- The outcome of a call that ends before anything is computed. -/
def ofStop (stop : Stop) : Outcome := ⟨stop.code, stop.stdout, stop.stderr, none⟩

end Outcome

/-- What is left to do when everything is computed. -/
inductive Plan where
  | finish (outcome : Outcome)
  | store (path : String) (text : List Char)
  deriving DecidableEq

namespace CommandLine

/-- What is to be done for some options. -/
def planOf (o : Options) : Plan :=
  match o.report with
  | .error fault => .finish (.ofFault fault)
  | .ok text =>
    match o.path with
    | none => .finish (.printed text)
    | some path => .store path text

/-- What is to be done for some arguments. -/
def plan (arguments : List (List Char)) (read : ArgumentReader) : Plan :=
  match read arguments with
  | .error stop => .finish (.ofStop stop)
  | .ok o => planOf o

/-- The outcome of a plan when `places` says what each path leads to. -/
def carryOut (places : String → Destination) : Plan → Outcome
  | .finish outcome => outcome
  | .store path text =>
    match (places path).accept with
    | .error fault => .ofFault (.io fault)
    | .ok () => ⟨0, [], [], some (path, text)⟩

/-- What the command line does for some arguments, apart from printing notes, when `places` says
what each path leads to and `read` what the arguments ask for. If no reader is named it is the one
that the program uses. -/
def execute (places : String → Destination) (arguments : List (List Char))
    (read : ArgumentReader := Options.ofArgs) : Outcome :=
  carryOut places (plan arguments read)

end CommandLine

end TwoLevel

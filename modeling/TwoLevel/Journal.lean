import TwoLevel.Session

/-!
# Journals

This file says what a session notes down while it answers: which texts it met, how large the tables
are, what each round of merging did and how the terms were selected. The notes are read off the
results, so that keeping a journal cannot change them.

## Main definitions

- `Event` — a note; `Event.level`, `Event.message`
- `Derivation.events`, `Minimized.events` — the notes on finding forms
- `Session.tableEvents`, `Session.simplifyEvents` — the notes on a request
-/

namespace TwoLevel

/-- How detailed a note is. -/
inductive Level where
  /-- What was done. -/
  | info
  /-- What each step did. -/
  | debug
  /-- What happened within the steps. -/
  | trace
  deriving DecidableEq

def Level.name : Level → String
  | info => "INFO"
  | debug => "DEBUG"
  | trace => "TRACE"

def Strategy.name : Strategy → String
  | greedy => "Greedy"
  | exact => "Exact"

/-- A note on something that happened. -/
inductive Event where
  /-- The table of a text was kept; the hits are counted. -/
  | hit (count : Nat) (text : List Char)
  /-- The table of a text was not kept. -/
  | miss (text : List Char)
  | parsed (text : List Char) (tokens depth : Nat) (letters : Letters)
  | tabulated (letters : Letters) (rows minterms : Nat)
  /-- The minimization of a table began. -/
  | minimizing (letters : Letters) (minterms maxterms : Nat) (strategy : Strategy)
  | merged (merge : Merge)
  /-- A round of merging ended. -/
  | round (number cubes merged primes : Nat)
  /-- The essential cubes were taken. -/
  | selected (primes essential uncovered : Nat)
  /-- A cube was taken greedily. -/
  | picked (pick : Pick)
  /-- The exact search found a better cover. -/
  | improved (terms literals : Nat)
  | minimized (forms : Minimized)
  /-- A table was made ready for output. -/
  | counted (letters minterms : Nat)
  | wrote (path : String)

namespace Event

def level : Event → Level
  | merged _ => .trace
  | improved .. => .trace
  | counted .. => .info
  | wrote _ => .info
  | _ => .debug

/-- A note in words. -/
def message : Event → String
  | hit count text => "session cache hit #" ++ toString count ++ " for " ++ Quoted.ofText text
  | miss text => "session cache miss for " ++ Quoted.ofText text
  | parsed text tokens depth letters =>
    "parsed " ++ Quoted.ofText text ++ ": " ++ toString tokens ++ " tokens, depth " ++
      toString depth ++ ", variables [" ++ letters.render ++ "]"
  | tabulated letters rows minterms =>
    "built truth table over [" ++ letters.render ++ "]: " ++ toString rows ++ " rows, " ++
      toString minterms ++ " minterms"
  | minimizing letters minterms maxterms strategy =>
    "minimizing over [" ++ letters.render ++ "]: " ++ toString minterms ++ " minterms, " ++
      toString maxterms ++ " maxterms, " ++ strategy.name
  | merged merge =>
    "combine " ++ String.ofList merge.lower.pattern ++ " + " ++
      String.ofList merge.upper.pattern ++ " -> " ++ String.ofList merge.result.pattern
  | round number cubes results primes =>
    "round " ++ toString number ++ ": " ++ toString cubes ++ " implicants, " ++
      toString results ++ " merged, " ++ toString primes ++ " new primes"
  | selected primes essential uncovered =>
    toString primes ++ " primes, " ++ toString essential ++ " essential, " ++
      toString uncovered ++ " rows left to cover"
  | picked pick =>
    "greedy pick " ++ String.ofList pick.cube.pattern ++ " covering " ++ toString pick.gain ++
      " new rows"
  | improved terms literals =>
    "exact cover: new best with " ++ toString terms ++ " terms, " ++ toString literals ++
      " literals"
  | minimized forms =>
    "SOP " ++ String.ofList forms.sop.render ++ " / POS " ++ String.ofList forms.pos.render
  | counted letters minterms =>
    toString letters ++ " variables, " ++ toString minterms ++ " minterms"
  | wrote path => "wrote output to " ++ path

/-- A note as a line: its level and its words. -/
def line (e : Event) : String := e.level.name ++ " " ++ e.message

end Event

/-! ### Forms -/

/-- The notes on a round with a given number. -/
def Round.events (number : Nat) (r : Round) : List Event :=
  r.merges.map .merged ++ [.round number r.members.size r.next.size r.primes.length]

def Extension.events : Extension → List Event
  | greedy picks => picks.map .picked
  | exact improvements => improvements.map fun s => .improved s.terms s.literals

/-- The notes on finding a form; a constant form needs none. -/
def Derivation.events : Derivation → List Event
  | constant _ => []
  | cover rounds s =>
    (rounds.zipIdx 1).flatMap (fun (r, number) => r.events number) ++
      .selected s.primeCount s.essential.length s.uncovered.length :: s.extension.events

/-- The notes on minimizing a partition of the rows. -/
def Minimized.events (strategy : Strategy) (letters : Letters) (minterms maxterms : List Nat) :
    List Event :=
  match ofPartition strategy letters minterms maxterms with
  | .error _ => []
  | .ok forms =>
    .minimizing letters minterms.length maxterms.length strategy ::
      (Form.derive .listed strategy .sumOfProducts letters minterms).events ++
      (Form.derive .listed strategy .productOfSums letters maxterms).events ++
      [.minimized forms]

/-! ### Requests -/

/-- The notes on reading a text. -/
def Formula.parseEvents (text : List Char) : List Event :=
  match tokenize text, Formula.parse text with
  | .ok lexemes, .ok f => [.parsed text lexemes.length f.root.depth f.letters]
  | _, _ => []

/-- The notes on building the table of a text. -/
def TruthTable.textEvents (limit : Nat) (text : List Char) : List Event :=
  Formula.parseEvents text ++
    match TruthTable.ofText limit text with
    | .ok t => [.tabulated t.letters t.size t.minterms.length]
    | .error _ => []

namespace Session

/-- The notes on a request for the table of a text. -/
def tableEvents (s : Session) (text : List Char) : List Event :=
  match s.kept? text with
  | some _ => [.hit (s.hits + 1) text]
  | none => .miss text :: TruthTable.textEvents s.config.limit text

/-- The notes on a request for the forms of a text. -/
def simplifyEvents (s : Session) (text : List Char) : List Event :=
  s.tableEvents text ++
    match (s.table text).1 with
    | .ok t => Minimized.events s.config.strategy t.letters t.minterms t.maxterms
    | .error _ => []

end Session

end TwoLevel

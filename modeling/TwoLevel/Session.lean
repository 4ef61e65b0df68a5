import TwoLevel.Minimize

/-!
# Sessions

This file defines a session, which answers requests for the table and the forms of texts and keeps
the table of the last text that had one. A request for the same text again is a hit and uses the
kept table. A request that fails changes nothing.

## Main definitions

- `Session` — the configuration, the kept table and the number of hits
- `Session.table`, `Session.simplify`, `Session.clear` — the requests
- `Request`, `Answer`, `Session.step`, `Session.run` — requests and answers as data
-/

namespace TwoLevel

/-- A text and its table. -/
structure Entry where
  text : List Char
  table : TruthTable
  deriving DecidableEq

/-- The state of a session. -/
structure Session where
  config : Config
  last : Option Entry
  hits : Nat
  deriving DecidableEq

/-- A request to a session. -/
inductive Request where
  /-- Give the table of a text. -/
  | table (text : List Char)
  /-- Give the two forms of a text. -/
  | simplify (text : List Char)
  | clear
  deriving DecidableEq

/-- The answer of a session. -/
inductive Answer where
  /-- A table, or the reason for which there is none. -/
  | table (result : Except Fault TruthTable)
  /-- Two forms, or the reason for which there are none. -/
  | simplified (result : Except Fault Minimized)
  | cleared

namespace Session

/-- A session in which nothing has been requested. -/
def start (config : Config) : Session := ⟨config, none, 0⟩

/-- The table that is kept for a text. -/
def kept? (s : Session) (text : List Char) : Option TruthTable :=
  match s.last with
  | some entry => if entry.text = text then some entry.table else none
  | none => none

/-- The table of a text. If it is kept this is a hit, else it is built and kept. -/
def table (s : Session) (text : List Char) : Except Fault TruthTable × Session :=
  match s.kept? text with
  | some t => (.ok t, { s with hits := s.hits + 1 })
  | none =>
    match TruthTable.ofText s.config.limit text with
    | .ok t => (.ok t, { s with last := some ⟨text, t⟩ })
    | .error fault => (.error fault, s)

/-- The two forms of a text, by way of its table. -/
def simplify (s : Session) (text : List Char) : Except Fault Minimized × Session :=
  let (result, s) := s.table text
  (result.bind fun t => (t.minimize s.config.strategy).mapError .minimization, s)

def clear (s : Session) : Session := { s with last := none }

/-- The answer to a request, and the session after it. -/
def step (s : Session) : Request → Answer × Session
  | .table text => let (result, s) := s.table text; (.table result, s)
  | .simplify text => let (result, s) := s.simplify text; (.simplified result, s)
  | .clear => (.cleared, s.clear)

/-- The answers to some requests in order, each with the session after it. -/
def run (s : Session) : List Request → List (Answer × Session)
  | [] => []
  | request :: requests =>
    let (answer, s) := s.step request
    (answer, s) :: s.run requests

end Session

end TwoLevel

import TwoLevel.CommandLine.Outcome

/-!
# The program

This file carries out the plan of the command line: it prints, and it stores the text if a path was
given. With `-v` the notes of the session are printed too. The program is this for one reader of
arguments.
-/

namespace TwoLevel

namespace CommandLine

/-- The fault that a refusal of the system amounts to, in the system's words and with its number. -/
def faultOfError : IO.Error → IoFault
  | .noFileOrDirectory _ number details => ⟨.notFound, numbered number details⟩
  | .inappropriateType _ number details => ⟨.isADirectory, numbered number details⟩
  | .permissionDenied _ number details => ⟨.other, numbered number details⟩
  | e => ⟨.other, toString e⟩
where
  numbered (number : UInt32) (details : String) : String :=
    details ++ " (os error " ++ toString number.toNat ++ ")"

/-- Print the notes that a verbosity asks for. -/
def printEvents (verbosity : Nat) (events : List Event) : IO Unit := do
  let stderr ← IO.getStderr
  for e in events do
    let needed := match e.level with
      | .info => 1
      | .debug => 2
      | .trace => 3
    if needed ≤ verbosity then
      stderr.putStrLn ("[" ++ e.level.name ++ "] " ++ e.message)

/-- Print an outcome and give its exit code. -/
def printOutcome (o : Outcome) : IO UInt32 := do
  (← IO.getStdout).putStr (String.ofList o.stdout)
  (← IO.getStderr).putStr (String.ofList o.stderr)
  return o.code.toUInt32

def perform (verbosity : Nat) : Plan → IO UInt32
  | .finish outcome => printOutcome outcome
  | .store path text => do
    try
      IO.FS.writeFile path (String.ofList text)
      printEvents verbosity [.wrote path]
      return 0
    catch e =>
      printOutcome (.ofFault (.io (faultOfError e)))

/-- Carry out a call, with its notes, where `read` says what its arguments ask for. -/
def run (read : ArgumentReader) (arguments : List String) : IO UInt32 :=
  match read (arguments.map String.toList) with
  | .error stop => printOutcome (.ofStop stop)
  | .ok o => do
    if 0 < o.verbosity then printEvents o.verbosity o.events
    perform o.verbosity (planOf o)

end CommandLine

end TwoLevel

def main (arguments : List String) : IO UInt32 :=
  TwoLevel.CommandLine.run TwoLevel.Options.ofArgs arguments

import EventFlow.CommandLine

/-!
The program.
-/

namespace EventFlow.Main

def usage : String :=
  "usage: eventflow translate flow_file [--flow-id FLOW_ID] [--ids IDS] [--indent INDENT]"

def variableNames : List String :=
  ["RULE_ENGINE_URL", "BROKER_URL", "HISTORY_URL", "HTTP_TIMEOUT"]

def readEnvironment : IO (Fields String) := do
  let found ← variableNames.mapM fun name => do
    return (← IO.getEnv name).map (name, ·)
  return found.filterMap id

def readText (file : String) : IO (Option String) := do
  try
    return some (← IO.FS.readFile file)
  catch _ =>
    return none

def readFiles : CommandLine.Arguments → IO (Option String)
  | .plan file .. => readText file
  | _ => pure none

def failureText : Failure → String
  | .flow e => e.message
  | _ => "the flow holds a value of an unexpected kind"

end EventFlow.Main

open EventFlow EventFlow.Main in
/-- Runs the command, writes its log to the error stream and its output to the output stream. -/
def main (args : List String) : IO UInt32 := do
  let env ← readEnvironment
  let contents ← readFiles (CommandLine.parse args)
  let ended := CommandLine.run (Fields.get? env) (fun _ => contents) args ()
  for entry in Log.above .info ended.log do
    IO.eprintln entry.message
  match ended.outcome with
  | .error e =>
    IO.eprintln (failureText e)
    return 1
  | .ok outcome =>
    match outcome with
    | .finished output => IO.print output
    | .help => IO.println usage
    | .misuse => IO.eprintln usage
    | .unfinished => pure ()
    return outcome.status.toUInt32

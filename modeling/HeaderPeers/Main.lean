import HeaderPeers.CommandLine.Run

/-!
# The program

Reads the files that a command asks for, runs it, and prints what it has to say.
-/

namespace HeaderPeers.Program

open CommandLine

/-- What a path leads to now. -/
def readState (path : String) : IO FileState := do
  try
    return .holds (← IO.FS.readBinFile path)
  catch
    | .permissionDenied .. => return .unreadable
    | _ => return .missing

/-- What some paths lead to; all others are missing. -/
def readStates (paths : List String) : IO Files := do
  let states ← paths.mapM fun path => return (path, ← readState path)
  return fun path => (states.lookup path).getD .missing

/-- All files that a command asks for. The headers are known once its project is. -/
def readFiles (command : Command) : IO Files := do
  let project ← readStates (wanted (fun _ => .missing) command)
  readStates (wanted project command)

/-- Prints a report, after its file is written. -/
def perform (r : Report) : IO UInt32 := do
  for warning in r.warnings do
    IO.eprintln ("warning: " ++ warning)
  match r.file with
  | some (path, text) => IO.FS.writeFile path text
  | none => pure ()
  IO.print r.output
  return 0

/-- Reports a fault. -/
def complain (fault : Fault) : IO UInt32 := do
  IO.eprintln fault.message
  return fault.code.toUInt32

end HeaderPeers.Program

open HeaderPeers HeaderPeers.CommandLine HeaderPeers.Program in
/-- Runs the program. -/
def main (args : List String) : IO UInt32 := do
  match Command.ofArguments? args with
  | none => complain .usage
  | some command =>
    match run (← readFiles command) command with
    | .error fault => complain fault
    | .ok r =>
      try perform r
      catch e =>
        IO.eprintln ("Error: " ++ toString e)
        return 1

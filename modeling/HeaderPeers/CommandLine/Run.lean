import HeaderPeers.CommandLine.Reader
import HeaderPeers.Dump.Record

/-!
# Commands

What a command comes to, given the files there are. Only writing a file is left to whoever has them.
-/

namespace HeaderPeers.CommandLine

/-- The file of a project that is not named. -/
def projectFile : String := "peerbind.toml"

/-- Why a command fails. -/
inductive Fault where
  | usage
  | project (path : String) (fault : Project.Fault)
  | build (fault : Build.Fault)

namespace Fault

/-- The exit code of a fault. -/
def code : Fault → UInt8
  | usage => 2
  | _ => 1

/-- The report of a fault. -/
def message : Fault → String
  | usage => "error: invalid arguments"
  | project path .unreadable => "Failed to read config file " ++ path
  | project path fault => fault.message?.getD ("Failed to parse config file " ++ path)
  | build (.unreadable path) => "Failed to read " ++ path
  | build fault => fault.message?.getD ""

end Fault

/-- What a command has to say. -/
structure Report where
  /-- Warnings for the error channel. -/
  warnings : List String := []
  /-- A file to write, and its content. -/
  file : Option (String × String) := none
  /-- What is printed, once the file is written. -/
  output : String

/-- A summary of how the program is used. -/
def usage : String :=
  "Parse C/C++ headers into peer-class declarations\n\n"
    ++ "Usage: [-v]... parse [-o <OUTPUT>] [INPUT]...\n"
    ++ "       [-v]... check [INPUT]...\n"
    ++ "       [-v]... dump [--format json|text] [INPUT]...\n\n"
    ++ "Input: [-c <CONFIG>] [-I <INCLUDE_PATH>]... [--as-c] [HEADERS]...\n"

/-- The project file that an input is for. Without headers there is always one. -/
def Input.projectPath? (i : Input) : Option String :=
  i.project <|> (if i.headers.isEmpty then some projectFile else none)

/-- Loads the project of a file. -/
def loadProject (files : Files) (path : String) : Except Project.Fault Project :=
  match (files path).text? with
  | none => .error .unreadable
  | some text => Project.ofText text

/-- The builder and the headers for an input. -/
def prepare (files : Files) (i : Input) : Except Fault (Builder × List Include) := do
  let given := i.headers.map (⟨·, if i.asC then Dialect.c else .cpp⟩)
  match i.projectPath? with
  | none => return ({ table := RuleTable.standard, searchPath := i.searchPath }, given)
  | some path =>
    match loadProject files path with
    | .error fault => throw (.project path fault)
    | .ok p =>
      let b := Builder.ofProject p ((Path.parent? path).getD "")
      return ({ b with searchPath := i.searchPath ++ b.searchPath },
        if given.isEmpty then p.headers else given)

/-- The build for an input. -/
def build (files : Files) (i : Input) : Except Fault Build := do
  let (b, includes) ← prepare files i
  match (b.build files includes).1 with
  | .ok result => return result
  | .error fault => throw (.build fault)

/-- The text of a build, printed or written to a file. -/
def parseReport (output : Option String) (b : Build) : Report :=
  match output with
  | none => { warnings := b.warnings, output := b.text }
  | some path =>
    { warnings := b.warnings, file := some (path, b.text)
      output := "Wrote " ++ toString b.declarations.length ++ " declarations to " ++ path ++ "\n" }

/-- The headers of a build, and how much came of them. -/
def checkReport (b : Build) : Report :=
  { warnings := b.warnings
    output := String.join (b.files.map (· ++ ": OK\n")) ++ toString b.declarations.length
      ++ " declarations, " ++ toString b.warnings.length ++ " warnings\n" }

/-- The records of a build. -/
def dumpReport (format : Format) (b : Build) : Report :=
  match format with
  | .json => { output := (Dump.ofBuild b).pretty 0 ++ "\n" }
  | .text => { output := String.join (b.declarations.map (Dump.lineOf · ++ "\n")) }

/-- What a command comes to. -/
def run (files : Files) : Command → Except Fault Report
  | .parse i output => (build files i).map (parseReport output)
  | .check i => (build files i).map checkReport
  | .dump i format => (build files i).map (dumpReport format)
  | .help => .ok { output := usage }
  | .version => .ok { output := "0.1.0\n" }

/-- What the arguments of the program come to. -/
def runArguments (files : Files) (args : List String) : Except Fault Report :=
  match Command.ofArguments? args with
  | none => .error .usage
  | some command => run files command

/-- The input of a command that reads headers. -/
def Command.input? : Command → Option Input
  | parse input _ => some input
  | check input => some input
  | dump input _ => some input
  | _ => none

/-- The paths whose files a command may ask for, given those it can see already: the project file
first, and then all places where headers may be. -/
def wanted (files : Files) (command : Command) : List String :=
  match command.input? with
  | none => []
  | some i =>
    let headers := match prepare files i with
      | .ok (b, includes) => includes.flatMap fun h =>
        b.candidates h.name ++ [Builder.nominalPath h.name]
      | .error _ => []
    i.projectPath?.toList ++ headers

/-- Exit code, output and files after the program ran in a directory. -/
def runIn (tree : FileTree) (args : List String) : UInt8 × String × FileTree :=
  match runArguments tree.state args with
  | .error fault => (fault.code, "", tree)
  | .ok r =>
    match r.file with
    | none => (0, r.output, tree)
    | some (path, text) =>
      match tree.write? path text.toUTF8 with
      | some tree => (0, r.output, tree)
      | none => (1, "", tree)

end HeaderPeers.CommandLine

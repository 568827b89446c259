import HeaderPeers.Text.Basic

/-!
# Command lines

Which headers a command is for and what it does with them, as given by the arguments of the program.
-/

namespace HeaderPeers.CommandLine

/-- Where headers and rules come from. -/
structure Input where
  /-- Headers, in place of those that the project lists. -/
  headers : List String := []
  /-- The project file. -/
  project : Option String := none
  /-- Directories to look in before those of the project. -/
  searchPath : List String := []
  /-- Whether the headers given are in C. -/
  asC : Bool := false
deriving DecidableEq, Repr, Inhabited

/-- How a dump is written. -/
inductive Format where
  | json
  | text
deriving DecidableEq, Repr

def Format.ofName? (name : String) : Option Format :=
  if name == "json" then some .json else if name == "text" then some .text else none

/-- What the program is asked for. -/
inductive Command where
  /-- The text of all declarations, to a file if there is one. -/
  | parse (input : Input) (output : Option String)
  /-- Whether headers can be read. -/
  | check (input : Input)
  /-- Records of all declarations. -/
  | dump (input : Input) (format : Format)
  | help
  | version
deriving DecidableEq, Repr

/-- The commands that read headers. -/
inductive Verb where
  | parse
  | check
  | dump
deriving DecidableEq, Repr

def Verb.ofName? (name : String) : Option Verb :=
  [("parse", Verb.parse), ("check", .check), ("dump", .dump)].lookup name

/-- An option. -/
inductive Flag where
  | verbose
  | help
  | version
  | output
  | project
  | searchPath
  | asC
  | format
deriving DecidableEq, Repr

namespace Flag

/-- Whether an argument belongs to the option. -/
def takesValue : Flag → Bool
  | output => true
  | project => true
  | searchPath => true
  | format => true
  | _ => false

/-- Whether the option may be given more than once. -/
def repeats : Flag → Bool
  | verbose => true
  | searchPath => true
  | _ => false

/-- Whether a command knows an option; no command is given before its name. -/
def isKnownTo (verb : Option Verb) : Flag → Bool
  | verbose => true
  | help => true
  | version => verb == none
  | output => verb == some .parse
  | project => verb != none
  | searchPath => verb != none
  | asC => verb != none
  | format => verb == some .dump

/-- The option with a long name. -/
def ofName? (verb : Option Verb) (name : String) : Option Flag :=
  ([("verbose", verbose), ("help", help), ("version", version), ("output", output),
    ("config", project), ("include-path", searchPath), ("as-c", asC), ("format", format)].lookup
      name).filter (·.isKnownTo verb)

/-- The option with a letter. -/
def ofLetter? (verb : Option Verb) (letter : Char) : Option Flag :=
  ([('v', verbose), ('h', help), ('V', version), ('o', output), ('c', project),
    ('I', searchPath)].lookup letter).filter (·.isKnownTo verb)

end Flag

end HeaderPeers.CommandLine

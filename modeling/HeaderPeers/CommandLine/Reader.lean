import HeaderPeers.CommandLine.Basic

/-!
# Reading command lines

Options may stand between other arguments. An option with a value takes it from the same argument or
from the next one, letters without a value can be put together, and `--` ends the options.
-/

namespace HeaderPeers.CommandLine

/-- A part of a command line. -/
inductive Item where
  | flag (flag : Flag)
  | setting (flag : Flag) (value : String)
  | word (text : String)
  /-- Something that has no meaning; nothing behind it counts. -/
  | wrong
deriving DecidableEq, Repr

/-- What an argument says by itself. -/
inductive Piece where
  | items (items : List Item)
  /-- Options, the last of which wants the next argument. -/
  | wanting (items : List Item) (flag : Flag)
  /-- The end of the options. -/
  | stop

/-- Reads letters, the last of which may have its value behind it. -/
def letters (verb : Option Verb) : List Char → Piece
  | [] => .items []
  | c :: cs =>
    match Flag.ofLetter? verb c with
    | none => .items [.wrong]
    | some flag =>
      if flag.takesValue then
        match cs with
        | [] => .wanting [] flag
        | '=' :: value => .items [.setting flag (String.ofList value)]
        | value => .items [.setting flag (String.ofList value)]
      else match letters verb cs with
        | .items more => .items (.flag flag :: more)
        | .wanting more last => .wanting (.flag flag :: more) last
        | .stop => .stop

/-- Reads a long option. -/
def long (verb : Option Verb) (text : String) : Piece :=
  let (name, value) := match Text.cut? "=" text with
    | some (name, value) => (name, some value)
    | none => (text, none)
  match Flag.ofName? verb name, value with
  | none, _ => .items [.wrong]
  | some flag, some value => .items [if flag.takesValue then .setting flag value else .wrong]
  | some flag, none => if flag.takesValue then .wanting [] flag else .items [.flag flag]

/-- Whether an argument is an option, or ends them. -/
def looksLikeOption (arg : String) : Bool :=
  Text.startsWith "-" arg && arg != "-"

/-- Reads one argument. -/
def piece (verb : Option Verb) (arg : String) : Piece :=
  if arg == "--" then .stop
  else match Text.dropHead? "--" arg with
    | some text => long verb text
    | none => if looksLikeOption arg then letters verb (arg.toList.drop 1) else .items [.word arg]

/-- Reads the arguments behind the name of a command. -/
def itemsOf (verb : Verb) : List String → List Item
  | [] => []
  | arg :: args =>
    match piece (some verb) arg with
    | .stop => args.map .word
    | .items items => items ++ itemsOf verb args
    | .wanting items flag =>
      match args with
      | [] => items ++ [.wrong]
      | value :: args =>
        if looksLikeOption value then items ++ [.wrong]
        else items ++ .setting flag value :: itemsOf verb args

/-- What has been asked for so far. -/
structure Request where
  input : Input := {}
  output : Option String := none
  format : Option Format := none
  /-- Options that were given. -/
  given : List Flag := []

namespace Request

/-- Takes note of an option; most options can be given only once. -/
def note? (r : Request) (flag : Flag) : Option Request :=
  if !flag.repeats && r.given.contains flag then none
  else some { r with given := flag :: r.given }

/-- Takes an option and its value. No path is empty. -/
def set? (r : Request) (flag : Flag) (value : String) : Option Request :=
  (r.note? flag).bind fun r =>
    match flag with
    | .output => if value.isEmpty then none else some { r with output := some value }
    | .project => if value.isEmpty then none else some { r with input.project := some value }
    | .searchPath =>
      if value.isEmpty then none
      else some { r with input.searchPath := r.input.searchPath ++ [value] }
    | .format => (Format.ofName? value).map fun format => { r with format := some format }
    | _ => none

/-- The command that is asked for. -/
def command (verb : Verb) (r : Request) : Command :=
  match verb with
  | .parse => .parse r.input r.output
  | .check => .check r.input
  | .dump => .dump r.input (r.format.getD .json)

/-- Goes through the parts of a command line. -/
def read? (verb : Verb) (r : Request) : List Item → Option Command
  | [] => some (r.command verb)
  | .wrong :: _ => none
  | .word text :: items => { r with input.headers := r.input.headers ++ [text] }.read? verb items
  | .flag .help :: _ => some .help
  | .flag .asC :: items =>
    (r.note? .asC).bind fun r => { r with input.asC := true }.read? verb items
  | .flag flag :: items => (r.note? flag).bind fun r => r.read? verb items
  | .setting flag value :: items => (r.set? flag value).bind fun r => r.read? verb items

end Request

/-- Goes through options before the name of a command: help, the version, or nothing yet. -/
def leading? : List Item → Option (Option Command)
  | [] => some none
  | .flag .help :: _ => some (some .help)
  | .flag .version :: _ => some (some .version)
  | .flag .verbose :: items => leading? items
  | _ => none

/-- Reads the arguments of the program; none if they make no sense. -/
def Command.ofArguments? : List String → Option Command
  | [] => none
  | arg :: args =>
    match piece none arg with
    | .items [.word name] =>
      if name == "help" then
        if args.all fun a => (Verb.ofName? a).isSome || a == "help" then some .help else none
      else (Verb.ofName? name).bind fun verb => Request.read? verb {} (itemsOf verb args)
    | .items items =>
      match leading? items with
      | some (some command) => some command
      | some none => Command.ofArguments? args
      | none => none
    | _ => none

end HeaderPeers.CommandLine

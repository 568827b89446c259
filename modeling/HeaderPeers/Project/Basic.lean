import HeaderPeers.LineFilter
import HeaderPeers.Path
import HeaderPeers.Rule.Builtin
import HeaderPeers.Source

/-!
# Projects

A project says which headers are read, where they are looked for, and by which rules.
-/

namespace HeaderPeers

/-- A header to read. A name in angle brackets is looked for on the search path only. -/
structure Include where
  name : String
  dialect : Dialect := .cpp
deriving DecidableEq, Repr

/-- Which headers a project reads, and how. -/
structure Selection where
  /-- Directories in which headers are looked for, in order. -/
  includePaths : List String := []
  includes : List String := []
  /-- Headers that are read as C. -/
  cIncludes : List String := []
  /-- Headers that are passed over even if they are listed. -/
  exclude : List String := []
  /-- Pairs of patterns for ranges of lines. -/
  linePatterns : List String := []
  /-- Leaves the ranges out, rather than keeping nothing else. -/
  skipLines : Bool := false
deriving DecidableEq, Repr, Inhabited

/-- A project. -/
structure Project where
  name : String
  /-- The qualified name of the class that is printed. -/
  target : Option String := none
  /-- The directory that the search path starts from. -/
  root : Option String := none
  selection : Selection := {}
  rules : List Rule := []
deriving Inhabited

/-- Why a project cannot be used. -/
inductive Project.Fault where
  /-- Its file cannot be read as text. -/
  | unreadable
  /-- Its text is no project. -/
  | malformed
  | emptyName
  | noHeaders
  /-- The rule at a position, counted from one, says nothing. -/
  | idleRule (position : Nat)
  | badPattern
deriving DecidableEq, Repr

namespace Project

/-- The report of a fault; what is wrong with a file or a pattern is not told. -/
def Fault.message? : Fault → Option String
  | unreadable => none
  | malformed => none
  | emptyName => some "Config validation error: project name is empty"
  | noHeaders =>
    some "Config validation error: no headers listed in parse.includes or parse.c_includes"
  | idleRule n =>
    some ("Config validation error: rule #" ++ toString n ++ " has neither cpp_names nor target_text")
  | badPattern => none

/-- The filter for the lines of each header: the outer layer is missing if there are no patterns, the
inner one if a pattern is not well formed. -/
def lineFilter? (p : Project) : Option (Option LineFilter) :=
  if p.selection.linePatterns.isEmpty then none
  else some (LineFilter.ofPatterns? p.selection.linePatterns p.selection.skipLines)

/-- Whether a rule is for nothing. -/
def isIdle (rule : Rule) : Bool :=
  rule.nativeNames.isEmpty && rule.targetText.isNone

/-- The first fault of a project. -/
def fault? (p : Project) : Option Fault :=
  if (Text.trim p.name).isEmpty then some .emptyName
  else if p.selection.includes.isEmpty && p.selection.cIncludes.isEmpty then some .noHeaders
  else match p.rules.findIdx? isIdle with
    | some i => some (.idleRule (i + 1))
    | none => if p.lineFilter? matches some none then some .badPattern else none

/-- The directory of a project that was loaded from the directory `base`. -/
def directory (p : Project) (base : String) : String :=
  match p.root with
  | some root => Path.join base root
  | none => base

/-- Where headers are looked for. -/
def searchPath (p : Project) (base : String) : List String :=
  p.selection.includePaths.map (Path.join (p.directory base))

/-- The headers, those in C last. -/
def headers (p : Project) : List Include :=
  p.selection.includes.map (⟨·, .cpp⟩) ++ p.selection.cIncludes.map (⟨·, .c⟩)

/-- The rules over the built-in ones: first that excluded headers are passed over, then those of the
project in order. -/
def table (p : Project) : RuleTable :=
  let excluded : List Rule :=
    if p.selection.exclude.isEmpty then []
    else [{ nativeNames := p.selection.exclude, skip := true }]
  (excluded ++ p.rules).foldl (fun t r => t.put r) RuleTable.standard

end Project

end HeaderPeers

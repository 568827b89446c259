import HeaderPeers.Container.Reader
import HeaderPeers.FileTree
import HeaderPeers.Project.Reader
import HeaderPeers.Statement

/-!
# Builds

Reading several headers, one after another, into one outline. Rules learned from a header are known
in all that follow, also in later builds with the same builder, and also if a build fails.
-/

namespace HeaderPeers

/-- What a build gives. -/
structure Build where
  /-- Text of rules without a name, which goes before everything. -/
  header : List String
  declarations : List Declaration
  /-- The headers that were read, in order. -/
  files : List String
  /-- The line terminator of the first header that has one. -/
  lineBreak : Text.LineBreak
  warnings : List String

namespace Build

/-- The text of a build, with its own line terminator. -/
def text (b : Build) : String :=
  let plain := String.join (b.header.map (· ++ "\n")) ++ String.join (b.declarations.map (·.text))
  if b.lineBreak == .lf then plain else Text.replace "\n" b.lineBreak.text plain

/-- Why a build stops. -/
inductive Fault where
  | reading (failure : Failure)
  /-- A header that is nowhere. -/
  | missing (path : String)
  /-- A header that is no text, or cannot be read. -/
  | unreadable (path : String)

/-- The report of a fault; why a file cannot be read is not told. -/
def Fault.message? : Fault → Option String
  | reading failure => some failure.message
  | missing path => some ("Could not parse \"" ++ path ++ "\": File does not exist")
  | unreadable _ => none

end Build

/-- What goes from one build to the next. -/
structure Builder where
  table : RuleTable
  searchPath : List String := []
  lineFilter : Option LineFilter := none
  sources : SourceMap := {}
  warnings : List Diagnostic := []

namespace Builder

/-- A builder for a project that was loaded from the directory `base`. -/
def ofProject (p : Project) (base : String) : Builder :=
  { table := p.table, searchPath := p.searchPath base, lineFilter := p.lineFilter?.bind id }

/-- The name between angle brackets. -/
def bracketed? (name : String) : Option String :=
  (Text.dropHead? "<" name).bind (Text.dropTail? ">")

/-- The paths at which a header may be, in the order they are tried. -/
def candidates (b : Builder) (name : String) : List String :=
  match bracketed? name with
  | some inner => b.searchPath.map (Path.join · inner)
  | none => name :: b.searchPath.map (Path.join · name)

/-- The file for a header. -/
def resolve? (b : Builder) (files : Files) (name : String) : Option String :=
  (b.candidates name).find? fun path => (files path).isFile

/-- The path that a header is reported by if there is no file for it. -/
def nominalPath (name : String) : String :=
  String.ofList (Text.dropEndWhile (· == '>') (name.toList.dropWhile (· == '<')))

/-- Whether a rule says that headers of this file name are passed over. -/
def isExcluded (b : Builder) (path : String) : Bool :=
  (b.table.find? ((Path.fileName? path).getD "")).any (·.skip)

/-- The content of a header that is read, filtered; one that was read before keeps the path and the
content it had. -/
def register (b : Builder) (path content : String) (dialect : Dialect) : Builder × SourceFile :=
  let content := match b.lineFilter with
    | some filter => filter.apply content
    | none => content
  let (id, sources) := b.sources.add path content dialect
  ({ b with sources }, (sources.get? id).getD { id, path, content, dialect })

/-- Adds a comment to an outline. -/
def addComment (b : Builder) (outline : Outline) (text : String) : Outline :=
  (outline.add b.table (.ofComment text)).2

/-- What reading a header comes to: the outline with its declarations, its line terminator, and the
builder that knows its rules. -/
def readHeader (b : Builder) (outline : Outline) (name : String) (file : SourceFile)
    (dialect : Dialect) : Except Failure (Outline × Option Text.LineBreak) × Builder :=
  let outline := b.addComment outline ("\n// Parsed from " ++ name ++ "\n\n")
  let tokens := Token.ofText (some file.path) file.content
  let scope : Scope := { cOnly := dialect == .c }
  let (outcome, after) :=
    ReadM.perform (Statement.readAll scope) { Reading.ofTokens b.table tokens with outline }
  let b := { b with table := after.table, warnings := b.warnings ++ after.warnings.toList }
  match outcome with
  | .error failure => (.error failure, b)
  | .ok () => (.ok (b.addComment after.outline "\n",
      Text.LineBreak.firstOf? file.content.toList), b)

/-- The part of a build that is done. -/
structure Progress where
  outline : Outline
  files : List String := []
  lineBreak : Option Text.LineBreak := none

/-- Reads one header, unless it is excluded. -/
def readInclude (b : Builder) (files : Files) (p : Progress) (i : Include) :
    Except Build.Fault Progress × Builder :=
  let path := (b.resolve? files i.name).getD (nominalPath i.name)
  if b.isExcluded path then (.ok p, b)
  else if !(files path).isFile then (.error (.missing path), b)
  else match (files path).text? with
    | none => (.error (.unreadable path), b)
    | some content =>
      let (b, file) := b.register path content i.dialect
      match b.readHeader p.outline i.name file i.dialect with
      | (.error failure, b) => (.error (.reading failure), b)
      | (.ok (outline, lineBreak), b) =>
        (.ok { outline, files := p.files ++ [path], lineBreak := p.lineBreak <|> lineBreak }, b)

/-- Reads headers in order, up to the first fault. -/
def readIncludes (b : Builder) (files : Files) (p : Progress) :
    List Include → Except Build.Fault Progress × Builder
  | [] => (.ok p, b)
  | i :: more =>
    match b.readInclude files p i with
    | (.error fault, b) => (.error fault, b)
    | (.ok p, b) => b.readIncludes files p more

/-- Prints the containers that rules ask for. -/
def printContainers (b : Builder) : Except Failure Outline × Builder :=
  match ReadM.perform (Container.printAll {}) (.ofTokens b.table []) with
  | (.error failure, after) => (.error failure, { b with table := after.table })
  | (.ok (), after) => (.ok after.outline,
      { b with table := after.table, warnings := b.warnings ++ after.warnings.toList })

/-- Reads headers into one outline, behind the containers that rules ask for. -/
def build (b : Builder) (files : Files) (includes : List Include) :
    Except Build.Fault Build × Builder :=
  match b.printContainers with
  | (.error failure, b) => (.error (.reading failure), b)
  | (.ok outline, b) =>
    match b.readIncludes files { outline } includes with
    | (.error fault, b) => (.error fault, b)
    | (.ok p, b) =>
      (.ok {
        header := b.table.unnamed.filterMap (·.targetText)
        declarations := p.outline.toList
        files := p.files
        lineBreak := p.lineBreak.getD .lf
        warnings := b.warnings.map (·.text) }, b)

end Builder

end HeaderPeers

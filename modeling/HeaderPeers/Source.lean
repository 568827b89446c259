import HeaderPeers.Path
import HeaderPeers.Text.Line

/-!
# Sources

Headers by path, each with the dialect it is read as.
-/

namespace HeaderPeers

/-- The language of a header. C has no constructors, destructors or operators. -/
inductive Dialect where
  | c
  | cpp
deriving DecidableEq, Repr

/-- The dialect that a file name extension stands for. -/
def Dialect.ofExtension? (extension : String) : Option Dialect :=
  if extension == "c" then some .c
  else if ["h", "hh", "hpp", "hxx", "h++", "cpp", "cc", "cxx", "c++", "inl"].contains extension then
    some .cpp
  else none

/-- A header with its content. -/
structure SourceFile where
  id : Nat
  path : String
  content : String
  dialect : Dialect
deriving DecidableEq, Repr

namespace SourceFile

/-- What stands between line feeds. -/
def pieces (file : SourceFile) : List String :=
  Text.split (· == '\n') file.content

/-- The number of lines, one more than there are line feeds. -/
def lineCount (file : SourceFile) : Nat :=
  file.pieces.length

/-- A line, counted from one, without the terminator at its end. -/
def line? (file : SourceFile) (n : Nat) : Option String :=
  if n == 0 then none
  else (file.pieces[n - 1]?).map fun piece =>
    String.ofList (Text.dropEndWhile (fun c => c == '\n' || c == '\r') piece.toList)

end SourceFile

/-- Every header read so far, in order; a path is registered once. -/
structure SourceMap where
  files : List SourceFile := []
deriving Repr, Inhabited

namespace SourceMap

def ofPath? (map : SourceMap) (path : String) : Option SourceFile :=
  map.files.find? (Path.same path ·.path)

def get? (map : SourceMap) (id : Nat) : Option SourceFile :=
  map.files[id]?

/-- Registers a header and gives its identity; a known path keeps its first content. -/
def add (map : SourceMap) (path content : String) (dialect : Dialect) : Nat × SourceMap :=
  match map.ofPath? path with
  | some file => (file.id, map)
  | none =>
    let id := map.files.length
    (id, { files := map.files ++ [{ id, path, content, dialect }] })

def size (map : SourceMap) : Nat :=
  map.files.length

end SourceMap

end HeaderPeers

import HeaderPeers.Path

/-!
# Files

What paths lead to, and directories that are kept in memory.
-/

namespace HeaderPeers

/-- What a path leads to. -/
inductive FileState where
  /-- No file. -/
  | missing
  /-- A file that cannot be read. -/
  | unreadable
  | holds (bytes : ByteArray)

namespace FileState

def isFile : FileState → Bool
  | missing => false
  | _ => true

/-- The content as text, if it is text. -/
def text? : FileState → Option String
  | holds bytes => String.fromUTF8? bytes
  | _ => none

end FileState

/-- All files that paths can lead to. -/
abbrev Files := String → FileState

/-- A directory in memory: the names on the way to each file, and its content. -/
structure FileTree where
  files : List (List String × ByteArray) := []

namespace FileTree

/-- Whether names lead to a directory: to the tree itself or to something with files in it. -/
def isDirectory (tree : FileTree) (place : List String) : Bool :=
  place.isEmpty
    || tree.files.any fun (file, _) => place.isPrefixOf file && place.length < file.length

/-- Follows the parts of a path from a place. Every part but the last leads through a directory, and
no path leads out of the tree. -/
def follow (tree : FileTree) (place : List String) : List String → Option (List String)
  | [] => some place
  | part :: parts =>
    if !tree.isDirectory place then none
    else if part == "" || part == "." then tree.follow place parts
    else if part == ".." then
      if place.isEmpty then none else tree.follow place.dropLast parts
    else tree.follow (place ++ [part]) parts

/-- The place that a relative path leads to. -/
def place? (tree : FileTree) (path : String) : Option (List String) :=
  if path.isEmpty || Path.isAbsolute path then none
  else tree.follow [] (Text.split (· == '/') path)

/-- What paths in the tree lead to. -/
def state (tree : FileTree) : Files := fun path =>
  match (tree.place? path).bind fun place => tree.files.lookup place with
  | some bytes => .holds bytes
  | none => .missing

/-- Puts a file at a place, in place of one that is there. -/
def put (tree : FileTree) (place : List String) (bytes : ByteArray) : FileTree :=
  { files := (place, bytes) :: tree.files.filter (·.1 != place) }

/-- Writes a file into a directory that exists. -/
def write? (tree : FileTree) (path : String) (bytes : ByteArray) : Option FileTree :=
  (tree.place? path).bind fun place =>
    if tree.isDirectory place then none else some (tree.put place bytes)

/-- A tree of files, given by relative paths without dots. -/
def ofList (files : List (String × ByteArray)) : FileTree :=
  files.foldl (fun tree (path, bytes) =>
    tree.put ((Path.components path).filter (· != ".")) bytes) {}

end FileTree

end HeaderPeers

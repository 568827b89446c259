import HeaderPeers.Text.Basic

/-!
# Paths

A path is compared by its components: repeated separators, separators at the end and `.` behind
the start make no difference.
-/

namespace HeaderPeers.Path

/-- Whether a path starts at the root. -/
def isAbsolute (path : String) : Bool :=
  path.toList.head? == some '/'

/-- The names a path is made of. A `.` counts only at the start of a relative path; the root is the
component `/`. -/
def components (path : String) : List String :=
  let names := Text.split (· == '/') path
  if isAbsolute path then "/" :: names.filter fun n => n != "" && n != "."
  else match names with
    | [] => []
    | first :: more =>
      (if first == "" then [] else [first]) ++ more.filter fun n => n != "" && n != "."

/-- Whether two paths have the same components. -/
def same (a b : String) : Bool :=
  components a == components b

/-- A path below another one; an absolute path replaces it. -/
def join (base path : String) : String :=
  if isAbsolute path then path
  else if base.isEmpty || Text.endsWith "/" base then base ++ path
  else base ++ "/" ++ path

/-- The last name of a path, if it ends in one. -/
def fileName? (path : String) : Option String :=
  (components path).getLast?.filter fun name => name != "/" && name != "." && name != ".."

/-- Drops names from the end of a path written backwards that are empty or `.`, and the separators
before them. The first name of a path stays. -/
def trimBack : List String → List String
  | [] => []
  | [first] => [first]
  | name :: names => if name == "" || name == "." then trimBack names else name :: names

/-- The path without its last name; none if it has no name. -/
def parent? (path : String) : Option String :=
  match trimBack (Text.split (· == '/') path).reverse with
  | [] => none
  | [name] => if name == "" then none else some ""
  | _ :: names =>
    let kept := Text.joinWith "/" (trimBack names).reverse
    some (if kept == "" && isAbsolute path then "/" else kept)

end HeaderPeers.Path

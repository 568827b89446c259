import HeaderPeers.Toml.Value

/-!
# Trees of tables

A project file is built line by line: headers open tables, and keys with dots reach into them. How a
table came to be decides what may still be added to it.
-/

namespace HeaderPeers.Toml

/-- How a table came to be. -/
inductive Origin where
  /-- By a header of its own: it cannot get a second one, nor entries by dotted keys. -/
  | header
  /-- On the way of a header: it may still get one of its own. -/
  | passage
  /-- By dotted keys: it cannot get a header. -/
  | dotted
deriving DecidableEq, Repr

/-- A part of a document that is being built. -/
inductive Node where
  | value (v : Value)
  | table (origin : Origin) (entries : List (String × Node))
  /-- Tables under headers in double brackets. -/
  | tables (elements : List (List (String × Node)))

abbrev Entries := List (String × Node)

namespace Entries

/-- Sets an entry; a new one goes to the end. -/
def put (name : String) (node : Node) : Entries → Entries
  | [] => [(name, node)]
  | (n, old) :: entries =>
    if n == name then (n, node) :: entries else (n, old) :: put name node entries

/-- Changes the table that a path leads to. Tables that are missing on the way are made; of several
tables under one name, the path leads into the last. Dotted keys do not lead through a table that
has a header of its own. -/
def alter (dotted : Bool) (change : Origin → Entries → Option Entries) (origin : Origin) :
    List String → Entries → Option Entries
  | [], entries => change origin entries
  | name :: names, entries =>
    match entries.lookup name with
    | none =>
      let origin := if dotted then .dotted else .passage
      (alter dotted change origin names []).map fun made => put name (.table origin made) entries
    | some (.value _) => none
    | some (.table origin inner) =>
      if dotted && origin == .header then none
      else (alter dotted change origin names inner).map fun made =>
        put name (.table origin made) entries
    | some (.tables elements) =>
      match elements.getLast? with
      | none => none
      | some last => (alter dotted change .header names last).map fun made =>
        put name (.tables (elements.dropLast ++ [made])) entries

/-- The path to the table that holds an entry, and the name of the entry. -/
def splitPath : List String → Option (List String × String)
  | [] => none
  | [name] => some ([], name)
  | name :: names => (splitPath names).map fun (path, last) => (name :: path, last)

/-- Opens the table of a header. -/
def openTable (path : List String) (entries : Entries) : Option Entries :=
  (splitPath path).bind fun (path, name) =>
    alter false (fun _ entries =>
      match entries.lookup name with
      | none => some (put name (.table .header []) entries)
      | some (.table .passage inner) => some (put name (.table .header inner) entries)
      | some _ => none) .header path entries

/-- Opens one more table of a header in double brackets. -/
def openElement (path : List String) (entries : Entries) : Option Entries :=
  (splitPath path).bind fun (path, name) =>
    alter false (fun _ entries =>
      match entries.lookup name with
      | none => some (put name (.tables [[]]) entries)
      | some (.tables elements) => some (put name (.tables (elements ++ [[]])) entries)
      | some _ => none) .header path entries

/-- Sets a new entry in a table; dots in its key lead into tables that only such keys make. -/
def assign (key : List String) (v : Value) (entries : Entries) : Option Entries :=
  (splitPath key).bind fun (path, name) =>
    alter true (fun origin entries =>
      if (origin == .dotted) == path.isEmpty then none
      else match entries.lookup name with
        | none => some (put name (.value v) entries)
        | some _ => none) .header path entries

/-- Sets a new entry in the table under a header. -/
def assignUnder (header key : List String) (v : Value) (entries : Entries) : Option Entries :=
  alter false (fun _ entries => assign key v entries) .header header entries

end Entries

mutual

/-- The value that a finished node stands for. -/
def Node.toValue : Node → Value
  | .value v => v
  | .table _ entries => .table (entryValues entries)
  | .tables elements => .array (elementValues elements)

/-- The values of entries. -/
def entryValues : List (String × Node) → List (String × Value)
  | [] => []
  | (name, node) :: entries => (name, node.toValue) :: entryValues entries

/-- The values of tables under one name. -/
def elementValues : List (List (String × Node)) → List Value
  | [] => []
  | entries :: elements => .table (entryValues entries) :: elementValues elements

end

end HeaderPeers.Toml

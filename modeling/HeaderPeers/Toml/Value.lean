/-!
# Values of project files

The data model of TOML. Numbers with a fraction and dates keep their spelling, since nothing
calculates with them.
-/

namespace HeaderPeers.Toml

/-- A value. -/
inductive Value where
  | text (s : String)
  | boolean (b : Bool)
  | integer (n : Int)
  | float (spelling : String)
  /-- A date, a time, or both. -/
  | moment (spelling : String)
  | array (elements : List Value)
  | table (entries : List (String × Value))
deriving Repr, Inhabited

namespace Value

def text? : Value → Option String
  | text s => some s
  | _ => none

def boolean? : Value → Option Bool
  | boolean b => some b
  | _ => none

def elements? : Value → Option (List Value)
  | array vs => some vs
  | _ => none

/-- A list of texts. -/
def texts? (v : Value) : Option (List String) :=
  v.elements?.bind (·.mapM text?)

/-- The fields of a record: the entries of a table, or the elements of an array in the order of the
fields. A moment has no field that a record asks for. -/
def fields? (names : List String) : Value → Option (List (String × Value))
  | table entries => some entries
  | array vs => some (names.zip vs)
  | moment _ => some []
  | _ => none

end Value

/-- Reads a field that may be missing. -/
def optional? {α : Type} (read : Value → Option α) (name : String)
    (fields : List (String × Value)) : Option (Option α) :=
  match fields.lookup name with
  | none => some none
  | some v => (read v).map some

/-- Reads a field that has a default. -/
def withDefault? {α : Type} (read : Value → Option α) (default : α) (name : String)
    (fields : List (String × Value)) : Option α :=
  (optional? read name fields).map (·.getD default)

end HeaderPeers.Toml

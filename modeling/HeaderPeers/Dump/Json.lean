import HeaderPeers.Text.Basic

/-!
# JSON

Records as text, one field or element on a line, two spaces deeper for each level.
-/

namespace HeaderPeers.Dump

/-- A value of JSON; fields keep their order. -/
inductive Json where
  | boolean (b : Bool)
  | number (n : Int)
  | text (s : String)
  | array (elements : List Json)
  | object (fields : List (String × Json))

namespace Json

/-- The last two digits of a hexadecimal number. -/
def hexPair (n : Nat) : String :=
  String.ofList [Nat.digitChar (n / 16 % 16), Nat.digitChar (n % 16)]

/-- A character inside quotes. -/
def escaped (c : Char) : String :=
  if c == '"' then "\\\""
  else if c == '\\' then "\\\\"
  else if c == '\x08' then "\\b"
  else if c == '\t' then "\\t"
  else if c == '\n' then "\\n"
  else if c == '\x0c' then "\\f"
  else if c == '\r' then "\\r"
  else if c.toNat < 0x20 then "\\u00" ++ hexPair c.toNat
  else c.toString

/-- A text in quotes. -/
def quoted (s : String) : String :=
  "\"" ++ String.join (s.toList.map escaped) ++ "\""

/-- The start of a line at a level. -/
def lineAt (level : Nat) : String :=
  "\n" ++ Text.times level "  "

/-- Lines between brackets, one level deeper; nothing between them if there are no lines. -/
def block (opening closing : String) (level : Nat) (parts : List String) : String :=
  if parts.isEmpty then opening ++ closing
  else opening ++ Text.joinWith "," (parts.map (lineAt (level + 1) ++ ·)) ++ lineAt level ++ closing

mutual

/-- The text of a value whose line is at a level. -/
def pretty (level : Nat) : Json → String
  | boolean b => if b then "true" else "false"
  | number n => toString n
  | text s => quoted s
  | array vs => block "[" "]" level (elements (level + 1) vs)
  | object fs => block "\x7b" "\x7d" level (fields (level + 1) fs)

/-- The texts of elements. -/
def elements (level : Nat) : List Json → List String
  | [] => []
  | v :: vs => v.pretty level :: elements level vs

/-- The texts of fields. -/
def fields (level : Nat) : List (String × Json) → List String
  | [] => []
  | (name, v) :: fs => (quoted name ++ ": " ++ v.pretty level) :: fields level fs

end

/-- An array of texts. -/
def texts (ss : List String) : Json :=
  array (ss.map text)

/-- A field that is left out if it is missing. -/
def optional (name : String) : Option Json → List (String × Json)
  | some v => [(name, v)]
  | none => []

/-- A field that is left out if it has no elements. -/
def nonempty (name : String) (vs : List Json) : List (String × Json) :=
  if vs.isEmpty then [] else [(name, array vs)]

end Json

end HeaderPeers.Dump

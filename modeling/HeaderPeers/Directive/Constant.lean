import HeaderPeers.Rule.Table

/-!
# Constants

Macros that stand for a value become constants. The type of a constant is the widest that occurs in
its value.
-/

namespace HeaderPeers

/-- The types that constants have, the narrowest first. -/
inductive Literal where
  | int
  | long
  | double
  | string
deriving DecidableEq, Repr

namespace Literal

def all : List Literal := [int, long, double, string]

/-- The position in the order from narrow to wide. -/
def rank : Literal → Nat
  | int => 0
  | long => 1
  | double => 2
  | string => 3

/-- The target type. -/
def target : Literal → String
  | int => "int"
  | long => "long"
  | double => "double"
  | string => "String"

/-- The native type that is remembered for a constant. -/
def native : Literal → String
  | int => "int"
  | long => "long long"
  | double => "double"
  | string => "const char*"

/-- The type remembered under a native name. -/
def ofNative? (name : String) : Option Literal :=
  all.find? (·.native == name)

/-- The type with a target name, `int` for any other name. -/
def ofTarget (name : String) : Literal :=
  (all.find? (·.target == name)).getD int

/-- The wider of two types. -/
def max (a b : Literal) : Literal :=
  if b.rank > a.rank then b else a

/-- The type that a token has by itself; names of constants have what is remembered for them. -/
def ofToken? (table : RuleTable) (t : Token) : Option Literal :=
  match t.kind with
  | .string => some string
  | .float => some double
  | .integer => if Text.endsWith "L" t.text then some long else none
  | .identifier => ((table.find? t.text).bind (·.nativeType?)).bind ofNative?
  | _ => none

end Literal

/-- A qualified name as a member of the peer class of its scope, or alone if there is none. -/
def RuleTable.translateName (table : RuleTable) (text : String) : String :=
  match Text.cutLast? "::" text with
  | none => text
  | some (scope, name) =>
    match (table.find? (Text.trim scope)).bind (·.pointerType?) with
    | some peer => Text.leadingBlanks scope ++ peer ++ "." ++ name
    | none => name

/-- The target name of a macro, with its native name if a rule renames it. -/
def Rule.renamed (r : Rule) (name : String) : String :=
  match (r.nativeNames.findIdx? (· == name)).bind fun i => (r.targetNames.getD [])[i]? with
  | some target => "@Name(\"" ++ r.nativeName ++ "\") " ++ target
  | none => name

/-- What the tokens of a value say about a constant. -/
structure ConstantValue where
  type : Literal := .int
  /-- Strings are put together. -/
  concatenates : Bool := false
  /-- The value means the same on the target side: no calls and no braces. -/
  isPlain : Bool := true
  last : Option Token := none

/-- Looks at one more token of a value. -/
def ConstantValue.push (table : RuleTable) (v : ConstantValue) (t : Token) : ConstantValue :=
  match Literal.ofToken? table t with
  | some type =>
    { v with
      type := v.type.max type
      concatenates := v.concatenates || type == .string
      last := some t }
  | none =>
    let isCall := v.last.any (fun l => l.isIdentifier || l.is ">") && t.is "("
    { v with
      isPlain := v.isPlain && !(isCall || t.isAny ["\x7b", "\x7d"])
      last := some t }

end HeaderPeers

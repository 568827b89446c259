import HeaderPeers.Declarator.Shape

/-!
# Accessors

The getters and setters printed for variables.
-/

namespace HeaderPeers.Variable

/-- The name of index number `i`, in one byte. -/
def indexName (i : Nat) : Char :=
  Char.ofNat (('i'.toNat + i) % 256)

/-- Parameters for some indices. -/
def indexList (count : Nat) : String :=
  Text.joinWith ", " ((List.range count).map fun i => "int " ++ (indexName i).toString)

/-- How a member of an unnamed class is reached through the variable that holds it: annotation and
target name. -/
def throughMember (outer d : Declarator) : String × String :=
  let path := if outer.dims.isEmpty then
      "\"" ++ outer.nativeName ++ "." ++ d.nativeName ++ "\""
    else "\x7b\"" ++ outer.nativeName ++ "\", \"." ++ d.nativeName ++ "\"\x7d"
  ("@Name(" ++ path ++ ") ", outer.targetName ++ "_" ++ d.targetName)

/-- What accessors are made of. -/
structure Naming where
  name : String
  annotations : String
  getter : String
  setter : String

/-- The names of the accessors of a variable. -/
def namingOf (scope : Scope) (d : Declarator) : Naming :=
  let (annotations, name) := match scope.member with
    | some outer => if outer.nativeName.isEmpty then ("", d.targetName) else throughMember outer d
    | none => ("", d.targetName)
  if scope.beanify then
    { name
      annotations := if annotations.isEmpty then "@Name(\"" ++ d.nativeName ++ "\") "
        else annotations
      getter := "get" ++ Text.capitalize name
      setter := "set" ++ Text.capitalize name }
  else { name, annotations, getter := name, setter := name }

/-- The words in front of an accessor, and the type that a setter gives. -/
structure Modifiers where
  words : String
  setterType : String

def modifiersOf (scope : Scope) (isStatic : Bool) : Modifiers :=
  match scope.group with
  | some group =>
    if isStatic then ⟨"public static native ", "void "⟩
    else ⟨"public native ", scope.shorten group.targetName ++ " "⟩
  | none => ⟨"public static native ", "void "⟩

/-- Values are handed out by reference. -/
def byReference (annotations : String) : String :=
  Text.replace "@ByVal " "@ByRef " annotations

/-- How many indices the variable that holds an unnamed class takes. -/
def outerIndices (scope : Scope) : Nat :=
  (scope.member.map (·.dims.length)).getD 0

/-- Getter and setter of an element. -/
def elementText (scope : Scope) (m : Modifiers) (n : Naming) (d : Declarator) : String :=
  let outer := outerIndices scope
  let indices := indexList (if outer > 0 then outer else d.dims.length)
  let target := d.type.targetName
  scope.namespaceText ++ n.annotations ++ (if d.type.constValue then "@MemberGetter " else "")
    ++ m.words ++ byReference d.type.annotations ++ target ++ " " ++ n.getter ++ "(" ++ indices
    ++ ");"
    ++ (if d.type.constValue || scope.immutable then ""
      else " " ++ n.annotations ++ m.words ++ m.setterType ++ n.setter ++ "(" ++ indices
        ++ (if indices.isEmpty then "" else ", ") ++ target ++ " " ++ n.name ++ ");")
    ++ "\n"

/-- Getter of a pointer to the first element of an array. -/
def arrayText (scope : Scope) (m : Modifiers) (n : Naming) (pointer : Declarator) : String :=
  scope.namespaceText ++ n.annotations ++ "@MemberGetter " ++ m.words
    ++ byReference pointer.type.annotations ++ pointer.type.targetName ++ " " ++ n.getter ++ "("
    ++ indexList (outerIndices scope) ++ ");\n"

end HeaderPeers.Variable

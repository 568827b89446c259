/-!
# Types, declarators and declarations

What is read from a header: types, the declarators that name something of a type, and the
declarations that are printed for them.
-/

namespace HeaderPeers

/-- An attribute or annotation macro found next to a type. -/
structure Attribute where
  nativeName : String := ""
  /-- The annotation it stands for. -/
  targetName : String := ""
  /-- The text between its parentheses. -/
  arguments : String := ""
  /-- A rule says that this name annotates. -/
  annotates : Bool := false
deriving DecidableEq, Repr, Inhabited

/-- A reference to a native type. Qualifiers and indirections are counted apart from the name. -/
structure NativeType where
  nativeName : String := ""
  targetName : String := ""
  /-- All target names the rule has for a type of this shape. -/
  targetNames : List String := []
  /-- Annotations, each with a space behind it. -/
  annotations : String := ""
  /-- Template arguments. -/
  arguments : Option (List NativeType) := none
  attributes : List Attribute := []
  indirections : Nat := 0
  reference : Bool := false
  rvalue : Bool := false
  constValue : Bool := false
  constPointer : Bool := false
  constructor : Bool := false
  destructor : Bool := false
  operator : Bool := false
  staticMember : Bool := false
  simple : Bool := false
  anonymous : Bool := false
  virtualMember : Bool := false
  friend : Bool := false
deriving Repr, Inhabited

namespace NativeType

/-- A type whose target name is its native name. -/
def named (name : String) : NativeType :=
  { nativeName := name, targetName := name }

/-- The native spelling, with qualifiers and indirections. -/
def spelling (t : NativeType) : String :=
  (if t.constValue then "const " else "") ++ t.nativeName
    ++ (if t.constPointer then " const" else "")
    ++ String.ofList (List.replicate t.indirections '*')
    ++ (if t.rvalue then "&&" else if t.reference then "&" else "")

end NativeType

mutual

/-- Something named, of a type. -/
structure Declarator where
  nativeName : String := ""
  targetName : String := ""
  type : NativeType := {}
  indirections : Nat := 0
  reference : Bool := false
  rvalue : Bool := false
  constPointer : Bool := false
  /-- Array dimensions, `-1` for one that is not known. -/
  dims : List Int := []
  bitfield : Bool := false
  parameters : Option Parameters := none
  /-- A helper type it needs, such as the peer class of a function pointer. -/
  definition : Option Declaration := none
  signature : String := ""
  /-- Which of several target names was chosen. -/
  choice : Nat := 0

/-- A list of parameters. -/
structure Parameters where
  /-- The printed list, with its parentheses. -/
  list : String := ""
  /-- The names alone, with parentheses. -/
  names : String := ""
  declarators : List Declarator := []
  signature : String := ""
  choice : Nat := 0
  /-- How many have a default value. -/
  defaults : Nat := 0

/-- A piece of output. -/
structure Declaration where
  text : String := ""
  signature : String := ""
  type : Option NativeType := none
  declarator : Option Declarator := none
  isFunction : Bool := false
  isVariable : Bool := false
  isComment : Bool := false
  abstractMember : Bool := false
  constMember : Bool := false
  /-- The text is a rule's own. -/
  custom : Bool := false
  inaccessible : Bool := false
  incomplete : Bool := false

end

instance : Inhabited Declarator := ⟨{}⟩

instance : Inhabited Parameters := ⟨{}⟩

instance : Inhabited Declaration := ⟨{}⟩

namespace Declaration

def ofComment (text : String) : Declaration :=
  { text, isComment := true }

def isConstructor (d : Declaration) : Bool :=
  d.declarator.any (·.type.constructor)

mutual

/-- The helper definitions a declaration needs, each after those it needs itself, and then the
declaration. -/
def unfold (d : Declaration) : List Declaration :=
  match d with
  | ⟨text, signature, type, declarator, f, v, c, a, k, u, i, p⟩ =>
    (match declarator with
      | some named => helpersOf named
      | none => [])
      ++ [⟨text, signature, type, declarator, f, v, c, a, k, u, i, p⟩]

/-- The definitions that a declarator and its parameters need. -/
def helpersOf (d : Declarator) : List Declaration :=
  match d with
  | ⟨_, _, _, _, _, _, _, _, _, parameters, definition, _, _⟩ =>
    (match definition with
      | some helper => unfold helper
      | none => [])
      ++ (match parameters with
        | some ⟨_, _, declarators, _, _, _⟩ => definitionsOf declarators
        | none => [])

/-- The definitions that belong to some parameters themselves. -/
def definitionsOf (ds : List Declarator) : List Declaration :=
  match ds with
  | [] => []
  | ⟨_, _, _, _, _, _, _, _, _, _, definition, _, _⟩ :: more =>
    (match definition with
      | some helper => unfold helper
      | none => [])
      ++ definitionsOf more

end

end Declaration

end HeaderPeers

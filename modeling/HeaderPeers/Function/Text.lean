import HeaderPeers.Declarator.Shape

/-!
# Printed functions

The text of functions, methods and constructors.
-/

namespace HeaderPeers.Function

/-- What an accessor does. -/
inductive Role where
  | getter
  | setter
  | allocator
deriving DecidableEq, Repr

def Role.text : Role → String
  | getter => "Getter"
  | setter => "Setter"
  | allocator => "Allocator"

/-- The roles that a member function looks like it has, the likeliest first. -/
def rolesOf (group : NativeType) (d : Declarator) : List Role :=
  let arity := ((d.parameters.map (·.declarators)).getD []).length
  let returnsVoid := d.type.targetName == "void" && d.indirections == 0
  (if arity == 0 && !returnsVoid then [Role.getter] else [])
    ++ (if arity == 1 && (returnsVoid || d.type.targetName == group.targetName) then [.setter]
      else [])
    ++ (if d.indirections > 0
        && ["create", "new", "alloc", "make"].any (Text.startsWith · d.targetName) then
        [.allocator] else [])

/-- The name an accessor gets in place of its own. -/
def accessorName? (role : Role) (name : String) : Option String :=
  match role with
  | .getter =>
    if Text.startsWith "get" name || Text.startsWith "is" name then none
    else some ("get" ++ Text.capitalize name)
  | .setter => if Text.startsWith "set" name then none else some ("set" ++ Text.capitalize name)
  | .allocator => none

/-- The declarator of a constructor, a destructor or a conversion, which have no name besides their
type. -/
def ofSpecial (type : NativeType) (parameters : Parameters) : Declarator :=
  let target := Text.lastWord type.targetName
  let (native, target) := if type.operator then
      ("operator " ++ type.nativeName, "as" ++ Text.capitalize target)
    else (type.nativeName, target)
  { nativeName := native, targetName := target, type, parameters := some parameters
    signature := target ++ parameters.signature }

/-- The native name of a function with the types of its parameters. -/
def fullName (name : String) (parameters : Parameters) : String :=
  let types := parameters.declarators.map fun d =>
    d.type.nativeName ++ String.ofList (List.replicate d.indirections '*')
      ++ (if d.reference then "&" else "")
  name ++ "(" ++ Text.joinWith ", " types ++ ")"

/-- The rule for a function: that for its full name, or else for its name. -/
def rule? (table : RuleTable) (name : String) (parameters : Parameters) : Option Rule :=
  (table.find? (fullName name parameters)).orElse fun _ => table.find? name

/-- The words in front of a function. -/
def modifiers (scope : Scope) (isStatic : Bool) : String :=
  if (isStatic && !scope.objectify) || scope.group.isNone then "public static native "
  else "public native "

/-- The words in front of a hook. -/
def hookModifiers (scope : Scope) (isAbstract : Bool) : String :=
  "@Virtual " ++ (if scope.inaccessible then "protected" else "public") ++ " "
    ++ (if isAbstract then "abstract" else "native") ++ " "

/-- The text of a constructor and of its native part. -/
def constructorText (name : String) (p : Parameters) : String :=
  "public " ++ name ++ p.list ++ " \x7b super((Pointer)null); allocate" ++ p.names ++ "; \x7d\n"
    ++ "private native void allocate" ++ p.list ++ ";\n"

/-- The text of a method. -/
def methodText (modifiers annotations target name list : String) : String :=
  modifiers ++ annotations ++ target ++ " " ++ name ++ list ++ ";\n"

/-- What is told apart by a variant of a function: which alternative target names are taken, and how
many parameters with a default value stay. -/
structure Variant where
  choice : Int
  /-- Position among the variants with the same choice. -/
  position : Nat
  keep : Option Nat

/-- All variants in the order they are tried: for each choice from `-1` on, all parameters first and
then fewer and fewer. -/
def variants (defaults : Nat) : List Variant :=
  let keeps := none :: (List.range defaults).reverse.map some
  (List.range 33).flatMap fun (c : Nat) =>
    keeps.zipIdx.map fun (keep, position) => { choice := (c : Int) - 1, position, keep }

end HeaderPeers.Function

import HeaderPeers.Rule.Name
import HeaderPeers.Template

/-!
# Scopes

Where in a header something stands, which decides what a name can refer to and what is generated.
A scope is a value: what happens inside a nested scope does not change the one around it.
-/

namespace HeaderPeers

/-- The place of a declaration and the policies in force there. -/
structure Scope where
  /-- Names of the namespaces and classes around, joined by `::`. -/
  path : Option String := none
  /-- The class around. -/
  group : Option NativeType := none
  /-- In a private or protected section. -/
  inaccessible : Bool := false
  virtualize : Bool := false
  immutable : Bool := false
  beanify : Bool := false
  objectify : Bool := false
  /-- The class around has a rule for its `const` variant too. -/
  constVariant : Bool := false
  /-- A C header: no constructors, destructors or operators. -/
  cOnly : Bool := false
  /-- The variable whose unnamed class this is. -/
  member : Option Declarator := none
  template : Option TemplateMap := none
deriving Inhabited

namespace Scope

/-- The path around a path, without the template arguments of its last name; there is none around
the empty path. -/
def outer? (path : String) : Option String :=
  let plain := Name.normalize path false true
  match Text.cutLast? "::" plain with
  | some (around, _) => some around
  | none => if plain.isEmpty then none else some ""

/-- A path and the paths around it, outwards. -/
def enclosing : Nat → String → List String
  | 0, _ => []
  | fuel + 1, path =>
    path :: match outer? path with
      | some around => enclosing fuel around
      | none => []

/-- A name below a path. -/
def below (path name : String) : String :=
  if path.isEmpty then name else path ++ "::" ++ name

/-- The name with the arguments bound to it, if it is that of a template around. -/
def instance? (scope : Scope) (name : String) : Option String :=
  ((scope.template.map (·.frames)).getD []).findSome? fun frame =>
    if frame.owner.map (·.name) == some name then some (name ++ frame.argumentText) else none

/-- What a name in this scope may refer to, the innermost first: the name in each scope around,
with template arguments if it is being instantiated, and then below each `using` that could bring
it in. -/
def qualify (scope : Scope) (name : String) (usings : List String) : List String :=
  if name.isEmpty then []
  else
    let path := scope.path.getD ""
    let inScopes := (enclosing (2 * path.length + 4) path).flatMap fun around =>
      let full := below around name
      (scope.instance? full).toList ++ [full]
    let plain := Name.normalize name false true
    let brought := usings.filterMap fun used =>
      match Text.cutLast? "::" used with
      | some (around, last) =>
        if last.isEmpty || last == plain then some (around ++ "::" ++ name) else none
      | none => none
    inScopes ++ brought

/-- The length of the longest common start of two texts that ends in a dot, the dot left out. -/
def commonDots : Nat → List Char → List Char → Nat
  | i, c :: cs, d :: ds =>
    if c != d then 0
    else if c == '.' then max i (commonDots (i + 1) cs ds)
    else commonDots (i + 1) cs ds
  | _, _, _ => 0

/-- A dotted target name without the part it shares with the class around. -/
def shorten (scope : Scope) (name : String) : String :=
  match scope.group with
  | none => name
  | some group =>
    let n := commonDots 0 name.toList (group.targetName ++ ".").toList
    if n > 0 then String.ofList (name.toList.drop (n + 1)) else name

/-- The annotation of what is declared in a namespace rather than in a class. -/
def namespaceText (scope : Scope) : String :=
  match scope.path, scope.group with
  | some path, none => "@Namespace(\"" ++ path ++ "\") "
  | _, _ => ""

/-- A name below the path of this scope, unless it is qualified already. -/
def qualifyLocal (scope : Scope) (name : String) : String :=
  match scope.path with
  | some path => if Text.hasPart "::" name then name else path ++ "::" ++ name
  | none => name

end Scope

end HeaderPeers

import HeaderPeers.Class.Text
import HeaderPeers.Comment
import HeaderPeers.Declarator.Reader
import HeaderPeers.Reading.Skip

/-!
# Aliases

`typedef` and `using`: other names for types, names brought into scope, and constructors taken over
from a base.
-/

namespace HeaderPeers.Alias

open ReadM

/-- The rule for a function pointer type. -/
def pointerRule (scope : Scope) (name : String) (d : Declarator) : Rule :=
  let target := match scope.group with
    | some group => if d.targetName.isEmpty then d.targetName
      else group.targetName ++ "." ++ d.targetName
    | none => d.targetName
  { nativeNames := [name], valueTypes := some [target]
    pointerTypes := some [(if d.indirections > 0 then "@ByPtrPtr " else "") ++ target] }

/-- The last segment of a path. -/
def lastSegment (path : String) : String :=
  match Text.cutLast? "::" path with
  | some (_, last) => last
  | none => path

/-- The rule for another name of a type, from the rule for the type. -/
def aliasRule (known : Option Rule) (name : String) (d : Declarator) : Rule :=
  let target := Text.lastWord d.type.targetName
  let rule := { known.getD {} with nativeNames := [name] }
  let rule := { rule with nativeTypes := rule.nativeTypes.orElse fun _ => some [d.type.nativeName] }
  let rule := if rule.valueTypes.isNone && d.indirections > 0 then
      { rule with valueTypes := some [target], pointerTypes := some ["PointerPointer"] }
    else { rule with pointerTypes := rule.pointerTypes.orElse fun _ => some [target] }
  if rule.annotations.isNone then
    { rule with cast := rule.pointerType?.any (· != lastSegment name) }
  else rule

/-- Learns a name for `void` or for a pointer to it, and gives the class that is printed for it. -/
def declareVoid (scope : Scope) (name : String) (d : Declarator) : ReadM Declaration := do
  let known ← rule? name
  if known.any (·.skip) then return {}
  let annotations ←
    if d.indirections > 0 then
      learn { known.getD (.named [name]) with
        valueTypes := some [d.targetName]
        pointerTypes := some ["@ByPtrPtr " ++ d.targetName] }
      pure "@Namespace @Name(\"void\") "
    else pure scope.namespaceText
  return { text := annotations ++ Class.opaqueText d.targetName "Pointer" }

/-- Learns another name for the type of a declarator, and gives what is printed for it. -/
def declare (scope : Scope) (d : Declarator) : ReadM Declaration := do
  let name := match scope.path with
    | some path => path ++ "::" ++ d.nativeName
    | none => d.nativeName
  match d.definition with
  | some definition =>
    learn (pointerRule scope name d)
    return definition
  | none =>
    if d.type.nativeName == "void" then declareVoid scope name d
    else
      let known ← rule? d.type.nativeName
      if !known.any (·.skip) then learn (aliasRule known name d)
      return {}

/-- The declarations with a comment in front of the first. -/
def withComment (comment : String) (trims : Bool) : List Declaration → List Declaration
  | [] => []
  | d :: ds => { d with text := comment ++ (if trims then Text.trimStart d.text else d.text) } :: ds

/-- Recognizes a typedef. -/
def readTypedef (scope : Scope) : ReadM Bool := do
  let spacing := (← peek).spacing
  if !(← peek).isKeyword .typedef_ then return false
  let start ← cursor
  let ds ← iterate (#[], 0) fun ((ds : Array Declaration), number) => do
    moveTo start
    match ← Declarator.read { scope, number, view := .asPointer } with
    | none => return .done ds.toList
    | some d =>
      if d.nativeName.isEmpty then return .done ds.toList
      let ds := ds.push (← declare scope d)
      if (← peek).is "," then return .again (ds, number + 1)
      return .done ds.toList
  if ds.isEmpty then return false
  skipStatement
  let comment ← Comment.takeAfter
  addSpaced spacing (withComment comment false ds)
  return true

/-- The constructors that `using Base::Base` takes over, restated for the class around. -/
def inherited? (scope : Scope) (name : String) : ReadM (Option (List Declaration)) := do
  let s ← get
  match scope.group, Text.cutLast? "::" name with
  | some group, some (base, last) =>
    if Text.lastWord (lastSegment base) != last then return none
    let constructors := (scope.qualify base s.usings).findSome? fun n => s.constructors.lookup n
    return constructors.map (·.filterMap (Class.restate? group.targetName))
  | _, _ => return none

/-- Brings a name into scope. -/
def bringIn (name : String) : ReadM Unit :=
  modify fun s => { s with usings := s.usings ++ [name] }

/-- Reads the text of a type up to the semicolon, and goes behind it. -/
def readTarget : ReadM String := do
  let first ← advance
  let text ← iterate ("", first) fun (text, t) => do
    if t.isEof || t.is ";" then return .done text
    return .again (text ++ t.spaced, ← advance)
  let _ ← advance
  return text

/-- Reads the name behind `using`, and gives the token behind it. -/
def readName : ReadM (String × Token) := do
  let first ← peek
  iterate ("", first) fun (name, t) => do
    if !(t.isWord || t.is "::") then return .done (name, t)
    return .again (if t.isKeyword .typename_ then name else name ++ t.text, ← advance)

/-- Recognizes `using`: of a namespace, of a name, for another name of a type, or for the
constructors of a base. -/
def readUsing (scope : Scope) : ReadM Bool := do
  if !(← peek).isKeyword .using_ then return false
  let spacing := (← peek).spacing
  let isNamespace := (← advance).isKeyword .namespace_
  if isNamespace then let _ ← advance
  let (name, t) ← readName
  let ds ←
    if isNamespace then
      bringIn (name ++ "::")
      skipStatement
      pure []
    else if t.is "=" then
      let target ← readTarget
      let (_, made) ← withOutline {}
        (fragment ("typedef " ++ target ++ " " ++ name ++ ";") (readTypedef scope))
      pure made.toList
    else
      skipStatement
      match ← inherited? scope name with
      | some constructors => pure constructors
      | none =>
        bringIn name
        pure []
  let comment ← Comment.takeAfter
  addSpaced spacing (withComment comment true (if ds.isEmpty then [{}] else ds))
  return true

end HeaderPeers.Alias

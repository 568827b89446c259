import HeaderPeers.Comment
import HeaderPeers.Declarator.Reader
import HeaderPeers.Function.Text
import HeaderPeers.Reading.Skip

/-!
# Reading functions

Functions, methods, constructors and operators. A function is read again for each of its variants,
until the signatures repeat.
-/

namespace HeaderPeers.Function

open ReadM

/-- Reads the declarator of a function. -/
def readDeclarator (scope : Scope) (choice : Int) (keep : Option Nat) :
    ReadM (Option Declarator) := do
  let back ← cursor
  match ← NativeType.read scope with
  | none => return none
  | some type =>
    let declarator ←
      if type.constructor || type.destructor || type.operator then
        pure ((← Parameters.read scope choice keep).map (ofSpecial type))
      else
        moveTo back
        Declarator.read { scope, choice, keepDefaults := keep }
    return declarator.map fun d =>
      if d.nativeName.isEmpty then d else { d with nativeName := scope.qualifyLocal d.nativeName }

/-- What stands behind the parameters. -/
structure Trailer where
  isConst : Bool := false
  isAbstract : Bool := false
  isDeleted : Bool := false

/-- Reads qualifiers behind the parameters; tells whether one is `const`. -/
def readQualifiers : ReadM Bool :=
  iterate false fun isConst => do
    let t ← peek
    if t.isEof then return .done isConst
    let isConst := isConst || t.isKeyword .const_
    if t.is "->" then
      let first ← advance
      iterate first fun t => do
        if t.isEof || t.isAny ["\x7b", ";", "="] then return .done ()
        return .again (← advance)
      return .done isConst
    if (← Attribute.read).isNone then return .done isConst
    return .again isConst

/-- Reads what stands behind the parameters, through the body or the semicolon. -/
def readTrailer : ReadM Trailer := do
  let isConst ← readQualifiers
  let trailer ←
    if (← peek).is "=" then
      let value ← advance
      let _ ← advance
      pure { isConst, isAbstract := value.is "0", isDeleted := value.isKeyword .delete_ }
    else pure { isConst }
  skipTail
  return trailer

/-- The role of a member function in a scope whose accessors are renamed, and its new name. -/
def readRole (scope : Scope) (d : Declarator) (rule : Option Rule) :
    ReadM (Option (Role × Option String)) := do
  match scope.group with
  | none => return none
  | some group =>
    if !scope.beanify || d.type.operator || rule.any (·.targetNames.isSome) then return none
    match rolesOf group d with
    | [] => return none
    | role :: others =>
      if !others.isEmpty then
        warn (← peek).location
          ("'" ++ d.nativeName ++ "' looks like more than one kind of accessor; treating it as "
            ++ role.text)
      return some (role, accessorName? role d.targetName)

/-- The text of a function that is no constructor. -/
def readMethodText (scope : Scope) (d : Declarator) (list : String) (trailer : Trailer)
    (rule : Option Rule) (modifiers : String) : ReadM String := do
  let annotations := if scope.constVariant && trailer.isConst then
      "@Const(\x7bfalse, false, true\x7d) " ++ d.type.annotations
    else d.type.annotations
  match ← readRole scope d rule with
  | some (.allocator, _) =>
    return methodText ("@Allocator " ++ modifiers) annotations d.type.targetName d.targetName list
  | some (_, some renamed) =>
    let annotations := if Text.hasPart "@Name(" annotations then annotations
      else
        let plain := match Text.cutLast? "::" d.nativeName with
          | some (_, last) => last
          | none => d.nativeName
        "@Name(\"" ++ plain ++ "\") " ++ annotations
    return methodText modifiers annotations d.type.targetName renamed list
  | _ => return methodText modifiers annotations d.type.targetName d.targetName list

/-- What all variants of a function have in common. -/
structure Subject where
  scope : Scope
  spacing : String
  start : Nat
  rule : Option Rule
  modifiers : String

/-- Signatures met so far, and whether anything was printed. -/
structure Printed where
  signatures : List String := []
  isFirst : Bool := true

/-- Reads one variant; none if there are no more. -/
def readVariant (f : Subject) (printed : Printed) (v : Variant) : ReadM (Option Printed) := do
  let scope := f.scope
  moveTo f.start
  match ← readDeclarator scope v.choice v.keep with
  | none => return none
  | some d =>
    match d.parameters with
    | none => return none
    | some parameters =>
      let trailer ← readTrailer
      let modifiers := if scope.virtualize && (trailer.isAbstract || d.type.virtualMember) then
          hookModifiers scope trailer.isAbstract
        else f.modifiers
      let text ←
        if d.type.constructor then pure (constructorText d.targetName parameters)
        else readMethodText scope d parameters.list trailer f.rule modifiers
      let ownText := f.rule.bind (·.targetText)
      if ownText.isSome && !printed.isFirst then return none
      let text := ownText.getD (scope.namespaceText ++ text)
      let comment ← Comment.takeAfter
      let text ←
        if printed.isFirst then
          modifyOutline fun o => { o with spacing := some f.spacing }
          pure (comment ++ text)
        else pure text
      let seen := printed.signatures.contains d.signature
      let next : Printed := { signatures := d.signature :: printed.signatures, isFirst := false }
      if !d.targetName.isEmpty && !seen && !d.type.destructor && !trailer.isDeleted then
        let _ ← add { text, signature := d.signature, declarator := some d, isFunction := true
                      constMember := trailer.isConst, abstractMember := trailer.isAbstract
                      custom := ownText.isSome }
        if scope.virtualize && trailer.isAbstract then return none
        return some next
      else if seen && v.choice > 0 && v.position == 0 then return none
      else return some next

/-- Reads variants until there are no more. -/
def readVariants (f : Subject) (printed : Printed) : List Variant → ReadM Unit
  | [] => pure ()
  | v :: vs => do
    match ← readVariant f printed v with
    | some printed => readVariants f printed vs
    | none => pure ()

/-- Reads all variants of a function whose first reading gave this declarator. -/
def readFound (scope : Scope) (spacing : String) (start : Nat) (isFriend isStatic : Bool)
    (d : Declarator) (parameters : Parameters) : ReadM Bool := do
  let rule := rule? (← table) d.nativeName parameters
  let plain := match scope.path with
    | some path => (Text.dropHead? (path ++ "::") d.nativeName).getD d.nativeName
    | none => d.nativeName
  if isFriend || (scope.group.isNone && Text.hasPart "::" plain) || rule.any (·.skip) then
    skipDefinition
    return ← leaveSpacing spacing
  readVariants { scope, spacing, start, rule, modifiers := modifiers scope isStatic } {}
    (variants parameters.defaults)
  modifyOutline fun o => { o with spacing := none }
  return true

/-- Recognizes a function. -/
def read (scope : Scope) : ReadM Bool := do
  let spacing := (← peek).spacing
  let isFriend := (← peek).isKeyword .friend_
  if isFriend then let _ ← advance
  let start ← cursor
  match ← NativeType.read scope with
  | none => return false
  | some type =>
    let isInvocation := (← peek).is "("
    let parameters ← Parameters.read scope 0 none
    if type.targetName.isEmpty then return false
    if scope.group.isNone && !type.operator && isInvocation then
      -- a constructor defined outside its class, or a macro
      if parameters.isNone then skipParentheses
      skipTail
      return ← leaveSpacing spacing
    moveTo start
    match ← readDeclarator scope 0 none with
    | none => return false
    | some d =>
      match d.parameters with
      | none => return false
      | some parameters =>
        if d.nativeName.isEmpty || d.type.targetName.isEmpty then return false
        readFound scope spacing start isFriend type.staticMember d parameters

end HeaderPeers.Function

import HeaderPeers.Class.Text
import HeaderPeers.Comment
import HeaderPeers.Declarator.Reader
import HeaderPeers.Reading.Skip

/-!
# Reading classes

Definitions and forward declarations of classes, structures and unions.
-/

namespace HeaderPeers.Class

open ReadM

/-- How the declarations of a nested scope are read. -/
abbrev ScopeReader := Scope → ReadM Unit

/-- What stands before the body. -/
structure Head where
  spacing : String
  isTypedef : Bool
  isFriend : Bool
  /-- Members and bases are private unless something else is said. -/
  isPrivate : Bool
  type : NativeType
  /-- Accessible bases. -/
  bases : List NativeType := []
  isDerived : Bool := false

/-- Goes to the word that starts a class, past other words; tells whether `friend` was among them,
and whether the class is private by default. -/
def toKeyword : ReadM (Option (Bool × Bool)) := do
  let first ← peek
  iterate (false, first) fun (isFriend, t) => do
    if t.isEof then return .done none
    if t.isAnyKeyword [.class_, .struct_, .union_] then
      return .done (some (isFriend, t.isKeyword .class_))
    if t.isKeyword .friend_ then return .again (true, ← advance)
    if !t.isWord then return .done none
    return .again (isFriend, ← advance)

/-- Reads the bases, from the colon on; none if something else stands there. -/
def readBases (scope : Scope) (isPrivate : Bool) : ReadM (Option (List NativeType)) := do
  let first ← advance
  iterate ([], first) fun (bases, t) => do
    if t.isEof then return .done (some bases)
    if t.isKeyword .virtual_ then return .again (bases, ← advance)
    let isAccess := t.isAnyKeyword [.private_, .protected_, .public_]
    let isAccessible := if isAccess then t.isKeyword .public_ else !isPrivate
    if isAccess then let _ ← advance
    match ← NativeType.read scope with
    | none => return .done none
    | some base =>
      let bases := if isAccessible then bases ++ [base] else bases
      if (← peek).is "," then return .again (bases, ← advance)
      return .done (some bases)

/-- Reads the name, past a macro between the keyword and the name. -/
def readName (scope : Scope) (isTypedef : Bool) : ReadM (Option NativeType) := do
  let t ← advance
  if !t.isWord && !t.is "\x7b" then return none
  if !t.is "\x7b" then
    if (← peekAt 1).isIdentifier then
      let isMark ← if isTypedef then pure true else pure (!(← peekAt 2).is ";")
      if isMark then let _ ← advance
  if (← peek).is "\x7b" then return some {}
  NativeType.read scope

/-- Reads what stands before the body; none if this is no class. -/
def readHead (scope : Scope) : ReadM (Option Head) := do
  let spacing := (← peek).spacing
  let isTypedef := (← peek).isKeyword .typedef_
  match ← toKeyword with
  | none => return none
  | some (isFriend, isPrivate) =>
    match ← readName scope isTypedef with
    | none => return none
    | some type =>
      let head : Head := { spacing, isTypedef, isFriend, isPrivate, type }
      let isDerived ← if type.nativeName.isEmpty then pure false else pure ((← peek).is ":")
      let bases ← if isDerived then readBases scope isPrivate else pure (some [])
      match bases with
      | none => return none
      | some bases =>
        if !(← peek).isAny ["\x7b", ";"] then return none
        return some { head with bases, isDerived }

/-- Reads the name that a typedef gives to an unnamed class. -/
def readTypedefName (type : NativeType) : ReadM NativeType := do
  let first ← peek
  iterate (type, first) fun (type, t) => do
    if t.isEof || t.is ";" then return .done type
    let type := if t.isIdentifier && type.nativeName.isEmpty then
        { type with nativeName := t.text, targetName := t.text }
      else type
    return .again (type, ← advance)

/-- The length of an array of an unnamed class. -/
def arrayLength (t : Token) : Int :=
  (Number.signed64? 10 t.text.toList).getD (-1)

/-- Reads the variables behind an unnamed class, and goes back. -/
def readMembers : ReadM (List Declarator) := do
  let back ← cursor
  let first ← peek
  let members ← iterate ([], ({} : Declarator), first) fun (members, d, t) => do
    if t.isEof then return .done members
    if t.is "*" then
      return .again (members, { d with indirections := d.indirections + 1 }, ← advance)
    else if t.is "[" then
      let size ← peekAt 1
      return .again (members, { d with dims := d.dims ++ [arrayLength size] }, ← advance)
    else if t.isIdentifier && d.nativeName.isEmpty then
      return .again (members, { d with nativeName := t.text, targetName := t.text }, ← advance)
    else if t.isAny [",", ";"] then
      let (members, d) := if d.nativeName.isEmpty then (members, d) else (members ++ [d], {})
      if t.is ";" then return .done members
      return .again (members, d, ← advance)
    else return .again (members, d, ← advance)
  moveTo back
  return members

/-- Looks past the body: the type with the name that a typedef gives it, and the variables of an
unnamed class. -/
def readBehind (head : Head) (isAnonymous : Bool) : ReadM (NativeType × List Declarator) := do
  if ← skipBody then
    if !(← peek).is ";" then
      if head.isTypedef then return (← readTypedefName head.type, [])
      else if isAnonymous then return (head.type, ← readMembers)
  return (head.type, [])

/-- The rule for the class, which is learned if there is none, the peer class's name, and the type
with its target name. -/
def settle (scope : Scope) (type : NativeType) : ReadM (Option Rule × String × NativeType) := do
  let name := type.targetName
  if type.nativeName.isEmpty then return (none, name, type)
  match ← rule? type.nativeName with
  | some rule =>
    match rule.pointerType? with
    | some pointer => return (some rule, pointer, { type with targetName := pointer })
    | none => return (some rule, name, type)
  | none =>
    let target := match scope.group with
      | some group => group.targetName ++ "." ++ name
      | none => name
    let rule := ruleFor type.nativeName target
    learn rule
    return (some rule, name, { type with targetName := target })

/-- Reads a forward declaration, from its semicolon on. -/
def readForward (scope : Scope) (head : Head) (type : NativeType) (name base : String) :
    ReadM Bool := do
  let _ ← advance
  if head.isFriend then
    let _ ← add {}
    return true
  let text := head.type.annotations ++ scopeText scope name type.nativeName ++ opaqueText name base
  let comment ← Comment.takeAfter
  addSpaced head.spacing
    [{ text := comment ++ text, signature := type.targetName, type := some type
       incomplete := true }]
  return true

/-- Reads the members, once for each variable of an unnamed class. -/
def readInside (readScope : ScopeReader) (scope inner : Scope) (vars : List Declarator) :
    ReadM Outline := do
  let body ← cursor
  let ((), members) ← withOutline {} do
    if vars.isEmpty then readScope inner
    else vars.forM fun d => do
      moveTo body
      readScope { inner with member := some (memberOf scope d) }
  return members

/-- The members that bases repeat in the class. -/
def inheritedText (scope : Scope) (bases : List NativeType) : ReadM String := do
  let s ← get
  return String.join (bases.map fun base =>
    ((scope.qualify base.nativeName s.usings).findSome? fun n => s.flattened.lookup n).getD "")

/-- Sets what is known under a name. -/
def assign {α : Type} (name : String) (a : α) (known : List (String × α)) : List (String × α) :=
  (name, a) :: known.filter (·.1 != name)

/-- Remembers the members of a class for the classes derived from it. -/
def remember (nativeName : String) (rule : Option Rule) (text : String)
    (members : List Declaration) : ReadM Unit := do
  if rule.any (·.flatten) then
    modify fun s => { s with flattened := assign nativeName text s.flattened }
  let constructors := members.filter (·.isConstructor)
  if !constructors.isEmpty then
    modify fun s => { s with constructors := assign nativeName constructors s.constructors }

/-- Goes behind the semicolon of the class and gives the spacing before it. -/
def readEnd : ReadM String := do
  let first ← advance
  let spacing ← iterate first fun t => do
    if t.isEof then return .done ""
    if t.is ";" then return .done t.spacing
    return .again (← advance)
  let _ ← advance
  return spacing

/-- Reads the body of a class, from its brace on. -/
def readBody (readScope : ScopeReader) (scope : Scope) (head : Head) (type : NativeType)
    (rule : Option Rule) (name : String) (base : NativeType) (others : List NativeType)
    (vars : List Declarator) (isAnonymous : Bool) : ReadM Bool := do
  let _ ← advance
  let inner := innerScope scope (← table) type rule head.isPrivate isAnonymous
  let members := (← readInside readScope scope inner vars).toList
  let m := makingOf members rule scope.cOnly
  let text := memberText m members ++ (← inheritedText scope (base :: others))
  remember type.nativeName rule text members
  let text ←
    if isAnonymous then pure (head.type.annotations ++ text)
    else
      let lines := head.type.annotations
        ++ headText scope name type.nativeName base.targetName inner.virtualize head.isDerived m
        ++ String.join (others.map (castText type.targetName)) ++ "\n"
      let start ← indent head.spacing lines
      pure (start ++ text ++ (← peek).spacing ++ "\x7d")
  let text := text ++ (← readEnd)
  let ownText := rule.bind (·.targetText)
  let _ ← add
    { text := ownText.getD text, signature := type.targetName, type := some type
      custom := ownText.isSome }
  return true

/-- Recognizes a class. -/
def readWith (readScope : ScopeReader) (scope : Scope) : ReadM Bool := do
  match ← readHead scope with
  | none => return false
  | some head =>
    let isAnonymous := !head.isTypedef && head.type.nativeName.isEmpty
    let start ← cursor
    let (type, vars) ← readBehind head isAnonymous
    let type := if type.nativeName.isEmpty then type
      else { type with nativeName := scope.qualifyLocal type.nativeName }
    let known ← if type.nativeName.isEmpty then pure none else rule? type.nativeName
    if known.any (·.skip) then
      moveTo start
      let _ ← skipBody
      skipStatement
      let _ ← add {}
      return true
    let (rule, name, type) ← settle scope type
    let (base, others) := match head.bases with
      | [] => (NativeType.named "Pointer", [])
      | base :: others => (base, others)
    let base := { base with targetName := (rule.bind (·.base)).getD base.targetName }
    moveTo start
    let isForward ← pure !name.isEmpty <&&> (do return (← peek).is ";")
    if isForward then readForward scope head type name base.targetName
    else readBody readScope scope head type rule name base others vars isAnonymous

end HeaderPeers.Class

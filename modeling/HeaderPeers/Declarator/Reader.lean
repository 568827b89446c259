import HeaderPeers.Declarator.Parameters

/-!
# Reading declarators

The name, indirections, dimensions and parameters that turn a type into a variable, a function or a
function pointer.
-/

namespace HeaderPeers

open ReadM

/-- The name of a declarator and what was found around it. -/
structure DeclaredName where
  name : String := ""
  dims : List Int := []
  /-- Pointers inside parentheses. -/
  stars : Nat := 0
  /-- The class that a pointer to a member is for. -/
  memberOf : Option Rule := none
  /-- Annotations for the class of a function pointer. -/
  annotations : String := ""
  isOperator : Bool := false

namespace DeclaredName

/-- The dimension that a token gives, `-1` if it is no integer. -/
def dimension (t : Token) : Int :=
  if t.isInteger then
    (Number.decode? (Text.dropEndWhile Number.isSuffixMark t.text.toList)).getD (-1)
  else -1

/-- Takes a `*` inside parentheses: the name so far is a class or a calling convention. -/
def pushStar (n : DeclaredName) (table : RuleTable) (scope : Scope) (usings : List String) :
    DeclaredName :=
  let n := { n with stars := n.stars + 1 }
  match Text.dropTail? "::" n.name with
  | some owner =>
    let rule := (scope.qualify owner usings).findSome? table.find?
    { n with
      name := ""
      memberOf := rule.orElse fun _ => n.memberOf
      annotations := n.annotations ++ "@Namespace(\"" ++ owner ++ "\") " }
  | none =>
    if n.name.isEmpty then n
    else { n with name := "", annotations := n.annotations ++ "@Convention(\"" ++ n.name ++ "\") " }

/-- Reads a name in parentheses. -/
def readInParens (scope : Scope) : ReadM DeclaredName := do
  if (← peek).is "(" then let _ ← advance
  let first ← peek
  let n ← iterate (({} : DeclaredName), first) fun (n, t) => do
    if t.isEof then return .done n
    if t.isWord || t.is "::" then return .again ({ n with name := n.name ++ t.text }, ← advance)
    else if t.is "*" then
      let s ← get
      return .again (n.pushStar s.table scope s.usings, ← advance)
    else if t.is "[" then
      let size ← peekAt 1
      return .again ({ n with dims := n.dims ++ [dimension size] }, ← advance)
    else if t.isAny ["(", ")"] then return .done n
    else return .again (n, ← advance)
  if (← peek).is ")" then let _ ← advance
  return n

/-- Reads the name of an operator, from the word `operator` on. -/
def readOperator (n : DeclaredName) : ReadM DeclaredName := do
  let symbol ← advance
  let start := n.name ++ "operator" ++ (if symbol.isWord then " " else "")
  let name ← iterate (start, symbol) fun (name, t) => do
    if t.isEof || (t.is "(" && !Text.endsWith "operator" name) then return .done name
    return .again (name ++ t.text, ← advance)
  return { n with name, isOperator := true }

/-- Reads template arguments in a name, up to the closing bracket. -/
def readArguments (n : DeclaredName) : ReadM DeclaredName := do
  let first ← advance
  let name ← iterate (n.name ++ "<", (0 : Int), first) fun (name, depth, t) => do
    if t.isEof then return .done name
    let name := name ++ t.text
    if depth == 0 && t.is ">" then return .done name
    let depth := if t.is "<" then depth + 1 else if t.is ">" then depth - 1 else depth
    return .again (name, depth, ← advance)
  return { n with name }

/-- Reads a name with its path. -/
def readPath (scope : Scope) : ReadM DeclaredName := do
  let first ← peek
  iterate (({} : DeclaredName), first) fun (n, t) => do
    if t.isEof then return .done n
    if t.is "::" then return .again ({ n with name := n.name ++ "::" }, ← advance)
    else if t.isKeyword .operator_ && !scope.cOnly then return .done (← n.readOperator)
    else if t.is "<" then
      let n ← n.readArguments
      return .again (n, ← advance)
    else if t.isWord && (n.name.isEmpty || Text.endsWith "::" n.name) then
      return .again ({ n with name := n.name ++ t.text }, ← advance)
    else return .done n

/-- Reads a name. -/
def read (scope : Scope) (isTypedef : Bool) : ReadM DeclaredName := do
  let inParens ←
    if (← peek).is "(" then pure true
    else if isTypedef then pure ((← peekAt 1).is "(")
    else pure false
  if inParens then readInParens scope
  else if (← peek).isWord then readPath scope
  else return {}

/-- Reads dimensions in brackets. -/
def readDims (dims : List Int) : ReadM (List Int) := do
  let first ← peek
  iterate (dims, false, first) fun (dims, inside, t) => do
    if t.isEof then return .done dims
    if !inside then
      if t.is "[" then
        let size ← peekAt 1
        return .again (dims ++ [dimension size], true, ← advance)
      else return .done dims
    else return .again (dims, !t.is "]", ← advance)

/-- With dimensions around, pointers inside parentheses are dimensions too. -/
def spreadStars (n : DeclaredName) : DeclaredName :=
  if n.dims.isEmpty then n
  else { n with dims := n.dims ++ List.replicate n.stars (-1), stars := 0 }

end DeclaredName

namespace Draft

/-- Reads marks of pointers and references, and `const`. -/
def readMarks (d : Draft) : ReadM Draft :=
  iterate d fun d => do
    match d.pushMark? (← peek) with
    | none => return .done d
    | some d =>
      let _ ← advance
      return .again d

/-- Reads attributes in front of the name; of all of them, the arguments of the first that are a
name are a hint for the target name. -/
def readAttributes (d : Draft) : ReadM (Draft × Option String) := do
  let start ← cursor
  let (d, found, back) ← iterate (d, d.type.attributes, start) fun (d, found, back) => do
    let bracketed ← if (← peek).is "[" then pure ((← peekAt 1).is "[") else pure false
    if bracketed then
      let a ← Attribute.readBracketed
      return .again (d, found ++ [a], ← cursor)
    match ← Attribute.read with
    | some a =>
      if a.annotates then
        return .again (d.annotate (· ++ a.targetName), found ++ [a], ← cursor)
      else return .done (d, found, back)
    | none => return .done (d, found, back)
  moveTo back
  return (d, (found.find? fun a => Text.isWord a.arguments.toList).map (·.arguments))

/-- Passes over the width of a bit field. -/
def readBitfield (d : Draft) : ReadM Draft := do
  if !(← peek).is ":" then return d
  let first ← advance
  iterate first fun t => do
    if t.isEof || t.isAny [",", ";"] then return .done ()
    return .again (← advance)
  return { d.annotate (· ++ "@NoOffset ") with declarator.bitfield := true }

/-- Looks up the rule for the shape. A type without one, or whose rule gives a native type, may be
an adapter around its first template argument. -/
def findRule (d : Draft) (scope : Scope) (isTypedef : Bool) : ReadM (Draft × Option Rule) := do
  let rule := (← table).findWith? d.lookupName false
  let mayAdapt := !isTypedef && rule.all fun r => (r.nativeTypes.getD []) != []
  if !mayAdapt then return (d, rule)
  let adapter ← match rule.bind (·.nativeType?) with
    | some text => fragment text (NativeType.read scope)
    | none => pure (some d.type)
  let t ← table
  match adapter.bind (adapterRule? t) with
  | some (argument, adapting) =>
    let d := d.adapt argument adapting
    return (d, t.findWith? d.type.nativeName false)
  | none => return (d, rule)

/-- Maps the type and annotates it. -/
def readMapping (d : Draft) (request : DeclaratorRequest) (isTypedef isUsing : Bool) :
    ReadM Draft := do
  let needsCast := request.view == .asPointer && d.declarator.dims.length > 1
  let (d, rule) ← d.findRule request.scope isTypedef
  match rule with
  | some rule =>
    if isUsing then return d.annotateShape { needsCast } request.choice
    let (d, m) := d.mapBy request.scope rule request.choice needsCast
    return d.annotateShape m request.choice
  | none => return d.annotateShape { needsCast } request.choice

/-- Makes the declarator that of a function pointer. -/
def pointTo (d : Draft) (f : FunctionPointer) : Draft :=
  { d with declarator := { d.declarator with
      definition := some f.declaration
      type := { d.type with annotations := "", targetName := f.name } } }

/-- Reads parameters, which make a function or a function pointer. -/
def readParameters (d : Draft) (readDeclarator : DeclaratorReader) (request : DeclaratorRequest)
    (n : DeclaredName) (isTypedef : Bool) : ReadM Draft := do
  match ← Parameters.readWith readDeclarator request.scope request.choice request.keepDefaults with
  | none => return d
  | some parameters =>
    let choice := max d.declarator.choice parameters.choice
    let target := d.declarator.targetName
    if n.stars == 0 && !isTypedef then
      return { d with declarator := { d.declarator with
        choice, parameters := some parameters
        signature := d.declarator.signature ++ parameters.signature } }
    let isConst := (← peek).isKeyword .const_
    let f : FunctionPointer :=
      { name := if isTypedef then target
          else FunctionPointer.nameFor target d.type.targetName parameters.signature
        annotations := n.annotations ++ (if isConst then "@Const " else "")
        owner := n.memberOf.bind (·.pointerType?)
        result := d.type.annotations ++ d.type.targetName
        parameters }
    return { d with declarator.choice := choice }.pointTo f

end Draft

namespace Declarator

/-- Goes behind the comma in front of the declarator with this number; fails at the end of the
statement. -/
def skipTo (number : Nat) : ReadM Bool := do
  let first ← peek
  iterate ((0 : Int), 0, first) fun (depth, i, t) => do
    if i ≥ number || t.isEof then return .done true
    if t.isAny ["(", "[", "\x7b"] then return .again (depth + 1, i, ← advance)
    else if t.isAny [")", "]", "\x7d"] then return .again (depth - 1, i, ← advance)
    else if depth > 0 then return .again (depth, i, ← advance)
    else if t.is "," then return .again (depth, i + 1, ← advance)
    else if t.is ";" then
      let _ ← advance
      return .done false
    else return .again (depth, i, ← advance)

/-- Passes over doubled parentheses in front of a name, and counts them. -/
def openParens : ReadM Nat :=
  iterate 0 fun n => do
    if (← peek).is "(" then
      if (← peekAt 1).is "(" then
        let _ ← advance
        return .again (n + 1)
    return .done n

/-- Passes over at most `n` closing parentheses. -/
def closeParens (n : Nat) : ReadM Unit :=
  iterate n fun n => do
    if n > 0 then
      if (← peek).is ")" then
        let _ ← advance
        return .again (n - 1)
    return .done ()

/-- Reads a declarator behind its type. -/
def readBehind (readDeclarator : DeclaratorReader) (request : DeclaratorRequest)
    (type : NativeType) (isTypedef isUsing : Bool) : ReadM Declarator := do
  let scope := request.scope
  let d ← (Draft.ofType type (request.number == 0)).readMarks
  let (d, hint) ← d.readAttributes
  let parens ← openParens
  let n ← DeclaredName.read scope isTypedef
  let name := if n.name.isEmpty then request.defaultName.getD "" else n.name
  let dims ← DeclaredName.readDims n.dims
  let n := { n with name, dims }.spreadStars
  let d := d.withDims request.view n.dims
  let d ← d.readBitfield
  let d ← d.readMapping request isTypedef isUsing
  let s ← get
  let d := { d with declarator.nativeName := n.name }
  let d := d.nameBy s.table scope s.usings hint n.isOperator request.defaultName.isSome
  let d ← d.readParameters readDeclarator request n isTypedef
  closeParens parens
  return d.declarator

/-- Reads a declarator, given how to read those inside it. -/
def readWith (readDeclarator : DeclaratorReader) (request : DeclaratorRequest) :
    ReadM (Option Declarator) := do
  let isTypedef := (← peek).isKeyword .typedef_
  let isUsing := (← peek).isKeyword .using_
  match ← NativeType.read request.scope with
  | none => return none
  | some type =>
    if !(← skipTo request.number) then return none
    return some (← readBehind readDeclarator request type isTypedef isUsing)

/-- Reads a declarator; none at a bare `...` and behind the last of a list. -/
def read (request : DeclaratorRequest) : ReadM (Option Declarator) :=
  nest readWith request

end Declarator

/-- Reads a list of parameters. -/
def Parameters.read (scope : Scope) (choice : Int) (keep : Option Nat) :
    ReadM (Option Parameters) :=
  readWith Declarator.read scope choice keep

end HeaderPeers

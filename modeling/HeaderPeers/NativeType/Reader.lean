import HeaderPeers.Attribute
import HeaderPeers.NativeType.Resolution

/-!
# Reading types

Lists of template parameters and arguments, and references to types.
-/

namespace HeaderPeers

open ReadM

/-- Words that may stand with a type without changing its name. -/
def Keyword.decorates : Keyword → Bool
  | .enum_ | .explicit_ | .extern_ | .inline_ | .class_ | .struct_ | .union_ | .typedef_ | .typename_
  | .using_ | .constexpr_ | .mutable_ | .volatile_ | .threadLocal_ => true
  | _ => false

/-- Goes to the comma or closing bracket that ends a template parameter or argument, handing the
tokens on the way to `collect`. -/
def ReadM.toArgumentEnd {α : Type} (start : α) (collect : α → Token → α) (first : Token) :
    ReadM (α × Token) :=
  iterate ((0 : Int), start, first) fun (depth, a, t) => do
    if t.isEof || (depth == 0 && t.isAny [",", ">"]) then return .done (a, t)
    let depth := if t.isAny ["<", "("] then depth + 1
      else if t.isAny [">", ")"] then depth - 1 else depth
    return .again (depth, collect a t, ← advance)

namespace TemplateMap

/-- Reads a parameter, from its first token on, and gives the token behind its name. -/
def readParameter (map : TemplateMap) (t : Token) : ReadM (TemplateMap × Token) := do
  if !t.isWord then return (map, t)
  let key ← advance
  let isPack := key.is "..."
  let key ← if isPack then advance else pure key
  if key.isWord && !key.isKeyword .template_ then
    let map := if isPack then map.declarePack key.text else map.declare key.text
    return (map, ← advance)
  return (map, key)

/-- Reads `template<...>`; its parameters are unbound and default values are passed over. Lists of
parameters that follow each other count as one. -/
def read (scope : Scope) : ReadM (Option TemplateMap) := do
  if !(← peek).isKeyword .template_ then return none
  expect (← advance) ["<"]
  let first ← advance
  let map ← iterate (inside scope.template, first) fun (map, t) => do
    if t.isEof then return .done map
    let (map, t) ← readParameter map t
    let t ← if t.isAny [",", ">"] then pure t
      else
        let ((), t) ← toArgumentEnd () (fun _ _ => ()) (← peek)
        pure t
    expect t [",", ">"]
    if t.is ">" then
      if (← advance).isKeyword .template_ then expect (← advance) ["<"]
      else return .done map
    return .again (map, ← advance)
  return some map

end TemplateMap

namespace NativeType

/-- Reads one template argument. An expression keeps its text as the native name. -/
def readArgument (readType : Scope → ReadM (Option NativeType)) (scope : Scope) :
    ReadM (NativeType × Token) := do
  let type := (← readType scope).getD (.named "...")
  let t ← peek
  if t.isAny [",", ">"] then return (type, t)
  let (name, t) ← toArgumentEnd type.nativeName (fun name t => name ++ t.text) t
  let type := { type with nativeName := name }
  if Text.endsWith "*" name then
    return ({ type with
      targetName := "PointerPointer"
      annotations := type.annotations ++ "@Cast(\"" ++ name ++ "*\") " }, t)
  return (type, t)

/-- Reads `<...>`. -/
def readArguments (readType : Scope → ReadM (Option NativeType)) (scope : Scope) :
    ReadM (List NativeType) := do
  let first ← advance
  iterate ([], first) fun (arguments, t) => do
    if t.isEof then return .done arguments
    let (type, t) ← readArgument readType scope
    expect t [",", ">"]
    if t.is ">" then return .done (arguments ++ [type])
    return .again (arguments ++ [type], ← advance)

/-- Reads the operand of `decltype`, up to its closing parenthesis, and gives its text. -/
def readOperand : ReadM String := do
  if !(← peekAt 1).is "(" then return ""
  let first ← advance
  iterate ("", (0 : Int), first) fun (text, depth, t) => do
    if t.isEof then return .done text
    let text := text ++ t.text
    let depth := if t.is "(" then depth + 1 else if t.is ")" then depth - 1 else depth
    if t.is ")" && depth == 0 then return .done text
    return .again (text, depth, ← advance)

/-- Takes the current token into the type and goes on behind it. -/
def onward (type : NativeType) : ReadM (Turn NativeType NativeType) := do
  let _ ← advance
  return .again type

/-- Takes the current token as the last one of the type. -/
def closing (type : NativeType) : ReadM (Turn NativeType NativeType) := do
  let _ ← advance
  return .done type

/-- Reads a word: an annotation, a part of the name, or a word behind the name, which ends the type
unless more of it follows. -/
def readWord (type : NativeType) (t : Token) : ReadM (Turn NativeType NativeType) := do
  let back ← cursor
  match ← Attribute.read with
  | some found =>
    if found.annotates then
      return .again { type with
        annotations := type.annotations ++ found.targetName
        attributes := type.attributes ++ [found] }
  | none => pure ()
  moveTo back
  if type.nativeName.isEmpty || Text.endsWith "::" type.nativeName then
    onward { type with nativeName := type.nativeName ++ t.text }
  else
    let following ← peekAt 1
    let annotated := (← rule? following.text).any (·.annotations.isSome)
    if annotated || !(following.isAny ["*", "&", "&&"] || following.isWord) then
      return .done type
    else onward type

/-- Reads one token of a type, or one part of it. -/
def readPart (readType : Scope → ReadM (Option NativeType)) (scope : Scope) (type : NativeType) :
    ReadM (Turn NativeType NativeType) := do
  let t ← peek
  if t.isEof then return .done type
  else if t.is "::" then onward { type with nativeName := type.nativeName ++ "::" }
  else if t.isKeyword .decltype_ then
    let operand ← readOperand
    onward { type with nativeName := type.nativeName ++ "decltype" ++ operand }
  else if t.is "<" then
    let arguments ← readArguments readType scope
    let text := (← table).argumentText arguments
    onward { type with nativeName := type.nativeName ++ text, arguments := some arguments }
  else if t.isKeyword .const_ then
    if type.nativeName.isEmpty then onward { type with constValue := true }
    else onward { type with constPointer := true }
  else if t.is "*" then closing { type with indirections := type.indirections + 1 }
  else if t.is "&" then closing { type with reference := true }
  else if t.is "&&" then closing { type with reference := true, rvalue := true }
  else if t.is "~" && !scope.cOnly then onward { type with destructor := true }
  else if t.isKeyword .static_ then onward { type with staticMember := true }
  else if t.isKeyword .operator_ && !scope.cOnly then
    if type.nativeName.isEmpty then onward { type with operator := true }
    else if Text.endsWith "::" type.nativeName then closing { type with operator := true }
    else return .done type
  else if t.isKeyword .virtual_ then onward { type with virtualMember := true }
  else if t.isKeywordWith Keyword.decorates then onward type
  else if Name.fundamentalWords.contains t.text then
    onward { type with nativeName := type.nativeName ++ t.text ++ " ", simple := true }
  else if t.is "[" then
    if !(← peekAt 1).is "[" then return .done type
    let found ← Attribute.readBracketed
    return .again { type with attributes := type.attributes ++ [found] }
  else if t.isWord then readWord type t
  else if t.is "\x7d" then closing { type with anonymous := true }
  else return .done type

/-- Reads the symbol of an operator, up to its parameters. -/
def readSymbol (type : NativeType) : ReadM NativeType :=
  iterate type fun type => do
    let t ← peek
    if t.isEof || t.is "(" then return .done type
    let _ ← advance
    return .again { type with nativeName := type.nativeName ++ t.text }

/-- Whether the type is a constructor's name, and its target name as the class around sees it. -/
def placeInGroup (scope : Scope) (type : NativeType) : ReadM NativeType := do
  match scope.group with
  | none => return type
  | some group =>
    if type.targetName.isEmpty then return type
    let type ←
      if type.namesGroup group && !scope.cOnly then
        let plain := !type.destructor && !type.operator && type.indirections == 0 && !type.reference
        let constructor ← if plain then pure ((← peek).isAny ["(", ":"]) else pure false
        pure { type with constructor }
      else pure type
    return { type with targetName := scope.shorten type.targetName }

/-- Looks a type up whose tokens have been read. -/
def finish (scope : Scope) (type : NativeType) : ReadM NativeType := do
  let s ← get
  placeInGroup scope (type.resolve s.table scope s.usings)

/-- Reads a type, given how to read the types inside it. -/
def readWith (readType : Scope → ReadM (Option NativeType)) (scope : Scope) :
    ReadM (Option NativeType) := do
  let type ← iterate {} (readPart readType scope)
  let type := { type with nativeName := Text.trim type.nativeName }
  if (← peek).is "..." then
    let _ ← advance
    if type.nativeName.isEmpty then return none
    return some (← finish scope type)
  else if type.operator then return some (← finish scope (← readSymbol type))
  else return some (← finish scope type)

/-- Reads a type; none for a bare `...`. -/
def read (scope : Scope) : ReadM (Option NativeType) :=
  nest readWith scope

end NativeType

end HeaderPeers

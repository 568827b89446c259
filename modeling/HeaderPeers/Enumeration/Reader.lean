import HeaderPeers.Directive.Reader
import HeaderPeers.Enumeration.Basic

/-!
# Reading enumerations
-/

namespace HeaderPeers.Enumeration

open ReadM

/-- An initializer as far as it was read. -/
structure Initializer where
  text : String := ""
  /-- A qualified name that may go on. -/
  name : String := ""
  /-- No calls and no braces so far. -/
  isPlain : Bool := true
  depth : Int := 0
  last : Option Token := none

/-- Prints the name that was being read. -/
def Initializer.flush (v : Initializer) (table : RuleTable) : Initializer :=
  { v with text := v.text ++ table.translateName v.name, name := "" }

/-- Takes one token. -/
def Initializer.push (v : Initializer) (table : RuleTable) (t : Token) : Initializer :=
  let depth := if t.is "(" then v.depth + 1 else if t.is ")" then v.depth - 1 else v.depth
  let isCall := v.last.any Token.isWord && t.is "("
  let isPlain := v.isPlain && !(isCall || t.isAny ["\x7b", "\x7d"])
  let v := { v with depth, isPlain, last := some t }
  if t.is "::" || (t.isWord && (v.name.isEmpty || Text.endsWith "::" v.name)) then
    { v with name := (if v.name.isEmpty then t.spacing else v.name) ++ t.text }
  else
    let v := v.flush table
    if t.isWord then { v with name := t.spaced } else { v with text := v.text ++ t.spaced }

/-- Reads an initializer up to the comma or brace behind it; gives its text and whether that means
the same on the target side. -/
def readInitializer : ReadM (String × Bool) := do
  let first ← advance
  let v ← iterate (({} : Initializer), first) fun (v, t) => do
    if t.isEof || (v.depth ≤ 0 && t.isAny [",", "\x7d"]) then return .done v
    let table ← table
    return .again (v.push table t, ← advance)
  let v := v.flush (← table)
  return (v.text, v.isPlain)

/-- Where counting stands: the expression counted up from, and how far. -/
structure Counter where
  base : String := ""
  count : Int := 0

/-- The counter at a value that is given. -/
def Counter.ofValue (name text : String) (isPlain : Bool) : Counter × Bool :=
  match Number.signed64? 10 (Text.trim text).toList with
  | some n => ({ count := n }, false)
  | none =>
    if isPlain then ({ base := Text.trim text }, false) else ({ base := name ++ "()" }, true)

/-- The counter one further, in 64-bit arithmetic. -/
def Counter.next (c : Counter) : Counter :=
  { c with count := (c.count + 1).bmod UInt64.size }

/-- Reads a name and its value. -/
def readEnumerator (path commentBefore : String) (counter : Counter) :
    ReadM (Enumerator × Counter) := do
  let t ← peek
  expectWord t
  let nativeName := path ++ t.text
  let name := ((← rule? nativeName).bind (·.targetName?)).getD t.text
  let (counter, getter) ←
    if (← advance).is "=" then
      let (text, isPlain) ← readInitializer
      pure (Counter.ofValue name text isPlain)
    else pure (counter, false)
  let comment ← Comment.takeAfter
  let commentAfter ←
    if (← peek).is "," then
      let _ ← advance
      pure (comment ++ (← Comment.takeAfter))
    else pure comment
  return ({ nativeName, name, base := counter.base, count := counter.count, getter
            spacing := t.spacing, commentBefore, commentAfter }, counter)

/-- Reads what stands between the braces, up to the closing one. -/
def readEntries (scope : Scope) (path : String) : ReadM (List EnumEntry) := do
  let first ← advance
  iterate (#[], ({} : Counter), first) fun ((entries : Array EnumEntry), counter, t) => do
    if t.isEof || t.is "\x7d" then return .done entries.toList
    let comment ← Comment.takeBefore
    let (isDirective, directives) ← withOutline {} (attempt (Directive.read scope))
    if isDirective then
      return .again (entries.push (.directive (comment ++ directives.text)), counter, ← peek)
    let (e, counter) ← readEnumerator path comment counter
    return .again (entries.push (.enumerator e), counter.next, ← peek)

/-- Remembers an enumeration as an integral type. -/
def register (scope : Scope) (nativeName targetName targetType : String) : ReadM Unit := do
  let existing ← rule? nativeName
  let rule := ruleFrom scope existing nativeName targetName targetType
  if existing.isSome then learnFirst rule else learn rule

/-- Goes to the word `enum`, past other words; tells whether it is there. -/
def toEnum : ReadM Bool := do
  let first ← peek
  iterate first fun t => do
    if t.isEof then return .done false
    if t.isKeyword .enum_ then return .done true
    if !t.isWord then return .done false
    return .again (← advance)

/-- What stands before the braces. -/
structure Head where
  spacing : String
  isTypedef : Bool
  isScoped : Bool
  name : String
  targetType : String

/-- Reads the part in front of the braces, from the word `enum` on, and gives the token behind it;
none if there is no underlying type behind a colon. -/
def readHead (scope : Scope) (spacing : String) (isTypedef : Bool) :
    ReadM (Option (Head × Token)) := do
  let isScoped := (← peekAt 1).isAnyKeyword [.class_, .struct_]
  if isScoped then let _ ← advance
  if isTypedef then
    if !(← peekAt 1).is "\x7b" then
      -- a macro in front of the name
      if (← peekAt 2).isIdentifier then let _ ← advance
  let t ← advance
  let (name, t) ← if t.isWord then pure (t.text, ← advance) else pure ("", t)
  if !t.is ":" then return some ({ spacing, isTypedef, isScoped, name, targetType := "int" }, t)
  let _ ← advance
  match ← NativeType.read scope with
  | none => return none
  | some underlying =>
    let target := Text.lastWord underlying.targetName
    let targetType := if integralTypes.contains target then target else "int"
    return some ({ spacing, isTypedef, isScoped, name, targetType }, ← peek)

/-- Prints an enumeration that has been read. -/
def print (scope : Scope) (head : Head) (name ending comment : String) (entries : List EnumEntry) :
    ReadM Bool := do
  let nativeName := if name.isEmpty then "" else scope.qualifyLocal name
  let rule ← if nativeName.isEmpty then pure none else rule? nativeName
  if rule.any (·.skip) then return ← leaveSpacing head.spacing
  let target := (rule.bind (·.targetName?)).getD name
  let e : Enumeration :=
    { nativeName, name := target, targetType := head.targetType, isScoped := head.isScoped, entries }
  let text ←
    if rule.any (·.enumerate) && !target.isEmpty then
      let annotations := if target != name then "@Name(\"" ++ nativeName ++ "\") "
        else scope.namespaceText
      indent head.spacing (e.asValues.valueClass annotations)
    else pure (e.constants head.spacing ending)
  if !nativeName.isEmpty then register scope nativeName target head.targetType
  let ownText := rule.bind (·.targetText)
  let _ ← add { text := ownText.getD (text ++ comment), custom := ownText.isSome }
  return true

/-- Reads the body of an enumeration, and what follows it. -/
def readBody (scope : Scope) (head : Head) : ReadM Bool := do
  let path := if head.isScoped then scope.qualifyLocal head.name ++ "::"
    else (scope.path.map (· ++ "::")).getD ""
  let entries ← readEntries scope path
  let comment ← Comment.takeBefore
  let t ← advance
  let (name, t) ← if t.isWord then pure (t.text, ← advance) else pure (head.name, t)
  expect t [";"]
  let _ ← advance
  print scope head name t.spacing comment entries

/-- Recognizes an enumeration, with or without a body. -/
def read (scope : Scope) : ReadM Bool := do
  let spacing := (← peek).spacing
  let isTypedef := (← peek).isKeyword .typedef_
  if !(← toEnum) then return false
  match ← readHead scope spacing isTypedef with
  | none => return false
  | some (head, t) =>
    if t.is ";" && !head.name.isEmpty && !head.isTypedef then
      let _ ← advance
      register scope (scope.qualifyLocal head.name) head.name head.targetType
      return ← leaveSpacing spacing
    if !t.is "\x7b" then return false
    readBody scope head

end HeaderPeers.Enumeration

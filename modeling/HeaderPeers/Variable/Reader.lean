import HeaderPeers.Comment
import HeaderPeers.Declarator.Reader
import HeaderPeers.Reading.Skip
import HeaderPeers.Variable.Accessor

/-!
# Reading variables

Variables, several at a time if commas separate them.
-/

namespace HeaderPeers.Variable

open ReadM

/-- What the variables of a statement have in common. -/
structure Subject where
  scope : Scope
  spacing : String
  start : Nat
  rule : Option Rule
  modifiers : Modifiers

/-- The text for a variable. Arrays also get a pointer to their first element. -/
def readText (v : Subject) (number : Nat) (d : Declarator) : ReadM String := do
  let n := namingOf v.scope d
  let element := if outerIndices v.scope == 0 || d.dims.isEmpty then
      elementText v.scope v.modifiers n d
    else ""
  if d.dims.isEmpty then return element
  moveTo v.start
  match ← Declarator.read { scope := v.scope, choice := -1, number, view := .asPointer } with
  | some pointer => return element ++ arrayText v.scope v.modifiers n pointer
  | none => return element

/-- Reads the variable with this number; tells whether there is one. -/
def readNumber (v : Subject) (number : Nat) : ReadM Bool := do
  moveTo v.start
  match ← Declarator.read { scope := v.scope, choice := -1, number, view := .asDimension } with
  | none => return false
  | some d =>
    if d.nativeName.isEmpty then return false
    let text ← readText v number d
    skipStatement
    let comment ← Comment.takeAfter
    if number == 0 then modifyOutline fun o => { o with spacing := some v.spacing }
    let ownText := v.rule.bind (·.targetText)
    let _ ← add
      { text := (if number == 0 then comment else "") ++ ownText.getD text
        signature := d.signature
        declarator := if ownText.isSome then none else some d
        isVariable := true
        custom := ownText.isSome }
    return true

/-- Recognizes variables. -/
def read (scope : Scope) : ReadM Bool := do
  let start ← cursor
  let spacing := (← peek).spacing
  match ← Declarator.read { scope, view := .asDimension } with
  | none => return false
  | some d =>
    if d.nativeName.isEmpty then return false
    if !(← peek).isAny ["[", "=", "(", ",", ":", ";"] then return false
    let rule ← rule? (scope.qualifyLocal d.nativeName)
    if rule.any (·.skip) then
      skipStatement
      return ← leaveSpacing spacing
    let v : Subject :=
      { scope, spacing, start, rule, modifiers := modifiersOf scope d.type.staticMember }
    iterate 0 fun number => do
      if ← readNumber v number then return .again (number + 1)
      return .done ()
    modifyOutline fun o => { o with spacing := none }
    return true

end HeaderPeers.Variable

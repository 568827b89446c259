import HeaderPeers.Reading.Basic

/-!
# Attributes and bodies

Words that annotate, lists of attributes in brackets, and bodies that are passed over.
-/

namespace HeaderPeers

namespace Rule

/-- Whether the rule makes its name an attribute: it has annotations and maps to nothing. -/
def isAttribute (r : Rule) : Bool :=
  r.annotations.isSome && r.targetNames.isNone && r.valueTypes.isNone && r.pointerTypes.isNone

end Rule

namespace Attribute

open ReadM

/-- The attribute that a name with these rules is, without arguments. -/
def ofRule (name : String) (rule : Option Rule) : Attribute :=
  let annotates := rule.any (·.isAttribute)
  { nativeName := name, annotates
    targetName := if annotates then (rule.map (·.annotationText)).getD "" else "" }

/-- Passes over everything through the matching closing mark, from behind the opening one, and gives
the text of the tokens that are neither mark. -/
def passOver (opening closing : String) : ReadM String :=
  raw do
    let first ← advance
    iterate (1, "", first) fun (depth, text, t) => do
      if t.isEof || depth == 0 then return .done text
      let state : Nat × String :=
        if t.is opening then (depth + 1, text)
        else if t.is closing then (depth - 1, text)
        else (depth, text ++ t.spaced)
      return .again (state.1, state.2, ← advance)

/-- Reads a word and the arguments in parentheses behind it, which are dropped if the word is
skipped. -/
def read : ReadM (Option Attribute) := do
  let t ← peek
  if !t.isWord then return none
  let rule ← rule? t.text
  let found := ofRule t.text rule
  if !(← advance).is "(" then return some found
  let arguments ← passOver "(" ")"
  let skipped := rule.any (·.skip)
  return some { found with arguments := if skipped then "" else Text.trim arguments }

/-- Reads a list in double brackets, which maps to nothing. -/
def readBracketed : ReadM Attribute := do
  let _ ← advance
  let first ← advance
  let name ← iterate ("", first) fun (name, t) => do
    if t.isEof then return .done name
    let isEnd ← pure (t.is "]") <&&> (do return (← peekAt 1).is "]")
    if isEnd then
      let _ ← advance
      let _ ← advance
      return .done name
    return .again (name ++ t.text, ← advance)
  return { nativeName := name, annotates := true }

end Attribute

/-- Passes over a body in braces; tells whether there was one. -/
def ReadM.skipBody : ReadM Bool := do
  if !(← peek).is "\x7b" then return false
  let _ ← Attribute.passOver "\x7b" "\x7d"
  return true

end HeaderPeers

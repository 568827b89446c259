import HeaderPeers.Container.Text
import HeaderPeers.NativeType.Reader
import HeaderPeers.Rule.Builtin

/-!
# Containers that rules ask for

A rule of the top layer that is flagged `define` and names an instance of a standard container asks
for a class.
-/

namespace HeaderPeers.Container

open ReadM

/-- Prints the class that a rule asks for. -/
def printFor (scope : Scope) (family : String) (rule : Rule) : ReadM Unit := do
  if rule.skip || !rule.define then return
  match ← fragment rule.nativeName (NativeType.read scope) with
  | none => return
  | some type =>
    if (type.arguments.getD []).isEmpty then return
    if Text.hasChar '<' type.targetName then
      warn (← peek).location ("No target name for container '" ++ rule.nativeName ++ "'")
    else match Wrapper.ofType? family type with
      | none =>
        warn (← peek).location
          ("Too few template arguments for container '" ++ rule.nativeName ++ "'")
      | some w =>
        let _ ← add { text := w.text, signature := w.name, type := some type }

/-- Prints the classes that rules ask for, family by family. -/
def printAll (scope : Scope) : ReadM Unit :=
  containerFamilies.forM fun family => do
    let rules := (← table).topRules family
    rules.forM (printFor scope family)

end HeaderPeers.Container

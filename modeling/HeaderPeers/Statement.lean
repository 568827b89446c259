import HeaderPeers.Alias
import HeaderPeers.Class.Reader
import HeaderPeers.Directive.Reader
import HeaderPeers.Enumeration.Reader
import HeaderPeers.Function.Reader
import HeaderPeers.Namespace
import HeaderPeers.Variable.Reader

/-!
# Statements

The declarations of a scope, one statement after another. A statement under a template is read once
with unbound parameters, which prints nothing, and then once for each instance that a rule asks
for.
-/

namespace HeaderPeers.Statement

open ReadM

/-- Everything that can be recognized, in the order it is tried. -/
def recognizers (readScope : Class.ScopeReader) (scope : Scope) : List (ReadM Bool) :=
  [Directive.read scope, Namespace.readLinkageWith readScope scope,
    Namespace.readWith readScope scope, Enumeration.read scope, Class.readWith readScope scope,
    Alias.readTypedef scope, Alias.readUsing scope, Function.read scope, Variable.read scope]

/-- Tries recognizers in order. -/
def tryAll : List (ReadM Bool) → ReadM Bool
  | [] => pure false
  | step :: steps => do
    if ← attempt step then return true
    tryAll steps

/-- Reads one statement, which starts with the token `first`. What nothing recognizes may be an
attribute. -/
def readOne (readScope : Class.ScopeReader) (scope : Scope) (first : Token) : ReadM Unit := do
  if ← tryAll (recognizers readScope scope) then return
  let spacing := (← peek).spacing
  match ← Attribute.read with
  | some _ => setSpacing spacing
  | none => throw (.unrecognized first.location first.shown)

/-- Passes over labels that change the access of what follows. -/
def readAccess (scope : Scope) (first : Token) : ReadM Scope :=
  iterate (scope, first) fun (scope, t) => do
    let isLabel ← pure (t.isAnyKeyword [.private_, .protected_, .public_]) <&&>
      (do return (← peekAt 1).is ":")
    if !isLabel then return .done scope
    let _ ← advance
    return .again ({ scope with inaccessible := !t.isKeyword .public_ }, ← advance)

/-- Passes over semicolons. -/
def skipSemicolons : ReadM Unit :=
  iterate () fun () => do
    if !(← peek).is ";" then return .done ()
    let _ ← advance
    return .again ()

/-- The next rule that asks for an instance. -/
def nextInstance? : ReadM (Option Rule) := do
  match (← outline).nextInstance? with
  | some (rule, o) =>
    modifyOutline fun _ => o
    return some rule
  | none => return none

/-- The map for the instance that a rule names, with what was held back as its owner; none if the
rule names no instance. -/
def readInstance (scope : Scope) (map : TemplateMap) (rule : Rule) : ReadM (Option TemplateMap) := do
  match (← fragment rule.nativeName (NativeType.read scope)).bind (·.arguments) with
  | none => return none
  | some arguments =>
    let bound := map.bindAll arguments
    let bound := match (← outline).statement.owner with
      | some owner => bound.withOwner owner
      | none => bound
    modifyOutline fun o => { o with statement.template := some bound }
    return some bound

/-- How a statement is read once more. -/
inductive Pass where
  /-- With these template parameters. -/
  | read (scope : Scope)
  /-- Not at all: the rule names no instance. -/
  | skip

/-- Finds out how a statement is to be read now; back to its start for an instance. -/
def nextPass (around scope : Scope) (template : Option TemplateMap) (start : Nat) : ReadM Pass := do
  match template with
  | none => return .read scope
  | some map =>
    match ← nextInstance? with
    | none => return .read scope
    | some rule =>
      match ← readInstance around map rule with
      | none => return .skip
      | some bound =>
        moveTo start
        return .read { scope with template := some bound }

/-- How the reading of a statement goes on. -/
def endPass : ReadM (Turn Unit Unit) := do
  if (← outline).hasInstances then return .again ()
  return .done ()

/-- Reads a statement once. -/
def readPass (readScope : Class.ScopeReader) (around scope : Scope)
    (template : Option TemplateMap) (start : Nat) (first : Token) : ReadM (Turn Unit Unit) := do
  match ← nextPass around scope template start with
  | .skip => pure ()
  | .read scope =>
    readOne readScope scope first
    skipSemicolons
  endPass

/-- Reads a statement and, under a template, its instances. -/
def readPasses (readScope : Class.ScopeReader) (around scope : Scope)
    (template : Option TemplateMap) : ReadM Unit := do
  let start ← cursor
  let first ← peek
  let pass := readPass readScope around scope template start first
  match ← pass with
  | .done () => pure ()
  | .again () => iterateUpTo (fun () => pass) (← outline).pending.length ()

/-- Reads one statement with its comment and its template parameters. -/
def read (readScope : Class.ScopeReader) (scope : Scope) : ReadM Unit := do
  let comment ← Comment.takeBefore
  let spacing := (← peek).spacing
  let template ← TemplateMap.read scope
  if template.isSome then setSpacing spacing
  let statement := match template with
    | some map => { scope with template := some map }
    | none => scope
  modifyOutline (·.beginStatement scope.inaccessible template)
  if !comment.isEmpty then let _ ← add (.ofComment comment)
  readPasses readScope scope statement template

/-- Prints the comment in front of the end of a scope; white space alone is left out. -/
def readLastComment : ReadM Unit := do
  let comment ← Comment.takeBefore
  if !(Text.trim comment).isEmpty then let _ ← add (.ofComment comment)

/-- Reads the declarations of a scope, up to the end of the input or a closing brace. -/
def readAllWith (readScope : Class.ScopeReader) (scope : Scope) : ReadM Unit := do
  let saved := (← outline).statement
  modifyOutline fun o => { o with statement := {} }
  iterate scope fun scope => do
    let t ← peek
    if t.isEof || t.is "\x7d" then return .done ()
    let scope ← readAccess scope t
    read readScope scope
    return .again scope
  readLastComment
  modifyOutline fun o => { o with statement := saved }

/-- Reads the declarations of a scope. -/
def readAll (scope : Scope) : ReadM Unit :=
  nest readAllWith scope

end HeaderPeers.Statement

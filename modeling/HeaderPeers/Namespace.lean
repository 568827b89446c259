import HeaderPeers.Class.Reader

/-!
# Namespaces and linkage

Blocks whose declarations belong to the scope around, or to a namespace in it.
-/

namespace HeaderPeers.Namespace

open ReadM

/-- A path without marks at its start. -/
def dropMarks : List Char → List Char
  | ':' :: ':' :: cs => dropMarks cs
  | cs => cs

/-- The scope inside a namespace. -/
def innerScope (scope : Scope) (name : String) : Scope :=
  let name := String.ofList (dropMarks name.toList)
  { scope with
    path := some (match scope.path with
      | some outer => outer ++ "::" ++ name
      | none => name) }

/-- Reads the declarations of a block through its closing brace, and gives the spacing before
that. -/
def readBlock (readScope : Class.ScopeReader) (scope : Scope) : ReadM String := do
  readScope scope
  let closing ← peek
  expect closing ["\x7d"]
  let _ ← advance
  return closing.spacing

/-- Recognizes a namespace. One without a name is passed over, since it cannot be reached; an inline
one is part of the scope around. -/
def readWith (readScope : Class.ScopeReader) (scope : Scope) : ReadM Bool := do
  let isInline ← (do return (← peek).isKeyword .inline_) <&&>
    (do return (← peekAt 1).isKeyword .namespace_)
  if isInline then let _ ← advance
  if !(← peek).isKeyword .namespace_ then return false
  let spacing := (← peek).spacing
  let first ← advance
  let (name, t) ← iterate ("", first) fun (name, t) => do
    if !(t.isWord || t.is "::") then return .done (name, t)
    return .again (name ++ t.text, ← advance)
  if t.is "=" then
    skipStatement
    return ← leaveSpacing spacing
  expect t ["\x7b"]
  if name.isEmpty then
    let _ ← skipBody
    return ← leaveSpacing spacing
  let _ ← advance
  leaveSpacing (← readBlock readScope (if isInline then scope else innerScope scope name))

/-- Recognizes a linkage specification. Without braces, the declaration behind it stands by
itself. -/
def readLinkageWith (readScope : Class.ScopeReader) (scope : Scope) : ReadM Bool := do
  let isLinkage ← (do return (← peek).isKeyword .extern_) <&&>
    (do return (← peekAt 1).kind == .string)
  if !isLinkage then return false
  expect (← advance) ["\"C\"", "\"C++\""]
  if !(← advance).is "\x7b" then return ← leaveSpacing ""
  let _ ← advance
  let _ ← readBlock readScope scope
  leaveSpacing ""

end HeaderPeers.Namespace

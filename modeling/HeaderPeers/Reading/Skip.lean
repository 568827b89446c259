import HeaderPeers.Attribute

/-!
# Passing over

Parts of a header that leave no trace: statements, initializers and definitions.
-/

namespace HeaderPeers.ReadM

/-- Goes behind the next semicolon. -/
def skipStatement : ReadM Unit := do
  let first ← peek
  iterate first fun t => do
    if t.isEof || t.is ";" then return .done ()
    return .again (← advance)
  let _ ← advance

/-- Goes to the parenthesis that closes the current one. -/
def toClosing (first : Token) : ReadM Token :=
  iterate ((0 : Int), first) fun (depth, t) => do
    if t.isEof then return .done t
    let depth := if t.is "(" then depth + 1 else if t.is ")" then depth - 1 else depth
    if t.is ")" && depth == 0 then return .done t
    return .again (depth, ← advance)

/-- Goes behind a group in parentheses. -/
def skipParentheses : ReadM Unit := do
  let first ← peek
  iterate (0, first) fun ((depth : Nat), t) => do
    if t.isEof then return .done ()
    let depth := if t.is "(" then depth + 1 else if t.is ")" then depth - 1 else depth
    if t.is ")" && depth == 0 then
      let _ ← advance
      return .done ()
    return .again (depth, ← advance)

/-- Goes through member initializers or a value, to the body or the semicolon. Braces behind a word
or a closing bracket belong to an initializer. -/
def skipInitializers (mark : Token) : ReadM Unit := do
  let first ← advance
  iterate (mark, first) fun (last, t) => do
    if t.isEof || t.is ";" then return .done ()
    if t.is "(" then
      let t ← toClosing t
      return .again (t, ← advance)
    else if t.is "\x7b" then
      if !(last.isWord || last.is ">") then return .done ()
      let _ ← skipBody
      let last ← peekAt (-1)
      return .again (last, ← peek)
    else return .again (t, ← advance)

/-- Goes behind what is left of a function: initializers or a value, then the body or the
semicolon. -/
def skipTail : ReadM Unit := do
  let t ← peek
  if t.isAny [":", "="] then skipInitializers t
  if !(← skipBody) then
    if (← peek).is ";" then let _ ← advance

/-- Goes behind what is left of a function, its qualifiers first. -/
def skipDefinition : ReadM Unit := do
  iterate () fun () => do
    if (← peek).isWord then
      if (← Attribute.read).isSome then return .again ()
    return .done ()
  skipTail

end HeaderPeers.ReadM

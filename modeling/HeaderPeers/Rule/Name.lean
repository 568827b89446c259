import HeaderPeers.Token.Lexer

/-!
# Names as keys

Native names that mean the same type have one key. `const` in front is told apart from the rest,
and names made of fundamental type words only are brought into alphabetical order, so that
`long unsigned int` and `unsigned long int` agree.
-/

namespace HeaderPeers.Name

/-- The words that fundamental types are spelled with, in alphabetical order. -/
def fundamentalWords : List String :=
  ["bool", "char", "double", "float", "int", "long", "short", "signed", "unsigned"]

/-- What a name is made of: whether `const` stands before its first other word, and either its
fundamental words alone or all tokens from the first on. -/
structure Parts where
  const : Bool
  words : List Token
  rest : List Token

/-- Splits the tokens of a name at the first that is neither `const` nor a fundamental word. -/
def parts : List Token → Parts
  | [] => ⟨false, [], []⟩
  | t :: ts =>
    if t.isKeyword .const_ then { parts ts with const := true }
    else if fundamentalWords.contains t.text then
      let p := parts ts
      { p with words := t :: p.words }
    else ⟨false, [], t :: ts⟩

/-- The tokens of a name, without comments. -/
def tokens (name : String) : List Token :=
  (Token.ofText none name).filter (!·.isComment)

/-- State of the search for a list of template arguments: nesting depth, and where the last list at
depth zero starts. -/
structure ArgumentSearch where
  depth : Int := 0
  start : Option Nat := none

/-- Looks at the token in position `i` of `count`. A list that closes before the end does not
count. -/
def ArgumentSearch.step (count : Nat) (search : ArgumentSearch) (i : Nat) (t : Token) :
    ArgumentSearch :=
  if t.is "<" then
    { depth := search.depth + 1, start := if search.depth == 0 then some i else search.start }
  else if t.is ">" then
    let depth := search.depth - 1
    { depth, start := if depth == 0 && i + 1 != count then none else search.start }
  else search

/-- The position of the list of template arguments that a name ends with. -/
def argumentsStart? (ts : List Token) : Option Nat :=
  let search := ts.zipIdx.foldl (fun s (t, i) => s.step ts.length i t) ({} : ArgumentSearch)
  if search.depth == 0 then search.start else none

/-- The tokens with the white space between them. -/
def spell : List Token → String
  | [] => ""
  | t :: ts => t.text ++ String.join (ts.map Token.spaced)

/-- Puts a word in front of the first that does not come before it. -/
def insertWord (word : String) : List String → List String
  | [] => [word]
  | other :: words =>
    if word ≤ other then word :: other :: words else other :: insertWord word words

/-- Words in alphabetical order. -/
def sortWords (words : List String) : List String :=
  words.foldr insertWord []

/-- The key of a name before its ends are trimmed. With `untemplate`, a list of template arguments
at the end is dropped. -/
def spelling (name : String) (p : Parts) (untemplate : Bool) : String :=
  let mark := if p.const then "const " else ""
  if p.rest.isEmpty && !p.words.isEmpty then
    mark ++ Text.joinWith " " (sortWords (p.words.map (·.text)))
  else if !p.rest.isEmpty && untemplate then
    let kept := p.words ++ p.rest
    match argumentsStart? kept with
    | some n => mark ++ spell (kept.take n)
    | none => name
  else name

/-- The text behind the first `const`, if there is one. -/
def dropConst (text : String) : String :=
  match Text.cut? "const" text with
  | some (_, after) => after
  | none => text

/-- The key of a name. With `unconst`, `const` in front is dropped; with `untemplate`, so is a list
of template arguments at the end. -/
def normalize (name : String) (unconst untemplate : Bool) : String :=
  if name.isEmpty then ""
  else
    let p := parts (tokens name)
    let text := spelling name p untemplate
    Text.trim (if unconst && p.const then dropConst text else text)

end HeaderPeers.Name

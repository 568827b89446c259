import HeaderPeers.Toml.Scalar
import HeaderPeers.Toml.Tree

/-!
# Reading project files

Documents of TOML, line by line.
-/

namespace HeaderPeers.Toml

/-- The number of names in a path, and of arrays and tables inside each other, that is too many. -/
def depthLimit : Nat := 80

def skipSpaces (cs : List Char) : List Char :=
  cs.dropWhile isSpace

/-- Passes over white space, line breaks and comments. -/
def skipBlank (inComment : Bool) : List Char → List Char
  | [] => []
  | c :: cs =>
    if c == '\n' then skipBlank false cs
    else if c == '\r' then
      if cs.head? == some '\n' then skipBlank false cs else c :: cs
    else if inComment then if isPlain c then skipBlank true cs else c :: cs
    else if isSpace c then skipBlank false cs
    else if c == '#' then skipBlank true cs
    else c :: cs

/-- What is behind the end of a line, where a comment may stand. -/
def lineEnd? (cs : List Char) : Option (List Char) :=
  let cs := skipSpaces cs
  let cs := if cs.head? == some '#' then cs.dropWhile isPlain else cs
  if cs.isEmpty then some [] else newline? cs

/-! ## Keys -/

def isBareKeyChar (c : Char) : Bool :=
  c.isAlphanum || c == '_' || c == '-'

/-- Reads one name of a key. -/
def name? (cs : List Char) : Option (String × List Char) :=
  match cs with
  | '"' :: cs => shortText? '"' cs
  | '\'' :: cs => shortText? '\'' cs
  | cs =>
    let name := cs.takeWhile isBareKeyChar
    if name.isEmpty then none else some (String.ofList name, cs.dropWhile isBareKeyChar)

/-- Reads a key of at most a number of names with dots between them. -/
def key? : Nat → List Char → Option (List String × List Char)
  | 0, _ => none
  | n + 1, cs =>
    (name? (skipSpaces cs)).bind fun (name, rest) =>
      match skipSpaces rest with
      | '.' :: rest => (key? n rest).map fun (names, rest) => (name :: names, rest)
      | rest => some ([name], rest)

/-- Reads a key and the value behind it. -/
def pair? (value? : List Char → Option (Value × List Char)) (cs : List Char) :
    Option ((List String × Value) × List Char) :=
  (key? (depthLimit - 1) cs).bind fun (key, rest) =>
    match rest with
    | '=' :: rest => (value? (skipSpaces rest)).map fun (v, rest) => ((key, v), rest)
    | _ => none

/-! ## Values -/

/-- Reads at most a number of elements of an array through its closing bracket. A comma may follow
the last one. -/
def elements? (value? : List Char → Option (Value × List Char)) :
    Nat → List Char → Option (List Value × List Char)
  | 0, _ => none
  | n + 1, cs =>
    match skipBlank false cs with
    | ']' :: rest => some ([], rest)
    | cs =>
      (value? cs).bind fun (v, rest) =>
        match skipBlank false rest with
        | ',' :: rest => (elements? value? n rest).map fun (vs, rest) => (v :: vs, rest)
        | ']' :: rest => some ([v], rest)
        | _ => none

/-- Reads at most a number of entries of a table through its closing brace. No comma follows the last
one. -/
def entries? (value? : List Char → Option (Value × List Char)) :
    Nat → Entries → List Char → Option (Entries × List Char)
  | 0, _, _ => none
  | n + 1, made, cs =>
    (pair? value? cs).bind fun ((key, v), rest) =>
      (made.assign key v).bind fun made =>
        match skipSpaces rest with
        | ',' :: rest => entries? value? n made rest
        | '\x7d' :: rest => some (made, rest)
        | _ => none

/-- Reads a table in braces, from behind the opening one. -/
def inlineTable? (value? : List Char → Option (Value × List Char)) (cs : List Char) :
    Option (Value × List Char) :=
  match skipSpaces cs with
  | '\x7d' :: rest => some (.table [], rest)
  | cs => (entries? value? (cs.length + 1) [] cs).map fun (made, rest) =>
    (.table (entryValues made), rest)

/-- Reads a value with at most a number of arrays and tables inside each other. -/
def value? : Nat → List Char → Option (Value × List Char)
  | _, '"' :: cs => (quotedText? '"' ('"' :: cs)).map fun (s, rest) => (.text s, rest)
  | _, '\'' :: cs => (quotedText? '\'' ('\'' :: cs)).map fun (s, rest) => (.text s, rest)
  | depth + 1, '[' :: cs =>
    (elements? (value? depth) (cs.length + 1) cs).map fun (vs, rest) => (.array vs, rest)
  | depth + 1, '\x7b' :: cs => inlineTable? (value? depth) cs
  | _, cs => word? cs

/-! ## Documents -/

/-- The part of a document that was read: its tables and the header that entries go under. -/
structure Progress where
  entries : Entries := []
  header : List String := []

/-- Reads a header through the end of its line. -/
def header? (p : Progress) (cs : List Char) : Option (Progress × List Char) :=
  match cs with
  | '[' :: '[' :: cs =>
    (key? (depthLimit - 1) cs).bind fun (path, rest) =>
      match rest with
      | ']' :: ']' :: rest =>
        (p.entries.openElement path).bind fun entries =>
          (lineEnd? rest).map ({ entries, header := path }, ·)
      | _ => none
  | '[' :: cs =>
    (key? (depthLimit - 1) cs).bind fun (path, rest) =>
      match rest with
      | ']' :: rest =>
        (p.entries.openTable path).bind fun entries =>
          (lineEnd? rest).map ({ entries, header := path }, ·)
      | _ => none
  | _ => none

/-- Reads an entry through the end of its line. -/
def line? (p : Progress) (cs : List Char) : Option (Progress × List Char) :=
  (pair? (value? (depthLimit - 1)) cs).bind fun ((key, v), rest) =>
    (lineEnd? rest).bind fun rest =>
      (p.entries.assignUnder p.header key v).map ({ p with entries := · }, rest)

/-- Reads at most a number of headers and entries. -/
def document? : Nat → Progress → List Char → Option Progress
  | 0, _, _ => none
  | n + 1, p, cs =>
    match skipSpaces cs with
    | [] => some p
    | '[' :: cs => (header? p ('[' :: cs)).bind fun (p, rest) => document? n p rest
    | '#' :: cs => (lineEnd? ('#' :: cs)).bind (document? n p)
    | c :: cs =>
      match newline? (c :: cs) with
      | some rest => document? n p rest
      | none => (line? p (c :: cs)).bind fun (p, rest) => document? n p rest

/-- The table that a text stands for; a byte order mark at its start does not count. -/
def Value.ofText? (text : String) : Option Value :=
  let cs := text.toList
  let cs := if cs.head? == some '\uFEFF' then cs.drop 1 else cs
  (document? (cs.length + 1) {} cs).map fun p => .table (entryValues p.entries)

end HeaderPeers.Toml

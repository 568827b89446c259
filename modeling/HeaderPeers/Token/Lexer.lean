import HeaderPeers.Text.Letter
import HeaderPeers.Text.Line
import HeaderPeers.Token.Basic
import HeaderPeers.Token.Number

/-!
# Reading tokens

A text is cut into lexemes from the left. Nothing is dropped: white space goes to the token behind
it, comments are tokens, and white space at the end of the text becomes an empty comment.

A lexeme records the characters it was read from next to the text it stands for, since the two
differ for numbers, for a backslash at the end of a line and for literals left open.
-/

namespace HeaderPeers

/-- One lexeme: what it is, its text, the characters it was read from, and what follows them. -/
structure Lexeme where
  kind : Kind
  text : List Char
  source : List Char
  rest : List Char

namespace Lexeme

/-- A lexeme whose text is what it was read from. -/
def verbatim (kind : Kind) (source rest : List Char) : Lexeme :=
  { kind, text := source, source, rest }

def word (c : Char) (cs : List Char) : Lexeme :=
  let source := c :: cs.takeWhile Text.isWordChar
  let kind := match Keyword.ofWord? (String.ofList source) with
    | some word => .keyword word
    | none => .identifier
  verbatim kind source (cs.dropWhile Text.isWordChar)

def number (c : Char) (cs : List Char) : Lexeme :=
  let tail := Number.tail false c cs
  let source := c :: tail.1
  { kind := if Number.isFloat source then .float else .integer
    text := Number.textOf source, source, rest := tail.2 }

/-- Splits off the inside of a literal through its closing quote; the flag tells whether there was
one. -/
def quotedTail (quote : Char) : List Char → List Char × List Char × Bool
  | [] => ([], [], false)
  | c :: cs =>
    if c == quote then ([c], cs, true)
    else if c == '\\' then
      match cs with
      | [] => ([c], [], false)
      | d :: ds =>
        let tail := quotedTail quote ds
        (c :: d :: tail.1, tail.2)
    else
      let tail := quotedTail quote cs
      (c :: tail.1, tail.2)

/-- A string or character literal; one left open ends with the text and is closed. -/
def quoted (kind : Kind) (quote : Char) (cs : List Char) : Lexeme :=
  let tail := quotedTail quote cs
  let source := quote :: tail.1
  { kind, text := if tail.2.2 then source else source ++ [quote], source, rest := tail.2.1 }

/-- Splits off the rest of a line comment; a backslash before the line feed carries it on. -/
def lineTail (last : Char) : List Char → List Char × List Char
  | [] => ([], [])
  | c :: cs =>
    if c == '\n' && last != '\\' then ([], c :: cs)
    else
      let tail := lineTail c cs
      (c :: tail.1, tail.2)

/-- Splits off the inside of a block comment through the mark that closes it. -/
def blockTail (last : Char) : List Char → List Char × List Char
  | [] => ([], [])
  | c :: cs =>
    if last == '*' && c == '/' then ([c], cs)
    else
      let tail := blockTail c cs
      (c :: tail.1, tail.2)

/-- Operators of two characters. A `>` never joins with what follows it, so that nested lists of
template arguments close one level at a time. -/
def pairs : List (Char × Char) := [
  (':', ':'), ('#', '#'), ('-', '>'), ('-', '-'), ('-', '='), ('+', '+'), ('+', '='), ('&', '&'),
  ('&', '='), ('|', '|'), ('|', '='), ('=', '='), ('!', '='), ('<', '<'), ('<', '='), ('*', '='),
  ('/', '='), ('%', '='), ('^', '=')]

def operator (c : Char) (cs : List Char) : Lexeme :=
  match c, cs with
  | '.', '.' :: '.' :: rest => verbatim .symbol ['.', '.', '.'] rest
  | '<', '<' :: '=' :: rest => verbatim .symbol ['<', '<', '='] rest
  | c, d :: rest =>
    if pairs.contains (c, d) then verbatim .symbol [c, d] rest else verbatim .punct [c] (d :: rest)
  | c, [] => verbatim .punct [c] []

/-- The lexeme that starts with the character `c`, which is not white space. -/
def read (c : Char) (cs : List Char) : Lexeme :=
  if Text.isWordStart c then word c cs
  else if c.isDigit || (c == '.' && (cs.head?.any Char.isDigit)) then number c cs
  else match c, cs with
    | '"', cs => quoted .string '"' cs
    | '\'', cs => quoted .char '\'' cs
    | '/', '/' :: cs =>
      let tail := lineTail '/' ('/' :: cs)
      verbatim .comment ('/' :: tail.1) tail.2
    | '/', '*' :: cs =>
      let tail := blockTail '\x00' cs
      verbatim .comment ('/' :: '*' :: tail.1) tail.2
    | '\\', '\n' :: rest =>
      { kind := .comment, text := ['\n'], source := ['\\', '\n'], rest }
    | c, cs => operator c cs

theorem length_tail_le (hex : Bool) (last : Char) (cs : List Char) :
    (Number.tail hex last cs).2.length ≤ cs.length := by
  induction cs generalizing hex last with
  | nil => simp [Number.tail]
  | cons c cs ih =>
    unfold Number.tail
    split
    · exact Nat.le_succ_of_le (ih _ _)
    · simp

theorem length_quotedTail_le (quote : Char) (cs : List Char) :
    (quotedTail quote cs).2.1.length ≤ cs.length := by
  fun_induction quotedTail quote cs with
  | case1 => simp
  | case2 => simp
  | case3 => simp
  | case4 c _ _ d ds tail ih => exact Nat.le_succ_of_le (Nat.le_succ_of_le ih)
  | case5 c cs _ _ tail ih => exact Nat.le_succ_of_le ih

theorem length_lineTail_le (last : Char) (cs : List Char) :
    (lineTail last cs).2.length ≤ cs.length := by
  induction cs generalizing last with
  | nil => simp [lineTail]
  | cons c cs ih =>
    unfold lineTail
    split
    · simp
    · exact Nat.le_succ_of_le (ih _)

theorem length_blockTail_le (last : Char) (cs : List Char) :
    (blockTail last cs).2.length ≤ cs.length := by
  induction cs generalizing last with
  | nil => simp [blockTail]
  | cons c cs ih =>
    unfold blockTail
    split
    · simp
    · exact Nat.le_succ_of_le (ih _)

theorem length_operator_le (c : Char) (cs : List Char) :
    (operator c cs).rest.length ≤ cs.length := by
  unfold operator
  split
  · simp [verbatim]; omega
  · simp [verbatim]; omega
  · split <;> simp [verbatim]
  · simp [verbatim]

/-- What follows a lexeme is no longer than what followed its first character. -/
theorem length_read_le (c : Char) (cs : List Char) : (read c cs).rest.length ≤ cs.length := by
  unfold read
  split
  · exact (List.dropWhile_sublist _).length_le
  split
  · exact length_tail_le _ _ _
  split
  · exact length_quotedTail_le _ _
  · exact length_quotedTail_le _ _
  · exact length_lineTail_le _ _
  · exact Nat.le_succ_of_le (length_blockTail_le _ _)
  · simp
  · exact length_operator_le _ _

end Lexeme

namespace Token

/-- How a reader numbers lines: from a first line on, or one line for everything. -/
inductive Numbering where
  | counted
  | fixed
deriving DecidableEq, Repr

/-- The line after reading `cs` on line `line`. -/
def Numbering.advance (numbering : Numbering) (line : Nat) (cs : List Char) : Nat :=
  match numbering with
  | counted => line + cs.count '\n'
  | fixed => line

/-- The tokens of a text whose line terminators are all line feeds, from the given location. -/
def scan (numbering : Numbering) (file : Option String) (line : Nat) (cs : List Char) :
    List Token :=
  let spacing := cs.takeWhile Text.isBlank
  let line := numbering.advance line spacing
  match _h : cs.dropWhile Text.isBlank with
  | [] =>
    if spacing.isEmpty then []
    else [{ kind := .comment, text := "", spacing := String.ofList spacing,
            location := { file, line } }]
  | c :: rest =>
    let lexeme := Lexeme.read c rest
    { kind := lexeme.kind, text := String.ofList lexeme.text
      spacing := String.ofList spacing, location := { file, line } }
      :: scan numbering file (numbering.advance line lexeme.source) lexeme.rest
termination_by cs.length
decreasing_by
  have shorter := Lexeme.length_read_le c rest
  have le := (List.dropWhile_sublist Text.isBlank (l := cs)).length_le
  rw [_h, List.length_cons] at le
  omega

/-- The tokens of a header. -/
def ofText (file : Option String) (text : String) : List Token :=
  scan .counted file 1 (Text.unifyBreaks text.toList)

/-- The tokens of a text made while reading; all of them are at the given location. -/
def ofTextAt (location : Location) (text : String) : List Token :=
  scan .fixed location.file location.line (Text.unifyBreaks text.toList)

end Token

end HeaderPeers

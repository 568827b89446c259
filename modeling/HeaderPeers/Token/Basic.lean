import HeaderPeers.Location
import HeaderPeers.Token.Keyword

/-!
# Tokens

A token keeps the white space in front of it, so that the text it was read from can be put
together again.
-/

namespace HeaderPeers

/-- The lexical class of a token. -/
inductive Kind where
  | integer
  | float
  | string
  | char
  /-- A comment, a backslash at the end of a line (text `"\n"`), or white space at the end of the
  input (empty text). -/
  | comment
  | identifier
  | keyword (word : Keyword)
  /-- An operator of several characters. -/
  | symbol
  /-- A single character of punctuation. -/
  | punct
  | eof
deriving DecidableEq, Repr

/-- A token with the white space before it. -/
structure Token where
  kind : Kind
  text : String
  spacing : String := ""
  location : Location := {}
deriving DecidableEq, Repr

namespace Token

instance : Inhabited Token := ⟨{ kind := .eof, text := "" }⟩

/-- The token behind the last one. -/
def eof (location : Location) : Token :=
  { kind := .eof, text := "", location }

/-- Whether the token has this text, whatever its kind. -/
def is (t : Token) (text : String) : Bool :=
  t.kind != .eof && t.text == text

/-- Whether the token has one of these texts. -/
def isAny (t : Token) (texts : List String) : Bool :=
  texts.any t.is

def isKeyword (t : Token) (word : Keyword) : Bool :=
  t.kind == .keyword word

/-- Whether the token is a reserved word that satisfies `p`. -/
def isKeywordWith (t : Token) (p : Keyword → Bool) : Bool :=
  match t.kind with
  | .keyword word => p word
  | _ => false

def isAnyKeyword (t : Token) (words : List Keyword) : Bool :=
  t.isKeywordWith words.contains

/-- Identifiers and reserved words alike. -/
def isWord (t : Token) : Bool :=
  match t.kind with
  | .identifier | .keyword _ => true
  | _ => false

def isIdentifier (t : Token) : Bool :=
  t.kind == .identifier

def isComment (t : Token) : Bool :=
  t.kind == .comment

def isEof (t : Token) : Bool :=
  t.kind == .eof

/-- A character literal counts as an integer. -/
def isInteger (t : Token) : Bool :=
  t.kind == .integer || t.kind == .char

/-- The comment that stands for a backslash at the end of a line. -/
def isContinuation (t : Token) : Bool :=
  t.kind == .comment && t.text == "\n"

/-- The text for a report, with a marker for the end of the input. -/
def shown (t : Token) : String :=
  if t.isEof then "EOF" else t.text

/-- White space and text together. -/
def spaced (t : Token) : String :=
  t.spacing ++ t.text

end Token

end HeaderPeers

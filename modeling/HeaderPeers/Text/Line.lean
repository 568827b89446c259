import HeaderPeers.Text.Basic

/-!
# Lines

Where lines end, and what separates them. A line ends at a line feed, with or without a carriage
return before it; a lone carriage return separates lines only for `LineBreak.firstOf?` and
`unifyBreaks`.
-/

namespace HeaderPeers.Text

/-- A line terminator. -/
inductive LineBreak where
  | lf
  | crlf
  | cr
deriving DecidableEq, Repr

namespace LineBreak

/-- The characters of the terminator. -/
def text : LineBreak → String
  | lf => "\n"
  | crlf => "\r\n"
  | cr => "\r"

/-- The first line terminator of a text. -/
def firstOf? : List Char → Option LineBreak
  | [] => none
  | '\r' :: '\n' :: _ => some crlf
  | '\r' :: _ => some cr
  | '\n' :: _ => some lf
  | _ :: cs => firstOf? cs

end LineBreak

/-- Every line terminator turned into a line feed. -/
def unifyBreaks : List Char → List Char
  | [] => []
  | '\r' :: '\n' :: cs => '\n' :: unifyBreaks cs
  | '\r' :: cs => '\n' :: unifyBreaks cs
  | c :: cs => c :: unifyBreaks cs

/-- A line that was closed by a line feed, without the carriage return before it. -/
def dropReturn (line : List Char) : List Char :=
  if line.getLast? = some '\r' then line.dropLast else line

/-- The lines of a text, without their terminators. A text that ends in a line feed has no empty
line after it. -/
def lineList (cs : List Char) : List (List Char) :=
  (piecesThrough (· == '\n') cs).map fun piece =>
    if piece.getLast? = some '\n' then dropReturn piece.dropLast else piece

/-- The lines of a text, without their terminators. -/
def lines (s : String) : List String :=
  (lineList s.toList).map String.ofList

/-- The parts of a text before and from its last line feed on; without one, the whole text is in
the first part. -/
def cutLastBreak (s : String) : String × String :=
  let tail := (s.toList.reverse.takeWhile (· != '\n')).reverse
  let head := (s.toList.reverse.dropWhile (· != '\n')).reverse
  if head.isEmpty then (s, "") else (String.ofList head.dropLast, String.ofList ('\n' :: tail))

/-- The text through its last line feed, and the rest of the last line. -/
def throughLastBreak (s : String) : String × String :=
  (String.ofList (s.toList.reverse.dropWhile (· != '\n')).reverse,
    String.ofList (s.toList.reverse.takeWhile (· != '\n')).reverse)

end HeaderPeers.Text

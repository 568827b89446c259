/-!
# Plain text

Cutting, trimming and searching text. Every function is a function on lists of characters, lifted
to strings, so that positions never count bytes.
-/

namespace HeaderPeers.Text

/-- White space of any script. -/
def isBlank (c : Char) : Bool :=
  let n := c.toNat
  (9 ≤ n && n ≤ 13) || n == 0x20 || n == 0x85 || n == 0xA0 || n == 0x1680
    || (0x2000 ≤ n && n ≤ 0x200A) || n == 0x2028 || n == 0x2029 || n == 0x202F || n == 0x205F
    || n == 0x3000

/-- Drops the longest tail of characters that satisfy `p`. -/
def dropEndWhile (p : Char → Bool) (cs : List Char) : List Char :=
  (cs.reverse.dropWhile p).reverse

/-- Without leading white space. -/
def trimStart (s : String) : String :=
  String.ofList (s.toList.dropWhile isBlank)

/-- Without trailing white space. -/
def trimEnd (s : String) : String :=
  String.ofList (dropEndWhile isBlank s.toList)

/-- Without white space at either end. -/
def trim (s : String) : String :=
  String.ofList (dropEndWhile isBlank (s.toList.dropWhile isBlank))

/-- The white space a text starts with. -/
def leadingBlanks (s : String) : String :=
  String.ofList (s.toList.takeWhile isBlank)

/-- The white space a text ends with. -/
def trailingBlanks (s : String) : String :=
  String.ofList (s.toList.reverse.takeWhile isBlank).reverse

/-- The parts before and after the first occurrence of `needle`. -/
def cutChars? (needle : List Char) : List Char → Option (List Char × List Char)
  | [] => if needle.isEmpty then some ([], []) else none
  | c :: cs =>
    if needle.isPrefixOf (c :: cs) then some ([], (c :: cs).drop needle.length)
    else (cutChars? needle cs).map fun (before, after) => (c :: before, after)

/-- The parts before and after the last occurrence of `needle`. -/
def cutLastChars? (needle : List Char) (cs : List Char) : Option (List Char × List Char) :=
  (cutChars? needle.reverse cs.reverse).map fun (after, before) => (before.reverse, after.reverse)

/-- The parts of a text before and after the first occurrence of `needle`. -/
def cut? (needle s : String) : Option (String × String) :=
  (cutChars? needle.toList s.toList).map fun (b, a) => (String.ofList b, String.ofList a)

/-- The parts of a text before and after the last occurrence of `needle`. -/
def cutLast? (needle s : String) : Option (String × String) :=
  (cutLastChars? needle.toList s.toList).map fun (b, a) => (String.ofList b, String.ofList a)

/-- Whether `needle` occurs in the text. -/
def hasPart (needle s : String) : Bool :=
  (cutChars? needle.toList s.toList).isSome

/-- Whether the text holds the character. -/
def hasChar (c : Char) (s : String) : Bool :=
  s.toList.contains c

/-- Whether the text starts with `head`. -/
def startsWith (head s : String) : Bool :=
  head.toList.isPrefixOf s.toList

/-- Whether the text ends with `tail`. -/
def endsWith (tail s : String) : Bool :=
  tail.toList.isSuffixOf s.toList

/-- The text behind `head`, if it starts with it. -/
def dropHead? (head s : String) : Option String :=
  if startsWith head s then some (String.ofList (s.toList.drop head.toList.length)) else none

/-- The text before `tail`, if it ends with it. -/
def dropTail? (tail s : String) : Option String :=
  if endsWith tail s then
    some (String.ofList (s.toList.take (s.toList.length - tail.toList.length)))
  else none

/-- Every occurrence of `needle`, from the left, replaced by `image`; `fuel` bounds the number of
characters looked at. -/
def replaceChars (needle image : List Char) : Nat → List Char → List Char
  | 0, cs => cs
  | _, [] => []
  | fuel + 1, c :: cs =>
    if needle.isPrefixOf (c :: cs) then
      image ++ replaceChars needle image fuel ((c :: cs).drop needle.length)
    else c :: replaceChars needle image fuel cs

/-- Every occurrence of the non-empty text `needle`, from the left, replaced by `image`. -/
def replace (needle image s : String) : String :=
  String.ofList (replaceChars needle.toList image.toList s.toList.length s.toList)

/-- The number of times a character occurs. -/
def countChar (c : Char) (s : String) : Nat :=
  s.toList.count c

/-- The pieces between the characters that satisfy `p`; there is always at least one. -/
def splitChars (p : Char → Bool) : List Char → List (List Char)
  | [] => [[]]
  | c :: cs =>
    match splitChars p cs with
    | [] => [[c]]
    | piece :: pieces => if p c then [] :: piece :: pieces else (c :: piece) :: pieces

/-- The pieces of a text between the characters that satisfy `p`. -/
def split (p : Char → Bool) (s : String) : List String :=
  (splitChars p s.toList).map String.ofList

/-- The pieces between the occurrences of a non-empty `needle`, taken from the left; `fuel` bounds
their number. -/
def piecesBetween (needle : List Char) : Nat → List Char → List (List Char)
  | 0, cs => [cs]
  | fuel + 1, cs =>
    match cutChars? needle cs with
    | some (before, after) => before :: piecesBetween needle fuel after
    | none => [cs]

/-- The pieces of a text between the occurrences of a non-empty `needle`. -/
def splitAt (needle s : String) : List String :=
  (piecesBetween needle.toList s.length s.toList).map String.ofList

/-- The text behind the last space, which leaves annotations out. -/
def lastWord (s : String) : String :=
  match cutLast? " " s with
  | some (_, word) => word
  | none => s

/-- The pieces of a text between runs of white space; none is empty. -/
def words (s : String) : List String :=
  (split isBlank s).filter (· != "")

/-- The pieces of a text up to and including each character that satisfies `p`; none is empty. -/
def piecesThrough (p : Char → Bool) : List Char → List (List Char)
  | [] => []
  | c :: cs =>
    if p c then [c] :: piecesThrough p cs
    else match piecesThrough p cs with
      | [] => [[c]]
      | piece :: pieces => (c :: piece) :: pieces

/-- A text repeated `n` times. -/
def times (n : Nat) (s : String) : String :=
  String.join (List.replicate n s)

/-- Texts joined by a separator. -/
def joinWith (separator : String) (parts : List String) : String :=
  separator.intercalate parts

end HeaderPeers.Text

import HeaderPeers.Text.Basic
import HeaderPeers.Token.Number
import HeaderPeers.Toml.Value

/-!
# Scalars of project files

Quoted texts, numbers, dates and times. A reader gives what it found and the characters behind it.
-/

namespace HeaderPeers.Toml

/-- White space inside a line. -/
def isSpace (c : Char) : Bool :=
  c == ' ' || c == '\t'

/-- Whether a character may stand in a comment or a quoted text as itself. -/
def isPlain (c : Char) : Bool :=
  c == '\t' || (0x20 ≤ c.toNat && c.toNat != 0x7F)

/-- What is behind a line break, if there is one. -/
def newline? : List Char → Option (List Char)
  | '\n' :: cs => some cs
  | '\r' :: '\n' :: cs => some cs
  | _ => none

/-! ## Quoted texts -/

/-- A way of quoting. -/
structure Quoting where
  mark : Char
  /-- A backslash escapes. -/
  escapes : Bool
  /-- Three marks open and close the text, which may have several lines. -/
  long : Bool

/-- The character that a letter behind a backslash stands for. -/
def namedEscape? : Char → Option Char
  | 'b' => some '\x08'
  | 't' => some '\t'
  | 'n' => some '\n'
  | 'f' => some '\x0c'
  | 'r' => some '\r'
  | '"' => some '"'
  | '\\' => some '\\'
  | _ => none

/-- Whether nothing but white space is left on the line. -/
def endsLine (cs : List Char) : Bool :=
  (newline? (cs.dropWhile isSpace)).isSome

namespace Quoting

/-- Puts a character before what a reader found. -/
def push (c : Char) : Option (List Char × List Char) → Option (List Char × List Char)
  | some (found, rest) => some (c :: found, rest)
  | none => none

/-- Reads the inside of a quoted text and its closing marks. Up to two marks right before the closing
ones belong to a long text. A backslash at the end of a line hides the white space up to the next
other character; `hidden` says that it does. Line breaks become line feeds. -/
def body? (q : Quoting) (hidden : Bool) : List Char → Option (List Char × List Char)
  | [] => none
  | c :: cs =>
    if hidden && isSpace c then body? q true cs
    else if c == '\r' then
      if q.long && cs.head? == some '\n' then body? q hidden cs else none
    else if c == '\n' then
      if !q.long then none
      else if hidden then body? q true cs
      else push '\n' (body? q false cs)
    else if c == q.mark then
      if !q.long then some ([], cs)
      else
        let run := 1 + (cs.takeWhile (· == q.mark)).length
        if run < 3 then push c (body? q false cs)
        else some (List.replicate (min run 5 - 3) q.mark, cs.drop (min run 5 - 1))
    else if q.escapes && c == '\\' then
      if q.long && endsLine cs then body? q true cs
      else match cs with
        | 'u' :: d₁ :: d₂ :: d₃ :: d₄ :: cs =>
          (Number.codePoint? [d₁, d₂, d₃, d₄]).bind fun c => push c (body? q false cs)
        | 'U' :: d₁ :: d₂ :: d₃ :: d₄ :: d₅ :: d₆ :: d₇ :: d₈ :: cs =>
          (Number.codePoint? [d₁, d₂, d₃, d₄, d₅, d₆, d₇, d₈]).bind fun c =>
            push c (body? q false cs)
        | e :: cs => (namedEscape? e).bind fun c => push c (body? q false cs)
        | [] => none
    else if isPlain c then push c (body? q false cs)
    else none

end Quoting

/-- Reads a quoted text on one line, from behind its opening mark. -/
def shortText? (mark : Char) (cs : List Char) : Option (String × List Char) :=
  (Quoting.body? { mark, escapes := mark == '"', long := false } false cs).map fun (text, rest) =>
    (String.ofList text, rest)

/-- Reads a quoted text, from its opening mark on. A line break right behind three marks does not
count. -/
def quotedText? (mark : Char) (cs : List Char) : Option (String × List Char) :=
  if [mark, mark, mark].isPrefixOf cs then
    let inside := cs.drop 3
    (Quoting.body? { mark, escapes := mark == '"', long := true } false
      ((newline? inside).getD inside)).map fun (text, rest) => (String.ofList text, rest)
  else shortText? mark (cs.drop 1)

/-! ## Numbers -/

def isDecimal (c : Char) : Bool :=
  '0' ≤ c && c ≤ '9'

/-- Digits without the underscores between them. -/
def ungrouped? (base : Nat) (cs : List Char) : Option (List Char) :=
  let groups := Text.splitChars (· == '_') cs
  if groups.all fun g => !g.isEmpty && g.all fun c => (Number.digitValue? base c).isSome then
    some groups.flatten
  else none

/-- A sign, if there is one, and what is behind it. -/
def splitSign : List Char → Bool × List Char
  | '-' :: cs => (true, cs)
  | '+' :: cs => (false, cs)
  | cs => (false, cs)

/-- The digits of a decimal number, which has no leading zero. -/
def decimalDigits? (cs : List Char) : Option (List Char) :=
  match cs with
  | '0' :: _ :: _ => none
  | cs => ungrouped? 10 cs

/-- Reads an integer of 64 bits; only a decimal one has a sign. -/
def integer? (cs : List Char) : Option Int :=
  let value? := match cs with
    | '0' :: 'x' :: cs => ((ungrouped? 16 cs).bind (Number.natural? 16)).map Int.ofNat
    | '0' :: 'o' :: cs => ((ungrouped? 8 cs).bind (Number.natural? 8)).map Int.ofNat
    | '0' :: 'b' :: cs => ((ungrouped? 2 cs).bind (Number.natural? 2)).map Int.ofNat
    | cs =>
      let (negative, cs) := splitSign cs
      ((decimalDigits? cs).bind (Number.natural? 10)).map fun n =>
        if negative then -(n : Int) else n
  value?.filter Number.fits64

/-- Whether `mantissa · 10 ^ exponent` is too large for a floating-point number of 64 bits: from half
way between the largest one and `2 ^ 1024` on. -/
def overflows (mantissa : Nat) (exponent : Int) : Bool :=
  let digits : Int := (toString mantissa).length
  if mantissa == 0 || digits + exponent < 309 then false
  else if 310 < digits + exponent then true
  else
    let bound := Nat.pow 2 1024 - Nat.pow 2 970
    if 0 ≤ exponent then decide (bound ≤ mantissa * Nat.pow 10 exponent.toNat)
    else decide (bound * Nat.pow 10 exponent.natAbs ≤ mantissa)

/-- The parts of a text before and behind the first character that satisfies `p`. -/
def cutAt (p : Char → Bool) (cs : List Char) : List Char × Option (List Char) :=
  (cs.takeWhile (!p ·), (cs.dropWhile (!p ·)).tail?)

/-- An exponent, zero if there is none. -/
def exponent? (cs : Option (List Char)) : Option Int :=
  match cs with
  | none => some 0
  | some cs =>
    let (negative, cs) := splitSign cs
    ((ungrouped? 10 cs).bind (Number.natural? 10)).map fun n => if negative then -(n : Int) else n

/-- Whether a spelling is that of a number with a fraction or an exponent, or of one that is not
finite. A positive number that is too large is none. -/
def isFloat (cs : List Char) : Bool :=
  let (negative, magnitude) := splitSign cs
  if ["inf", "nan"].contains (String.ofList magnitude) then true
  else
    let (mantissa, power) := cutAt (fun c => c == 'e' || c == 'E') magnitude
    let (whole, fraction) := cutAt (· == '.') mantissa
    if fraction.isNone && power.isNone then false
    else
      let fraction? := match fraction with
        | some digits => ungrouped? 10 digits
        | none => some []
      match decimalDigits? whole, fraction?, exponent? power with
      | some whole, some fraction, some power =>
        match Number.natural? 10 (whole ++ fraction) with
        | some n => negative || !overflows n (power - fraction.length)
        | none => false
      | _, _, _ => false

/-! ## Dates and times -/

/-- A number of exactly `width` digits within bounds. -/
def inRange (width low high : Nat) (cs : List Char) : Bool :=
  cs.length == width && cs.all isDecimal
    && (Number.natural? 10 cs).any fun n => decide (low ≤ n) && decide (n ≤ high)

/-- The number of days of a month. -/
def daysOf (year month : Nat) : Nat :=
  if month == 2 then
    if year % 4 == 0 && (year % 100 != 0 || year % 400 == 0) then 29 else 28
  else if [4, 6, 9, 11].contains month then 30
  else 31

def isDate (cs : List Char) : Bool :=
  match Text.splitChars (· == '-') cs with
  | [year, month, day] =>
    inRange 4 0 9999 year && inRange 2 1 12 month
      && inRange 2 1 (daysOf ((Number.natural? 10 year).getD 0) ((Number.natural? 10 month).getD 0))
        day
  | _ => false

/-- A second, with a fraction if there is one. -/
def isSecond (cs : List Char) : Bool :=
  match cutAt (· == '.') cs with
  | (whole, none) => inRange 2 0 60 whole
  | (whole, some fraction) => inRange 2 0 60 whole && !fraction.isEmpty && fraction.all isDecimal

def isTime (cs : List Char) : Bool :=
  match Text.splitChars (· == ':') cs with
  | [hour, minute, second] => inRange 2 0 23 hour && inRange 2 0 59 minute && isSecond second
  | _ => false

/-- A distance from universal time. -/
def isOffset (cs : List Char) : Bool :=
  match Text.splitChars (· == ':') cs with
  | [hour, minute] => inRange 2 0 23 hour && inRange 2 0 59 minute
  | _ => false

/-- A time that belongs to a date, with an offset if there is one. -/
def isTimeOfDay (cs : List Char) : Bool :=
  isTime cs ||
    match cutAt (fun c => c == 'Z' || c == 'z') cs with
    | (time, some rest) => isTime time && rest.isEmpty
    | (_, none) =>
      match cutAt (fun c => c == '+' || c == '-') cs with
      | (time, some offset) => isTime time && isOffset offset
      | (_, none) => false

/-- A date, a time, or a date and a time with a letter between them. -/
def isMoment (cs : List Char) : Bool :=
  isDate cs || isTime cs ||
    match cutAt (fun c => c == 'T' || c == 't') cs with
    | (date, some time) => isDate date && isTimeOfDay time
    | (_, none) => false

/-! ## Words -/

/-- Whether a character can stand in a scalar without quotes. -/
def isWordChar (c : Char) : Bool :=
  c.isAlphanum || ['+', '-', '_', '.', ':'].contains c

/-- The value that a word stands for. -/
def wordValue? (cs : List Char) : Option Value :=
  let spelling := String.ofList cs
  if spelling == "true" then some (.boolean true)
  else if spelling == "false" then some (.boolean false)
  else if isMoment cs then some (.moment spelling)
  else if isFloat cs then some (.float spelling)
  else (integer? cs).map .integer

/-- Reads a scalar without quotes. A time may follow a date behind a space. -/
def word? (cs : List Char) : Option (Value × List Char) :=
  let word := cs.takeWhile isWordChar
  let rest := cs.dropWhile isWordChar
  let time := (rest.drop 1).takeWhile isWordChar
  if isDate word && rest.head? == some ' ' && isTimeOfDay time then
    some (.moment (String.ofList (word ++ ' ' :: time)), (rest.drop 1).dropWhile isWordChar)
  else (wordValue? word).map (·, rest)

end HeaderPeers.Toml

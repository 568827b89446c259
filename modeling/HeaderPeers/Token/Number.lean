/-!
# Numeric literals

Scanning is lenient: whatever looks like it continues a number is taken. The text of a literal
loses its suffixes; an integer that needs 64 bits, or says so, gets a single `L` instead.
-/

namespace HeaderPeers.Number

/-- Value of a digit in a base up to sixteen. -/
def digitValue? (base : Nat) (c : Char) : Option Nat :=
  let value? :=
    if '0' ≤ c ∧ c ≤ '9' then some (c.toNat - '0'.toNat)
    else if 'a' ≤ c ∧ c ≤ 'f' then some (c.toNat - 'a'.toNat + 10)
    else if 'A' ≤ c ∧ c ≤ 'F' then some (c.toNat - 'A'.toNat + 10)
    else none
  value?.filter (· < base)

/-- Reads digits behind those already worth `acc`. -/
def digitsValue? (base acc : Nat) : List Char → Option Nat
  | [] => some acc
  | c :: cs => (digitValue? base c).bind fun d => digitsValue? base (acc * base + d) cs

/-- Reads one or more digits. -/
def natural? (base : Nat) (cs : List Char) : Option Nat :=
  if cs.isEmpty then none else digitsValue? base 0 cs

/-- The character whose code point has these hexadecimal digits, if there is one. -/
def codePoint? (digits : List Char) : Option Char :=
  (natural? 16 digits).bind fun n => if n.isValidChar then some (Char.ofNat n) else none

/-- Whether a number fits 64 bits with a sign. -/
def fits64 (n : Int) : Bool :=
  -0x8000000000000000 ≤ n && n < 0x8000000000000000

/-- Reads an optionally signed number that fits 64 bits. -/
def signed64? (base : Nat) (cs : List Char) : Option Int :=
  let value? : Option Int := match cs with
    | '-' :: cs => (natural? base cs).map fun n => -(n : Int)
    | '+' :: cs => (natural? base cs).map Int.ofNat
    | cs => (natural? base cs).map Int.ofNat
  value?.filter fits64

/-- The magnitude of an integer literal: `0x` is hexadecimal, a leading zero is octal. -/
def magnitude? (cs : List Char) : Option Int :=
  match cs with
  | '0' :: 'x' :: hex => signed64? 16 hex
  | '0' :: 'X' :: hex => signed64? 16 hex
  | '0' :: c :: octal => signed64? 8 (c :: octal)
  | cs => signed64? 10 cs

/-- The value of an integer literal with an optional sign in front, in 64-bit arithmetic. -/
def decode? (cs : List Char) : Option Int :=
  match cs with
  | '-' :: cs => (magnitude? cs).map fun n => (-n).bmod UInt64.size
  | '+' :: cs => magnitude? cs
  | cs => magnitude? cs

/-- The value of an integer literal, from its text. -/
def decodeText? (s : String) : Option Int :=
  decode? s.toList

def isHexMark (c : Char) : Bool := c == 'x' || c == 'X'

def isLongMark (c : Char) : Bool := c == 'l' || c == 'L'

def isUnsignedMark (c : Char) : Bool := c == 'u' || c == 'U'

/-- Marks of the width and sign, which the text of a literal does not keep. -/
def isSuffixMark (c : Char) : Bool := isLongMark c || isUnsignedMark c

/-- Whether `c` continues a number whose last character is `last`; a sign does right behind the
mark of an exponent. -/
def continues (hex : Bool) (last c : Char) : Bool :=
  let exponent := if hex then last == 'p' || last == 'P' else last == 'e' || last == 'E'
  c.isDigit || c == '.' || ((c == '+' || c == '-') && exponent)
    || (digitValue? 16 c).isSome || isSuffixMark c || isHexMark c
    || c == 'i' || c == 'I' || c == 'p' || c == 'P'

/-- Splits off the characters that continue a number. -/
def tail (hex : Bool) (last : Char) : List Char → List Char × List Char
  | [] => ([], [])
  | c :: cs =>
    if continues hex last c then
      let more := tail (hex || isHexMark c) c cs
      (c :: more.1, more.2)
    else ([], c :: cs)

/-- Whether a scanned number is a floating-point one. -/
def isFloat (source : List Char) : Bool :=
  source.contains '.'
    || (!source.any isHexMark
      && (source.any (fun c => c == 'e' || c == 'E' || c == 'p' || c == 'P')
        || source.getLast? == some 'f' || source.getLast? == some 'F'))

/-- Whether an integer without a mark of its width needs 64 bits; one that is no number this
library can read does when it is long. -/
def needs64 (digits : List Char) : Bool :=
  match decode? digits with
  | some value => let high := value.fdiv UInt32.size; high != 0 && high != -1
  | none => digits.length ≥ 16

/-- The characters without a final `i64`. -/
def dropWidth? (digits : List Char) : Option (List Char) :=
  if "i64".toList.isSuffixOf digits then some (digits.take (digits.length - 3)) else none

/-- The text of a scanned number. -/
def textOf (source : List Char) : List Char :=
  let digits := source.filter (!isSuffixMark ·)
  let long := source.any isLongMark || (dropWidth? digits).isSome
    || (!isFloat source && needs64 digits)
  let wide := long || (source.any isUnsignedMark && !source.any isHexMark)
  let plain := (dropWidth? digits).getD digits
  if !isFloat source && wide then plain ++ ['L'] else plain

end HeaderPeers.Number

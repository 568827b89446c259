import HeaderPeers.Pattern.Basic
import HeaderPeers.Token.Number

/-!
# Reading patterns

The usual notation of regular expressions: characters, `.`, classes in brackets, escapes, groups,
alternatives and repetition, without back references and look-around.
-/

namespace HeaderPeers.Pattern

/-- How the rest of a group is read. -/
structure Flags where
  /-- Case does not matter. -/
  fold : Bool := false
  /-- Both `^` and `$` match at every line. -/
  lines : Bool := false
  /-- A dot matches a line feed too. -/
  dotAll : Bool := false

/-- Characters with a meaning of their own. -/
def isMeta (c : Char) : Bool :=
  "\\.+*?()|[]\x7b\x7d^$#&-~".toList.contains c

/-- Whether a backslash may stand before a character without a meaning of its own. -/
def isEscapable (c : Char) : Bool :=
  isMeta c || (c.toNat < 0x80 && !c.isAlphanum && c != '<' && c != '>')

/-- Reads a hexadecimal code point of `n` digits, or of any number of digits in braces. -/
def hexEscape? (n : Nat) (cs : List Char) : Option (Char × List Char) :=
  match cs with
  | '\x7b' :: cs =>
    let digits := cs.takeWhile (· != '\x7d')
    match cs.dropWhile (· != '\x7d') with
    | '\x7d' :: rest => (Number.codePoint? digits).map (·, rest)
    | _ => none
  | cs => if cs.length < n then none else (Number.codePoint? (cs.take n)).map (·, cs.drop n)

/-- What stands behind a backslash. -/
inductive Escape where
  | char (c : Char)
  | set (set : CharSet)
  | place (p : Pattern)

/-- Reads what stands behind a backslash. -/
def escape? (cs : List Char) : Option (Escape × List Char) :=
  match cs with
  | [] => none
  | 'd' :: cs => some (.set .decimal, cs)
  | 'D' :: cs => some (.set (.negate .decimal), cs)
  | 's' :: cs => some (.set .blank, cs)
  | 'S' :: cs => some (.set (.negate .blank), cs)
  | 'w' :: cs => some (.set .wordChar, cs)
  | 'W' :: cs => some (.set (.negate .wordChar), cs)
  | 'x' :: cs => (hexEscape? 2 cs).map fun (c, cs) => (.char c, cs)
  | 'u' :: cs => (hexEscape? 4 cs).map fun (c, cs) => (.char c, cs)
  | 'U' :: cs => (hexEscape? 8 cs).map fun (c, cs) => (.char c, cs)
  | 'a' :: cs => some (.char '\x07', cs)
  | 'f' :: cs => some (.char '\x0c', cs)
  | 't' :: cs => some (.char '\t', cs)
  | 'n' :: cs => some (.char '\n', cs)
  | 'r' :: cs => some (.char '\r', cs)
  | 'v' :: cs => some (.char '\x0b', cs)
  | 'A' :: cs => some (.place (.start false), cs)
  | 'z' :: cs => some (.place (.stop false), cs)
  | 'b' :: cs => some (.place (.edge false), cs)
  | 'B' :: cs => some (.place (.edge true), cs)
  | c :: cs => if isEscapable c then some (.char c, cs) else none

/-- Named classes inside brackets. -/
def namedSets : List (String × CharSet) :=
  let lower := CharSet.range 'a' 'z'
  let upper := CharSet.range 'A' 'Z'
  let digit := CharSet.range '0' '9'
  let alpha := CharSet.union lower upper
  [("alnum", .union alpha digit), ("alpha", alpha), ("ascii", .range '\x00' '\x7f'),
    ("blank", .union (.single ' ') (.single '\t')),
    ("cntrl", .union (.range '\x00' '\x1f') (.single '\x7f')), ("digit", digit),
    ("graph", .range '!' '~'), ("lower", lower), ("print", .range ' ' '~'),
    ("punct", .union (.union (.range '!' '/') (.range ':' '@'))
      (.union (.range '[' '\x60') (.range '\x7b' '~'))),
    ("space", .union (.range '\t' '\r') (.single ' ')), ("upper", upper),
    ("word", .union (.union alpha digit) (.single '_')),
    ("xdigit", .union digit (.union (.range 'a' 'f') (.range 'A' 'F')))]

/-- Reads a named class, from behind its opening bracket. -/
def namedSet? (cs : List Char) : Option (CharSet × List Char) :=
  match cs with
  | ':' :: cs =>
    let (negated, cs) := match cs with
      | '^' :: cs => (true, cs)
      | cs => (false, cs)
    let name := cs.takeWhile (· != ':')
    match cs.dropWhile (· != ':') with
    | ':' :: ']' :: rest =>
      (namedSets.lookup (String.ofList name)).map fun set =>
        (if negated then .negate set else set, rest)
    | _ => none
  | _ => none

/-- One character or set inside brackets. -/
def classItem? (cs : List Char) : Option (CharSet × Option Char × List Char) :=
  match cs with
  | [] => none
  | '\\' :: cs =>
    match escape? cs with
    | some (.char c, cs) => some (.single c, some c, cs)
    | some (.set set, cs) => some (set, none, cs)
    | _ => none
  | c :: cs => some (.single c, some c, cs)

/-- A character, a set or a range inside brackets. -/
def classRange? (cs : List Char) : Option (CharSet × List Char) :=
  match classItem? cs with
  | none => none
  | some (set, low, '-' :: rest) =>
    match rest with
    | ']' :: _ | '-' :: _ => some (set, '-' :: rest)
    | _ =>
      match low, classItem? rest with
      | some low, some (_, some high, rest) =>
        if low ≤ high then some (.range low high, rest) else none
      | _, _ => none
  | some (set, _, rest) => some (set, rest)

/-- Operators between sets inside brackets, all of which bind to the left. -/
inductive ClassOp where
  | inter
  | difference
  | symmetric

def ClassOp.apply : ClassOp → CharSet → CharSet → CharSet
  | inter, a, b => .inter a b
  | difference, a, b => .difference a b
  | symmetric, a, b => .symmetric a b

/-- The set left of an operator that waits for its right side. -/
def joinPending (pending : Option (CharSet × ClassOp)) (set : CharSet) : CharSet :=
  match pending with
  | some (left, op) => op.apply left set
  | none => set

/-- Dashes at the start of brackets, and a bracket right behind them if there were none, stand for
themselves. -/
def classStart (cs : List Char) : CharSet × List Char :=
  match cs with
  | '-' :: cs => (.single '-', cs.dropWhile (· == '-'))
  | ']' :: cs => (.single ']', cs)
  | cs => (.none, cs)

/-- Reads the inside of brackets through the closing one. `fuel` bounds the number of items. -/
def classBody? (negated : Bool) : Nat → Option (CharSet × ClassOp) → CharSet → List Char →
    Option (CharSet × List Char)
  | 0, _, _, _ => none
  | fuel + 1, pending, set, cs =>
    match cs with
    | [] => none
    | ']' :: rest =>
      let set := joinPending pending set
      some (if negated then .negate set else set, rest)
    | '&' :: '&' :: rest => classBody? negated fuel (some (joinPending pending set, .inter)) .none rest
    | '-' :: '-' :: rest =>
      classBody? negated fuel (some (joinPending pending set, .difference)) .none rest
    | '~' :: '~' :: rest =>
      classBody? negated fuel (some (joinPending pending set, .symmetric)) .none rest
    | '[' :: rest =>
      match namedSet? rest with
      | some (inner, rest) => classBody? negated fuel pending (.union set inner) rest
      | none =>
        let (inverse, rest) := match rest with
          | '^' :: rest => (true, rest)
          | rest => (false, rest)
        let (first, rest) := classStart rest
        match classBody? inverse fuel none first rest with
        | some (inner, rest) => classBody? negated fuel pending (.union set inner) rest
        | none => none
    | cs =>
      match classRange? cs with
      | some (item, rest) => classBody? negated fuel pending (.union set item) rest
      | none => none

/-- Reads a class, from behind its opening bracket. -/
def class? (cs : List Char) : Option (CharSet × List Char) :=
  let (negated, cs) := match cs with
    | '^' :: cs => (true, cs)
    | cs => (false, cs)
  let (first, cs) := classStart cs
  classBody? negated (cs.length + 1) none first cs

/-- Reads a number with blanks around it. -/
def decimal? (cs : List Char) : Option (Nat × List Char) :=
  let cs := cs.dropWhile Text.isBlank
  let digits := cs.takeWhile Char.isDigit
  match Number.natural? 10 digits with
  | some n =>
    if n < UInt32.size then some (n, (cs.dropWhile Char.isDigit).dropWhile Text.isBlank) else none
  | none => none

/-- Reads the limits of a counted repetition, from behind the opening brace. -/
def limits? (cs : List Char) : Option (Nat × Option Nat × List Char) :=
  match decimal? cs with
  | some (low, '\x7d' :: rest) => some (low, some low, rest)
  | some (low, ',' :: '\x7d' :: rest) => some (low, none, rest)
  | some (low, ',' :: rest) =>
    match decimal? rest with
    | some (high, '\x7d' :: rest) => if low ≤ high then some (low, some high, rest) else none
    | _ => none
  | _ => none

/-- Reads flags up to the mark that ends them. -/
def flags? (on : Bool) (flags : Flags) : List Char → Option (Flags × List Char)
  | [] => none
  | ')' :: cs => some (flags, ')' :: cs)
  | ':' :: cs => some (flags, ':' :: cs)
  | '-' :: cs => if on then flags? false flags cs else none
  | 'i' :: cs => flags? on { flags with fold := on } cs
  | 'm' :: cs => flags? on { flags with lines := on } cs
  | 's' :: cs => flags? on { flags with dotAll := on } cs
  | 'U' :: cs => flags? on flags cs
  | 'u' :: cs => flags? on flags cs
  | _ => none

/-- Reads the name of a group through the closing bracket. -/
def groupName? (cs : List Char) : Option (List Char) :=
  let name := cs.takeWhile (· != '>')
  match name, cs.dropWhile (· != '>') with
  | c :: more, '>' :: rest =>
    if Text.isWordStart c && more.all (fun c => Text.isWordChar c || ".[]".toList.contains c) then
      some rest
    else none
  | _, _ => none

/-- How a group starts. -/
inductive GroupStart where
  /-- A group whose inside is read with these flags. -/
  | group (flags : Flags)
  /-- No group: the flags change up to the end of the group around. -/
  | change (flags : Flags)

/-- Reads the start of a group, from behind its parenthesis. -/
def groupStart? (flags : Flags) (cs : List Char) : Option (GroupStart × List Char) :=
  match cs with
  | '?' :: 'P' :: '<' :: cs => (groupName? cs).map (.group flags, ·)
  | '?' :: '<' :: cs => (groupName? cs).map (.group flags, ·)
  | '?' :: ')' :: _ => none
  | '?' :: cs =>
    match flags? true flags cs with
    | some (flags, ':' :: rest) => some (.group flags, rest)
    | some (flags, ')' :: rest) => some (.change flags, rest)
    | _ => none
  | cs => some (.group flags, cs)

/-- Items of a branch, the last first; a change of flags is an item that cannot be repeated. -/
abbrev Items := List (Option Pattern)

def sequence (items : Items) : Pattern :=
  (items.filterMap id).foldl (fun tail p => .seq p tail) .empty

/-- Repeats the last item. -/
def repeatLast? (items : Items) (low : Nat) (high : Option Nat) : Option Items :=
  match items with
  | some p :: more => some (some (.many p low high) :: more)
  | _ => none

/-- A mark of reluctance behind a repetition, which does not change what matches. -/
def dropReluctance : List Char → List Char
  | '?' :: cs => cs
  | cs => cs

/-- Reads alternatives up to a closing parenthesis or the end. `fuel` bounds the number of items. -/
def alternatives? : Nat → Flags → Option Pattern → Items → List Char → Option (Pattern × List Char)
  | 0, _, _, _, _ => none
  | fuel + 1, flags, before, items, cs =>
    let whole := match before with
      | some p => .alt p (sequence items)
      | none => sequence items
    match cs with
    | [] => some (whole, [])
    | ')' :: cs => some (whole, ')' :: cs)
    | '|' :: cs => alternatives? fuel flags (some whole) [] cs
    | '(' :: cs =>
      match groupStart? flags cs with
      | some (.change flags, cs) => alternatives? fuel flags before (none :: items) cs
      | some (.group inner, cs) =>
        match alternatives? fuel inner none [] cs with
        | some (p, ')' :: cs) => alternatives? fuel flags before (some p :: items) cs
        | _ => none
      | none => none
    | '[' :: cs =>
      match class? cs with
      | some (set, cs) => alternatives? fuel flags before (some (.one flags.fold set) :: items) cs
      | none => none
    | '*' :: cs =>
      (repeatLast? items 0 none).bind (alternatives? fuel flags before · (dropReluctance cs))
    | '+' :: cs =>
      (repeatLast? items 1 none).bind (alternatives? fuel flags before · (dropReluctance cs))
    | '?' :: cs =>
      (repeatLast? items 0 (some 1)).bind (alternatives? fuel flags before · (dropReluctance cs))
    | '\x7b' :: cs =>
      match limits? cs with
      | some (low, high, cs) =>
        (repeatLast? items low high).bind (alternatives? fuel flags before · (dropReluctance cs))
      | none => none
    | '\\' :: cs =>
      match escape? cs with
      | some (.char c, cs) =>
        alternatives? fuel flags before (some (.one flags.fold (.single c)) :: items) cs
      | some (.set set, cs) =>
        alternatives? fuel flags before (some (.one false set) :: items) cs
      | some (.place p, cs) => alternatives? fuel flags before (some p :: items) cs
      | none => none
    | '.' :: cs =>
      let set := if flags.dotAll then .all else .negate (.single '\n')
      alternatives? fuel flags before (some (.one false set) :: items) cs
    | '^' :: cs => alternatives? fuel flags before (some (.start flags.lines) :: items) cs
    | '$' :: cs => alternatives? fuel flags before (some (.stop flags.lines) :: items) cs
    | c :: cs => alternatives? fuel flags before (some (.one flags.fold (.single c)) :: items) cs

/-- The pattern a text denotes. -/
def ofText? (text : String) : Option Pattern :=
  match alternatives? (text.length + 1) {} none [] text.toList with
  | some (p, []) => some p
  | _ => none

end HeaderPeers.Pattern

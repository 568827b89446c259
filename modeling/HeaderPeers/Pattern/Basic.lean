import HeaderPeers.Pattern.CharSet

/-!
# Patterns

Regular expressions over lines, matched by following the set of positions a match may have
reached.
-/

namespace HeaderPeers

/-- A regular expression. -/
inductive Pattern where
  | empty
  /-- One character of a set. -/
  | one (fold : Bool) (set : Pattern.CharSet)
  /-- The start of the text or, if `each` is set, of a line. -/
  | start (each : Bool)
  /-- The end of the text or, if `each` is set, of a line. -/
  | stop (each : Bool)
  /-- The edge of a word, or any other place. -/
  | edge (negated : Bool)
  | seq (a b : Pattern)
  | alt (a b : Pattern)
  /-- At least `low` times, and at most `high` times if there is a limit. -/
  | many (p : Pattern) (low : Nat) (high : Option Nat)
deriving Repr

namespace Pattern

/-- A step taken exactly `n` times. -/
def exactly (step : List Nat → List Nat) : Nat → List Nat → List Nat
  | 0, places => places
  | n + 1, places => if places.isEmpty then [] else exactly step n (step places)

/-- A step taken at most `n` times. -/
def upTo (step : List Nat → List Nat) : Nat → List Nat → List Nat
  | 0, places => places
  | n + 1, places =>
    let fresh := (step places).filter fun i => !places.contains i
    if fresh.isEmpty then places else upTo step n (places ++ fresh)

/-- Whether the edge of a word is at a position. -/
def isEdge (text : Array Char) (i : Nat) : Bool :=
  let before := if i == 0 then false else (text[i - 1]?).any isTextWordChar
  before != (text[i]?).any isTextWordChar

/-- The positions a match that starts at one of the places may end at. -/
def ends (text : Array Char) : Pattern → List Nat → List Nat
  | empty, places => places
  | one fold set, places =>
    places.filterMap fun i =>
      match text[i]? with
      | some c => if set.holds fold c then some (i + 1) else none
      | none => none
  | start each, places =>
    places.filter fun i => i == 0 || (each && text[i - 1]? == some '\n')
  | stop each, places =>
    places.filter fun i => i == text.size || (each && text[i]? == some '\n')
  | edge negated, places => places.filter fun i => isEdge text i != negated
  | seq a b, places => ends text b (ends text a places)
  | alt a b, places => (ends text a places ++ ends text b places).eraseDups
  | many p low high, places =>
    let base := exactly (ends text p) low places
    match high with
    | some high => upTo (ends text p) (min (high - low) (text.size + 1)) base
    | none => upTo (ends text p) (text.size + 1) base

/-- Whether the pattern matches somewhere in the text. -/
def occursIn (p : Pattern) (text : String) : Bool :=
  let chars := text.toList.toArray
  !(p.ends chars (List.range (chars.size + 1))).isEmpty

end Pattern

end HeaderPeers

import HeaderPeers.Pattern.Reader
import HeaderPeers.Text.Line

/-!
# Line filters

Patterns in pairs mark ranges of lines: a line that a first pattern of a pair matches starts a
range, which goes through the next line that the second one matches. A filter keeps the ranges or
leaves them out.
-/

namespace HeaderPeers

/-- How a range of lines starts and ends; without an end it is a single line. -/
structure LineRange where
  begins : String → Bool
  ends? : Option (String → Bool)

/-- Ranges of lines, and whether they are left out or kept. -/
structure LineFilter where
  ranges : List LineRange
  skip : Bool

namespace LineFilter

/-- Where the filter is in a text: outside all ranges, or in one that ends so. -/
abbrev Place := Option (String → Bool)

/-- Whether a line is in a range, and the place behind it. -/
def step (filter : LineFilter) (place : Place) (line : String) : Bool × Place :=
  match place with
  | some ends => (true, if ends line then none else some ends)
  | none =>
    match filter.ranges.find? (·.begins line) with
    | some range => (true, range.ends?)
    | none => (false, none)

/-- The lines that stay. -/
def keep (filter : LineFilter) : Place → List String → List String
  | _, [] => []
  | place, line :: lines =>
    let (inRange, place) := filter.step place line
    if inRange != filter.skip then line :: filter.keep place lines else filter.keep place lines

/-- The text of the lines that stay, each with a line feed behind it. -/
def apply (filter : LineFilter) (text : String) : String :=
  String.join ((filter.keep none (Text.lines text)).map (· ++ "\n"))

/-- Patterns in pairs; the last one may have no partner. -/
def pair : List Pattern → List LineRange
  | [] => []
  | [p] => [⟨p.occursIn, none⟩]
  | p :: q :: more => ⟨p.occursIn, some q.occursIn⟩ :: pair more

/-- The filter given by patterns that match whole lines, if all of them are patterns. -/
def ofPatterns? (patterns : List String) (skip : Bool) : Option LineFilter :=
  (patterns.mapM fun p => Pattern.ofText? ("^(?:" ++ p ++ ")$")).map fun ps =>
    { ranges := pair ps, skip }

end LineFilter

end HeaderPeers

/-!
# Locations

A line of a header, or of a text that belongs to no file.
-/

namespace HeaderPeers

/-- A position as reports give it: a file, if there is one, and a line counted from one. -/
structure Location where
  file : Option String := none
  line : Nat := 0
deriving DecidableEq, Repr, Inhabited

/-- The form `FILE:LINE`, with a marker in place of a missing file. -/
def Location.text (l : Location) : String :=
  l.file.getD "<fragment>" ++ ":" ++ toString l.line

end HeaderPeers

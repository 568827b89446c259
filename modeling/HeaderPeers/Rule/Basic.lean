/-!
# Rules

A rule says which native names it is for, how they are called on the target side, and what is
generated for them.
-/

namespace HeaderPeers

/-- What is known about some native names. A list that is absent says nothing, while an empty list
says that there is nothing: `annotations := some []` marks an attribute that leaves no trace, and
`nativeTypes := some []` a macro that is kept for expansion. -/
structure Rule where
  nativeNames : List String := []
  targetNames : Option (List String) := none
  annotations : Option (List String) := none
  nativeTypes : Option (List String) := none
  valueTypes : Option (List String) := none
  pointerTypes : Option (List String) := none
  /-- The native type needs an explicit cast. -/
  cast : Bool := false
  /-- The truth of a condition, or the wish for a container wrapper. -/
  define : Bool := false
  /-- A macro body becomes a target expression. -/
  translate : Bool := false
  skip : Bool := false
  /-- Members of this class are repeated in the classes derived from it. -/
  flatten : Bool := false
  /-- The class counts as abstract. -/
  purify : Bool := false
  /-- Virtual members get hooks that can be overridden. -/
  virtualize : Bool := false
  /-- Member variables have no setters. -/
  immutable : Bool := false
  /-- Accessors are named `getX` and `setX`. -/
  beanify : Bool := false
  /-- An enumeration becomes a class of values. -/
  enumerate : Bool := false
  /-- Members are never `static`. -/
  objectify : Bool := false
  base : Option String := none
  nativeText : Option String := none
  targetText : Option String := none
deriving DecidableEq, Repr, Inhabited

namespace Rule

/-- A rule for some names that says nothing yet. -/
def named (names : List String) : Rule :=
  { nativeNames := names }

/-- The name a rule goes by; empty for a rule without names. -/
def nativeName (r : Rule) : String :=
  r.nativeNames.headD ""

def targetName? (r : Rule) : Option String :=
  r.targetNames.bind (·.head?)

def nativeType? (r : Rule) : Option String :=
  r.nativeTypes.bind (·.head?)

def valueType? (r : Rule) : Option String :=
  r.valueTypes.bind (·.head?)

def pointerType? (r : Rule) : Option String :=
  r.pointerTypes.bind (·.head?)

/-- The annotations, each with a space behind it. -/
def annotationText (r : Rule) : String :=
  String.join ((r.annotations.getD []).map (· ++ " "))

/-- Whether declarations of the type are left out: it is skipped, and nothing maps it. -/
def skipsType (r : Rule) : Bool :=
  r.skip && r.valueTypes.isNone && r.pointerTypes.isNone

end Rule

end HeaderPeers

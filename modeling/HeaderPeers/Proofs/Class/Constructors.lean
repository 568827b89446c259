import HeaderPeers.Proofs.Class.Body
import HeaderPeers.Proofs.Overload
import HeaderPeers.Proofs.Progress.Looking

/-!
# Constructors of a peer class

A peer class is printed with the declared constructors that can be reached and with
constructors that are generated: one without parameters, one from a pointer and one
from a size. What is generated depends on the making of the class, which notes the
declared constructors that take nothing or a size, but not those that take a pointer.

- `Class.constructors_differ` — no two constructors take the same types, just if no
  declared one takes a pointer alone.
- `Class.pointer_clashes` — a class that declares one from a pointer has two.
-/

set_option mvcgen.warning false

namespace HeaderPeers

open ReadM

/-! ## Signatures of the members -/

/-- At most one declaration of each signature is printed in any scope. -/
@[reducible]
def Outline.distinct : StatementInvariant where
  holds _ s := s.outline.signatures.Nodup
  core _ outline _ := outline.signatures.Nodup
  place _ := True
  place_of_le _ _ := trivial
  moved hs _ := hs
  looked hs _ := hs
  warned hs := hs
  bared hs := hs
  covered _ hs' := hs'
  entered hs := hs
  left _ hs' := hs'
  reads _ := True
  anywhere _ := trivial
  learned hs := hs
  added hs := (add_evolves _ _ _).unique hs
  framed hs := hs
  emptied _ := List.nodup_nil
  restored hs _ := hs
  named hs := hs
  respaced hs := hs
  remembered hs _ _ _ _ := hs
  core_learned hs := hs
  core_added hs := (add_evolves _ _ _).unique hs
  core_framed hs := hs
  core_emptied _ := List.nodup_nil
  core_restored hs _ := hs

namespace Class

/-- The members of a class have different signatures. -/
theorem readInside_distinct {depth : Nat} {scope inner : Scope} {vars : List Declarator}
    {members : Outline} {s s' : Reading}
    (hrun : readInside (nestUpTo Statement.readAllWith depth) scope inner vars s =
      .ok members s') : members.signatures.Nodup := by
  let := Outline.distinct
  have hscope : ∀ scope, Keeps false (nestUpTo Statement.readAllWith depth scope) :=
    Statement.readAllUpTo_keeps (fun _ => trivial) depth
  obtain ⟨body, _, hcursor, hrun⟩ := bind_eq_ok hrun
  cases hcursor
  obtain ⟨⟨_, made⟩, s₁, hmade, hrun⟩ := bind_eq_ok hrun
  cases hrun
  rw [withOutline_eq] at hmade
  have hkept : Keeps false (if vars.isEmpty then nestUpTo Statement.readAllWith depth inner
      else vars.forM fun d => do
        moveTo s.window.index
        nestUpTo Statement.readAllWith depth { inner with member := some (memberOf scope d) }) := by
    mvcgen [moveTo_anywhere, hscope, -ReadM.moveTo_atIndex]
  have hdistinct := keeps_iff.mp hkept { s with outline := {} } List.nodup_nil
  split at hmade
  next hread =>
    cases hmade
    rwa [hread] at hdistinct
  · cases hmade

/-! ## Generated constructors -/

/-- A constructor that is generated. -/
inductive Generated where
  | plain
  | pointer
  | size
deriving DecidableEq, Repr

namespace Generated

/-- The target types of its parameters. -/
def types : Generated → List String
  | plain => []
  | pointer => ["Pointer"]
  | size => ["long"]

/-- How it is printed, with what goes with it. -/
def text (name : String) (isImplicit : Bool) : Generated → String
  | plain =>
    if isImplicit then "    public " ++ name ++ "() \x7b super((Pointer)null); allocate(); \x7d\n"
    else "    public " ++ name ++ "() \x7b super((Pointer)null); \x7d\n"
  | pointer =>
    if isImplicit then pointerText name ++ "    private native void allocate();\n"
    else pointerText name
  | size => arrayText name

end Generated

/-- The constructors that are generated for a class. -/
def Making.generated (m : Making) : List Generated :=
  if m.isImplicit then [.plain, .pointer, .size]
  else (if !m.hasDefault || m.isAbstract then [Generated.plain] else []) ++ [Generated.pointer] ++
    (if m.hasDefault && !m.isAbstract && !m.hasSize then [Generated.size] else [])

/-- These are the generated constructors that are printed. -/
theorem constructorsText_eq (name : String) (m : Making) :
    constructorsText name m =
      String.join (m.generated.map (Generated.text name m.isImplicit)) := by
  unfold constructorsText Making.generated
  cases himplicit : m.isImplicit
  · cases !m.hasDefault || m.isAbstract <;>
      cases m.hasDefault && !m.isAbstract && !m.hasSize <;>
      simp [Generated.text, String.join]
  · simp [Generated.text, String.join, String.append_assoc]

/-! ## Declared constructors -/

/-- The target types of the parameters of a function. -/
def parameterTypes (d : Declaration) : List String :=
  (((d.declarator.bind (·.parameters)).map (·.declarators)).getD []).map (·.type.targetName)

/-- Whether the member is a constructor that can be reached and takes these types. -/
def constructs (types : List String) (d : Declaration) : Bool :=
  d.isConstructor && !d.inaccessible && parameterTypes d == types

/-- The declared constructors that are printed. -/
def printedConstructors (m : Making) (members : List Declaration) : List Declaration :=
  members.filter fun d => d.isConstructor && !d.inaccessible && !m.isAbstract

/-- What the declared constructors take. -/
def declaredTypes (m : Making) (members : List Declaration) : List (List String) :=
  (printedConstructors m members).map parameterTypes

/-- What all constructors of the peer class take. -/
def constructorTypes (m : Making) (members : List Declaration) : List (List String) :=
  declaredTypes m members ++ m.generated.map Generated.types

namespace Making

theorem push_isImplicit (m : Making) (d : Declaration) :
    (m.push d).isImplicit = (m.isImplicit && !d.isConstructor && !d.abstractMember) := by
  unfold push
  cases d.isConstructor <;> cases d.abstractMember <;> simp

theorem push_hasDefault (m : Making) (d : Declaration) :
    (m.push d).hasDefault = (m.hasDefault || constructs [] d) := by
  unfold push constructs parameterTypes
  cases d.isConstructor <;> cases d.abstractMember <;> simp [Bool.and_comm]

theorem push_hasSize (m : Making) (d : Declaration) :
    (m.push d).hasSize = (m.hasSize || constructs ["long"] d) := by
  unfold push constructs parameterTypes
  generalize ((d.declarator.bind (·.parameters)).map (·.declarators)).getD [] = parameters
  cases d.isConstructor with
  | false => cases d.abstractMember <;> simp
  | true =>
      cases parameters with
      | nil => simp
      | cons p parameters => cases parameters <;> simp [Bool.and_comm]

/-- What each member adds to, the members taken together add to. -/
theorem foldl_push_any {f : Making → Bool} {p : Declaration → Bool}
    (h : ∀ m d, f (m.push d) = (f m || p d)) (members : List Declaration) :
    ∀ m : Making, f (members.foldl push m) = (f m || members.any p) := by
  induction members with
  | nil => simp
  | cons d members ih =>
      intro m
      rw [List.foldl_cons, ih, h, List.any_cons, Bool.or_assoc]

end Making

section
variable {members : List Declaration} {rule : Option Rule} {cOnly : Bool}

theorem makingOf_hasDefault :
    (makingOf members rule cOnly).hasDefault = members.any (constructs []) := by
  have hmembers := Making.foldl_push_any (f := (·.hasDefault)) Making.push_hasDefault members {}
  unfold makingOf
  cases rule.any (·.purify) <;> cases cOnly <;> simpa [Making.ofMembers] using hmembers

theorem makingOf_hasSize :
    (makingOf members rule cOnly).hasSize = members.any (constructs ["long"]) := by
  have hmembers := Making.foldl_push_any (f := (·.hasSize)) Making.push_hasSize members {}
  unfold makingOf
  cases rule.any (·.purify) <;> cases cOnly <;> simpa [Making.ofMembers] using hmembers

/-- Nothing is implicit where a constructor is declared. -/
theorem isConstructor_of_isImplicit (h : (makingOf members rule cOnly).isImplicit = true) :
    ∀ d ∈ members, d.isConstructor = false := by
  have himplicit : (members.foldl Making.push {}).isImplicit = true := by
    revert h
    unfold makingOf
    cases rule.any (·.purify) <;> cases cOnly <;> simp [Making.ofMembers]
  have hfold := Making.foldl_push_any (f := fun m => !m.isImplicit)
    (p := fun d => d.isConstructor || d.abstractMember)
    (fun m d => by simp [Making.push_isImplicit, Bool.or_assoc]) members {}
  rw [himplicit] at hfold
  intro d hd
  have hany := List.any_eq_false.mp hfold.symm d hd
  simp only [Bool.or_eq_true, not_or, Bool.not_eq_true] at hany
  exact hany.1

end

/-! ## Clashes -/

section
variable {m : Making} {members : List Declaration} {rule : Option Rule} {cOnly : Bool}

theorem mem_declaredTypes {types : List String} :
    types ∈ declaredTypes m members ↔
      m.isAbstract = false ∧ members.any (constructs types) = true := by
  simp only [declaredTypes, printedConstructors, List.mem_map, List.mem_filter, List.any_eq_true,
    constructs]
  cases m.isAbstract <;> simp [and_assoc]

theorem nodup_generated (m : Making) : (m.generated.map Generated.types).Nodup := by
  unfold Making.generated
  cases m.isImplicit <;> cases m.hasDefault <;> cases m.isAbstract <;> cases m.hasSize <;> decide

/-- The generated constructors but the one from a pointer differ from the declared ones. -/
theorem generated_differs {g : Generated} (hg : g ∈ (makingOf members rule cOnly).generated)
    (hne : g ≠ .pointer) : g.types ∉ declaredTypes (makingOf members rule cOnly) members := by
  rw [mem_declaredTypes]
  rintro ⟨habstract, hany⟩
  obtain ⟨d, hd, hconstructs⟩ := List.any_eq_true.mp hany
  have hexplicit : (makingOf members rule cOnly).isImplicit = false := by
    by_contra himplicit
    have hconstructor := isConstructor_of_isImplicit (Bool.eq_true_of_not_eq_false himplicit) d hd
    simp [constructs, hconstructor] at hconstructs
  simp only [Making.generated, hexplicit, habstract, makingOf_hasDefault, makingOf_hasSize] at hg
  cases g with
  | plain => simp_all [Generated.types]
  | pointer => exact hne rfl
  | size => simp_all [Generated.types]

/-- Constructors of one name and of different signatures take different types. -/
theorem nodup_declaredTypes {o : Outline} {name : String} (hname : name ≠ "")
    (hdistinct : o.signatures.Nodup)
    (hsigned : ∀ d ∈ printedConstructors m o.toList,
      d.signature = Overload.signature name (parameterTypes d)) :
    (declaredTypes m o.toList).Nodup := by
  have hsignatures : (printedConstructors m o.toList).map (·.signature) =
      (declaredTypes m o.toList).map (Overload.signature name) := by
    rw [declaredTypes, List.map_map]
    exact List.map_congr_left hsigned
  have hfull : ((declaredTypes m o.toList).map (Overload.signature name)).filter (· ≠ "") =
      (declaredTypes m o.toList).map (Overload.signature name) := by
    refine List.filter_eq_self.mpr fun signature hmem => ?_
    obtain ⟨types, -, rfl⟩ := List.mem_map.mp hmem
    simp [Overload.signature, String.append_eq_empty_iff, hname]
  refine List.Nodup.of_map (Overload.signature name) ?_
  rw [← hfull, ← hsignatures]
  exact hdistinct.sublist ((List.filter_sublist.map _).filter _)

theorem nodup_constructorTypes_iff {o : Outline} {name : String} (hname : name ≠ "")
    (hdistinct : o.signatures.Nodup)
    (hsigned : ∀ d ∈ printedConstructors (makingOf o.toList rule cOnly) o.toList,
      d.signature = Overload.signature name (parameterTypes d)) :
    (constructorTypes (makingOf o.toList rule cOnly) o.toList).Nodup ↔
      ["Pointer"] ∉ declaredTypes (makingOf o.toList rule cOnly) o.toList := by
  have hdeclared := nodup_declaredTypes hname hdistinct hsigned
  have hpointer : Generated.pointer ∈ (makingOf o.toList rule cOnly).generated := by
    unfold Making.generated
    split <;> simp
  rw [constructorTypes, List.nodup_append']
  constructor
  · rintro ⟨-, -, hdisjoint⟩ hmem
    exact hdisjoint hmem (List.mem_map.mpr ⟨.pointer, hpointer, rfl⟩)
  · refine fun hfree => ⟨hdeclared, nodup_generated _, fun types htypes hmem => ?_⟩
    obtain ⟨g, hg, rfl⟩ := List.mem_map.mp hmem
    by_cases hgenerated : g = .pointer
    · subst hgenerated
      exact hfree htypes
    · exact generated_differs hg hgenerated htypes

end

/-- **Constructors differ.** The body of a class that has been read is printed with the generated
constructors and its members. If the declared constructors have signatures of one name, then no two
constructors take the same types, just if no declared one takes a pointer alone. -/
theorem constructors_differ (depth : Nat) :
    (∀ (c : Body) s s' b, c.read (nestUpTo Statement.readAllWith depth) s = .ok b s' →
      Nonempty (c.Run (nestUpTo Statement.readAllWith depth) s s')) ∧
    (∀ name m, constructorsText name m =
      String.join (m.generated.map (Generated.text name m.isImplicit))) ∧
    ∀ scope inner vars members s s',
      readInside (nestUpTo Statement.readAllWith depth) scope inner vars s = .ok members s' →
      ∀ rule cOnly name, name ≠ "" →
        (∀ d ∈ printedConstructors (makingOf members.toList rule cOnly) members.toList,
          d.signature = Overload.signature name (parameterTypes d)) →
        ((constructorTypes (makingOf members.toList rule cOnly) members.toList).Nodup ↔
          ["Pointer"] ∉ declaredTypes (makingOf members.toList rule cOnly) members.toList) :=
  ⟨fun _ _ _ _ => Body.exists_run, constructorsText_eq,
    fun _ _ _ _ _ _ hrun _ _ _ hname hsigned =>
      nodup_constructorTypes_iff hname (readInside_distinct hrun) hsigned⟩

/-! ## A class with one constructor -/

/-- Inside the body of a class `S`, with a rule for pointers to anything. -/
def insideReading (text : String) : Reading :=
  .ofTokens (RuleTable.put {} { nativeNames := ["void"], valueTypes := some ["void"]
                                pointerTypes := some ["Pointer"] }) (Token.ofText none text)

/-- Reads the members of the class. -/
def readSample : ReadM Outline :=
  readInside (nestUpTo Statement.readAllWith 1) {} { path := some "S", group := some (.named "S") }
    []

theorem constructors_differ_sample :
    let members := (given readSample (insideReading "S(); \x7d")).toList
    readSample (insideReading "S(); \x7d") = .ok (given readSample (insideReading "S(); \x7d"))
      (behind readSample (insideReading "S(); \x7d")) ∧ "S" ≠ "" ∧
    (∀ d ∈ printedConstructors (makingOf members none false) members,
      d.signature = Overload.signature "S" (parameterTypes d)) ∧
    ["Pointer"] ∉ declaredTypes (makingOf members none false) members ∧
    (constructorTypes (makingOf members none false) members).Nodup := by
  obtain ⟨hgives, hsigned, hfree⟩ : gives readSample (insideReading "S(); \x7d") = true ∧
      (∀ d ∈ printedConstructors (makingOf
          (given readSample (insideReading "S(); \x7d")).toList none false)
          (given readSample (insideReading "S(); \x7d")).toList,
        d.signature = Overload.signature "S" (parameterTypes d)) ∧
      ["Pointer"] ∉ declaredTypes (makingOf
        (given readSample (insideReading "S(); \x7d")).toList none false)
        (given readSample (insideReading "S(); \x7d")).toList := by
    decide +kernel
  have hrun : readSample (insideReading "S(); \x7d") = _ := eq_ok_of_gives hgives
  exact ⟨hrun, by decide, hsigned, hfree, ((constructors_differ 1).2.2 {} _ [] _ _ _ hrun none
    false "S" (by decide) hsigned).mpr hfree⟩

/-- **A pointer clashes.** A constructor that takes a pointer to anything is declared, and another
one from a pointer is generated. -/
theorem pointer_clashes :
    (match readSample (insideReading "S(void *p); \x7d") with
      | .ok members _ =>
        constructorTypes (makingOf members.toList none false) members.toList
      | .error _ _ => []) = [["Pointer"], [], ["Pointer"]] := by
  decide +kernel

end Class

end HeaderPeers

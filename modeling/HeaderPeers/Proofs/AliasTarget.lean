import HeaderPeers.Alias
import HeaderPeers.Proofs.NameRules
import HeaderPeers.Proofs.Reading
import HeaderPeers.Rule.Builtin
import HeaderPeers.Statement

/-!
# What an alias is mapped to

The name that a typedef declares gets a rule that is patched together from the
rule for the type and the number of stars. What a declarator of that name is
mapped to is compared with what the type and its stars are mapped to.

- `Draft.readMapping_eq_ok` — what a rule makes of the target type of a
  declarator.
- `Alias.aliasRule_types` — the types of the rule for another name.
- `Alias.target_eq_iff` — when both are mapped to the same type.
- `Alias.pointer_alias_is_value` — a pointer whose other name is a value.
-/

namespace HeaderPeers

/-! ## Names without a dot -/

theorem Scope.commonDots_eq_zero (n : Nat) {cs : List Char} (h : '.' ∉ cs) (ds : List Char) :
    commonDots n cs ds = 0 := by
  induction cs generalizing n ds with
  | nil => simp [commonDots]
  | cons c cs ih =>
      cases ds with
      | nil => simp [commonDots]
      | cons d ds =>
          obtain ⟨hc, hcs⟩ := List.ne_and_not_mem_of_not_mem_cons h
          rw [commonDots, ih _ hcs]
          simp [Ne.symm hc]

/-- A name without a dot is not shortened anywhere. -/
theorem Scope.shorten_of_undotted (scope : Scope) {name : String} (h : '.' ∉ name.toList) :
    scope.shorten name = name := by
  unfold shorten
  split
  · rfl
  · simp [commonDots_eq_zero 0 h]

namespace Draft

variable {d : Draft} {scope : Scope} {rule : Rule}

/-- The target type that a rule gives a declarator, with the first of several
names for it. -/
def targetBy (d : Draft) (scope : Scope) (rule : Rule) : String :=
  let mapped := d.mapBy scope rule 0 false
  (mapped.1.annotateShape mapped.2 0).type.targetName

/-- The first of these names. -/
def firstName (names : Option (List String)) (other : String) : String :=
  (names.getD []).headD other

/-- Whether a rule takes a declarator with this many stars for a value. -/
def asValue (rule : Rule) (stars : Nat) : Bool :=
  rule.valueTypes.isSome && (stars == 0 || rule.pointerTypes.isNone)

theorem annotateConst_targetName (m : Mapping) :
    (d.annotateConst m).type.targetName = d.type.targetName := by
  unfold annotateConst
  split <;> rfl

theorem annotateCast_targetName (m : Mapping) :
    (d.annotateCast m).type.targetName = d.type.targetName := by
  unfold annotateCast
  dsimp only
  split
  · rfl
  · split <;> rfl

/-- Beyond two stars nothing but `PointerPointer` is left of a type that is no
value. -/
theorem annotateShape_targetName (m : Mapping) (hreference : d.declarator.reference = false) :
    (d.annotateShape m 0).type.targetName =
      if !m.isValue && 3 ≤ d.declarator.indirections then "PointerPointer"
      else d.type.targetName := by
  unfold annotateShape
  cases hvalue : m.isValue with
  | true => simp [annotateCast_targetName]
  | false =>
      simp only [Bool.false_eq_true, if_false, annotateCast_targetName, annotateConst_targetName]
      unfold annotatePassing
      match hstars : d.declarator.indirections with
      | 0 => simp [hstars, hreference, annotate, type]
      | 1 => simp [hreference]
      | 2 => simp [hstars, hreference, annotate, type]
      | n + 3 => simp [hstars, hreference, type]

theorem mapBy_eq (hreference : d.declarator.reference = false) :
    (d.mapBy scope rule 0 false).1.type.targetName = scope.shorten
        (firstName (if asValue rule d.declarator.indirections then rule.valueTypes
          else rule.pointerTypes) d.type.targetName) ∧
      (d.mapBy scope rule 0 false).1.declarator.indirections = d.declarator.indirections ∧
      (d.mapBy scope rule 0 false).1.declarator.reference = false ∧
      (d.mapBy scope rule 0 false).2.isValue = asValue rule d.declarator.indirections := by
  have hvalue : (rule.valueTypes.isSome && ((d.type.constValue && d.declarator.reference)
      || (d.declarator.indirections == 0 && !d.declarator.reference)
      || rule.pointerTypes.isNone)) = asValue rule d.declarator.indirections := by
    simp [asValue, hreference]
  unfold mapBy
  simp only [hvalue]
  generalize (if asValue rule d.declarator.indirections = true then rule.valueTypes
    else rule.pointerTypes) = names
  unfold firstName
  cases names.getD [] with
  | nil => exact ⟨rfl, rfl, hreference, trivial⟩
  | cons first more => exact ⟨by simp [type], rfl, hreference, trivial⟩

theorem targetBy_eq (hreference : d.declarator.reference = false) :
    d.targetBy scope rule =
      if !asValue rule d.declarator.indirections && 3 ≤ d.declarator.indirections then
        "PointerPointer"
      else scope.shorten
        (firstName (if asValue rule d.declarator.indirections then rule.valueTypes
          else rule.pointerTypes) d.type.targetName) := by
  obtain ⟨htarget, hstars, href, hvalue⟩ := mapBy_eq hreference
  rw [targetBy, annotateShape_targetName _ href, hstars, hvalue, htarget]

/-! ## Reading what a type is mapped to -/

/-- A declarator of a type as far as its mapping is concerned: without reference,
dimensions and definition. -/
structure Bare (d : Draft) (name : String) (stars : Nat) : Prop where
  name : d.type.nativeName = name
  stars : d.declarator.indirections = stars
  reference : d.declarator.reference = false
  dims : d.declarator.dims = []
  definition : d.declarator.definition = none

/-- Annotations and target names make no difference to it. -/
theorem Bare.annotateShape {name : String} {stars : Nat} (h : d.Bare name stars) (m : Mapping) :
    (d.annotateShape m 0).Bare name stars := by
  have hconst : ∀ {d : Draft} (m : Mapping), d.Bare name stars →
      (d.annotateConst m).Bare name stars := by
    intro d m h
    unfold annotateConst
    split <;> exact ⟨h.name, h.stars, h.reference, h.dims, h.definition⟩
  have hcast : ∀ {d : Draft} (m : Mapping), d.Bare name stars →
      (d.annotateCast m).Bare name stars := by
    intro d m h
    unfold annotateCast
    dsimp only
    split
    · exact h
    · split <;> exact ⟨h.name, h.stars, h.reference, h.dims, h.definition⟩
  have hpassing : (d.annotatePassing m 0).1.Bare name stars := by
    unfold annotatePassing
    simp only [h.reference, Bool.not_false, Bool.and_true, Bool.and_false, Bool.false_eq_true,
      if_false]
    split
    · exact ⟨h.name, h.stars, h.reference, h.dims, h.definition⟩
    · split
      · exact ⟨h.name, h.stars, h.reference, h.dims, h.definition⟩
      · split
        · exact ⟨h.name, h.stars, rfl, h.dims, h.definition⟩
        · exact h
  unfold Draft.annotateShape
  split
  · exact hcast m h
  · exact hcast _ (hconst _ hpassing)

theorem Bare.mapBy {name : String} {stars : Nat} (h : d.Bare name stars) :
    (d.mapBy scope rule 0 false).1.Bare name stars := by
  unfold Draft.mapBy
  dsimp only
  split <;> exact ⟨h.name, h.stars, h.reference, h.dims, h.definition⟩

/-- Whether the text of a type names an adapter. -/
def adapts (text : String) (scope : Scope) (s : Reading) : Bool :=
  match ReadM.fragment text (NativeType.read scope) s with
  | .ok adapter s' => (adapter.bind (adapterRule? s'.table)).isSome
  | .error _ _ => false

theorem findRule_eq_ok {isTypedef : Bool} {s s' : Reading} {found : Draft × Option Rule}
    (hrule : s.table.findWith? d.lookupName false = some rule)
    (hadapt : isTypedef = true ∨ rule.nativeTypes.getD [] = [] ∨
      ∃ text, rule.nativeTypes = some [text] ∧ adapts text scope s = false)
    (h : d.findRule scope isTypedef s = .ok found s') :
    found = (d, some rule) ∧ (isTypedef = true → s' = s) := by
  obtain ⟨t, s₁, htable, h⟩ := ReadM.bind_eq_ok h
  cases htable
  rw [hrule] at h
  cases hmay : !isTypedef && (some rule).all fun r => (r.nativeTypes.getD []) != [] with
  | true =>
    simp only [hmay, Bool.not_true, Bool.false_eq_true, if_false] at h
    obtain ⟨text, htext, hnone⟩ : ∃ text, rule.nativeTypes = some [text] ∧
        adapts text scope s = false := by
      rcases hadapt with rfl | hempty | hadapt
      · simp at hmay
      · simp [hempty] at hmay
      · exact hadapt
    have hfirst : (some rule).bind (·.nativeType?) = some text := by simp [Rule.nativeType?, htext]
    rw [hfirst] at h
    obtain ⟨adapter, s₁, hadapter, h⟩ := ReadM.bind_eq_ok h
    obtain ⟨t, s₂, htable, h⟩ := ReadM.bind_eq_ok h
    cases htable
    have hplain : adapter.bind (adapterRule? s₁.table) = none := by
      simpa [adapts, hadapter] using hnone
    rw [hplain] at h
    cases h
    exact ⟨rfl, by rintro rfl; simp at hmay⟩
  | false =>
    simp only [hmay, Bool.not_false, if_true] at h
    cases h
    exact ⟨rfl, fun _ => rfl⟩

/-- A declarator that is no adapter is mapped by its rule. -/
theorem readMapping_eq_ok {request : DeclaratorRequest} {isTypedef : Bool} {name : String}
    {stars : Nat} {s s' : Reading} {d' : Draft} (hbare : d.Bare name stars)
    (hchoice : request.choice = 0)
    (hrule : s.table.findWith? d.lookupName false = some rule)
    (hadapt : isTypedef = true ∨ rule.nativeTypes.getD [] = [] ∨
      ∃ text, rule.nativeTypes = some [text] ∧ adapts text request.scope s = false)
    (h : d.readMapping request isTypedef false s = .ok d' s') :
    d'.type.targetName = d.targetBy request.scope rule ∧ d'.Bare name stars ∧
      (isTypedef = true → s' = s) := by
  obtain ⟨found, s₁, hfound, h⟩ := ReadM.bind_eq_ok h
  obtain ⟨rfl, hstate⟩ := findRule_eq_ok hrule hadapt hfound
  have hcast : (request.view == .asPointer && decide (d.declarator.dims.length > 1)) = false := by
    simp [hbare.dims]
  simp only [hcast, hchoice, Bool.false_eq_true, if_false] at h
  cases h
  exact ⟨rfl, hbare.mapBy.annotateShape _, hstate⟩

end Draft

/-! ## The rule for another name -/

/-- A name of one word that means the same in every scope. -/
def IsFlat (name : String) : Prop :=
  '.' ∉ name.toList ∧ Text.lastWord name = name

instance : DecidablePred IsFlat := fun _ => inferInstanceAs (Decidable (_ ∧ _))

open Draft (firstName asValue)

/-- What holds of the rule for a type and the rule for the type with or without
`const` in front: they are for the same shapes, and their names say which. -/
structure Rule.Agree (known shaped : Rule) : Prop where
  plain : known.nativeTypes = none ∧ shaped.nativeTypes = none
  value : shaped.valueTypes = known.valueTypes
  pointer : shaped.pointerTypes.isNone = known.pointerTypes.isNone
  same : known.valueTypes = none → shaped.pointerTypes = known.pointerTypes
  filled : known.valueTypes ≠ some [] ∧ shaped.pointerTypes ≠ some []
  undotted : '.' ∉ (firstName known.valueTypes "").toList ∧
    '.' ∉ (firstName shaped.pointerTypes "").toList
  flat : known.valueTypes = none → IsFlat (firstName known.pointerTypes "")
  apart : known.valueTypes.isSome → shaped.pointerTypes.isSome →
    firstName known.valueTypes "" ≠ firstName shaped.pointerTypes "" ∧
      firstName known.valueTypes "" ≠ "PointerPointer"

instance : Inhabited Draft := ⟨⟨{}, ""⟩⟩

instance (known shaped : Rule) : Decidable (known.Agree shaped) :=
  decidable_of_iff
    ((known.nativeTypes = none ∧ shaped.nativeTypes = none) ∧
      shaped.valueTypes = known.valueTypes ∧
      shaped.pointerTypes.isNone = known.pointerTypes.isNone ∧
      (known.valueTypes = none → shaped.pointerTypes = known.pointerTypes) ∧
      (known.valueTypes ≠ some [] ∧ shaped.pointerTypes ≠ some []) ∧
      ('.' ∉ (firstName known.valueTypes "").toList ∧
        '.' ∉ (firstName shaped.pointerTypes "").toList) ∧
      (known.valueTypes = none → IsFlat (firstName known.pointerTypes "")) ∧
      (known.valueTypes.isSome → shaped.pointerTypes.isSome →
        firstName known.valueTypes "" ≠ firstName shaped.pointerTypes "" ∧
          firstName known.valueTypes "" ≠ "PointerPointer"))
    ⟨fun ⟨plain, value, pointer, same, filled, undotted, flat, apart⟩ =>
      ⟨plain, value, pointer, same, filled, undotted, flat, apart⟩,
    fun h => ⟨h.plain, h.value, h.pointer, h.same, h.filled, h.undotted, h.flat, h.apart⟩⟩

/-- The built-in rules for a type other than `void` agree. -/
theorem Rule.agree_of_mem_typeRules : ∀ known ∈ typeRules, known.skip = false →
    ∀ type ∈ known.nativeNames, type ≠ "void" → ∀ shaped ∈ typeRules,
      (type ∈ shaped.nativeNames ∨ "const " ++ type ∈ shaped.nativeNames) →
        known.Agree shaped := by
  decide +kernel

/-- Where there is a name, nothing else is asked for. -/
theorem Draft.firstName_eq {names : Option (List String)} (h : names.isSome = true)
    (hfilled : names ≠ some []) (other other' : String) :
    firstName names other = firstName names other' := by
  obtain ⟨list, rfl⟩ := Option.isSome_iff_exists.mp h
  cases list with
  | nil => exact absurd rfl hfilled
  | cons first more => rfl

theorem Draft.firstName_idem (names : Option (List String)) (other : String) :
    firstName names (firstName names other) = firstName names other := by
  unfold firstName
  cases names.getD [] <;> rfl

namespace Alias

variable {known shaped : Rule} {name : String} {d : Declarator}

theorem aliasRule_nativeNames : (aliasRule (some known) name d).nativeNames = [name] := by
  unfold aliasRule
  dsimp only
  split <;> split <;> rfl

theorem aliasRule_nativeTypes (h : known.nativeTypes = none) (name : String) (d : Declarator) :
    (aliasRule (some known) name d).nativeTypes = some [d.type.nativeName] := by
  unfold aliasRule
  simp only [Option.getD_some, h, Option.orElse_none]
  split <;> split <;> rfl

/-- The types of the rule are kept, unless there is none for values and the name
stands for a pointer. -/
theorem aliasRule_types (known : Rule) (name : String) (d : Declarator) :
    (aliasRule (some known) name d).valueTypes =
        (if known.valueTypes.isNone && d.indirections > 0 then
          some [Text.lastWord d.type.targetName] else known.valueTypes) ∧
      (aliasRule (some known) name d).pointerTypes =
        (if known.valueTypes.isNone && d.indirections > 0 then some ["PointerPointer"]
        else known.pointerTypes.orElse fun _ => some [Text.lastWord d.type.targetName]) := by
  unfold aliasRule
  simp only [Option.getD_some]
  by_cases h : (known.valueTypes.isNone && decide (d.indirections > 0)) = true
  · simp only [h, if_true]
    cases known.annotations <;> exact ⟨rfl, rfl⟩
  · simp only [h]
    cases known.annotations <;> exact ⟨rfl, rfl⟩

/-- Declaring another name for a type learns one rule. -/
theorem declare_eq_ok {scope : Scope} {s s' : Reading} {printed : Declaration}
    (hscope : scope.path = none) (hdefinition : d.definition = none)
    (hvoid : d.type.nativeName ≠ "void") (hknown : s.table.find? d.type.nativeName = some known)
    (hskip : known.skip = false) (h : declare scope d s = .ok printed s') :
    s'.table = s.table.put (aliasRule (some known) d.nativeName d) := by
  simp only [declare, hscope, hdefinition, beq_eq_false_iff_ne.mpr hvoid, Bool.false_eq_true,
    if_false] at h
  obtain ⟨rule, s₁, hrule, h⟩ := ReadM.bind_eq_ok h
  cases hrule
  simp only [hknown, Option.any_some, hskip, Bool.not_false, if_true] at h
  cases h
  rfl

/-- What the name itself is mapped to by the rule that was made for it. -/
theorem targetBy_aliasRule {use : Draft} {scope : Scope} (huse : use.Bare name 0)
    (hvalues : known.valueTypes ≠ some [])
    (hpointers : known.valueTypes = none → known.pointerTypes ≠ some []) :
    use.targetBy scope (aliasRule (some known) name d) = scope.shorten
      (if known.valueTypes.isSome then firstName known.valueTypes ""
        else if d.indirections > 0 then Text.lastWord d.type.targetName
        else firstName known.pointerTypes (Text.lastWord d.type.targetName)) := by
  obtain ⟨hvalue, hpointer⟩ := aliasRule_types known name d
  rw [Draft.targetBy_eq huse.reference, huse.stars]
  cases hknown : known.valueTypes with
  | some values =>
    have hkept : (aliasRule (some known) name d).valueTypes = some values := by
      simpa [hknown] using hvalue
    simp only [asValue, hkept]
    have hfilled : some values ≠ some [] := hknown ▸ hvalues
    exact congrArg scope.shorten (Draft.firstName_eq rfl hfilled _ _)
  | none =>
    by_cases hstars : d.indirections > 0
    · have hmade : (aliasRule (some known) name d).valueTypes =
          some [Text.lastWord d.type.targetName] := by
        simpa [hknown, hstars] using hvalue
      simp [asValue, hmade, hstars, firstName]
    · have hnone : (aliasRule (some known) name d).valueTypes = none := by
        simpa [hknown, hstars] using hvalue
      have hkept : (aliasRule (some known) name d).pointerTypes =
          known.pointerTypes.orElse fun _ => some [Text.lastWord d.type.targetName] := by
        simpa [hknown, hstars] using hpointer
      simp only [asValue, hnone, hkept, hstars, if_false]
      cases htypes : known.pointerTypes with
      | none => rfl
      | some types =>
        have hfilled : some types ≠ some [] := htypes ▸ hpointers hknown
        exact congrArg scope.shorten (Draft.firstName_eq rfl hfilled _ _)

/-- A type without names for values is mapped to a name of one word. -/
theorem targetBy_of_no_value {shaped : Rule} {aliased : Draft} (scope : Scope)
    (hagree : known.Agree shaped) (hreference : aliased.declarator.reference = false)
    (hvalue : known.valueTypes = none)
    (hown : known.pointerTypes = none → IsFlat aliased.type.targetName) :
    IsFlat (aliased.targetBy scope shaped) ∧
      aliased.targetBy scope shaped = if 3 ≤ aliased.declarator.indirections then "PointerPointer"
        else firstName known.pointerTypes aliased.type.targetName := by
  have hflat : IsFlat (firstName known.pointerTypes aliased.type.targetName) := by
    cases htypes : known.pointerTypes with
    | none => exact hown htypes
    | some types =>
      have hfilled : known.pointerTypes ≠ some [] := hagree.same hvalue ▸ hagree.filled.2
      rw [← htypes, Draft.firstName_eq (by simp [htypes]) hfilled _ ""]
      exact hagree.flat hvalue
  have htarget : aliased.targetBy scope shaped =
      if 3 ≤ aliased.declarator.indirections then "PointerPointer"
        else firstName known.pointerTypes aliased.type.targetName := by
    rw [Draft.targetBy_eq hreference, ← hagree.same hvalue]
    simp [asValue, hagree.value, hvalue, hagree.same hvalue, scope.shorten_of_undotted hflat.1]
  refine ⟨?_, htarget⟩
  rw [htarget]
  split
  · decide
  · exact hflat

/-- The names compared, with what the rules say. -/
theorem targetBy_eq_iff {shaped : Rule} {aliased use : Draft} {scope scope' : Scope}
    (hagree : known.Agree shaped) (hreference : aliased.declarator.reference = false)
    (hown : known.valueTypes = none → known.pointerTypes = none →
      IsFlat aliased.type.targetName)
    (huse : use.Bare name 0) (htarget : d.type.targetName = aliased.targetBy scope' shaped)
    (hstars : d.indirections = aliased.declarator.indirections) :
    use.targetBy scope (aliasRule (some known) name d) = aliased.targetBy scope shaped ↔
      d.indirections = 0 ∨ known.valueTypes = none ∨ known.pointerTypes = none := by
  have hpointers : known.valueTypes = none → known.pointerTypes ≠ some [] := fun hnone =>
    hagree.same hnone ▸ hagree.filled.2
  rw [targetBy_aliasRule huse hagree.filled.1 hpointers]
  cases hvalue : known.valueTypes with
  | none =>
    obtain ⟨⟨hundotted, hword⟩, htypedef⟩ :=
      targetBy_of_no_value scope' hagree hreference hvalue (hown hvalue)
    obtain ⟨⟨hundotted', -⟩, hdirect⟩ :=
      targetBy_of_no_value scope hagree hreference hvalue (hown hvalue)
    have hsame : aliased.targetBy scope shaped = aliased.targetBy scope' shaped :=
      hdirect.trans htypedef.symm
    refine iff_of_true ?_ (.inr (.inl rfl))
    rw [htarget, hword, hsame]
    have hkept : ¬ d.indirections > 0 →
        firstName known.pointerTypes (aliased.targetBy scope' shaped) =
          aliased.targetBy scope' shaped := by
      intro hpos
      rw [htypedef, if_neg (by omega), Draft.firstName_idem]
    by_cases hpos : d.indirections > 0
    · simp [hpos, scope.shorten_of_undotted hundotted]
    · simp [hpos, hkept hpos, scope.shorten_of_undotted hundotted]
  | some values =>
    obtain ⟨hundotted, hundotted'⟩ := hagree.undotted
    have hisSome : known.valueTypes.isSome = true := by simp [hvalue]
    rw [← hvalue, if_pos hisSome, scope.shorten_of_undotted hundotted,
      Draft.targetBy_eq hreference, ← hstars]
    by_cases hasValue : asValue shaped d.indirections = true
    · have hfirst : firstName shaped.valueTypes aliased.type.targetName =
          firstName known.valueTypes "" :=
        hagree.value ▸ Draft.firstName_eq hisSome hagree.filled.1 _ _
      have hshape : d.indirections = 0 ∨ known.pointerTypes = none := by
        simpa [asValue, hagree.value, hisSome, hagree.pointer] using hasValue
      simp only [hasValue, if_true, hfirst, scope.shorten_of_undotted hundotted]
      simpa [hvalue] using hshape
    · obtain ⟨hzero, hsome⟩ : d.indirections ≠ 0 ∧ known.pointerTypes ≠ none := by
        simpa [asValue, hagree.value, hisSome, hagree.pointer] using hasValue
      have hisSome' : shaped.pointerTypes.isSome = true := by
        have hpointer := hagree.pointer
        cases hshaped : shaped.pointerTypes <;> simp_all
      obtain ⟨hname, hmany⟩ := hagree.apart hisSome hisSome'
      have hfirst : firstName shaped.pointerTypes aliased.type.targetName =
          firstName shaped.pointerTypes "" :=
        Draft.firstName_eq hisSome' hagree.filled.2 _ _
      refine iff_of_false ?_ (by simp [hzero, hvalue, hsome])
      simp only [hasValue, Bool.false_eq_true, if_false, hfirst,
        scope.shorten_of_undotted hundotted']
      by_cases hthree : 3 ≤ d.indirections
      · simpa [hthree] using hmany
      · simpa [hthree] using hname

/-- **Another name for a type.** Let a type other than `void` have its built-in
rules. A name that a typedef gives to the type with some stars is mapped to what
the type and its stars are mapped to exactly if the name stands for no pointer or
the type has only names for values or only names for pointers: a type that has
both is taken for a value, however many stars the name stands for. -/
theorem target_eq_iff {shaped : Rule} {type : String} {stars : Nat}
    {typedefRequest request : DeclaratorRequest} {aliased use aliased' direct use' : Draft}
    {s s₁ s₂ later later₁ later₂ : Reading} {printed : Declaration}
    (hknown : known ∈ Rule.typeRules) (hskip : known.skip = false)
    (htype : type ∈ known.nativeNames) (hvoid : type ≠ "void") (hshaped : shaped ∈ Rule.typeRules)
    (hnamed : type ∈ shaped.nativeNames ∨ "const " ++ type ∈ shaped.nativeNames)
    (haliased : aliased.Bare type stars)
    (hown : known.valueTypes = none → known.pointerTypes = none →
      IsFlat aliased.type.targetName)
    (hrule : s.table.find? type = some known)
    (hshape : s.table.findWith? aliased.lookupName false = some shaped)
    (hsound : ∀ layer ∈ s.table.layers, layer.Sound) (hname : Text.isWord name.toList = true)
    (hnew : s.table.rules name = []) (htop : typedefRequest.scope.path = none)
    (hfirst : typedefRequest.choice = 0 ∧ request.choice = 0)
    (htypedef : aliased.readMapping typedefRequest true false s = .ok aliased' s₁)
    (hd : d.nativeName = name ∧ d.definition = none ∧ d.type.nativeName = type ∧
      d.type.targetName = aliased'.type.targetName ∧ d.indirections = stars)
    (hdeclare : declare typedefRequest.scope d s₁ = .ok printed s₂)
    (hlater : later.table = s₂.table)
    (hshape' : later.table.findWith? aliased.lookupName false = some shaped)
    (hdirect : aliased.readMapping request false false later = .ok direct later₁)
    (huse : use.Bare name 0) (hlookup : use.lookupName = name)
    (hadapt : Draft.adapts type request.scope later = false)
    (hread : use.readMapping request false false later = .ok use' later₂) :
    use'.type.targetName = direct.type.targetName ↔
      stars = 0 ∨ known.valueTypes = none ∨ known.pointerTypes = none := by
  obtain ⟨rfl, hdefinition, rfl, htarget, rfl⟩ := hd
  have hagree := Rule.agree_of_mem_typeRules known hknown hskip _ htype hvoid shaped hshaped hnamed
  obtain ⟨haliasedTarget, -, hstate⟩ :=
    Draft.readMapping_eq_ok haliased hfirst.1 hshape (.inl rfl) htypedef
  obtain rfl := hstate rfl
  have htable := declare_eq_ok htop hdefinition hvoid hrule hskip hdeclare
  -- the new rule is the only one for the name
  have hstack : later.table.Stacks d.nativeName [aliasRule (some known) d.nativeName d] := by
    rw [hlater, htable]
    exact (RuleTable.stacks_nil hsound hname hnew).learn_nil aliasRule_nativeNames
  have hfound : later.table.findWith? use.lookupName false =
      some (aliasRule (some known) d.nativeName d) := by
    rw [hlookup, hstack.findWith?_eq hname, List.head?_cons]
  have hnative := aliasRule_nativeTypes hagree.plain.1 d.nativeName d
  obtain ⟨huseTarget, -⟩ := Draft.readMapping_eq_ok huse hfirst.2 hfound
    (.inr (.inr ⟨_, hnative, hadapt⟩)) hread
  have hplain : shaped.nativeTypes.getD [] = [] := by rw [hagree.plain.2]; rfl
  obtain ⟨hdirectTarget, -⟩ :=
    Draft.readMapping_eq_ok haliased hfirst.2 hshape' (.inr (.inl hplain)) hdirect
  rw [huseTarget, hdirectTarget]
  exact targetBy_eq_iff hagree haliased.reference hown huse (htarget.trans haliasedTarget)
    haliased.stars.symm

/-- The built-in rule for `int`, alone. -/
def intTable : RuleTable :=
  (Rule.typeRules.filter (·.nativeNames.contains "int")).foldl RuleTable.put {}

/-- A name for a pointer to `int` is mapped to another type than the pointer. -/
theorem target_eq_iff_pointer :
    ∃ (aliased aliased' use use' direct : Draft) (s s₁ s₂ s₃ : Reading),
      aliased.Bare "int" 1 ∧ use.Bare "P" 0 ∧
      aliased.readMapping { scope := {}, view := .asPointer } true false
        (Reading.ofTokens intTable []) = .ok aliased' s ∧
      (∃ printed, declare {} { aliased'.declarator with nativeName := "P" } s =
        .ok printed s₁) ∧
      use.readMapping { scope := {} } false false s₁ = .ok use' s₂ ∧
      aliased.readMapping { scope := {} } false false s₁ = .ok direct s₃ ∧
      use'.type.targetName ≠ direct.type.targetName := by
  let start := Reading.ofTokens intTable []
  let aliased := Draft.ofType
    { nativeName := "int", targetName := "int", indirections := 1 } true
  let use := Draft.ofType { nativeName := "P", targetName := "P" } true
  let typedefStep := aliased.readMapping { scope := {}, view := .asPointer } true false
  let aliasedStep := aliased.readMapping { scope := {} } false false
  let useStep := use.readMapping { scope := {} } false false
  let d := { (typedefStep.given start).declarator with nativeName := "P" }
  let declared := (declare {} d).behind (typedefStep.behind start)
  have hsound : intTable.Reachable := RuleTable.Reachable.empty.foldl_put _
  have haliased : aliased.Bare "int" 1 := ⟨rfl, rfl, rfl, rfl, rfl⟩
  have huse : use.Bare "P" 0 := ⟨rfl, rfl, rfl, rfl, rfl⟩
  obtain ⟨rule, hrule, hshape, hshape', hknown, hint, hskip, hboth, hfresh, hadapt, hgives⟩ :
      ∃ rule, start.table.find? "int" = some rule ∧
        start.table.findWith? aliased.lookupName false = some rule ∧
        declared.table.findWith? aliased.lookupName false = some rule ∧
        rule ∈ Rule.typeRules ∧ "int" ∈ rule.nativeNames ∧ rule.skip = false ∧
        ¬(1 = 0 ∨ rule.valueTypes = none ∨ rule.pointerTypes = none) ∧
        start.table.rules "P" = [] ∧ Draft.adapts "int" {} declared = false ∧
        typedefStep.gives start = true ∧
        ReadM.gives (declare {} d) (typedefStep.behind start) = true ∧
        useStep.gives declared = true ∧ aliasedStep.gives declared = true :=
    ⟨Rule.typeRules.getD 7 {}, by decide +kernel⟩
  have htypedef := ReadM.eq_ok_of_gives hgives.1
  obtain ⟨-, hbare, -⟩ := Draft.readMapping_eq_ok haliased rfl hshape (.inl rfl) htypedef
  have hdeclare := ReadM.eq_ok_of_gives hgives.2.1
  have huseStep := ReadM.eq_ok_of_gives hgives.2.2.1
  have hdirect := ReadM.eq_ok_of_gives hgives.2.2.2
  refine ⟨aliased, _, use, _, _, _, declared, _, _, haliased, huse, htypedef, ⟨_, hdeclare⟩,
    huseStep, hdirect, fun heq => hboth ?_⟩
  exact (target_eq_iff (d := d) hknown hskip hint (by decide) hknown (.inl hint) haliased
    (fun hnone => absurd (.inr (.inl hnone)) hboth) hrule hshape hsound.sound (by decide)
    hfresh rfl ⟨rfl, rfl⟩ htypedef
    ⟨rfl, hbare.definition, hbare.name, rfl, hbare.stars⟩ hdeclare rfl hshape' hdirect huse rfl
    hadapt huseStep).mp heq

/-- The target types of some declarators, read with the rules that a header
leaves behind. -/
def targets? (table : RuleTable) (header : String) (uses : List String) :
    Option (List (Option String)) :=
  match Statement.readAll {}
    { Reading.ofTokens table (Token.ofText none header) with outline := {} } with
  | .ok () s => some (uses.map fun text =>
      ((ReadM.fragment text (Declarator.read { scope := {} })).given s).map (·.type.targetName))
  | .error _ _ => none

/-- Behind `typedef int* P;`, a parameter `P x` is a number, and `int* x` is a
pointer. -/
theorem pointer_alias_is_value :
    targets? intTable "typedef int* P;\n" ["P x", "int* x"] =
      some [some "int", some "IntPointer"] := by
  decide +kernel

end Alias

end HeaderPeers

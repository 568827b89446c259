import HeaderPeers.Proofs.Reading
import HeaderPeers.Proofs.Reading.Statements

/-!
# Readers that print

A `ReadInvariant` has to survive any change of the outline. A recognizer changes
it in few ways: it adds declarations and sets the spacing of the next ones, and
what a scope inside it prints goes to an outline of its own. A `PrintInvariant`
relates the rules and the outline and need survive these alone; it is kept by
every recognizer but those of blocks, which read a scope into the same outline.

- `Prints` — the step keeps the invariant if it does not fail. A step that
  fails may leave behind the outline of a scope inside it.
- `withOutline_prints` — a step with an outline of its own only learns.
-/

set_option mvcgen.warning false

namespace HeaderPeers

open Std.Do ReadM

/-- What learning a rule, adding a declaration and changing the pending spacing
keep. -/
class PrintInvariant where
  /-- The property of the rules and the outline. -/
  holds : RuleTable → Outline → Prop
  learned {table : RuleTable} {outline : Outline} {priority : Priority} {rule : Rule} :
    holds table outline → holds { table with top := table.top.putAt priority rule } outline
  added {table : RuleTable} {outline : Outline} {d : Declaration} :
    holds table outline → holds table (outline.add table d).2
  spaced {table : RuleTable} {outline : Outline} {spacing : Option String} :
    holds table outline → holds table { outline with spacing }

/-- The property, as one that looking keeps: neither the rules nor the outline
change. -/
instance (priority := low) PrintInvariant.looking [inv : PrintInvariant] : LookInvariant where
  holds _ s := inv.holds s.table s.outline
  core table outline _ := inv.holds table outline
  place _ := True
  place_of_le _ _ := trivial
  moved hs _ := hs
  looked hs _ := hs
  warned hs := hs
  bared hs := hs
  covered _ hs' := hs'
  entered hs := hs
  left _ hs' := hs'

/-- The property, while another outline than this one is printed to. -/
@[reducible]
def PrintInvariant.aside (inv : PrintInvariant) (outline : Outline) : ReadInvariant where
  holds _ s := inv.holds s.table outline
  core table _ _ := inv.holds table outline
  place _ := True
  place_of_le _ _ := trivial
  moved hs _ := hs
  looked hs _ := hs
  warned hs := hs
  bared hs := hs
  covered _ hs' := hs'
  entered hs := hs
  left _ hs' := hs'
  anywhere _ := trivial
  learned hs := inv.learned hs
  printed hs := hs
  named hs := hs
  respaced hs := hs
  core_learned hs := inv.learned hs
  core_printed hs := hs

-- conditions on texts are not to be computed when steps are compared
attribute [local irreducible] Text.trim Text.lastWord

variable [PrintInvariant] {raw : Bool} {α β σ : Type}

/-- The step keeps the invariant unless it fails. -/
abbrev Prints (raw : Bool) (step : ReadM α) : Prop :=
  ⦃fun s => ⌜LookInvariant.holds raw s⌝⦄ step
  ⦃post⟨fun _ s => ⌜LookInvariant.holds raw s⌝, fun _ _ => ⌜True⌝⟩⦄

theorem prints_of_keeps {step : ReadM α} (h : Keeps raw step) : Prints raw step := by
  mvcgen [h]
  exact id

/-! ## Basic steps -/

theorem cursor_looks : Keeps raw cursor :=
  keeps_iff.mpr fun _ hs => hs

theorem moveTo_looks (i : Nat) : Keeps raw (moveTo i) :=
  moveTo_keeps trivial

@[local spec high]
theorem setSpacing_looks (spacing : String) : Keeps raw (setSpacing spacing) := by
  refine keeps_iff.mpr fun s hs => ?_
  simp only [setSpacing, Window.setSpacing]
  cases h : s.window.position s.bound s.table 0 <;> exact hs

@[local spec high]
theorem learn_prints (rule : Rule) : Keeps raw (learn rule) :=
  keeps_iff.mpr fun _ hs => PrintInvariant.learned hs

@[local spec high]
theorem learnFirst_prints (rule : Rule) : Keeps raw (learnFirst rule) :=
  keeps_iff.mpr fun _ hs => PrintInvariant.learned hs

@[local spec high]
theorem add_prints (d : Declaration) : Keeps raw (add d) :=
  keeps_iff.mpr fun _ hs => PrintInvariant.added hs

@[local spec high]
theorem modifyOutline_spacing (spacing : Option String) :
    Keeps raw (modifyOutline fun o => { o with spacing }) :=
  keeps_iff.mpr fun _ hs => PrintInvariant.spaced hs

@[local spec high]
theorem addSpaced_prints (spacing : String) (ds : List Declaration) :
    Keeps raw (addSpaced spacing ds) := by
  unfold addSpaced
  mvcgen

@[local spec high]
theorem indent_prints (spacing text : String) : Keeps raw (indent spacing text) := by
  unfold indent
  mvcgen

@[local spec high]
theorem leaveSpacing_prints (spacing : String) : Keeps raw (leaveSpacing spacing) := by
  unfold leaveSpacing
  mvcgen

/-- **An outline of one's own.** What is printed there is no part of the outline
the invariant speaks of, so any step will do. -/
theorem withOutline_prints {inner : Outline} {step : ReadM α}
    (h : ∀ [ReadInvariant], Keeps raw step) : Prints raw (withOutline inner step) := by
  refine triple_iff.mpr fun s hs => ?_
  have hstep : @Keeps α (PrintInvariant.aside ‹_› s.outline).toLookInvariant raw step :=
    @h (PrintInvariant.aside ‹_› s.outline)
  have hkept := (@keeps_iff α (PrintInvariant.aside ‹_› s.outline).toLookInvariant raw step).mp
    hstep { s with outline := inner } hs
  split
  next a s' hrun =>
    obtain ⟨_, s₁, hget, hrun⟩ := bind_eq_ok hrun
    cases hget
    obtain ⟨_, s₂, hset, hrun⟩ := bind_eq_ok hrun
    cases hset
    obtain ⟨b, s₃, hinner, hrun⟩ := bind_eq_ok hrun
    rw [hinner] at hkept
    cases hrun
    exact hkept
  · trivial

theorem iterate_prints {start : σ} {turn : σ → ReadM (Turn σ β)}
    (hturn : ∀ state, Prints raw (turn state)) : Prints raw (iterate start turn) := by
  refine triple_iterate (I := fun _ s => LookInvariant.holds raw s) (fun state => ?_)
    fun _ _ _ => trivial
  mvcgen [hturn]
  split <;> exact id

/-! ## Comments and directives -/

@[local spec high]
theorem Comment.takeRun_looks : Keeps raw takeRun := by
  unfold takeRun
  mvcgen [moveTo_looks]

@[local spec high]
theorem Comment.takeBefore_looks : Keeps raw takeBefore := by
  unfold takeBefore
  mvcgen

@[local spec high]
theorem Comment.takeAfter_looks : Keeps raw takeAfter := by
  unfold takeAfter
  mvcgen

@[local spec high]
theorem Directive.foldTo_looks (stop : Nat) (start : α) (step : α → Nat → Token → α) :
    Keeps raw (foldTo stop start step) := by
  unfold foldTo
  mvcgen [cursor_looks]

@[local spec high]
theorem Directive.recordExpansion_prints (name : String) (mark : Nat) (span : Span) :
    Keeps raw (recordExpansion name mark span) := by
  unfold recordExpansion
  mvcgen [moveTo_looks]

@[local spec high]
theorem Directive.readParameters_looks (types : List String) (span : Span) :
    Keeps raw (readParameters types span) := by
  unfold readParameters
  mvcgen [cursor_looks, moveTo_looks]

@[local spec high]
theorem Directive.readFunctionSource_looks (name : String) (types : List String)
    (hasParameters : Bool) (span : Span) :
    Keeps raw (readFunctionSource name types hasParameters span) := by
  unfold readFunctionSource
  mvcgen

@[local spec high]
theorem Directive.readAlternative_looks (scope : Scope) (source target : String) (choice : Int)
    (signatures : List String) :
    Keeps raw (readAlternative scope source target choice signatures) := by
  unfold readAlternative
  mvcgen
  exact Declarator.read_keepsInside _

@[local spec high]
theorem Directive.readFunctions_looks (scope : Scope) (name : String) (rule : Rule)
    (types : List String) (hasParameters : Bool) (span : Span) :
    Keeps raw (readFunctions scope name rule types hasParameters span) := by
  unfold readFunctions
  mvcgen

@[local spec high]
theorem Directive.readConstantType_looks (scope : Scope) (rule : Option Rule) (type : Literal) :
    Keeps raw (readConstantType scope rule type) := by
  unfold readConstantType
  mvcgen
  exact Declarator.read_keepsInside _

@[local spec high]
theorem Directive.readConstant_prints (scope : Scope) (name : String) (rule : Option Rule)
    (span : Span) (d : Declaration) : Keeps raw (readConstant scope name rule span d) := by
  unfold readConstant
  mvcgen [moveTo_looks]
  intro s hs
  split
  · mvcgen
  · mvcgen

@[local spec high]
theorem Directive.applyRules_prints (scope : Scope) (mark : Nat) (span : Span) (name : String)
    (hasParameters : Bool) (d : Declaration) (rules : List (Option Rule)) :
    Keeps raw (applyRules scope mark span name hasParameters d rules) := by
  induction rules generalizing d with
  | nil =>
    unfold applyRules
    mvcgen
  | cons rule rules ih =>
    unfold applyRules
    mvcgen [ih, -applyRules_keeps]

@[local spec high]
theorem Directive.readDefinition_prints (scope : Scope) (mark : Nat) (span : Span) :
    Keeps raw (readDefinition scope mark span) := by
  unfold readDefinition
  mvcgen [moveTo_looks]

@[local spec high]
theorem Directive.readUndefinition_prints (span : Span) : Keeps raw (readUndefinition span) := by
  unfold readUndefinition
  mvcgen [moveTo_looks]

@[local spec high]
theorem Directive.readAsComment_looks (spacing : String) (keyword : Token) (span : Span) :
    Keeps raw (readAsComment spacing keyword span) := by
  unfold readAsComment
  mvcgen [moveTo_looks]

@[local spec high]
theorem Directive.readLine_prints (scope : Scope) : Keeps raw (readLine scope) := by
  unfold readLine
  mvcgen [cursor_looks, moveTo_looks]

@[local spec high]
theorem Directive.read_prints (scope : Scope) : Keeps raw (read scope) := by
  unfold read
  mvcgen

/-! ## Enumerations and classes -/

@[local spec high]
theorem Enumeration.readInitializer_looks : Keeps raw readInitializer := by
  unfold readInitializer
  mvcgen

@[local spec high]
theorem Enumeration.readEnumerator_looks (path commentBefore : String) (counter : Counter) :
    Keeps raw (readEnumerator path commentBefore counter) := by
  unfold readEnumerator
  mvcgen

theorem Enumeration.readEntries_prints (scope : Scope) (path : String) :
    Prints raw (readEntries scope path) := by
  unfold readEntries
  have hdirective : Prints raw (withOutline {} (attempt (Directive.read scope))) :=
    withOutline_prints (attempt_keeps (Directive.read_keeps scope))
  mvcgen [hdirective, iterate_prints, -iterate_keeps, -withOutline_keeps]

@[local spec high]
theorem Enumeration.register_prints (scope : Scope) (nativeName targetName targetType : String) :
    Keeps raw (register scope nativeName targetName targetType) := by
  unfold register
  mvcgen

@[local spec high]
theorem Enumeration.print_prints (scope : Scope) (head : Head) (name ending comment : String)
    (entries : List EnumEntry) : Keeps raw (print scope head name ending comment entries) := by
  unfold print
  mvcgen

theorem Enumeration.readBody_prints (scope : Scope) (head : Head) :
    Prints raw (readBody scope head) := by
  unfold readBody
  mvcgen [readEntries_prints, -readEntries_keeps]
  all_goals exact id

theorem Enumeration.read_prints (scope : Scope) : Prints raw (read scope) := by
  unfold read
  mvcgen [readBody_prints]
  exact id

@[local spec high]
theorem Class.readTypedefName_looks (type : NativeType) : Keeps raw (readTypedefName type) := by
  unfold readTypedefName
  mvcgen

@[local spec high]
theorem Class.readMembers_looks : Keeps raw readMembers := by
  unfold readMembers
  mvcgen [cursor_looks, moveTo_looks]

@[local spec high]
theorem Class.readBehind_looks (head : Head) (isAnonymous : Bool) :
    Keeps raw (readBehind head isAnonymous) := by
  unfold readBehind
  mvcgen

@[local spec high]
theorem Class.settle_prints (scope : Scope) (type : NativeType) :
    Keeps raw (settle scope type) := by
  unfold settle
  mvcgen

@[local spec high]
theorem Class.readForward_prints (scope : Scope) (head : Head) (type : NativeType)
    (name base : String) : Keeps raw (readForward scope head type name base) := by
  unfold readForward
  mvcgen

@[local spec high]
theorem Class.inheritedText_looks (scope : Scope) (bases : List NativeType) :
    Keeps raw (inheritedText scope bases) := by
  unfold inheritedText
  mvcgen

@[local spec high]
theorem Class.remember_looks (nativeName : String) (rule : Option Rule) (text : String)
    (members : List Declaration) : Keeps raw (remember nativeName rule text members) := by
  unfold remember
  mvcgen

@[local spec high]
theorem Class.readEnd_looks : Keeps raw readEnd := by
  unfold readEnd
  mvcgen

section
variable {readScope : Class.ScopeReader}
  (h : ∀ [ReadInvariant] (scope : Scope), Keeps raw (readScope scope)) (scope : Scope)
include h

theorem Class.readInside_prints (inner : Scope) (vars : List Declarator) :
    Prints raw (readInside readScope scope inner vars) := by
  unfold readInside
  have hinside (body : Nat) : Prints raw (withOutline {} (if vars.isEmpty then readScope inner
      else vars.forM fun d => do
        moveTo body
        readScope { inner with member := some (memberOf scope d) })) :=
    withOutline_prints (by intro; mvcgen [moveTo_anywhere, h])
  mvcgen [cursor_looks, hinside, -withOutline_keeps]

theorem Class.readBody_prints (head : Head) (type : NativeType) (rule : Option Rule)
    (name : String) (base : NativeType) (others : List NativeType) (vars : List Declarator)
    (isAnonymous : Bool) :
    Prints raw (readBody readScope scope head type rule name base others vars isAnonymous) := by
  unfold readBody
  have hinside := readInside_prints h scope
  mvcgen [hinside]

theorem Class.readWith_prints : Prints raw (readWith readScope scope) := by
  unfold readWith
  have hbody := readBody_prints h scope
  mvcgen [cursor_looks, moveTo_looks, hbody]
  all_goals exact id

end

/-! ## Aliases -/

@[local spec high]
theorem Alias.declareVoid_prints (scope : Scope) (name : String) (d : Declarator) :
    Keeps raw (declareVoid scope name d) := by
  unfold declareVoid
  mvcgen

@[local spec high]
theorem Alias.declare_prints (scope : Scope) (d : Declarator) : Keeps raw (declare scope d) := by
  unfold declare
  mvcgen

@[local spec high]
theorem Alias.readTypedef_prints (scope : Scope) : Keeps raw (readTypedef scope) := by
  unfold readTypedef
  mvcgen [cursor_looks, moveTo_looks]

@[local spec high]
theorem Alias.inherited_looks (scope : Scope) (name : String) :
    Keeps raw (inherited? scope name) := by
  unfold inherited?
  mvcgen

@[local spec high]
theorem Alias.bringIn_looks (name : String) : Keeps raw (bringIn name) :=
  keeps_iff.mpr fun _ hs => hs

@[local spec high]
theorem Alias.readTarget_looks : Keeps raw readTarget := by
  unfold readTarget
  mvcgen

@[local spec high]
theorem Alias.readName_looks : Keeps raw readName := by
  unfold readName
  mvcgen

theorem Alias.readUsing_prints (scope : Scope) : Prints raw (readUsing scope) := by
  unfold readUsing
  have htypedef (text : String) :
      Prints raw (withOutline {} (fragment text (readTypedef scope))) :=
    withOutline_prints (fragment_keeps (readTypedef_keepsInside scope))
  mvcgen [htypedef, -withOutline_keeps]

/-! ## Functions and variables -/

@[local spec high]
theorem Function.readQualifiers_looks : Keeps raw readQualifiers := by
  unfold readQualifiers
  mvcgen

@[local spec high]
theorem Function.readTrailer_looks : Keeps raw readTrailer := by
  unfold readTrailer
  mvcgen

@[local spec high]
theorem Function.readRole_looks (scope : Scope) (d : Declarator) (rule : Option Rule) :
    Keeps raw (readRole scope d rule) := by
  unfold readRole
  mvcgen

@[local spec high]
theorem Function.readMethodText_looks (scope : Scope) (d : Declarator) (list : String)
    (trailer : Trailer) (rule : Option Rule) (modifiers : String) :
    Keeps raw (readMethodText scope d list trailer rule modifiers) := by
  unfold readMethodText
  mvcgen

@[local spec high]
theorem Function.readVariant_prints (f : Subject) (printed : Printed) (v : Variant) :
    Keeps raw (readVariant f printed v) := by
  unfold readVariant
  mvcgen [moveTo_looks]

@[local spec high]
theorem Function.readVariants_prints (f : Subject) (printed : Printed) (vs : List Variant) :
    Keeps raw (readVariants f printed vs) := by
  induction vs generalizing printed with
  | nil =>
    unfold readVariants
    mvcgen
  | cons v vs ih =>
    unfold readVariants
    mvcgen [ih, -readVariants_keeps]

@[local spec high]
theorem Function.readFound_prints (scope : Scope) (spacing : String) (start : Nat)
    (isFriend isStatic : Bool) (d : Declarator) (parameters : Parameters) :
    Keeps raw (readFound scope spacing start isFriend isStatic d parameters) := by
  unfold readFound
  mvcgen

theorem Function.read_prints (scope : Scope) : Keeps raw (read scope) := by
  unfold read
  mvcgen [cursor_looks, moveTo_looks]

@[local spec high]
theorem Variable.readText_looks (v : Subject) (number : Nat) (d : Declarator) :
    Keeps raw (readText v number d) := by
  unfold readText
  mvcgen [moveTo_looks]

@[local spec high]
theorem Variable.readNumber_prints (v : Subject) (number : Nat) :
    Keeps raw (readNumber v number) := by
  unfold readNumber
  mvcgen [moveTo_looks]

theorem Variable.read_prints (scope : Scope) : Keeps raw (read scope) := by
  unfold read
  mvcgen [cursor_looks]

end HeaderPeers

import HeaderPeers.Proofs.Reading.Looking
import HeaderPeers.Statement

/-!
# Readers of statements

What is read here learns rules, prints and brings names into scope, and goes
back to places it has noted; it keeps every `StatementInvariant`. Some readers are
called only when there is no way back. Of these `Gives` also says that they
recognize something whenever they do not fail.

The last fact, `Statement.readAll_keeps`, is about whole scopes.
-/

set_option mvcgen.warning false

namespace HeaderPeers

open Std.Do ReadM

variable [StatementInvariant] {raw : Bool}

-- conditions on texts are not to be computed when steps are compared
attribute [local irreducible] Text.trim Text.lastWord

/-! ## Comments and directives -/

namespace Comment

@[spec]
theorem takeRun_keeps : Keeps raw takeRun := by
  mvcgen [takeRun, moveTo_anywhere]

@[spec]
theorem takeBefore_keeps : Keeps raw takeBefore := by
  mvcgen [takeBefore]

@[spec]
theorem takeAfter_keeps : Keeps raw takeAfter := by
  mvcgen [takeAfter]

end Comment

namespace Directive

@[spec]
theorem foldTo_keeps {α : Type} (stop : Nat) (start : α) (step : α → Nat → Token → α) :
    Keeps raw (foldTo stop start step) := by
  mvcgen [foldTo, cursor_keeps]

@[spec]
theorem recordExpansion_keeps (name : String) (mark : Nat) (span : Span) :
    Keeps raw (recordExpansion name mark span) := by
  mvcgen [recordExpansion, moveTo_anywhere]

@[spec]
theorem readParameters_keeps (types : List String) (span : Span) :
    Keeps raw (readParameters types span) := by
  mvcgen [readParameters, cursor_keeps, moveTo_anywhere]

@[spec]
theorem readFunctionSource_keeps (name : String) (types : List String) (hasParameters : Bool)
    (span : Span) : Keeps raw (readFunctionSource name types hasParameters span) := by
  mvcgen [readFunctionSource]

@[spec]
theorem readAlternative_keeps (scope : Scope) (source target : String) (choice : Int)
    (signatures : List String) :
    Keeps raw (readAlternative scope source target choice signatures) := by
  mvcgen [readAlternative]
  exact Declarator.read_keepsInside _

@[spec]
theorem readFunctions_keeps (scope : Scope) (name : String) (rule : Rule) (types : List String)
    (hasParameters : Bool) (span : Span) :
    Keeps raw (readFunctions scope name rule types hasParameters span) := by
  mvcgen [readFunctions]

@[spec]
theorem readConstantType_keeps (scope : Scope) (rule : Option Rule) (type : Literal) :
    Keeps raw (readConstantType scope rule type) := by
  mvcgen [readConstantType]
  exact Declarator.read_keepsInside _

@[spec]
theorem readConstant_keeps (scope : Scope) (name : String) (rule : Option Rule) (span : Span)
    (d : Declaration) : Keeps raw (readConstant scope name rule span d) := by
  mvcgen [readConstant, moveTo_anywhere]
  intro s hs
  split
  · mvcgen
  · mvcgen

@[spec]
theorem applyRules_keeps (scope : Scope) (mark : Nat) (span : Span) (name : String)
    (hasParameters : Bool) (d : Declaration) (rules : List (Option Rule)) :
    Keeps raw (applyRules scope mark span name hasParameters d rules) := by
  induction rules generalizing d with
  | nil => mvcgen [applyRules]
  | cons rule rules ih => mvcgen [applyRules, ih]

@[spec]
theorem readDefinition_keeps (scope : Scope) (mark : Nat) (span : Span) :
    Keeps raw (readDefinition scope mark span) := by
  mvcgen [readDefinition, moveTo_anywhere]

@[spec]
theorem readUndefinition_keeps (span : Span) : Keeps raw (readUndefinition span) := by
  mvcgen [readUndefinition, moveTo_anywhere]

@[spec]
theorem readAsComment_keeps (spacing : String) (keyword : Token) (span : Span) :
    Keeps raw (readAsComment spacing keyword span) := by
  mvcgen [readAsComment, moveTo_anywhere]

theorem readLine_gives (scope : Scope) : Gives raw (readLine scope) (· = true) := by
  mvcgen [readLine, cursor_keeps, moveTo_anywhere]

@[spec]
theorem read_keeps (scope : Scope) : Keeps raw (read scope) := by
  have hline : Keeps true (readLine scope) := keeps_of_gives (readLine_gives scope)
  mvcgen [read, hline]

end Directive

/-! ## Enumerations and classes -/

namespace Enumeration

@[spec]
theorem readInitializer_keeps : Keeps raw readInitializer := by
  mvcgen [readInitializer]

@[spec]
theorem readEnumerator_keeps (path commentBefore : String) (counter : Counter) :
    Keeps raw (readEnumerator path commentBefore counter) := by
  mvcgen [readEnumerator]

@[spec]
theorem readEntries_keeps (scope : Scope) (path : String) :
    Keeps raw (readEntries scope path) := by
  mvcgen [readEntries]

@[spec]
theorem register_keeps (scope : Scope) (nativeName targetName targetType : String) :
    Keeps raw (register scope nativeName targetName targetType) := by
  mvcgen [register]

theorem print_gives (scope : Scope) (head : Head) (name ending comment : String)
    (entries : List EnumEntry) :
    Gives raw (print scope head name ending comment entries) (· = true) := by
  mvcgen [print, leaveSpacing]

theorem readBody_gives (scope : Scope) (head : Head) :
    Gives raw (readBody scope head) (· = true) := by
  mvcgen [readBody, print_gives]

@[spec]
theorem read_keeps (scope : Scope) : Keeps raw (read scope) := by
  have hbody (head : Head) : Keeps raw (readBody scope head) :=
    keeps_of_gives (readBody_gives scope head)
  mvcgen [read, leaveSpacing, hbody]

end Enumeration

namespace Class

@[spec]
theorem readTypedefName_keeps (type : NativeType) : Keeps raw (readTypedefName type) := by
  mvcgen [readTypedefName]

@[spec]
theorem readMembers_keeps : Keeps raw readMembers := by
  mvcgen [readMembers, cursor_keeps, moveTo_anywhere]

@[spec]
theorem readBehind_keeps (head : Head) (isAnonymous : Bool) :
    Keeps raw (readBehind head isAnonymous) := by
  mvcgen [readBehind]

@[spec]
theorem settle_keeps (scope : Scope) (type : NativeType) : Keeps raw (settle scope type) := by
  mvcgen [settle]

theorem readForward_gives (scope : Scope) (head : Head) (type : NativeType)
    (name base : String) : Gives raw (readForward scope head type name base) (· = true) := by
  mvcgen [readForward]

theorem inheritedText_runs (scope : Scope) (bases : List NativeType) :
    ⦃fun s => ⌜LookInvariant.holds raw s⌝⦄ inheritedText scope bases
    ⦃post⟨fun text s => ⌜LookInvariant.holds raw s ∧ inheritedText scope bases s = .ok text s⌝,
      fun _ s => ⌜LookInvariant.holds raw s⌝⟩⦄ :=
  triple_iff.mpr fun _ hs => ⟨hs, rfl⟩

theorem remember_keeps {nativeName text : String} {rule : Option Rule}
    (members : List Declaration) :
    ⦃fun s => ⌜LookInvariant.holds raw s ∧ (rule.any (·.flatten) = true → LookInvariant.holds raw
      { s with flattened := assign nativeName text s.flattened })⌝⦄
    remember nativeName rule text members
    ⦃post⟨fun _ s => ⌜LookInvariant.holds raw s⌝, fun _ s => ⌜LookInvariant.holds raw s⌝⟩⦄ := by
  mvcgen [remember]
  all_goals have hs := ‹LookInvariant.holds raw _ ∧ _›
  · exact StatementInvariant.named (hs.2 ‹_›)
  · exact hs.2 ‹_›
  · exact StatementInvariant.named hs.1
  · exact hs.1

section
variable {readScope : ScopeReader} (h : ∀ scope, Keeps raw (readScope scope))
  (hreads : StatementInvariant.reads readScope) (scope : Scope)
include h

theorem readInside_keeps (inner : Scope) (vars : List Declarator) :
    Keeps raw (readInside readScope scope inner vars) := by
  mvcgen [readInside, cursor_keeps, moveTo_anywhere, h]

include hreads

theorem readBody_gives (head : Head) (type : NativeType) (rule : Option Rule) (name : String)
    (base : NativeType) (others : List NativeType) (vars : List Declarator) (isAnonymous : Bool) :
    Gives raw (readBody readScope scope head type rule name base others vars isAnonymous)
      (· = true) := by
  have hinside (inner : Scope) : Gives raw (readInside readScope scope inner vars)
      fun members => ∃ s s', readInside readScope scope inner vars s = .ok members s' :=
    gives_run (readInside_keeps h scope inner vars)
  mvcgen [readBody, hinside, inheritedText_runs, remember_keeps]
  · exact ‹LookInvariant.holds raw _ ∧ _›.1
  next hread _ _ _ hinherited =>
    obtain ⟨-, t, t', hread⟩ := hread
    exact ⟨hinherited.1, StatementInvariant.remembered hinherited.1 hreads hread hinherited.2⟩

theorem readWith_keeps : Keeps raw (readWith readScope scope) := by
  have hforward (head : Head) (type : NativeType) (name base : String) :
      Keeps raw (readForward scope head type name base) :=
    keeps_of_gives (readForward_gives scope head type name base)
  have hbody (head : Head) (type : NativeType) (rule : Option Rule) (name : String)
      (base : NativeType) (others : List NativeType) (vars : List Declarator)
      (isAnonymous : Bool) :=
    keeps_of_gives (readBody_gives h hreads scope head type rule name base others vars isAnonymous)
  mvcgen [readWith, cursor_keeps, moveTo_anywhere, hforward, hbody]

end

end Class

/-! ## Aliases and namespaces -/

namespace Alias

@[spec]
theorem declareVoid_keeps (scope : Scope) (name : String) (d : Declarator) :
    Keeps raw (declareVoid scope name d) := by
  mvcgen [declareVoid]

@[spec]
theorem declare_keeps (scope : Scope) (d : Declarator) : Keeps raw (declare scope d) := by
  mvcgen [declare]

@[spec]
theorem readTypedef_keeps (scope : Scope) : Keeps raw (readTypedef scope) := by
  mvcgen [readTypedef, cursor_keeps, moveTo_anywhere]

theorem readTypedef_keepsInside (scope : Scope) : KeepsInside (readTypedef scope) :=
  @readTypedef_keeps (StatementInvariant.inside _) false scope

@[spec]
theorem inherited_keeps (scope : Scope) (name : String) : Keeps raw (inherited? scope name) := by
  mvcgen [inherited?]

@[spec]
theorem bringIn_keeps (name : String) : Keeps raw (bringIn name) :=
  keeps_iff.mpr fun _ hs => StatementInvariant.named hs

@[spec]
theorem readTarget_keeps : Keeps raw readTarget := by
  mvcgen [readTarget]

@[spec]
theorem readName_keeps : Keeps raw readName := by
  mvcgen [readName]

@[spec]
theorem readUsing_keeps (scope : Scope) : Keeps raw (readUsing scope) := by
  mvcgen [readUsing]
  exact fun _ _ => readTypedef_keepsInside scope

end Alias

namespace Namespace

section
variable {readScope : Class.ScopeReader} (h : ∀ scope, Keeps raw (readScope scope))
  (scope : Scope)
include h

theorem readBlock_keeps : Keeps raw (readBlock readScope scope) := by
  mvcgen [readBlock, h]

theorem readWith_keeps : Keeps raw (readWith readScope scope) := by
  have hblock := readBlock_keeps h
  mvcgen [readWith, leaveSpacing, hblock]

theorem readLinkageWith_keeps : Keeps raw (readLinkageWith readScope scope) := by
  have hblock := readBlock_keeps h
  mvcgen [readLinkageWith, leaveSpacing, hblock]

end

end Namespace

/-! ## Functions and variables -/

namespace Function

@[spec]
theorem readQualifiers_keeps : Keeps raw readQualifiers := by
  mvcgen [readQualifiers]

@[spec]
theorem readTrailer_keeps : Keeps raw readTrailer := by
  mvcgen [readTrailer]

@[spec]
theorem readRole_keeps (scope : Scope) (d : Declarator) (rule : Option Rule) :
    Keeps raw (readRole scope d rule) := by
  mvcgen [readRole]

@[spec]
theorem readMethodText_keeps (scope : Scope) (d : Declarator) (list : String)
    (trailer : Trailer) (rule : Option Rule) (modifiers : String) :
    Keeps raw (readMethodText scope d list trailer rule modifiers) := by
  mvcgen [readMethodText]

@[spec]
theorem readVariant_keeps (f : Subject) (printed : Printed) (v : Variant) :
    Keeps raw (readVariant f printed v) := by
  mvcgen [readVariant, moveTo_anywhere]

@[spec]
theorem readVariants_keeps (f : Subject) (printed : Printed) (vs : List Variant) :
    Keeps raw (readVariants f printed vs) := by
  induction vs generalizing printed with
  | nil => mvcgen [readVariants]
  | cons v vs ih => mvcgen [readVariants, ih]

theorem readFound_gives (scope : Scope) (spacing : String) (start : Nat)
    (isFriend isStatic : Bool) (d : Declarator) (parameters : Parameters) :
    Gives raw (readFound scope spacing start isFriend isStatic d parameters) (· = true) := by
  mvcgen [readFound, leaveSpacing]

@[spec]
theorem read_keeps (scope : Scope) : Keeps raw (read scope) := by
  have hfound (spacing : String) (start : Nat) (isFriend isStatic : Bool) (d : Declarator)
      (parameters : Parameters) :
      Keeps raw (readFound scope spacing start isFriend isStatic d parameters) :=
    keeps_of_gives (readFound_gives scope spacing start isFriend isStatic d parameters)
  mvcgen [read, cursor_keeps, moveTo_anywhere, leaveSpacing, hfound]

end Function

namespace Variable

@[spec]
theorem readText_keeps (v : Subject) (number : Nat) (d : Declarator) :
    Keeps raw (readText v number d) := by
  mvcgen [readText, moveTo_anywhere]

@[spec]
theorem readNumber_keeps (v : Subject) (number : Nat) : Keeps raw (readNumber v number) := by
  mvcgen [readNumber, moveTo_anywhere]

@[spec]
theorem read_keeps (scope : Scope) : Keeps raw (read scope) := by
  mvcgen [read, cursor_keeps, leaveSpacing]

end Variable

/-! ## Statements and scopes -/

namespace Statement

theorem tryAll_keeps {steps : List (ReadM Bool)} (h : ∀ step ∈ steps, Keeps raw step) :
    Keeps raw (tryAll steps) := by
  induction steps with
  | nil => mvcgen [tryAll]
  | cons step steps ih =>
      have hstep := h step List.mem_cons_self
      have hsteps := ih fun other hother => h other (List.mem_cons_of_mem _ hother)
      mvcgen [tryAll, hstep, hsteps]

@[spec]
theorem readAccess_keeps (scope : Scope) (first : Token) :
    Keeps raw (readAccess scope first) := by
  mvcgen [readAccess]

@[spec]
theorem skipSemicolons_keeps : Keeps raw skipSemicolons := by
  mvcgen [skipSemicolons]

omit [StatementInvariant] in
theorem nextInstance?_eq (s : Reading) : nextInstance? s = match s.outline.nextInstance? with
    | some (rule, o) => .ok (some rule) { s with outline := o }
    | none => .ok none s := by
  refine (bind_of_ok (show outline s = .ok s.outline s from rfl) _).trans ?_
  cases s.outline.nextInstance? <;> rfl

@[spec]
theorem nextInstance_keeps : Keeps raw nextInstance? := by
  refine keeps_iff.mpr fun s hs => ?_
  rw [nextInstance?_eq, Outline.nextInstance?]
  cases hinstances : s.outline.statement.instances with
  | none => exact hs
  | some rules =>
      cases rules with
      | nil => exact hs
      | cons rule rules => exact StatementInvariant.framed hs

@[spec]
theorem readInstance_keeps (scope : Scope) (map : TemplateMap) (rule : Rule) :
    Keeps raw (readInstance scope map rule) := by
  have hbound (bound : TemplateMap) :
      Keeps raw (modifyOutline fun o => { o with statement.template := some bound }) :=
    modifyOutline_keeps fun _ => rfl
  mvcgen [readInstance, hbound]
  exact NativeType.read_keepsInside scope

@[spec]
theorem nextPass_keeps (around scope : Scope) (template : Option TemplateMap) (start : Nat) :
    Keeps raw (nextPass around scope template start) := by
  mvcgen [nextPass, moveTo_anywhere]

@[spec]
theorem readLastComment_keeps : Keeps raw readLastComment := by
  mvcgen [readLastComment]

section
variable {readScope : Class.ScopeReader} (h : ∀ scope, Keeps raw (readScope scope))
  (hreads : StatementInvariant.reads readScope) (scope : Scope)
include h hreads

theorem recognizers_keep : ∀ step ∈ recognizers readScope scope, Keeps raw step := by
  simp only [recognizers, List.forall_mem_cons, List.not_mem_nil, false_imp_iff, implies_true,
    and_true]
  exact ⟨Directive.read_keeps scope, Namespace.readLinkageWith_keeps h scope,
    Namespace.readWith_keeps h scope, Enumeration.read_keeps scope, Class.readWith_keeps h hreads scope,
    Alias.readTypedef_keeps scope, Alias.readUsing_keeps scope, Function.read_keeps scope,
    Variable.read_keeps scope⟩

theorem readOne_keeps (first : Token) : Keeps raw (readOne readScope scope first) := by
  have hall := tryAll_keeps (recognizers_keep h hreads scope)
  mvcgen [readOne, hall]

theorem readPass_keeps (around : Scope) (template : Option TemplateMap) (start : Nat)
    (first : Token) : Keeps raw (readPass readScope around scope template start first) := by
  have hone := readOne_keeps h hreads
  mvcgen [readPass, endPass, hone]

theorem readPasses_keeps (around : Scope) (template : Option TemplateMap) :
    Keeps raw (readPasses readScope around scope template) := by
  have hpass := readPass_keeps h hreads scope around template
  mvcgen [readPasses, cursor_keeps, hpass]

theorem read_keeps : Keeps raw (read readScope scope) := by
  have hpasses := readPasses_keeps h hreads
  have hbegin (inaccessible : Bool) (template : Option TemplateMap) :
      Keeps raw (modifyOutline (·.beginStatement inaccessible template)) :=
    modifyOutline_keeps fun _ => rfl
  mvcgen [read, hpasses, hbegin]

theorem readAllWith_keeps : Keeps raw (readAllWith readScope scope) := by
  have hread := read_keeps h hreads
  mvcgen [readAllWith, hread]

end

theorem readAllUpTo_keeps
    (hreads : ∀ depth, StatementInvariant.reads (nestUpTo readAllWith depth)) (depth : Nat) :
    ∀ scope, Keeps raw (nestUpTo readAllWith depth scope) := by
  induction depth with
  | zero => exact fun _ => keeps_iff.mpr fun _ hs => hs
  | succ depth ih => exact readAllWith_keeps ih (hreads depth)

/-- **Whole scopes.** -/
theorem readAll_keeps (hreads : ∀ depth, StatementInvariant.reads (nestUpTo readAllWith depth))
    (scope : Scope) : Keeps raw (readAll scope) := by
  have hdepth (depth : Nat) (scope : Scope) : Keeps raw (nestUpTo readAllWith depth scope) :=
    readAllUpTo_keeps hreads depth scope
  mvcgen [readAll, nest, hdepth]

end Statement

end HeaderPeers

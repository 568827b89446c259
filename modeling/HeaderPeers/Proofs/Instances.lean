import HeaderPeers.Proofs.Backtracking
import HeaderPeers.Proofs.Outline
import HeaderPeers.Proofs.Reading.Printing

/-!
# Instances of templates

A statement under a template is read with unbound parameters first. What it
would declare is held back, and the rules for its name wait; each of them that
names an instance has the statement read once more, with its arguments bound.

- `Outline.Moves` — what a recognizer can do to the rules and the outline, one
  thing at a time. That the pass without bindings stores nothing typed, and what
  it leaves in the statement, follow by induction (`Moves.typed_sublist`,
  `Moves.heldBack`).
- `Statement.readOne_moves` — a pass makes such moves, unless it is a block.
- `Templated.Serves` — what is done for one rule that waits, and
  `Templated.ServesAll` for the rules one after another.
- `Statement.read_serves_instances` — the main statement.
-/

set_option mvcgen.warning false

namespace HeaderPeers

open Std.Do ReadM Relation

/-! ## What is held back -/

namespace Declaration

/-- The declaration has a type or a declarator. -/
def isTyped (d : Declaration) : Bool :=
  d.type.isSome || d.declarator.isSome

/-- The name under which the rules for instances of the declaration stand. -/
def templateName (d : Declaration) : String :=
  match d.declarator with
  | some declarator => declarator.nativeName
  | none => (d.type.map (·.nativeName)).getD ""

/-- The declaration as the owner of template parameters. -/
def templateOwner (d : Declaration) : TemplateOwner :=
  match d.type, d.declarator with
  | some type, _ => .type type.nativeName
  | none, some declarator => .function declarator.nativeName
  | none, none => .type ""

theorem unfold_of_not_isTyped {d : Declaration} (h : d.isTyped = false) : d.unfold = [d] := by
  obtain ⟨_, _, type, declarator, _, _, _, _, _, _, _, _⟩ := d
  cases declarator with
  | none => simp [unfold]
  | some named => simp [isTyped] at h

end Declaration

namespace Outline

/-- The rules that wait once a declaration has been held back. -/
def waiting (table : RuleTable) (d : Declaration) : Option (List Rule) :=
  if (table.rules d.templateName).isEmpty then none else some (table.rules d.templateName)

@[simp] theorem rescan_statement (o : Outline) (text : String) :
    (o.rescan text).2.statement = o.statement := by
  unfold rescan
  cases o.spacing <;> rfl

@[simp] theorem insert_statement (o : Outline) (d : Declaration) :
    (o.insert d).statement = o.statement := by
  unfold insert
  dsimp only
  split
  · exact rescan_statement o _
  · split
    · rfl
    · exact rescan_statement _ _

@[simp] theorem foldl_insert_statement (ds : List Declaration) (o : Outline) :
    (ds.foldl insert o).statement = o.statement := by
  induction ds generalizing o with
  | nil => rfl
  | cons d ds ih => rw [List.foldl_cons, ih, insert_statement]

theorem holdBack_of_isSome {o : Outline} (table : RuleTable) (d : Declaration)
    (h : o.statement.instances.isSome = true) : o.holdBack table d = o :=
  if_pos h

theorem holdBack_of_none {o : Outline} (table : RuleTable) (d : Declaration)
    (h : o.statement.instances = none) :
    o.holdBack table d = { o with
      statement.owner := some d.templateOwner, statement.instances := waiting table d } := by
  unfold holdBack
  rw [if_neg (by simp [h])]
  rfl

/-- **What adding does to the statement.** Under a template that is not bound, a
typed declaration is held back; otherwise the statement stays as it is. -/
theorem add_cases (o : Outline) (table : RuleTable) (d : Declaration) :
    (o.isUnbound = true ∧ d.isTyped = true ∧ o.add table d = (false, o.holdBack table d)) ∨
    ((o.isUnbound = true → d.isTyped = false) ∧ (o.add table d).2.statement = o.statement) := by
  unfold add
  by_cases hheld : o.isUnbound = true ∧ d.isTyped = true
  · obtain ⟨hunbound, htyped⟩ := hheld
    refine Or.inl ⟨hunbound, htyped, if_pos ?_⟩
    rw [hunbound]
    exact htyped
  · refine Or.inr ⟨fun hunbound => by simpa [hunbound] using hheld, ?_⟩
    rw [if_neg (by simpa [Declaration.isTyped] using hheld)]
    split
    · rfl
    · exact foldl_insert_statement _ o

theorem add_statement_of_not_isTyped (o : Outline) (table : RuleTable) {d : Declaration}
    (h : d.isTyped = false) : (o.add table d).2.statement = o.statement := by
  obtain ⟨_, htyped, _⟩ | ⟨_, heq⟩ := o.add_cases table d
  · rw [h] at htyped
    cases htyped
  · exact heq

/-! ## What a pass prints -/

/-- One thing that a recognizer does to the rules and the outline. -/
inductive Move : RuleTable × Outline → RuleTable × Outline → Prop
  | learn (table : RuleTable) (o : Outline) (priority : Priority) (rule : Rule) :
      Move (table, o) ({ table with top := table.top.putAt priority rule }, o)
  | add (table : RuleTable) (o : Outline) (d : Declaration) :
      Move (table, o) (table, (o.add table d).2)
  | space (table : RuleTable) (o : Outline) (spacing : Option String) :
      Move (table, o) (table, { o with spacing })

/-- Any number of things, one after another. -/
abbrev Moves : RuleTable × Outline → RuleTable × Outline → Prop :=
  ReflTransGen Move

/-- What has been printed since, as an invariant. -/
@[reducible]
def Moves.invariant (before : RuleTable × Outline) : PrintInvariant where
  holds table o := Moves before (table, o)
  learned h := h.tail (.learn _ _ _ _)
  added h := h.tail (.add _ _ _)
  spaced h := h.tail (.space _ _ _)

theorem holdBack_template (o : Outline) (table : RuleTable) (d : Declaration) :
    (o.holdBack table d).statement.template = o.statement.template := by
  unfold holdBack
  split <;> rfl

/-- Printing does not bind template parameters. -/
theorem Moves.template {a b : RuleTable × Outline} (h : Moves a b) :
    b.2.statement.template = a.2.statement.template := by
  induction h with
  | refl => rfl
  | tail _ hmove ih =>
      rw [← ih]
      cases hmove with
      | learn => rfl
      | space => rfl
      | add table o d =>
          obtain ⟨_, _, heq⟩ | ⟨_, heq⟩ := o.add_cases table d
          · rw [heq]
            exact o.holdBack_template table d
          · rw [heq]

/-- Once rules wait, or have been served, nothing more is held back. -/
theorem Moves.statement_of_isSome {a b : RuleTable × Outline} (h : Moves a b)
    (hsome : a.2.statement.instances.isSome = true) : b.2.statement = a.2.statement := by
  induction h with
  | refl => rfl
  | tail _ hmove ih =>
      rw [← ih] at hsome ⊢
      cases hmove with
      | learn => rfl
      | space => rfl
      | add table o d =>
          obtain ⟨_, _, heq⟩ | ⟨_, heq⟩ := o.add_cases table d
          · rw [heq]
            exact congrArg Outline.statement (holdBack_of_isSome table d hsome)
          · exact heq

theorem typed_insert_sublist (o : Outline) {d : Declaration} (h : d.isTyped = false) :
    ((o.insert d).toList.filter (·.isTyped)).Sublist (o.toList.filter (·.isTyped)) := by
  have hstored : (o.stored d).isTyped = false := h
  rw [toList_insert]
  split
  · simp [hstored]
  · dsimp only
    split
    · exact List.filter_sublist.filter _
    · rw [List.filter_append]
      simpa [hstored] using
        (List.filter_sublist (p := stays (o.stored d)) (l := o.toList)).filter (·.isTyped)

/-- **Nothing typed is stored unbound.** What has a type or a declarator is held
back, and what has neither brings no helpers along. -/
theorem Moves.typed_sublist {a b : RuleTable × Outline} (h : Moves a b)
    (hunbound : a.2.isUnbound = true) :
    (b.2.toList.filter (·.isTyped)).Sublist (a.2.toList.filter (·.isTyped)) := by
  induction h with
  | refl => exact List.Sublist.refl _
  | @tail b c hprint hmove ih =>
      have hb : b.2.isUnbound = true := by
        unfold isUnbound at hunbound ⊢
        rwa [Moves.template hprint]
      refine List.Sublist.trans ?_ ih
      cases hmove with
      | learn => exact List.Sublist.refl _
      | space => exact List.Sublist.refl _
      | add table o d =>
          obtain ⟨_, _, heq⟩ | ⟨huntyped, _⟩ := o.add_cases table d
          · rw [heq]
            unfold holdBack
            split <;> exact List.Sublist.refl _
          · have hd := huntyped hb
            unfold add
            rw [if_neg (by simpa [Declaration.isTyped] using fun _ => hd)]
            split
            · exact List.Sublist.refl _
            · rw [Declaration.unfold_of_not_isTyped hd]
              exact o.typed_insert_sublist hd

/-- Between two moments of printing, a declaration was held back at a third, when
no rules waited. It is the last that was held back so: its owner and the rules
for its name at that moment are what the statement is left with. -/
structure HeldBack (before after moment : RuleTable × Outline) (d : Declaration) : Prop where
  reached : Moves before moment
  unbound : moment.2.isUnbound = true
  typed : d.isTyped = true
  first : moment.2.statement.instances = none
  left : Moves (moment.1, (moment.2.add moment.1 d).2) after
  statement : after.2.statement = { before.2.statement with
    owner := some d.templateOwner, instances := waiting moment.1 d }

theorem HeldBack.tail {a b c moment : RuleTable × Outline} {d : Declaration}
    (h : HeldBack a b moment d) (hmove : Move b c) (hsame : c.2.statement = b.2.statement) :
    HeldBack a c moment d :=
  { h with left := h.left.tail hmove, statement := hsame.trans h.statement }

theorem HeldBack.hasInstances {before after moment : RuleTable × Outline} {d : Declaration}
    (h : HeldBack before after moment d) :
    after.2.hasInstances = !(moment.1.rules d.templateName).isEmpty := by
  have hinstances := congrArg Statement.instances h.statement
  rw [Outline.hasInstances, hinstances, waiting]
  cases hrules : (moment.1.rules d.templateName).isEmpty <;> simp [hrules]

theorem HeldBack.instances {before after moment : RuleTable × Outline} {d : Declaration}
    (h : HeldBack before after moment d) (hne : moment.1.rules d.templateName ≠ []) :
    after.2.statement.instances = some (moment.1.rules d.templateName) := by
  rw [h.statement]
  exact if_neg (by simpa using hne)

/-- **The statement remembers one declaration.** If printing changes the
statement at all, one declaration was held back when no rules waited, and its
owner and its rules are what is left in the statement. -/
theorem Moves.heldBack {a b : RuleTable × Outline} (h : Moves a b) :
    b.2.statement = a.2.statement ∨ ∃ moment d, HeldBack a b moment d := by
  induction h with
  | refl => exact Or.inl rfl
  | @tail b c hmoves hmove ih =>
      -- a move that leaves the statement alone leaves the moment alone
      have hsame (heq : c.2.statement = b.2.statement) :
          c.2.statement = a.2.statement ∨ ∃ moment d, HeldBack a c moment d := by
        obtain hnone | ⟨moment, d, hheld⟩ := ih
        · exact Or.inl (heq.trans hnone)
        · exact Or.inr ⟨moment, d, hheld.tail hmove heq⟩
      cases hmove with
      | learn => exact hsame rfl
      | space => exact hsame rfl
      | add table o d =>
          obtain ⟨hunbound, htyped, heq⟩ | ⟨_, heq⟩ := o.add_cases table d
          · cases hinstances : o.statement.instances with
            | some rules =>
                refine hsame ?_
                rw [heq]
                exact congrArg Outline.statement
                  (holdBack_of_isSome table d (by rw [hinstances]; rfl))
            | none =>
                refine Or.inr ⟨(table, o), d, hmoves, hunbound, htyped, hinstances, .refl, ?_⟩
                rw [heq, holdBack_of_none table d hinstances]
                obtain hstatement | ⟨_, _, hheld⟩ := ih
                · rw [← hstatement]
                · have hstatement : o.statement = _ := hheld.statement
                  rw [hstatement]
          · exact hsame heq

end Outline

/-! ## One pass -/

namespace ReadM

variable {α β : Type}

/-- A step that looks leaves the rules and the outline alone. -/
theorem framed_of_keeps {step : ReadM α} (h : ∀ [LookInvariant], Keeps false step)
    {s s' : Reading} {a : α} (hrun : step s = .ok a s') : Framed s false s' :=
  looksOnly_of_keeps h s a s' (.refl s) hrun trivial


/-- The step leaves the statement of the outline as it is, unless it fails. -/
def Restores (step : ReadM α) : Prop :=
  ∀ s a s', step s = .ok a s' → s'.outline.statement = s.outline.statement

theorem restores_pure (a : α) : Restores (pure a) := by
  intro s b s' hrun
  cases hrun
  rfl

theorem Restores.bind {step : ReadM α} {next : α → ReadM β} (h : Restores step)
    (hnext : ∀ a, Restores (next a)) : Restores (step >>= next) := by
  intro s b s' hrun
  obtain ⟨a, s₁, ha, hb⟩ := bind_eq_ok hrun
  exact (hnext a s₁ b s' hb).trans (h s a s₁ ha)

theorem restores_of_keeps {step : ReadM α} (h : ∀ [LookInvariant], Keeps false step) :
    Restores step := by
  intro s a s' hrun
  rw [(framed_of_keeps h hrun).outline]

theorem leaveSpacing_restores (spacing : String) : Restores (leaveSpacing spacing) := by
  intro s a s' hrun
  cases hrun
  exact Outline.add_statement_of_not_isTyped _ _ rfl

end ReadM

section
variable {readScope : Class.ScopeReader} (h : ∀ scope, Restores (readScope scope))
  (scope : Scope)
include h

theorem Namespace.readBlock_restores : Restores (readBlock readScope scope) :=
  (h scope).bind fun () => restores_of_keeps (by intro; mvcgen)

theorem Namespace.readWith_restores : Restores (readWith readScope scope) := by
  refine (restores_of_keeps (by intro; mvcgen)).bind fun isInline => ?_
  extract_lets rest
  have hrest (u : Unit) : Restores (rest u) := by
    refine (restores_of_keeps peek_keeps).bind fun t => ?_
    split
    · exact restores_pure false
    · refine (restores_of_keeps peek_keeps).bind fun t => ?_
      refine (restores_of_keeps advance_keeps).bind fun first => ?_
      refine (restores_of_keeps (by intro; mvcgen)).bind fun (name, t) => ?_
      dsimp only
      split
      · exact (restores_of_keeps skipStatement_keeps).bind fun _ => leaveSpacing_restores _
      · refine (restores_of_keeps (expect_keeps _ _)).bind fun _ => ?_
        split
        · exact (restores_of_keeps skipBody_keeps).bind fun _ => leaveSpacing_restores _
        · refine (restores_of_keeps advance_keeps).bind fun _ => ?_
          exact (readBlock_restores h _).bind fun _ => leaveSpacing_restores _
  split
  · exact (restores_of_keeps advance_keeps).bind fun _ => hrest ()
  · exact hrest ()

theorem Namespace.readLinkageWith_restores : Restores (readLinkageWith readScope scope) := by
  refine (restores_of_keeps (by intro; mvcgen)).bind fun isLinkage => ?_
  split
  · exact restores_pure false
  · refine (restores_of_keeps advance_keeps).bind fun t => ?_
    refine (restores_of_keeps (expect_keeps _ _)).bind fun _ => ?_
    refine (restores_of_keeps advance_keeps).bind fun t => ?_
    split
    · exact leaveSpacing_restores _
    · refine (restores_of_keeps advance_keeps).bind fun _ => ?_
      exact (readBlock_restores h _).bind fun _ => leaveSpacing_restores _

end

namespace Statement

theorem readAllWith_restores (readScope : Class.ScopeReader) (scope : Scope) :
    Restores (readAllWith readScope scope) := by
  intro s a s' hrun
  obtain ⟨_, s₁, hget, hrun⟩ := bind_eq_ok hrun
  cases hget
  obtain ⟨_, s₂, _, hrun⟩ := bind_eq_ok hrun
  obtain ⟨_, s₃, _, hrun⟩ := bind_eq_ok hrun
  obtain ⟨_, s₄, _, hrun⟩ := bind_eq_ok hrun
  cases hrun
  rfl

theorem nestUpTo_restores (depth : Nat) (scope : Scope) :
    Restores (nestUpTo readAllWith depth scope) := by
  cases depth with
  | zero =>
      intro s a s' hrun
      cases hrun
  | succ depth => exact readAllWith_restores _ scope

end Statement

/-- The rules and the outline. -/
def Reading.output (s : Reading) : RuleTable × Outline :=
  (s.table, s.outline)

theorem Framed.output {s s' : Reading} (h : Framed s false s') : s'.output = s.output :=
  Prod.ext h.table h.outline

theorem ReadM.moves_of_prints {α : Type} {step : ReadM α}
    (h : ∀ [PrintInvariant], Prints false step) {s s' : Reading} {a : α}
    (hrun : step s = .ok a s') : Outline.Moves s.output s'.output := by
  have hprints := triple_iff.mp (@h (Outline.Moves.invariant s.output)) s ReflTransGen.refl
  rwa [hrun] at hprints

namespace Statement

section
variable {step : ReadM Bool} {steps : List (ReadM Bool)} {s s₁ s' : Reading} {b : Bool}

theorem tryAll_of_true (h : attempt step s = .ok true s') :
    tryAll (step :: steps) s = .ok true s' :=
  bind_of_ok h _

theorem tryAll_of_false (h : attempt step s = .ok false s₁) :
    tryAll (step :: steps) s = tryAll steps s₁ :=
  bind_of_ok h _

theorem tryAll_cons_eq_ok (h : tryAll (step :: steps) s = .ok b s') :
    (b = true ∧ attempt step s = .ok true s') ∨
      ∃ s₁, attempt step s = .ok false s₁ ∧ tryAll steps s₁ = .ok b s' := by
  obtain ⟨matched, s₁, hattempt, hrest⟩ := bind_eq_ok h
  cases matched with
  | true =>
      cases hrest
      exact Or.inl ⟨rfl, hattempt⟩
  | false => exact Or.inr ⟨s₁, hattempt, hrest⟩

end

/-- What a list of recognizers does is what one of them does, from a state with
the same rules and the same outline; or none of them has printed. -/
theorem tryAll_eq_ok {steps : List (ReadM Bool)}
    (hlooks : ∀ before, ∀ step ∈ steps, LooksOnly before step (· = false)) {s s' : Reading}
    {b : Bool} (h : tryAll steps s = .ok b s') :
    (b = false ∧ s'.output = s.output) ∨
    (b = true ∧ ∃ step ∈ steps, ∃ s₁, s₁.output = s.output ∧ step s₁ = .ok true s') := by
  induction steps generalizing s with
  | nil =>
      cases h
      exact Or.inl ⟨rfl, rfl⟩
  | cons step steps ih =>
      obtain ⟨rfl, hattempt⟩ | ⟨s₁, hattempt, hrest⟩ := tryAll_cons_eq_ok h
      · obtain ⟨s₂, hstep, rfl⟩ := attempt_eq_ok hattempt
        exact Or.inr ⟨rfl, step, List.mem_cons_self, s, rfl, hstep⟩
      · obtain ⟨s₂, hstep, rfl⟩ := attempt_eq_ok hattempt
        have hframed := hlooks s step List.mem_cons_self s false s₂ (.refl s) hstep rfl
        have hsame : Reading.output { s₂ with window.index := s.window.index } = s.output :=
          hframed.output
        obtain ⟨hfalse, hnone⟩ | ⟨htrue, other, hother, s₃, hreached, hmatch⟩ :=
          ih (fun before other hother => hlooks before other (List.mem_cons_of_mem _ hother)) hrest
        · exact Or.inl ⟨hfalse, hnone.trans hsame⟩
        · exact Or.inr ⟨htrue, other, List.mem_cons_of_mem _ hother, s₃,
            hreached.trans hsame, hmatch⟩

/-- A recognizer prints one thing after another and reads no scope into the
outline; or it recognizes a block, and the statement is as before. -/
theorem recognizer_moves {depth : Nat} {scope : Scope} {step : ReadM Bool}
    (hstep : step ∈ recognizers (nestUpTo readAllWith depth) scope) {s s' : Reading}
    (hrun : step s = .ok true s') :
    Outline.Moves s.output s'.output ∨ s'.outline.statement = s.outline.statement := by
  have hrestores := nestUpTo_restores depth
  have hkeeps : ∀ [ReadInvariant] (scope : Scope),
      Keeps false (nestUpTo readAllWith depth scope) :=
    readAllUpTo_keeps (fun _ => trivial) depth
  simp only [recognizers, List.mem_cons, List.not_mem_nil, or_false] at hstep
  rcases hstep with rfl | rfl | rfl | rfl | rfl | rfl | rfl | rfl | rfl
  · exact Or.inl (moves_of_prints (prints_of_keeps (Directive.read_prints scope)) hrun)
  · exact Or.inr (Namespace.readLinkageWith_restores hrestores scope s true s' hrun)
  · exact Or.inr (Namespace.readWith_restores hrestores scope s true s' hrun)
  · exact Or.inl (moves_of_prints (Enumeration.read_prints scope) hrun)
  · exact Or.inl (moves_of_prints (Class.readWith_prints hkeeps scope) hrun)
  · exact Or.inl (moves_of_prints (prints_of_keeps (Alias.readTypedef_prints scope)) hrun)
  · exact Or.inl (moves_of_prints (Alias.readUsing_prints scope) hrun)
  · exact Or.inl (moves_of_prints (prints_of_keeps (Function.read_prints scope)) hrun)
  · exact Or.inl (moves_of_prints (prints_of_keeps (Variable.read_prints scope)) hrun)

theorem setSpacing_output {spacing : String} {s s' : Reading}
    (h : setSpacing spacing s = .ok () s') : s'.output = s.output := by
  simp only [setSpacing] at h
  split at h
  · cases h
    rfl
  · cases h

/-- **What one pass prints.** -/
theorem readOne_moves {depth : Nat} {scope : Scope} {first : Token} {s s' : Reading}
    (h : readOne (nestUpTo readAllWith depth) scope first s = .ok () s') :
    Outline.Moves s.output s'.output ∨ s'.outline.statement = s.outline.statement := by
  obtain ⟨matched, s₁, htry, hrest⟩ := bind_eq_ok h
  have hlooks (before : Reading) (step : ReadM Bool)
      (hstep : step ∈ recognizers (nestUpTo readAllWith depth) scope) :
      LooksOnly before step (· = false) :=
    recognizers_looksOnly scope (nestUpTo readAllWith depth) step hstep
  obtain ⟨rfl, hsame⟩ | ⟨rfl, step, hstep, s₂, hsame, hrun⟩ := tryAll_eq_ok hlooks htry
  · -- an attribute: nothing is printed
    obtain ⟨t, s₂, hpeek, hrest⟩ := bind_eq_ok hrest
    obtain ⟨found, s₃, hread, hrest⟩ := bind_eq_ok hrest
    cases found with
    | none => cases hrest
    | some _ =>
        have hout : s'.output = s.output := by
          rw [setSpacing_output hrest, (framed_of_keeps Attribute.read_keeps hread).output,
            (framed_of_keeps peek_keeps hpeek).output, hsame]
        exact Or.inr (congrArg (·.2.statement) hout)
  · cases hrest
    obtain hmoves | hstatement := recognizer_moves hstep hrun
    · exact Or.inl (hsame ▸ hmoves)
    · exact Or.inr (hstatement.trans (congrArg (·.2.statement) hsame))

/-! ## Passes -/

/-- Reads what stands in front of a statement: its comment and its template
parameters. -/
def readFront (scope : Scope) : ReadM (String × Option TemplateMap) := do
  let comment ← Comment.takeBefore
  let spacing := (← peek).spacing
  let template ← TemplateMap.read scope
  if template.isSome then setSpacing spacing
  return (comment, template)

/-- Starts a statement in the outline, with its comment. -/
def openWith (scope : Scope) (comment : String) (template : Option TemplateMap) : ReadM Unit := do
  modifyOutline (·.beginStatement scope.inaccessible template)
  if !comment.isEmpty then let _ ← add (.ofComment comment)

/-- Reads what stands in front of a statement, and starts the statement. -/
def readOpening (scope : Scope) : ReadM (Option TemplateMap) := do
  let (comment, template) ← readFront scope
  openWith scope comment template
  return template

/-- The scope of a statement under these template parameters. -/
def under (scope : Scope) : Option TemplateMap → Scope
  | some map => { scope with template := some map }
  | none => scope

/-- A statement is what stands in front of it, and its passes. -/
theorem read_eq (readScope : Class.ScopeReader) (scope : Scope) :
    read readScope scope =
      readOpening scope >>= fun template =>
        readPasses readScope scope (under scope template) template := by
  unfold read readOpening readFront openWith
  simp only [bind_assoc]
  refine bind_congr fun comment => ?_
  refine bind_congr fun t => ?_
  refine bind_congr fun template => ?_
  cases template <;> by_cases hcomment : comment = "" <;> simp [under, hcomment]

/-- A statement starts with nothing held back. -/
theorem readOpening_statement {scope : Scope} {template : Option TemplateMap} {s s' : Reading}
    (h : readOpening scope s = .ok template s') :
    s'.outline.statement = { inaccessible := some scope.inaccessible, template } := by
  obtain ⟨⟨comment, map⟩, s₁, _, h⟩ := bind_eq_ok h
  obtain ⟨_, s₂, hopen, h⟩ := bind_eq_ok h
  cases h
  obtain ⟨_, s₃, hbegin, hopen⟩ := bind_eq_ok hopen
  cases hbegin
  split at hopen
  · obtain ⟨_, s₄, hadd, hopen⟩ := bind_eq_ok hopen
    cases hopen
    cases hadd
    exact Outline.add_statement_of_not_isTyped _ _ rfl
  · cases hopen
    rfl

theorem skipSemicolons_looks [LookInvariant] {raw : Bool} : Keeps raw skipSemicolons := by
  unfold skipSemicolons
  mvcgen

/-- A statement under a template, of which something has been held back. -/
structure Templated where
  /-- The scope around. -/
  around : Scope
  /-- How deep scopes inside may nest. -/
  depth : Nat
  map : TemplateMap
  owner : TemplateOwner
  start : Nat
  first : Token

namespace Templated

/-- A turn of the loop over the passes of the statement. -/
def pass (p : Templated) : ReadM (Turn Unit Unit) :=
  readPass (nestUpTo readAllWith p.depth) p.around (under p.around p.map) p.map p.start p.first

/-- All passes of the statement. -/
def passes (p : Templated) : ReadM Unit := do
  match ← p.pass with
  | .done () => pure ()
  | .again () => iterateUpTo (fun () => p.pass) (← outline).pending.length ()

/-- The parameters bound to these arguments, with what was held back as owner. -/
def bound (p : Templated) (arguments : List NativeType) : TemplateMap :=
  (p.map.bindAll arguments).withOwner p.owner

/-- The scope of an instance. -/
def scope (p : Templated) (arguments : List NativeType) : Scope :=
  { p.around with template := some (p.bound arguments) }

/-- Back at the start of the statement, for an instance. -/
def rewind (p : Templated) (arguments : List NativeType) (s : Reading) : Reading :=
  { s with
    window.index := p.start
    outline.statement.template := some (p.bound arguments) }

/-- The rule that waits first is served: it is taken from the queue, its name is
read in the scope around, and if that is a type with template arguments, the
statement is read again from its start with the parameters bound to them. -/
inductive Serves (p : Templated) (rule : Rule) (rules : List Rule) : Reading → Reading → Prop
  | skip {s s₁ : Reading} {type : Option NativeType}
      (hname : fragment rule.nativeName (NativeType.read p.around)
        { s with outline.statement.instances := some rules } = .ok type s₁)
      (hnone : type.bind (·.arguments) = none) : Serves p rule rules s s₁
  | pass {s s₁ s₂ s₃ : Reading} {type : Option NativeType} {arguments : List NativeType}
      (hname : fragment rule.nativeName (NativeType.read p.around)
        { s with outline.statement.instances := some rules } = .ok type s₁)
      (harguments : type.bind (·.arguments) = some arguments)
      (hone : readOne (nestUpTo readAllWith p.depth) (p.scope arguments) p.first
        (p.rewind arguments s₁) = .ok () s₂)
      (hskip : skipSemicolons s₂ = .ok () s₃) : Serves p rule rules s s₃

/-- The rules that wait are served one after another. -/
inductive ServesAll (p : Templated) : List Rule → Reading → Reading → Prop
  | nil {s : Reading} : ServesAll p [] s s
  | cons {rule : Rule} {rules : List Rule} {s s₁ s' : Reading}
      (h : Serves p rule rules s s₁) (hrest : ServesAll p rules s₁ s') :
      ServesAll p (rule :: rules) s s'

/-- These rules wait for their instances. -/
structure Waits (p : Templated) (rules : List Rule) (s : Reading) : Prop where
  owner : s.outline.statement.owner = some p.owner
  instances : s.outline.statement.instances = some rules

variable {p : Templated} {rule : Rule} {rules : List Rule} {s s' : Reading}

theorem nextInstance_of_waits (h : p.Waits (rule :: rules) s) :
    nextInstance? s = .ok (some rule) { s with outline.statement.instances := some rules } := by
  have hnext : s.outline.nextInstance? =
      some (rule, { s.outline with statement.instances := some rules }) := by
    simp [Outline.nextInstance?, h.instances]
  have houtline : outline s = .ok s.outline s := rfl
  rw [nextInstance?, bind_of_ok houtline, hnext]
  rfl

/-- Reading the name of an instance leaves the outline alone. -/
theorem outline_of_name {scope : Scope} {type : Option NativeType} {s s₁ : Reading}
    (h : fragment rule.nativeName (NativeType.read scope) s = .ok type s₁) :
    s₁.outline = s.outline :=
  (framed_of_keeps (fragment_keeps (NativeType.read_keepsInside scope)) h).outline

theorem nextPass_of_none {type : Option NativeType} {s₁ : Reading}
    (hwaits : p.Waits (rule :: rules) s)
    (hname : fragment rule.nativeName (NativeType.read p.around)
      { s with outline.statement.instances := some rules } = .ok type s₁)
    (hnone : type.bind (·.arguments) = none) :
    nextPass p.around (under p.around p.map) p.map p.start s = .ok .skip s₁ := by
  have hinstance : readInstance p.around p.map rule
      { s with outline.statement.instances := some rules } = .ok none s₁ := by
    unfold readInstance
    rw [bind_of_ok hname, hnone]
    rfl
  unfold nextPass
  dsimp only
  rw [bind_of_ok (nextInstance_of_waits hwaits)]
  dsimp only
  rw [bind_of_ok hinstance]
  rfl

theorem nextPass_of_some {type : Option NativeType} {arguments : List NativeType} {s₁ : Reading}
    (hwaits : p.Waits (rule :: rules) s)
    (hname : fragment rule.nativeName (NativeType.read p.around)
      { s with outline.statement.instances := some rules } = .ok type s₁)
    (harguments : type.bind (·.arguments) = some arguments) :
    nextPass p.around (under p.around p.map) p.map p.start s =
      .ok (.read (p.scope arguments)) (p.rewind arguments s₁) := by
  have howner : s₁.outline.statement.owner = some p.owner := by
    rw [outline_of_name hname]
    exact hwaits.owner
  have hinstance : readInstance p.around p.map rule
      { s with outline.statement.instances := some rules } =
        .ok (some (p.bound arguments))
          { s₁ with outline.statement.template := some (p.bound arguments) } := by
    unfold readInstance
    rw [bind_of_ok hname, harguments]
    have houtline : outline s₁ = .ok s₁.outline s₁ := rfl
    dsimp only
    rw [bind_of_ok houtline, howner]
    dsimp only
    rw [← howner]
    rfl
  unfold nextPass
  dsimp only
  rw [bind_of_ok (nextInstance_of_waits hwaits)]
  dsimp only
  rw [bind_of_ok hinstance]
  rfl

theorem nextPass_of_error {e : Failure} {s₁ : Reading} (hwaits : p.Waits (rule :: rules) s)
    (hname : fragment rule.nativeName (NativeType.read p.around)
      { s with outline.statement.instances := some rules } = .error e s₁) :
    nextPass p.around (under p.around p.map) p.map p.start s = .error e s₁ := by
  have hinstance : readInstance p.around p.map rule
      { s with outline.statement.instances := some rules } = .error e s₁ :=
    bind_of_error hname _
  unfold nextPass
  dsimp only
  rw [bind_of_ok (nextInstance_of_waits hwaits)]
  dsimp only
  rw [bind_of_error hinstance]

theorem Serves.waits (h : p.Serves rule rules s s') (hwaits : p.Waits (rule :: rules) s) :
    p.Waits rules s' := by
  cases h with
  | skip hname =>
      have houtline := outline_of_name hname
      exact ⟨houtline ▸ hwaits.owner, houtline ▸ rfl⟩
  | @pass s₁ s₂ _ _ arguments hname _ hone hskip =>
      have houtline := outline_of_name hname
      have hstatement : s₂.outline.statement =
          { s₁.outline.statement with template := some (p.bound arguments) } := by
        obtain hmoves | hsame := readOne_moves hone
        · have hsome : s₁.outline.statement.instances.isSome = true := houtline ▸ rfl
          exact Outline.Moves.statement_of_isSome hmoves hsome
        · exact hsame
      have hkept : s'.outline = s₂.outline :=
        (framed_of_keeps skipSemicolons_looks hskip).outline
      constructor
      · rw [hkept, hstatement, houtline]
        exact hwaits.owner
      · rw [hkept, hstatement, houtline]

/-- How the loop goes on while these rules wait. -/
def turnFor : List Rule → Turn Unit Unit
  | [] => .done ()
  | _ :: _ => .again ()

theorem endPass_eq (h : s.outline.hasInstances = !rules.isEmpty) :
    endPass s = .ok (turnFor rules) s := by
  have houtline : outline s = .ok s.outline s := rfl
  unfold endPass
  rw [bind_of_ok houtline, h]
  cases rules <;> rfl

theorem endPass_of_waits (h : p.Waits rules s) : endPass s = .ok (turnFor rules) s := by
  refine endPass_eq ?_
  simp [Outline.hasInstances, h.instances]

theorem pass_of_serves (hwaits : p.Waits (rule :: rules) s) (h : p.Serves rule rules s s') :
    p.pass s = .ok (turnFor rules) s' := by
  have hend := endPass_of_waits (h.waits hwaits)
  unfold pass readPass
  cases h with
  | skip hname hnone =>
      rw [bind_of_ok (nextPass_of_none hwaits hname hnone)]
      exact hend
  | pass hname harguments hone hskip =>
      rw [bind_of_ok (nextPass_of_some hwaits hname harguments)]
      dsimp only
      rw [bind_of_ok hone, bind_of_ok hskip]
      exact hend

theorem serves_of_pass {r : Turn Unit Unit} (hwaits : p.Waits (rule :: rules) s)
    (h : p.pass s = .ok r s') : p.Serves rule rules s s' ∧ r = turnFor rules := by
  unfold pass readPass at h
  cases hname : fragment rule.nativeName (NativeType.read p.around)
      { s with outline.statement.instances := some rules } with
  | error e s₁ =>
      rw [bind_of_error (nextPass_of_error hwaits hname)] at h
      cases h
  | ok type s₁ =>
      cases harguments : type.bind (·.arguments) with
      | none =>
          rw [bind_of_ok (nextPass_of_none hwaits hname harguments)] at h
          have hserves : p.Serves rule rules s s₁ := .skip hname harguments
          cases (endPass_of_waits (hserves.waits hwaits)).symm.trans h
          exact ⟨hserves, rfl⟩
      | some arguments =>
          rw [bind_of_ok (nextPass_of_some hwaits hname harguments)] at h
          obtain ⟨_, s₂, hone, h⟩ := bind_eq_ok h
          obtain ⟨_, s₃, hskip, h⟩ := bind_eq_ok h
          have hserves : p.Serves rule rules s s₃ := .pass hname harguments hone hskip
          cases (endPass_of_waits (hserves.waits hwaits)).symm.trans h
          exact ⟨hserves, rfl⟩

/-! ## The queue -/

/-- The loop, started with rules waiting, serves all of them. -/
theorem servesAll_of_iterateUpTo {n : Nat} (hwaits : p.Waits rules s) (hrules : rules ≠ [])
    (h : iterateUpTo (fun _ => p.pass) n () s = .ok () s') :
    p.ServesAll rules s s' := by
  induction rules generalizing n s with
  | nil => exact absurd rfl hrules
  | cons rule rules ih =>
      cases n with
      | zero => cases h
      | succ n =>
          obtain ⟨r, s₁, hpass, h⟩ := bind_eq_ok h
          obtain ⟨hserves, rfl⟩ := serves_of_pass hwaits hpass
          refine .cons hserves ?_
          cases rules with
          | nil =>
              cases h
              exact .nil
          | cons next rules => exact ih (hserves.waits hwaits) (List.cons_ne_nil _ _) h

/-- All rules that wait are served by as many turns of the loop. -/
theorem iterateUpTo_of_servesAll {n : Nat} (hwaits : p.Waits rules s) (hrules : rules ≠ [])
    (hn : rules.length ≤ n) (h : p.ServesAll rules s s') :
    iterateUpTo (fun _ => p.pass) n () s = .ok () s' := by
  induction h generalizing n with
  | nil => exact absurd rfl hrules
  | @cons rule rules s s₁ s' hserves hrest ih =>
      obtain ⟨n, rfl⟩ : ∃ m, n = m + 1 := Nat.exists_eq_add_one.mpr (by simp at hn; omega)
      unfold iterateUpTo
      rw [bind_of_ok (pass_of_serves hwaits hserves)]
      cases rules with
      | nil =>
          cases hrest
          rfl
      | cons next rules =>
          exact ih (hserves.waits hwaits) (List.cons_ne_nil _ _) (by simpa using hn)

/-! ## The pass that binds nothing -/

theorem nextPass_first (h : s.outline.statement.instances = none) :
    nextPass p.around (under p.around p.map) p.map p.start s =
      .ok (.read (under p.around p.map)) s := by
  have hnext : nextInstance? s = .ok none s := by
    have hqueue : s.outline.nextInstance? = none := by
      simp [Outline.nextInstance?, h]
    unfold nextInstance?
    have houtline : outline s = .ok s.outline s := rfl
    rw [bind_of_ok houtline, hqueue]
    rfl
  unfold nextPass
  dsimp only
  rw [bind_of_ok hnext]
  rfl

theorem pass_first {s₁ s₂ s₃ : Reading} (hnone : s₁.outline.statement.instances = none)
    (hone : readOne (nestUpTo readAllWith p.depth) (under p.around p.map) p.first s₁ = .ok () s₂)
    (hskip : skipSemicolons s₂ = .ok () s₃)
    (hhas : s₃.outline.hasInstances = !rules.isEmpty) :
    p.pass s₁ = .ok (turnFor rules) s₃ := by
  unfold pass readPass
  rw [bind_of_ok (nextPass_first hnone)]
  dsimp only
  rw [bind_of_ok hone, bind_of_ok hskip]
  exact endPass_eq hhas

/-- After the first pass what waits is served, and nothing else is read. -/
theorem passes_iff {s₁ : Reading} (hpass : p.pass s₁ = .ok (turnFor rules) s)
    (hwaits : rules ≠ [] → p.Waits rules s) :
    p.passes s₁ = .ok () s' ↔ p.ServesAll rules s s' := by
  unfold passes
  rw [bind_of_ok hpass]
  cases rules with
  | nil =>
      constructor
      · intro h
        cases h
        exact .nil
      · intro h
        cases h
        rfl
  | cons rule rules =>
      have hne := List.cons_ne_nil rule rules
      have houtline : outline s = .ok s.outline s := rfl
      have hcount : s.outline.pending = rule :: rules := by
        simp [Outline.pending, (hwaits hne).instances]
      simp only [turnFor]
      rw [bind_of_ok houtline, hcount]
      constructor
      · exact servesAll_of_iterateUpTo (hwaits hne) hne
      · exact iterateUpTo_of_servesAll (hwaits hne) hne (Nat.le_refl _)

end Templated

end Statement

/-- Arguments are bound by position; parameters without one keep what they have. -/
theorem TemplateFrame.bindAll_getElem? (parameters : List (String × Option NativeType))
    (types : List NativeType) (i : Nat) :
    (bindAll parameters types)[i]? =
      parameters[i]?.map fun (name, type) => (name, types[i]?.or type) := by
  induction parameters generalizing types i with
  | nil => simp [bindAll]
  | cons parameter parameters ih =>
      obtain ⟨name, type⟩ := parameter
      cases types with
      | nil => cases h : ((name, type) :: parameters)[i]? <;> simp [bindAll, h]
      | cons bound types =>
          cases i with
          | zero => simp [bindAll]
          | succ i => simpa [bindAll] using ih types i

namespace Statement

/-- If the first pass leaves an owner in the statement, it is no block and has
held something back. -/
theorem exists_heldBack {depth : Nat} {scope : Scope} {first : Token} {s₁ s₂ s₃ : Reading}
    (hnone : s₁.outline.statement.owner = none)
    (hone : readOne (nestUpTo readAllWith depth) scope first s₁ = .ok () s₂)
    (hskip : skipSemicolons s₂ = .ok () s₃)
    (hheld : s₃.outline.statement.owner.isSome = true) :
    Outline.Moves s₁.output s₃.output ∧
      ∃ moment d, Outline.HeldBack s₁.output s₃.output moment d := by
  have houtput : s₃.output = s₂.output :=
    (framed_of_keeps skipSemicolons_looks hskip).output
  have hchanged : s₃.outline.statement ≠ s₁.outline.statement := by
    intro heq
    simp [heq, hnone] at hheld
  obtain hmoves | hsame := readOne_moves hone
  · rw [← houtput] at hmoves
    obtain hsame | hback := Outline.Moves.heldBack hmoves
    · exact absurd hsame hchanged
    · exact ⟨hmoves, hback⟩
  · exact absurd ((congrArg (·.2.statement) houtput).trans hsame) hchanged

/-- **Instances follow the pass that binds nothing.** If the first pass of a
statement under a template holds something back, one declaration `d` was held
back when the rules and the outline were `moment`, and nothing with a type or a
declarator has been stored. The statement succeeds exactly if the rules for the
name of `d` at that moment, in order and each once, are served: the name of the
rule is read in the scope around, a rule without template arguments is passed
over, and for any other the statement is read once more from its start, with the
parameters bound to the arguments by position and `d` as their owner. -/
theorem read_serves_instances {depth : Nat} {scope : Scope} {map : TemplateMap} {first : Token}
    {s s₀ s₁ s₂ s₃ : Reading} (hopen : readOpening scope s = .ok (some map) s₀)
    (hfirst : peek s₀ = .ok first s₁)
    (hone : readOne (nestUpTo readAllWith depth) { scope with template := some map } first s₁ =
      .ok () s₂)
    (hskip : skipSemicolons s₂ = .ok () s₃)
    (hheld : s₃.outline.statement.owner.isSome = true) :
    ∃ moment d, Outline.HeldBack s₁.output s₃.output moment d ∧
      (s₃.outline.toList.filter (·.isTyped)).Sublist (s₁.outline.toList.filter (·.isTyped)) ∧
      let rules := moment.1.rules d.templateName
      let p : Templated := { around := scope, depth, map, owner := d.templateOwner
                             start := s₀.window.index, first }
      (∀ s', read (nestUpTo readAllWith depth) scope s = .ok () s' ↔
        p.ServesAll rules s₃ s') ∧
      ∀ arguments (i : Nat), (p.bound arguments).frame.parameters[i]? =
        map.frame.parameters[i]?.map fun parameter =>
          (parameter.1, arguments[i]?.or parameter.2) := by
  have hbegun : s₁.outline.statement =
      { inaccessible := some scope.inaccessible, template := some map } := by
    rw [(framed_of_keeps peek_keeps hfirst).outline, readOpening_statement hopen]
  obtain ⟨hmoves, moment, d, hback⟩ := exists_heldBack (by rw [hbegun]) hone hskip hheld
  have hunbound : s₁.outline.isUnbound = true := by
    have hthen := hback.unbound
    unfold Outline.isUnbound at hthen ⊢
    rwa [Outline.Moves.template hback.reached] at hthen
  refine ⟨moment, d, hback, Outline.Moves.typed_sublist hmoves hunbound, ?_⟩
  extract_lets rules p
  have hpass : p.pass s₁ = .ok (Templated.turnFor rules) s₃ :=
    Templated.pass_first (by rw [hbegun]) hone hskip hback.hasInstances
  have hwaits (hne : rules ≠ []) : p.Waits rules s₃ :=
    ⟨congrArg Statement.owner hback.statement, hback.instances hne⟩
  have hrun : read (nestUpTo readAllWith depth) scope s = p.passes s₁ := by
    have hcursor : cursor s₀ = .ok s₀.window.index s₀ := rfl
    rw [read_eq, bind_of_ok hopen]
    unfold readPasses
    rw [bind_of_ok hcursor, bind_of_ok hfirst]
    rfl
  rw [hrun]
  refine ⟨fun s' => Templated.passes_iff hpass hwaits, fun arguments i => ?_⟩
  exact TemplateFrame.bindAll_getElem? _ arguments i

/-- The cursor in front of a class template with three rules, one of which names
no instance. -/
def atTemplate : Reading :=
  let table := ({} : RuleTable).put { nativeNames := ["x<int>"], pointerTypes := some ["XI"] }
  let table := table.put { nativeNames := ["x"] }
  let table := table.put { nativeNames := ["x<A>"], pointerTypes := some ["XA"] }
  Reading.ofTokens table (Token.ofText none "template<class T> struct x;")

/-- Whether nothing is printed when the statement has been read once, and three
rules wait. -/
def holdsBackForThree (s : Reading) : Bool :=
  match readOpening {} s with
  | .ok (some map) s₀ =>
    match peek s₀ with
    | .ok first s₁ =>
      match readOne (nestUpTo readAllWith 0) { template := some map } first s₁ with
      | .ok () s₂ =>
        match skipSemicolons s₂ with
        | .ok () s₃ =>
          s₃.outline.statement.owner.isSome && s₃.outline.toList.length == 0 &&
            (s₃.outline.statement.instances.map List.length == some 3)
        | _ => false
      | _ => false
    | _ => false
  | _ => false

/-- Whether reading the statement prints two declarations. -/
def printsTwo (s : Reading) : Bool :=
  match read (nestUpTo readAllWith 0) {} s with
  | .ok () s' => s'.outline.toList.length == 2
  | _ => false

/-- Nothing is printed for the template itself, and one class for each of the
two rules that name an instance. -/
theorem read_serves_instances_atTemplate :
    ∃ map first s₀ s₁ s₂ s₃ s', readOpening {} atTemplate = .ok (some map) s₀ ∧
      peek s₀ = .ok first s₁ ∧
      readOne (nestUpTo readAllWith 0) { template := some map } first s₁ = .ok () s₂ ∧
      skipSemicolons s₂ = .ok () s₃ ∧
      read (nestUpTo readAllWith 0) {} atTemplate = .ok () s' ∧
      s₃.outline.toList.length = 0 ∧ s'.outline.toList.length = 2 ∧
      ∃ moment d, Outline.HeldBack s₁.output s₃.output moment d ∧
        (moment.1.rules d.templateName).length = 3 ∧
        Templated.ServesAll { around := {}, depth := 0, map, owner := d.templateOwner
                              start := s₀.window.index, first }
          (moment.1.rules d.templateName) s₃ s' := by
  obtain ⟨hrun, hall⟩ : holdsBackForThree atTemplate = true ∧ printsTwo atTemplate = true := by
    decide +kernel
  obtain ⟨s, hs⟩ : ∃ s, atTemplate = s := ⟨_, rfl⟩
  rw [hs] at hrun hall ⊢
  unfold holdsBackForThree at hrun
  unfold printsTwo at hall
  split at hrun
  next map s₀ hopen =>
    split at hrun
    next first s₁ hfirst =>
      split at hrun
      next s₂ hone =>
        split at hrun
        next s₃ hskip =>
          split at hall
          next s' hread =>
            simp only [Bool.and_eq_true] at hrun
            obtain ⟨⟨hheld, hempty⟩, hthree⟩ := hrun
            obtain ⟨moment, d, hback, _, hserves, _⟩ :=
              read_serves_instances hopen hfirst hone hskip hheld
            have hrules : (moment.1.rules d.templateName).length = 3 := by
              have hinstances : s₃.outline.statement.instances = Outline.waiting moment.1 d :=
                congrArg Statement.instances hback.statement
              rw [hinstances, Outline.waiting] at hthree
              split at hthree
              · cases hthree
              · exact Option.some.inj (eq_of_beq hthree)
            exact ⟨map, first, s₀, s₁, s₂, s₃, s', hopen, hfirst, hone, hskip, hread,
              eq_of_beq hempty, eq_of_beq hall, moment, d, hback, hrules, (hserves s').mp hread⟩
          · cases hall
        · cases hrun
      · cases hrun
    · cases hrun
  · cases hrun

end Statement

end HeaderPeers

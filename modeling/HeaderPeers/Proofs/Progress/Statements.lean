import HeaderPeers.Build
import HeaderPeers.Proofs.Progress.Classes
import HeaderPeers.Proofs.Progress.Members
import HeaderPeers.Proofs.ScopeLoop

/-!
# Reading a header ends

Each turn of the loop over the declarations of a scope ends behind the first token that it sees:
whatever is recognized has a token, and so has an attribute. Instances of a template are read from
the start of the statement, and pass it again.

- `Statement.readOne_ends` — one reading of a statement passes a token.
- `Statement.readPasses_ends` — as many readings as there are rules that wait.
-/

set_option mvcgen.warning false

namespace HeaderPeers

open Std.Do ReadM Reading

variable {s₀ : Reading}

attribute [local spec high] cursor

-- taking comments needs no evaluation
attribute [local irreducible] Comment.takeBefore Comment.takeAfter

attribute [local grind →] Token.isEof_of_is Token.isEof_of_isWord Token.isEof_of_isKeyword

namespace ReadM

/-- What is known of a step, and which step it was. -/
theorem Ends.and_run {α : Type} {step : ReadM α} {Q : α → Reading → Prop} (h : Ends s₀ step Q) :
    Ends s₀ step fun a s => Q a s ∧ step s₀ = .ok a s := by
  rw [ends_iff] at h ⊢
  split
  next a s hrun =>
    rw [hrun] at h
    exact ⟨h.1, h.2.1, h.2.2, hrun⟩
  next e s hrun =>
    rw [hrun] at h
    exact h

end ReadM

namespace Statement

variable {m : Nat} {readScope : Class.ScopeReader} {scope : Scope}

/-! ## One reading -/

theorem tryAll_ends {steps : List (ReadM Bool)}
    (h : ∀ step ∈ steps, ∀ s : Reading, s.Ready → s.rest ≤ m → Ends s step fun matched s' =>
      matched = true → s.window.index < s'.window.index) :
    ∀ s : Reading, s.Ready → s.rest ≤ m → Ends s (tryAll steps) fun matched s' =>
      if matched then s.window.index < s'.window.index else s'.window.index = s.window.index := by
  induction steps with
  | nil => exact fun s hs _ => Ends.pure hs.toSteady rfl
  | cons step steps ih =>
      intro s hs hm
      have hstep := h step List.mem_cons_self s hs hm
      have hsteps := ih fun other hother => h other (List.mem_cons_of_mem _ hother)
      unfold tryAll
      refine Ends.bind (attempt_ends hstep) fun matched s₁ hs₁ hto₁ hmatched => ?_
      cases matched with
      | true => exact Ends.pure hs₁ (hmatched rfl)
      | false =>
          have hindex : s₁.window.index = s.window.index := hmatched
          refine (hsteps s₁ (hto₁.ready hs hs₁) (by grind -linarith)).imp fun matched s₂ _ _ h => ?_
          rwa [hindex] at h

theorem recognizers_end (hread : Class.ReadsWithin m readScope) (hscope : scope.Named) :
    ∀ step ∈ recognizers readScope scope, ∀ s : Reading, s.Ready → s.rest ≤ m →
      Ends s step fun matched s' => matched = true → s.window.index < s'.window.index := by
  intro step hstep s hs hm
  simp only [recognizers, List.mem_cons, List.not_mem_nil, or_false] at hstep
  rcases hstep with rfl | rfl | rfl | rfl | rfl | rfl | rfl | rfl | rfl
  · exact Directive.read_ends hs scope
  · exact Namespace.readLinkageWith_ends hread hs hm scope hscope
  · exact Namespace.readWith_ends hread hs hm scope hscope
  · exact Enumeration.read_ends hs scope
  · exact Class.readWith_passes hread hs hm scope hscope
  · exact Alias.readTypedef_ends hs.toSteady hs.not_raw scope
  · exact Alias.readUsing_ends hs.toSteady scope
  · exact Function.read_ends hs.toSteady hs.not_raw scope hscope
  · exact Variable.read_ends hs.toSteady hs.not_raw scope

/-- **One reading of a statement passes a token.** -/
theorem readOne_ends (hread : Class.ReadsWithin m readScope) (hscope : scope.Named) (hs : s₀.Ready)
    (hm : s₀.rest ≤ m) (first : Token) :
    Ends s₀ (readOne readScope scope first) fun _ s => s₀.window.index < s.window.index := by
  have hall := tryAll_ends (recognizers_end hread hscope)
  unfold readOne
  refine Ends.bind (hall s₀ hs hm) fun matched s₁ hs₁ hto₁ hmatched => ?_
  cases matched with
  | true => exact Ends.pure hs₁ hmatched
  | false =>
      have hindex : s₁.window.index = s₀.window.index := hmatched
      refine Ends.intro fun P hP => ?_
      mvcgen
      all_goals grind -linarith

@[spec high]
theorem skipSemicolons_ends (hs : s₀.Steady) :
    Ends s₀ skipSemicolons fun _ _ => True := by
  unfold skipSemicolons
  refine iterate_ends (I := fun _ _ => True) (fun _ s => s.rest) hs trivial (by grind -linarith)
    fun _ s hs hto _ => ?_
  refine Ends.intro fun P hP => ?_
  mvcgen
  all_goals grind -linarith

/-! ## Readings of a statement -/

/-- Printing leaves the statement as it is unless something is held back. -/
theorem Moves.statement_of_template {a b : RuleTable × Outline} (h : Outline.Moves a b)
    (hnone : a.2.statement.template = none) : b.2.statement = a.2.statement := by
  obtain hsame | ⟨moment, d, hheld⟩ := Outline.Moves.heldBack h
  · exact hsame
  · have hunbound := hheld.unbound
    rw [Outline.isUnbound, Outline.Moves.template hheld.reached, hnone] at hunbound
    cases hunbound

variable {depth : Nat}

/-- One reading passes a token. It leaves the statement as it is where nothing can be held back. -/
theorem readPart_ends (hread : Class.ReadsWithin m (nestUpTo readAllWith depth))
    (hscope : scope.Named) (hs : s₀.Ready) (hm : s₀.rest ≤ m) (first : Token) :
    Ends s₀ (do
      readOne (nestUpTo readAllWith depth) scope first
      skipSemicolons) fun _ s => s₀.window.index < s.window.index ∧
        ((s₀.outline.statement.instances.isSome = true ∨ s₀.outline.statement.template = none) →
          s.outline.statement = s₀.outline.statement) := by
  refine Ends.bind (readOne_ends hread hscope hs hm first).and_run
    fun _ s₁ hs₁ _ ⟨hlt, hone⟩ => ?_
  refine (skipSemicolons_ends hs₁).and_run.imp fun _ s₂ _ hto ⟨_, hskip⟩ =>
    ⟨Nat.lt_of_lt_of_le hlt hto.index_le, fun hquiet => ?_⟩
  have hkept : s₂.outline = s₁.outline := (framed_of_keeps skipSemicolons_looks hskip).outline
  rw [hkept]
  obtain hmoves | hsame := readOne_moves hone
  · obtain hsome | hnone := hquiet
    · exact Outline.Moves.statement_of_isSome hmoves hsome
    · exact Moves.statement_of_template hmoves hnone
  · exact hsame

theorem named_under {around : Scope} (haround : around.Named) {template : Option TemplateMap}
    (htemplate : ∀ map, template = some map → map.Worded) : (under around template).Named := by
  cases template with
  | none => exact haround
  | some map =>
      rintro _ ⟨⟩
      exact (htemplate map rfl).binding?_eq_none

/-- The end of a pass looks at the rules that wait. -/
theorem endPass_eq_pending (s : Reading) :
    endPass s = .ok (if s.outline.pending = [] then .done () else .again ()) s := by
  have hhas : s.outline.hasInstances = !s.outline.pending.isEmpty := by
    unfold Outline.hasInstances Outline.pending
    cases s.outline.statement.instances <;> rfl
  rw [Templated.endPass_eq hhas]
  cases s.outline.pending <;> rfl

theorem endPass_ends (hs : s₀.Steady) :
    Ends s₀ endPass fun r s => s = s₀ ∧ (r = .again () → s.outline.pending ≠ []) := by
  rw [ends_iff, endPass_eq_pending]
  refine ⟨hs, .refl s₀, rfl, fun hagain hnone => ?_⟩
  rw [if_pos hnone] at hagain
  cases hagain

/-- The first reading of a statement, for which no rules wait. -/
theorem readPass_first_ends (hread : Class.ReadsWithin m (nestUpTo readAllWith depth))
    (hs : s₀.Ready) (hm : s₀.rest ≤ m) {around : Scope} {template : Option TemplateMap}
    (hscope : (under around template).Named) (start : Nat) (first : Token)
    (hinstances : s₀.outline.statement.instances = none)
    (htemplate : s₀.outline.statement.template = template) :
    Ends s₀ (readPass (nestUpTo readAllWith depth) around (under around template) template start
      first) fun r s => s₀.window.index < s.window.index ∧
        (r = .again () → template.isSome = true ∧ s.outline.pending ≠ []) := by
  have hpass : nextPass around (under around template) template start s₀ =
      .ok (.read (under around template)) s₀ := by
    cases template with
    | none => rfl
    | some map =>
        exact Templated.nextPass_first (p := { around, depth, map, owner := .type "", start, first })
          hinstances
  unfold readPass
  refine EndsIn.bind_ok hpass ?_
  dsimp only
  rw [← bind_assoc]
  refine Ends.bind (readPart_ends hread hscope hs hm first) fun _ s₁ hs₁ _ ⟨hlt, hquiet⟩ => ?_
  refine (endPass_ends hs₁).imp fun r s _ _ ⟨hsame, hpending⟩ => ?_
  subst hsame
  refine ⟨hlt, fun hagain => ⟨?_, hpending hagain⟩⟩
  -- without template parameters nothing is held back
  by_contra hnone
  rw [Bool.not_eq_true, Option.isSome_eq_false_iff, Option.isNone_iff_eq_none] at hnone
  have hstatement := hquiet (.inr (htemplate.trans hnone))
  exact hpending hagain (by simp [Outline.pending, hstatement, hinstances])

theorem worded_bindAll {map : TemplateMap} (h : map.Worded) (arguments : List NativeType) :
    (map.bindAll arguments).Worded where
  names p hp := by
    obtain ⟨i, hi⟩ := List.mem_iff_getElem?.mp hp
    have hat : (TemplateFrame.bindAll map.frame.parameters arguments)[i]? = some p := hi
    rw [TemplateFrame.bindAll_getElem?, Option.map_eq_some_iff] at hat
    obtain ⟨q, hq, rfl⟩ := hat
    exact h.names q (List.mem_of_getElem? hq)
  outer := h.outer

theorem worded_withOwner {map : TemplateMap} (h : map.Worded) (owner : TemplateOwner) :
    (map.withOwner owner).Worded :=
  ⟨h.names, h.outer⟩

/-- Finding out what an instance binds moves nothing, and all rules go on waiting. -/
theorem readInstance_ends (hs : s₀.Steady) (around : Scope) {map : TemplateMap}
    (hmap : map.Worded) (rule : Rule) :
    Ends s₀ (readInstance around map rule) fun bound s => s.window.index = s₀.window.index ∧
      s.outline.statement.instances = s₀.outline.statement.instances ∧
        ∀ map, bound = some map → map.Worded := by
  have hname : Ends s₀ (fragment rule.nativeName (NativeType.read around)) fun _ s =>
      s.window.index = s₀.window.index :=
    fragment_ends hs fun s hs _ => (NativeType.read_ends hs around).imp fun _ _ _ _ _ => trivial
  unfold readInstance
  refine Ends.bind hname.and_run fun type s₁ hs₁ _ ⟨hindex, hrun⟩ => ?_
  have houtline := Templated.outline_of_name hrun
  cases harguments : type.bind (·.arguments) with
  | none => exact Ends.pure hs₁ ⟨hindex, by rw [houtline], by simp⟩
  | some arguments =>
      have hbound := worded_bindAll hmap arguments
      dsimp only
      refine EndsIn.bind_ok (s := s₁) rfl (EndsIn.bind_ok rfl
        (EndsIn.pure ⟨hs₁.plain, hs₁.sound, hs₁.fuel⟩ (.of_window_eq rfl) ⟨hindex, ?_, ?_⟩))
      · exact congrArg (·.statement.instances) houtline
      · rintro _ ⟨⟩
        split
        · exact worded_withOwner hbound _
        · exact hbound

/-- Another reading takes the rule that waits first, and starts where the statement does. -/
theorem nextPass_ends {b : Reading} (hs : s₀.Steady) (hto : b.To s₀) {around : Scope}
    {map : TemplateMap} (hmap : map.Worded) (scope : Scope) {rule : Rule} {rules : List Rule}
    (hinstances : s₀.outline.statement.instances = some (rule :: rules)) :
    EndsIn b s₀ (nextPass around scope (some map) b.window.index) fun pass s =>
      s.outline.statement.instances = some rules ∧
        match pass with
        | .skip => s.window.index = s₀.window.index
        | .read scope => s.window.index = b.window.index ∧ scope.Named := by
  let s₁ : Reading := { s₀ with outline.statement.instances := some rules }
  have hs₁ : s₁.Steady := ⟨hs.plain, hs.sound, hs.fuel⟩
  have hto₁ : b.To s₁ := hto.trans (.of_window_eq rfl)
  have hnext : nextInstance? s₀ = .ok (some rule) s₁ := by
    have htake : s₀.outline.nextInstance? = some (rule, s₁.outline) := by
      simp [Outline.nextInstance?, hinstances, s₁]
    unfold nextInstance?
    rw [bind_of_ok (show ReadM.outline s₀ = .ok s₀.outline s₀ from rfl), htake]
    rfl
  unfold nextPass
  dsimp only
  refine EndsIn.bind_ok hnext (EndsIn.bind_ends hto₁ (readInstance_ends hs₁ around hmap rule)
    fun bound s₂ hs₂ hto₂ hread => ?_)
  obtain ⟨hindex, hkept, hbound⟩ := hread
  have hto₂ := hto₁.trans hto₂
  cases bound with
  | none => exact EndsIn.pure hs₂ hto₂ ⟨hkept, hindex⟩
  | some bound =>
      refine EndsIn.moveTo_bind (EndsIn.pure (hs₂.atIndex _) (To.atIndex hto₂ (Nat.le_refl _))
        ⟨hkept, rfl, ?_⟩)
      rintro _ ⟨⟩
      exact (hbound bound rfl).binding?_eq_none

/-- Another reading of a statement, for the rule that waits first. -/
theorem readPass_again_ends {b : Reading}
    (hread : Class.ReadsWithin m (nestUpTo readAllWith depth)) (hs : s₀.Steady) (hb : b.Ready)
    (hto : b.To s₀) (hm : b.rest ≤ m) {around : Scope} {map : TemplateMap} (hmap : map.Worded)
    (scope : Scope) (first : Token) {rule : Rule} {rules : List Rule}
    (hinstances : s₀.outline.statement.instances = some (rule :: rules)) :
    EndsIn b s₀ (readPass (nestUpTo readAllWith depth) around scope (some map) b.window.index first)
      fun r s => (b.window.index < s₀.window.index → b.window.index < s.window.index) ∧
        s.outline.statement.instances = some rules ∧ (r = .again () → rules ≠ []) := by
  have hend {s : Reading} (hs : s.Steady) (hto : b.To s)
      (hrules : s.outline.statement.instances = some rules)
      (hlt : b.window.index < s₀.window.index → b.window.index < s.window.index) :
      EndsIn b s endPass fun r s =>
        (b.window.index < s₀.window.index → b.window.index < s.window.index) ∧
          s.outline.statement.instances = some rules ∧ (r = .again () → rules ≠ []) := by
    refine EndsIn.imp (endPass_ends hs) fun r s' _ hto' hpass => ?_
    obtain ⟨rfl, hpending⟩ := hpass
    refine ⟨hto, hlt, hrules, fun hagain => ?_⟩
    simpa [Outline.pending, hrules] using hpending hagain
  unfold readPass
  refine EndsIn.bind (nextPass_ends hs hto hmap scope hinstances)
    fun pass s₁ hs₁ hto₁ hnext => ?_
  obtain ⟨hrules, hpass⟩ := hnext
  cases pass with
  | skip => exact hend hs₁ hto₁ hrules fun hlt => hpass ▸ hlt
  | read scope =>
      obtain ⟨hindex, hnamed⟩ := hpass
      have hrest : s₁.rest ≤ m := by grind -linarith
      dsimp only
      rw [← bind_assoc]
      refine EndsIn.bind_ends hto₁ (readPart_ends hread hnamed (hto₁.ready hb hs₁) hrest first)
        fun _ s₂ hs₂ hto₂ hpart => ?_
      obtain ⟨hlt, hquiet⟩ := hpart
      have hstatement := hquiet (.inl (by rw [hrules]; rfl))
      exact hend hs₂ (hto₁.trans hto₂) (by rw [hstatement, hrules]) fun _ => hindex ▸ hlt

/-- **A statement ends.** It is read once, and once more for each rule that waits then; each reading
passes a token. -/
theorem readPasses_ends (hread : Class.ReadsWithin m (nestUpTo readAllWith depth))
    (hs : s₀.Ready) (hm : s₀.rest ≤ m) {around : Scope} (haround : around.Named)
    {template : Option TemplateMap} (hworded : ∀ map, template = some map → map.Worded)
    (hinstances : s₀.outline.statement.instances = none)
    (htemplate : s₀.outline.statement.template = template) :
    Ends s₀ (readPasses (nestUpTo readAllWith depth) around (under around template) template)
      fun _ s => s₀.window.index < s.window.index := by
  have hscope := named_under haround hworded
  unfold readPasses
  refine EndsIn.cursor_bind ?_
  refine Ends.bind (peek_ends hs.toSteady).and_run fun first s₁ hs₁ hto₁ ⟨hpeek, hrun⟩ => ?_
  have houtline : s₁.outline = s₀.outline := (framed_of_keeps peek_keeps hrun).outline
  have hready := hto₁.ready hs hs₁
  have hrest : s₁.rest ≤ m := by grind -linarith
  rw [← hpeek.1]
  refine EndsIn.bind (readPass_first_ends hread hready hrest hscope s₁.window.index first
    (by rw [houtline, hinstances]) (by rw [houtline, htemplate]))
    fun r s₂ hs₂ hto₂ ⟨hlt, hagain⟩ => ?_
  cases r with
  | done _ => exact EndsIn.pure hs₂ hto₂ hlt
  | again _ =>
      obtain ⟨hsome, hpending⟩ := hagain rfl
      obtain ⟨map, rfl⟩ := Option.isSome_iff_exists.mp hsome
      refine EndsIn.bind_ok (s := s₂) rfl ?_
      -- rules wait before each turn, one fewer each time
      refine iterateUpTo_ends (I := fun _ s => s₁.window.index < s.window.index ∧
        s.outline.pending ≠ []) (fun _ s => s.outline.pending.length - 1)
        (fun _ s hs hto ⟨hlt, hpending⟩ => ?_) _ () s₂ hs₂ hto₂ ⟨hlt, hpending⟩ ?_
      · obtain ⟨rule, rules, hrules⟩ : ∃ rule rules,
            s.outline.statement.instances = some (rule :: rules) := by
          unfold Outline.pending at hpending
          cases h : s.outline.statement.instances with
          | none => simp [h] at hpending
          | some rules =>
              cases rules with
              | nil => simp [h] at hpending
              | cons rule rules => exact ⟨rule, rules, rfl⟩
        refine EndsIn.imp (readPass_again_ends hread hs hready hto hrest (hworded map rfl) _ first
          hrules) fun r s' _ hto' ⟨hlt', hrules', hagain⟩ => ⟨hto', ?_⟩
        cases r with
        | done _ => exact hlt' hlt
        | again _ =>
            have hne := hagain rfl
            have hleft : s'.outline.pending = rules := by simp [Outline.pending, hrules']
            have hwaiting : s.outline.pending = rule :: rules := by
              simp [Outline.pending, hrules]
            refine ⟨⟨hlt' hlt, hleft ▸ hne⟩, ?_⟩
            have hpos := List.length_pos_iff.mpr hne
            simp only [hleft, hwaiting, List.length_cons]
            omega
      · have hpos := List.length_pos_iff.mpr hpending
        omega

/-- What stands in front of a statement is behind the comments. -/
theorem readOpening_ends (hs : s₀.Ready) (hscope : scope.Named) :
    Ends s₀ (readOpening scope) fun template s =>
      Comment.behindRun s₀ ≤ s.window.index ∧ ∀ map, template = some map → map.Worded := by
  have hraw := hs.not_raw
  unfold readOpening readFront openWith
  refine Ends.intro fun P hP => ?_
  mvcgen
  all_goals grind -linarith

/-- **A statement passes a token behind the comments.** -/
theorem read_ends (hread : Class.ReadsWithin m (nestUpTo readAllWith depth)) (hs : s₀.Ready)
    (hm : s₀.rest ≤ m) (hscope : scope.Named) :
    Ends s₀ (read (nestUpTo readAllWith depth) scope) fun _ s =>
      Comment.behindRun s₀ < s.window.index := by
  rw [read_eq]
  refine Ends.bind (readOpening_ends hs hscope).and_run
    fun template s₁ hs₁ hto₁ ⟨⟨hbehind, hworded⟩, hrun⟩ => ?_
  have hstatement := readOpening_statement hrun
  refine (readPasses_ends hread (hto₁.ready hs hs₁) (by grind -linarith) hscope hworded
    (by rw [hstatement]) (by rw [hstatement])).imp fun _ _ _ _ hlt => ?_
  exact Nat.lt_of_le_of_lt hbehind hlt

end Statement

/-! ## The first token that is seen -/

namespace Reading

variable {s s' : Reading} {j : Nat}

/-- The position of the first visible token from the cursor on. -/
def visibleAt? (s : Reading) : Option Nat :=
  (s.window.position s.bound s.table 0).map (·.1)

/-- The visible token in this position is the next one, and is not the end. -/
def Sights (s : Reading) (j : Nat) : Prop :=
  Window.Faces s.window.tokens s.window.index j ∧ (Window.tokenAt s.window.tokens j).isEof = false

/-- What has been seen stays until the cursor passes it. -/
theorem To.sights (h : s.To s') (hsights : s.Sights j)
    (hindex : s'.window.index = s.window.index) : s'.Sights j := by
  obtain ⟨hfaces, hkind, -⟩ := h.thins.faces _ (Nat.le_refl _) j hsights.1
  refine ⟨hindex ▸ hfaces, ?_⟩
  have heof := hsights.2
  rwa [Token.isEof, ← hkind] at heof

grind_pattern To.sights => s.To s', s.Sights j

/-- Behind the comments is the first visible token. -/
theorem Sights.behindRun_eq (h : s.Sights j) : Comment.behindRun s = j := by
  obtain ⟨hle, hbefore⟩ := Comment.comments_runStart s.window.tokens s.window.index
  obtain ⟨hrun, hstops⟩ := Comment.comments_runFrom s.window.tokens
    (Comment.runStart s.window.tokens s.window.index)
  have hlow := Comment.le_behindRun s
  obtain hlt | heq | hgt := Nat.lt_trichotomy (Comment.behindRun s) j
  · exact absurd (h.1.comments _ hlow hlt) hstops
  · exact heq
  · exact absurd (hrun j (hle.trans h.1.le) hgt) h.1.stops

end Reading

namespace ReadM

/-- Looking finds the first visible token. -/
theorem peek_sights (hs : s₀.Ready) :
    ∃ j, s₀.visibleAt? = some j ∧ Ends s₀ peek fun t s => s.window.index = s₀.window.index ∧
      (t.isEof = false → s.Live) ∧ (t.isEof = false → s.Sights j) := by
  obtain ⟨i, w, hposition, hindex, hraw, hthins, -, -, hfaces⟩ := exists_position hs.toSteady 0
  refine ⟨i, by simp [visibleAt?, hposition], ?_⟩
  refine (peek_ends hs.toSteady).and_run.imp fun t s _ _ ⟨⟨hsame, hlive, _⟩, hrun⟩ => ?_
  simp only [peek, peekAt, Window.get, hposition, Option.map_some] at hrun
  cases hrun
  exact ⟨hsame, hlive, fun ht => ⟨hindex ▸ (hfaces hs.not_raw).2.1 (Int.le_refl 0), ht⟩⟩

/-- Going on passes the first visible token. -/
theorem advance_sights (hs : s₀.Steady) (hraw : s₀.window.raw = false) :
    Ends s₀ advance fun t s => (s₀.Live → s₀.window.index < s.window.index) ∧
      (t.isEof = false → s.Live) ∧ ∀ j, s₀.Sights j → j < s.window.index := by
  obtain ⟨i, w, hposition, -⟩ := exists_position hs 1
  refine (advance_ends hs).and_run.imp fun t s _ _ ⟨⟨hlt, hlive, _⟩, hrun⟩ =>
    ⟨hlt, hlive, fun j hsights => ?_⟩
  simp only [advance, Window.next, hposition, Option.map_some] at hrun
  cases hrun
  simp only [Window.position, hraw, Bool.false_eq_true, if_false, Option.map_eq_some_iff] at hposition
  obtain ⟨⟨tokens, k⟩, hseek, heq⟩ := hposition
  obtain ⟨rfl, -⟩ := Prod.mk.inj heq
  exact Window.lt_of_seek_next hs.plain _ _ hsights.1 (lt_of_not_isEof_tokenAt hsights.2) hseek

end ReadM

namespace Statement

variable {m depth j : Nat} {scope : Scope}

attribute [local spec high] advance_sights

theorem isEof_of_isAnyKeyword {t : Token} {words : List Keyword}
    (h : t.isAnyKeyword words = true) : t.isEof = false :=
  Token.isEof_of_isWord (Token.isWord_of_isKeywordWith h)

/-- Labels in front of a statement are passed, or nothing is. -/
theorem readAccess_ends (hs : s₀.Steady) (hraw : s₀.window.raw = false) (hscope : scope.Named)
    {t : Token} (hlive : t.isEof = false → s₀.Live) (ht : s₀.Sights j) :
    Ends s₀ (readAccess scope t) fun inner s =>
      inner.Named ∧ (s.window.index = s₀.window.index ∨ j < s.window.index) := by
  unfold readAccess
  refine iterate_ends (I := fun state s => state.1.Named ∧
      ((Carries.token state).isEof = false → s.Live) ∧
      (s.window.index = s₀.window.index ∨ j < s.window.index)) (fun _ s => s.rest) hs
    ⟨hscope, hlive, .inl rfl⟩ (by grind -linarith) fun (inner, t) s hs hto ⟨hnamed, hlive, hat⟩ => ?_
  have hlabel (b : Bool) : Scope.Named { inner with inaccessible := b } := hnamed
  have hbool (b : Bool) : toBool b = b := rfl
  refine Ends.intro fun P hP => ?_
  mvcgen [andM, -andM_keeps, -advance_ends]
  all_goals grind -linarith [isEof_of_isAnyKeyword]

/-- What is known of a turn that does not end the loop: the cursor is behind the first token that
was visible, and reading can go on. -/
def Onward (s : Reading) (r : Turn Scope Unit) (s' : Reading) : Prop :=
  match r with
  | .again scope => scope.Named ∧ s'.rest < s.rest ∧ ∃ i, s.visibleAt? = some i ∧ i < s'.window.index
  | .done () => True

theorem scopeTurn_ends (hread : Class.ReadsWithin m (nestUpTo readAllWith depth)) (hs : s₀.Ready)
    (hm : s₀.rest ≤ m) (hscope : scope.Named) :
    Ends s₀ (scopeTurn (nestUpTo readAllWith depth) scope) (Onward s₀) := by
  obtain ⟨j, hvisible, hpeek⟩ := peek_sights hs
  unfold scopeTurn
  refine Ends.bind hpeek fun t s₁ hs₁ hto₁ ⟨hindex, hlive, hsights⟩ => ?_
  split
  · exact Ends.pure hs₁ trivial
  next hgoes =>
    have heof : t.isEof = false := Token.not_isEof_of_or hgoes
    have hready := hto₁.ready hs hs₁
    have hfront := hsights heof
    refine Ends.bind (readAccess_ends hs₁ hready.not_raw hscope hlive hfront)
      fun inner s₂ hs₂ hto₂ ⟨hnamed, hat⟩ => ?_
    have hbehind : j ≤ Comment.behindRun s₂ := by
      obtain hsame | hlt := hat
      · exact (hto₂.sights hfront hsame).behindRun_eq.ge
      · exact hlt.le.trans (Comment.le_behindRun s₂)
    refine Ends.bind (read_ends hread (hto₂.ready hready hs₂) (by grind -linarith) hnamed)
      fun _ s₃ hs₃ hto₃ hlt => Ends.pure hs₃ ⟨hnamed, ?_, j, hvisible, hbehind.trans_lt hlt⟩
    have hlive₁ := hlive heof
    have hle := hfront.1.le
    grind -linarith

theorem readLastComment_ends (hs : s₀.Steady) :
    Ends s₀ readLastComment fun _ _ => True := by
  unfold readLastComment
  refine Ends.bind (Comment.takeBefore_ends hs) fun comment s₁ hs₁ _ _ => ?_
  split
  · exact Ends.bind (add_ends hs₁ _) fun _ _ hs₂ _ _ => Ends.pure hs₂ trivial
  · exact Ends.pure hs₁ trivial

/-- A scope ends: each turn leaves fewer tokens. -/
theorem readAllWith_ends (hread : Class.ReadsWithin m (nestUpTo readAllWith depth)) (hs : s₀.Ready)
    (hm : s₀.rest ≤ m) (hscope : scope.Named) :
    Ends s₀ (readAllWith (nestUpTo readAllWith depth) scope) fun _ _ => True := by
  have hturns {s : Reading} (hs : s.Ready) (hm : s.rest ≤ m) :
      Ends s (iterate scope (scopeTurn (nestUpTo readAllWith depth))) fun _ _ => True := by
    refine iterate_ends (I := fun inner _ => inner.Named) (fun _ s => s.rest) hs.toSteady hscope
      (by grind -linarith) fun inner s' hs' hto hnamed => ?_
    refine (scopeTurn_ends hread (hto.ready hs hs') (by grind -linarith) hnamed).imp
      fun r s'' _ _ h => ?_
    cases r with
    | again _ => exact ⟨h.1, h.2.1⟩
    | done _ => trivial
  have hopened : (opened s₀).Ready :=
    ⟨⟨hs.plain, hs.sound, hs.fuel⟩, hs.not_raw, hs.undefining⟩
  have hto : s₀.To (opened s₀) := .of_window_eq rfl
  replace hm : (opened s₀).rest ≤ m := hm
  have hrun : readAllWith (nestUpTo readAllWith depth) scope s₀ =
      (iterate scope (scopeTurn (nestUpTo readAllWith depth)) >>= fun _ =>
        readLastComment >>= fun _ =>
          modifyOutline fun o => { o with statement := s₀.outline.statement }) (opened s₀) := by
    change (iterate scope (scopeTurn (nestUpTo readAllWith depth)) >>= _) (opened s₀) = _
    rfl
  rw [ends_iff, hrun]
  generalize opened s₀ = s at hopened hto hm ⊢
  refine endsIn_iff.mp (EndsIn.of_ends hto (Ends.bind (hturns hopened hm)
    fun _ s₁ hs₁ _ _ => ?_))
  refine Ends.bind (readLastComment_ends hs₁) fun _ s₂ hs₂ _ _ => ?_
  exact (modifyOutline_ends hs₂ _).imp fun _ _ _ _ _ => trivial

/-- **Scopes inside scopes end.** -/
theorem readsWithin (depth : Nat) : Class.ReadsWithin depth (nestUpTo readAllWith depth) := by
  induction depth with
  | zero => exact fun _ _ _ _ hlt => absurd hlt (Nat.not_lt_zero _)
  | succ depth ih =>
      exact fun scope s hs hscope hlt => readAllWith_ends ih hs (Nat.le_of_lt_succ hlt) hscope

/-- A text without definitions, read with rules that hold none, is read to the end. -/
theorem ready_ofText {table : RuleTable} (htable : table.Plain) (file : Option String)
    {text : String} (htext : Undefining (Token.ofText file text)) (outline : Outline) :
    Ready { Reading.ofTokens table (Token.ofText file text) with outline } where
  plain := htable
  sound := Token.sound_scan _ _ _ _
  fuel := by
    have hfuel : 1000000 ≤ fuelFor (Token.ofText file text) := Nat.le_add_right _ _
    exact Nat.le_trans (by decide) hfuel
  not_raw := rfl
  undefining := by
    simpa [Reading.Undefining, Reading.ofTokens, Window.ofTokens] using htext

/-- **Reading a scope ends.** -/
theorem readAll_ne_exhausted {s : Reading} (hs : s.Ready) (hscope : scope.Named) (s' : Reading) :
    readAll scope s ≠ .error .exhausted s' := by
  have hrest : s.rest < s.bound := by
    have hs := hs.toSteady
    grind -linarith
  have hrun := ends_iff.mp (readsWithin s.bound scope s hs hscope hrest)
  intro hexhausted
  have heq : readAll scope s = nestUpTo readAllWith s.bound scope s := rfl
  rw [← heq, hexhausted] at hrun
  exact hrun rfl

/-- **The loop over the declarations of a scope goes on.** The text has no definitions, no rule holds
one, and the scope binds no type to a template parameter without a name. Then the same holds in
every state that reading gets to; each turn of the loop that does not fail and does not end it
leaves the cursor behind the first token that was visible, for this scope and for the scopes
inside; and reading the text ends. -/
theorem loop_progresses {table : RuleTable} (htable : table.Plain) (file : Option String)
    {text : String} (htext : Undefining (Token.ofText file text)) (outline : Outline)
    {scope : Scope} (hscope : scope.Named) :
    let start : Reading := { Reading.ofTokens table (Token.ofText file text) with outline }
    start.Ready ∧
    (∀ (depth : Nat) (inner : Scope) (s : Reading), s.Ready → inner.Named → s.rest ≤ depth →
      match scopeTurn (nestUpTo readAllWith depth) inner s with
      | .ok (.again inner') s' => s'.Ready ∧ inner'.Named ∧ s'.rest < s.rest ∧
          ∃ i, s.visibleAt? = some i ∧ i < s'.window.index
      | .ok (.done ()) _ => True
      | .error e _ => e ≠ .exhausted) ∧
    ∀ s, readAll scope start ≠ .error .exhausted s := by
  intro start
  have hstart : start.Ready := ready_ofText htable file htext outline
  refine ⟨hstart, fun depth inner s hs hinner hdepth => ?_, readAll_ne_exhausted hstart hscope⟩
  have hturn := ends_iff.mp (scopeTurn_ends (readsWithin depth) hs hdepth hinner)
  cases hrun : scopeTurn (nestUpTo readAllWith depth) inner s with
  | error e s' =>
      rw [hrun] at hturn
      exact hturn
  | ok r s' =>
      rw [hrun] at hturn
      obtain ⟨hs', hto, honward⟩ := hturn
      cases r with
      | done _ => trivial
      | again inner' => exact ⟨hto.ready hs hs', honward⟩

/-- Where the cursor is after a turn behind which the loop goes on. -/
def againAt? : EStateM.Result Failure Reading (Turn Scope Unit) → Option Nat
  | .ok (.again _) s => some s.window.index
  | _ => none

theorem exists_again {r : EStateM.Result Failure Reading (Turn Scope Unit)} {i : Nat}
    (h : againAt? r = some i) : ∃ scope s, r = .ok (.again scope) s ∧ s.window.index = i := by
  unfold againAt? at h
  split at h
  next scope s => exact ⟨scope, s, rfl, Option.some.inj h⟩
  · cases h

theorem undefining_of_all {ts : List Token} (h : ts.all (fun t => !t.isKeyword .define_) = true) :
    Undefining ts := by
  rw [List.all_eq_true] at h
  refine List.isChain_iff_getElem.mpr fun i hi hdefine => ?_
  have hword := h _ (List.getElem_mem hi)
  simp [hdefine.2] at hword

/-- The comment in front of the first variable is passed as well. -/
theorem loop_progresses_atComment :
    let text := "/* */int a;"
    let start : Reading := .ofTokens {} (Token.ofText none text)
    Undefining (Token.ofText none text) ∧ Scope.Named {} ∧ RuleTable.Plain {} ∧
      (∃ inner s, scopeTurn (nestUpTo readAllWith 9) {} start = .ok (.again inner) s ∧
        start.visibleAt? = some 1 ∧ 1 < s.window.index) ∧
      ∀ s, readAll {} start ≠ .error .exhausted s := by
  intro text start
  have htext : Undefining (Token.ofText none text) := undefining_of_all (by decide +kernel)
  have hscope : Scope.Named {} := by
    rintro _ ⟨⟩
  have htable : RuleTable.Plain {} := by
    simp [RuleTable.Plain, RuleTable.layers, Layer.Plain, Layer.find?]
  obtain ⟨hready, hturns, hends⟩ := loop_progresses htable none htext {} hscope
  refine ⟨htext, hscope, htable, ?_, hends⟩
  have hturn := hturns 9 {} start hready hscope (by decide +kernel)
  have hvisible : start.visibleAt? = some 1 := by
    decide +kernel
  obtain ⟨inner, s, hrun, -⟩ := exists_again (i := 4)
    (r := scopeTurn (nestUpTo readAllWith 9) {} start) (by decide +kernel)
  rw [hrun] at hturn
  obtain ⟨-, -, -, i, hi, hlt⟩ := hturn
  obtain rfl := Option.some.inj (hvisible.symm.trans hi)
  exact ⟨inner, s, hrun, hvisible, hlt⟩

/-- A type is bound to a parameter without a name, and so a type without tokens is that of the
class around. -/
def namelessScope : Scope :=
  { group := some (.named "Foo")
    template := some { frame := { parameters := [("", some (.named "Foo")), ("T", some {})] } } }

/-- Parameters whose first group is left out when they are read for the first time, and whose second
group when they are read for the second time. -/
def regroupedText : String :=
  "/* c */(I a(W(#if 0\n)T)#endif)),I a(W(#if 0\n)T)#endif)),T);"

def regrouped : Reading :=
  .ofTokens (RuleTable.put {} { nativeNames := ["W"], annotations := some ["@W"] })
    (Token.ofText none regroupedText)

/-- Where no token makes a constructor, its variants may find no parameters although its first
reading did. A function has been recognized then, and the cursor is where it was. -/
theorem loop_stays_atNameless :
    regrouped.table.Plain ∧ Undefining (Token.ofText none regroupedText) ∧
      ∃ inner s, scopeTurn (nestUpTo readAllWith 99) namelessScope regrouped = .ok (.again inner) s ∧
        regrouped.visibleAt? = some 1 ∧ s.window.index = 1 := by
  have hempty : RuleTable.Plain {} := by
    simp [RuleTable.Plain, RuleTable.layers, Layer.Plain, Layer.find?]
  have hvisible : regrouped.visibleAt? = some 1 := by
    decide +kernel
  have hstays : againAt? (scopeTurn (nestUpTo readAllWith 99) namelessScope regrouped) = some 1 := by
    decide +kernel
  obtain ⟨inner, s, hrun, hindex⟩ := exists_again hstays
  exact ⟨hempty.putAt rfl _, undefining_of_all (by decide +kernel), inner, s, hrun, hvisible, hindex⟩

end Statement

/-- **Reading a header ends**, whatever its dialect. -/
theorem Builder.readHeader_ne_exhausted {b : Builder} (htable : b.table.Plain) {file : SourceFile}
    (htext : Undefining (Token.ofText (some file.path) file.content)) (outline : Outline)
    (name : String) (dialect : Dialect) :
    (b.readHeader outline name file dialect).1 ≠ .error .exhausted := by
  have hnamed : Scope.Named { cOnly := dialect == .c } := by
    rintro _ ⟨⟩
  have hends := Statement.readAll_ne_exhausted
    (Statement.ready_ofText htable _ htext
      (b.addComment outline ("\n// Parsed from " ++ name ++ "\n\n"))) hnamed
  unfold readHeader perform
  dsimp only
  split
  next failure heq =>
    rintro ⟨⟩
    split at heq
    · cases heq
    next s hrun =>
      cases heq
      exact hends s hrun
  · simp

end HeaderPeers

import HeaderPeers.Proofs.Progress.Entities

/-!
# Reading functions and variables ends

A function is read again for each of its variants, and a statement again for each variable in it,
always from the same place. The token there opens a declarator, so each reading passes it.
-/

set_option mvcgen.warning false

namespace HeaderPeers

open Std.Do ReadM Reading

variable {s₀ : Reading}

attribute [local spec high] cursor

attribute [local grind →] Token.isEof_of_is Token.isEof_of_isWord Token.isEof_of_isKeyword

namespace ReadM

@[spec high]
theorem skipInitializers_ends (hs : s₀.Steady) (hraw : s₀.window.raw = false) (mark : Token) :
    Ends s₀ (skipInitializers mark) fun _ _ => True := by
  unfold skipInitializers
  refine Ends.bind (advance_ends hs) fun first s₁ hs₁ hto₁ hfirst => ?_
  refine iterate_ends (I := fun state s => ((Carries.token state).isEof = false → s.Live) ∧
    s.Shows state.2) (fun _ s => s.rest) hs₁ (by grind -linarith) (by grind -linarith)
    fun state s hs hto hI => ?_
  refine Ends.intro fun P hP => ?_
  mvcgen
  all_goals grind -linarith

@[spec high]
theorem skipTail_ends (hs : s₀.Steady) (hraw : s₀.window.raw = false) :
    Ends s₀ skipTail fun _ _ => True := by
  unfold skipTail
  refine Ends.intro fun P hP => ?_
  mvcgen
  all_goals grind -linarith

@[spec high]
theorem skipDefinition_ends (hs : s₀.Steady) (hraw : s₀.window.raw = false) :
    Ends s₀ skipDefinition fun _ _ => True := by
  unfold skipDefinition
  refine Ends.bind (iterate_ends (I := fun _ _ => True) (Q := fun _ _ => True) (fun _ s => s.rest) hs
    trivial (by grind -linarith) fun _ s hs hto _ => ?_) fun _ s hs hto _ => ?_
  · refine Ends.intro fun P hP => ?_
    mvcgen
    all_goals grind -linarith
  · exact skipTail_ends hs (hto.not_raw hraw)

end ReadM

/-! ## Functions -/

namespace Function

/-- What is known of the declarator of a function, as of any other. -/
def Met (scope : Scope) (s₀ : Reading) (d : Option Declarator) (s : Reading) : Prop :=
  (∀ t, s₀.Shows t → t.opens scope = true → s₀.window.index < s.window.index) ∧
    ∀ d', d = some d' → d'.nativeName.isEmpty = false → ∀ t, s₀.Shows t → t.opens scope = true

/-- Only a type with tokens is a constructor, a destructor or an operator. -/
theorem opens_of_special {scope : Scope} {type : NativeType} {s : Reading} (hscope : scope.Named)
    (h : NativeType.Taken scope s₀ (some type) s)
    (hspecial : (type.constructor || type.destructor || type.operator) = true) :
    s₀.window.index < s.window.index ∧ ∀ t, s₀.Shows t → t.opens scope = true := by
  obtain htokens | ⟨-, -, hnone, -⟩ := h
  · exact htokens
  · rw [Option.some.inj (hnone hscope)] at hspecial
    cases hspecial

@[spec high]
theorem readDeclarator_ends (hs : s₀.Steady) (hraw : s₀.window.raw = false) (scope : Scope)
    (hscope : scope.Named) (choice : Int) (keep : Option Nat) :
    Ends s₀ (readDeclarator scope choice keep) (Met scope s₀) := by
  unfold readDeclarator
  refine EndsIn.cursor_bind ?_
  refine EndsIn.bind (NativeType.read_ends hs scope) fun type s₁ hs₁ hto₁ htype => ?_
  cases type with
  | none =>
      refine EndsIn.pure hs₁ hto₁ ⟨fun t ht hopens => ?_, fun _ hd => by cases hd⟩
      obtain ⟨hlt, -⟩ | ⟨-, hsome, -⟩ := htype
      · exact hlt
      · cases hsome
  | some type =>
      dsimp only
      split
      next hspecial =>
        obtain ⟨hlt, hall⟩ := opens_of_special hscope htype hspecial
        refine EndsIn.bind_ends hto₁ (Parameters.read_ends hs₁ scope choice keep)
          fun p s₂ hs₂ hto₂ _ => EndsIn.pure_bind ?_
        have hlt₂ : s₀.window.index < s₂.window.index := by grind -linarith
        exact EndsIn.pure hs₂ (hto₁.trans hto₂) ⟨fun _ _ _ => hlt₂, fun _ _ _ => hall⟩
      · have hback : s₀.To (s₁.atIndex s₀.window.index) := To.atIndex hto₁ (Nat.le_refl _)
        refine EndsIn.moveTo_bind ?_
        refine EndsIn.bind_ends hback (Declarator.read_ends (hs₁.atIndex _) _)
          fun d s₂ hs₂ hto₂ hmet => EndsIn.pure hs₂ (hback.trans hto₂) ⟨fun t ht hopens => ?_, ?_⟩
        · exact hmet.index_lt (hback.shows ht rfl) hopens
        · intro d' hd' hname t ht
          cases d with
          | none => cases hd'
          | some d =>
              have hempty : d.nativeName.isEmpty = false := by
                by_contra hempty
                rw [Bool.not_eq_false] at hempty
                rw [Option.map_some, if_pos hempty] at hd'
                rw [← Option.some.inj hd', hempty] at hname
                cases hname
              exact hmet.opens hempty rfl (hback.not_raw hraw) rfl (hback.shows ht rfl)

@[spec high]
theorem readQualifiers_ends (hs : s₀.Steady) : Ends s₀ readQualifiers fun _ _ => True := by
  unfold readQualifiers
  refine iterate_ends (I := fun _ _ => True) (fun _ s => s.rest) hs trivial (by grind -linarith)
    fun _ s hs hto _ => ?_
  refine Ends.intro fun P hP => ?_
  mvcgen
  all_goals grind -linarith [Option.isNone_eq_false_iff]

@[spec high]
theorem readTrailer_ends (hs : s₀.Steady) (hraw : s₀.window.raw = false) :
    Ends s₀ readTrailer fun _ _ => True := by
  unfold readTrailer
  refine Ends.intro fun P hP => ?_
  mvcgen
  all_goals grind -linarith

@[spec high]
theorem readRole_ends (hs : s₀.Steady) (scope : Scope) (d : Declarator) (rule : Option Rule) :
    Ends s₀ (readRole scope d rule) fun _ _ => True := by
  unfold readRole
  refine Ends.intro fun P hP => ?_
  mvcgen
  all_goals grind -linarith

@[spec high]
theorem readMethodText_ends (hs : s₀.Steady) (scope : Scope) (d : Declarator) (list : String)
    (trailer : Trailer) (rule : Option Rule) (modifiers : String) :
    Ends s₀ (readMethodText scope d list trailer rule modifiers) fun _ _ => True := by
  unfold readMethodText
  refine Ends.intro fun P hP => ?_
  mvcgen
  all_goals grind -linarith

/-- A variant is read from the start of the function, and passes the token there. -/
theorem readVariant_ends {b : Reading} (hs : s₀.Steady) (hto : b.To s₀)
    (hraw : b.window.raw = false) (f : Subject) (hscope : f.scope.Named)
    (hstart : f.start = b.window.index) (ht : ∃ t, b.Shows t ∧ t.opens f.scope = true)
    (printed : Printed) (v : Variant) :
    EndsIn b s₀ (readVariant f printed v) fun _ s => b.window.index < s.window.index := by
  obtain ⟨t, ht, hopens⟩ := ht
  have hback : b.To (s₀.atIndex f.start) := To.atIndex hto hstart.ge
  unfold readVariant
  refine EndsIn.moveTo_bind ?_
  refine EndsIn.bind_ends hback (readDeclarator_ends (hs.atIndex _) (hback.not_raw hraw) f.scope
    hscope v.choice v.keep) fun d s₁ hs₁ hto₁ hmet => ?_
  have hlt : b.window.index < s₁.window.index := hstart ▸ hmet.1 t (hback.shows ht hstart) hopens
  have hraw₁ := (hback.trans hto₁).not_raw hraw
  -- the rest goes on from there
  refine EndsIn.of_ends (hback.trans hto₁) (Ends.imp (Q := fun _ _ => True)
    (Ends.intro fun P hP => ?_) fun _ _ _ hto₂ _ => Nat.lt_of_lt_of_le hlt hto₂.index_le)
  mvcgen
  all_goals grind -linarith

theorem readVariants_ends {b : Reading} (hraw : b.window.raw = false) (f : Subject)
    (hscope : f.scope.Named) (hstart : f.start = b.window.index)
    (ht : ∃ t, b.Shows t ∧ t.opens f.scope = true) (vs : List Variant) :
    ∀ s printed, s.Steady → b.To s → EndsIn b s (readVariants f printed vs) fun _ s' =>
      (vs ≠ [] ∨ b.window.index < s.window.index) → b.window.index < s'.window.index := by
  induction vs with
  | nil => exact fun s _ hs hto => EndsIn.pure hs hto (by simp)
  | cons v vs ih =>
      intro s printed hs hto
      refine EndsIn.bind (readVariant_ends hs hto hraw f hscope hstart ht printed v)
        fun next s₁ hs₁ hto₁ hlt => ?_
      cases next with
      | none => exact EndsIn.pure hs₁ hto₁ fun _ => hlt
      | some printed =>
          exact EndsIn.imp (ih s₁ printed hs₁ hto₁) fun _ _ _ hto₂ h => ⟨hto₂, fun _ => h (.inr hlt)⟩

theorem variants_ne_nil (defaults : Nat) : variants defaults ≠ [] := by
  simp [variants, List.range_succ]

theorem readFound_ends {b : Reading} (hs : s₀.Steady) (hto : b.To s₀) (hraw : b.window.raw = false)
    (hlt : b.window.index < s₀.window.index) (scope : Scope) (hscope : scope.Named)
    (ht : ∃ t, b.Shows t ∧ t.opens scope = true) (spacing : String) (isFriend isStatic : Bool)
    (d : Declarator) (parameters : Parameters) :
    EndsIn b s₀ (readFound scope spacing b.window.index isFriend isStatic d parameters) fun _ s =>
      b.window.index < s.window.index := by
  unfold readFound
  refine EndsIn.table_bind ?_
  extract_lets rule plain
  split
  · refine EndsIn.of_ends hto (Ends.imp (Q := fun _ _ => True) ?_ fun _ _ _ hto' _ =>
      Nat.lt_of_lt_of_le hlt hto'.index_le)
    have hraw₀ := hto.not_raw hraw
    refine Ends.intro fun P hP => ?_
    mvcgen
    all_goals grind -linarith
  · refine EndsIn.bind (readVariants_ends hraw _ hscope rfl ht _ s₀ {} hs hto)
      fun _ s₁ hs₁ hto₁ h => ?_
    have hlt₁ := h (.inl (variants_ne_nil _))
    refine EndsIn.bind_ends hto₁ (modifyOutline_ends hs₁ _) fun _ s₂ hs₂ hto₂ hwindow => ?_
    exact EndsIn.pure hs₂ (hto₁.trans hto₂) (hwindow ▸ hlt₁)

/-- Recognizes a function behind the word `friend`, if that stands there. -/
def readFrom (scope : Scope) (spacing : String) (isFriend : Bool) : ReadM Bool := do
  let start ← cursor
  match ← NativeType.read scope with
  | none => return false
  | some type =>
    let isInvocation := (← peek).is "("
    let parameters ← Parameters.read scope 0 none
    if type.targetName.isEmpty then return false
    if scope.group.isNone && !type.operator && isInvocation then
      if parameters.isNone then skipParentheses
      skipTail
      return ← leaveSpacing spacing
    moveTo start
    match ← readDeclarator scope 0 none with
    | none => return false
    | some d =>
      match d.parameters with
      | none => return false
      | some parameters =>
        if d.nativeName.isEmpty || d.type.targetName.isEmpty then return false
        readFound scope spacing start isFriend type.staticMember d parameters

theorem read_eq (scope : Scope) : read scope = (do
    let spacing := (← peek).spacing
    let isFriend := (← peek).isKeyword .friend_
    if isFriend then let _ ← advance
    readFrom scope spacing isFriend) := rfl

/-- What is passed over as an invocation starts with a parenthesis. -/
theorem skipInvocation_ends (hs : s₀.Steady) (hraw : s₀.window.raw = false)
    (parameters : Option Parameters) (spacing : String)
    (hp : parameters = none → ∃ t, s₀.Shows t ∧ t.is "(" = true) :
    Ends s₀ (do
      if parameters.isNone then skipParentheses
      skipTail
      return ← leaveSpacing spacing) fun _ s =>
        parameters = none → s₀.window.index < s.window.index := by
  refine Ends.intro fun P hP => ?_
  mvcgen
  all_goals grind -linarith

theorem readFrom_ends (hs : s₀.Steady) (ht : ∃ t, s₀.Shows t) (scope : Scope)
    (hscope : scope.Named) (spacing : String) (isFriend : Bool) :
    Ends s₀ (readFrom scope spacing isFriend) fun matched s =>
      matched = true → s₀.window.index < s.window.index := by
  obtain ⟨t₀, ht₀⟩ := ht
  have hraw := ht₀.raw_eq
  unfold readFrom
  refine EndsIn.cursor_bind ?_
  refine EndsIn.bind (NativeType.read_ends hs scope) fun type s₁ hs₁ hto₁ _ => ?_
  cases type with
  | none => exact EndsIn.pure hs₁ hto₁ (by simp)
  | some type =>
      refine EndsIn.bind_ends hto₁ (peek_ends hs₁) fun t s₂ hs₂ hto₂ hpeek => ?_
      have hto₂ := hto₁.trans hto₂
      refine EndsIn.bind_ends hto₂ (Parameters.read_ends hs₂ scope 0 none)
        fun p s₃ hs₃ hto₃' hp => ?_
      have hto₃ := hto₂.trans hto₃'
      have hlt (hsome : p.isSome = true) : s₀.window.index < s₃.window.index := by
        have hindex := (hp.2 hsome).1
        grind -linarith
      split
      · exact EndsIn.pure hs₃ hto₃ (by simp)
      split
      next hinvocation =>
        have hparen : p = none → ∃ t, s₃.Shows t ∧ t.is "(" = true := fun hnone =>
          ⟨t, hto₃'.shows (hpeek.2.2 (hto₁.not_raw hraw)) (hp.1 hnone), by simp_all⟩
        refine EndsIn.imp (skipInvocation_ends hs₃ (hto₃.not_raw hraw) p spacing hparen)
          fun _ s' _ hto₄ h => ⟨hto₃.trans hto₄, fun _ => ?_⟩
        cases p with
        | none => exact Nat.lt_of_le_of_lt hto₃.index_le (h rfl)
        | some p => exact Nat.lt_of_lt_of_le (hlt rfl) hto₄.index_le
      · have hback : s₀.To (s₃.atIndex s₀.window.index) := To.atIndex hto₃ (Nat.le_refl _)
        refine EndsIn.moveTo_bind ?_
        refine EndsIn.bind_ends hback (readDeclarator_ends (hs₃.atIndex _) (hback.not_raw hraw) scope
          hscope 0 none) fun d s₄ hs₄ hto₄ hmet => ?_
        cases d with
        | none => exact EndsIn.pure hs₄ (hback.trans hto₄) (by simp)
        | some d =>
            dsimp only
            split
            · exact EndsIn.pure hs₄ (hback.trans hto₄) (by simp)
            split
            · exact EndsIn.pure hs₄ (hback.trans hto₄) (by simp)
            next hnames =>
              rw [Bool.not_eq_true, Bool.or_eq_false_iff] at hnames
              have hopens := hmet.2 d rfl hnames.1 t₀ (hback.shows ht₀ rfl)
              have hlt₄ : s₀.window.index < s₄.window.index :=
                hmet.1 t₀ (hback.shows ht₀ rfl) hopens
              refine EndsIn.imp (readFound_ends hs₄ (hback.trans hto₄) hraw hlt₄ scope hscope
                ⟨t₀, ht₀, hopens⟩ spacing isFriend _ d _) fun _ _ _ hto h => ⟨hto, fun _ => h⟩

@[spec high]
theorem read_ends (hs : s₀.Steady) (hraw : s₀.window.raw = false) (scope : Scope)
    (hscope : scope.Named) :
    Ends s₀ (read scope) fun matched s => matched = true → s₀.window.index < s.window.index := by
  rw [read_eq]
  have hfrom {spacing : String} {isFriend : Bool} {s : Reading} (hs : s.Steady)
      (ht : ∃ t, s.Shows t) := readFrom_ends hs ht scope hscope spacing isFriend
  refine Ends.intro fun P hP => ?_
  mvcgen [hfrom]
  all_goals grind -linarith

end Function

/-! ## Variables -/

namespace Variable

theorem readText_ends {b : Reading} (hs : s₀.Steady) (hto : b.To s₀)
    (hlt : b.window.index < s₀.window.index) (v : Subject) (hstart : v.start = b.window.index)
    (ht : ∃ t, b.Shows t ∧ t.opens v.scope = true) (number : Nat) (d : Declarator) :
    EndsIn b s₀ (readText v number d) fun _ s => b.window.index < s.window.index := by
  obtain ⟨t, ht, hopens⟩ := ht
  have hback : b.To (s₀.atIndex v.start) := To.atIndex hto hstart.ge
  unfold readText
  extract_lets n element
  split
  · exact EndsIn.pure hs hto hlt
  · refine EndsIn.moveTo_bind ?_
    refine EndsIn.bind_ends hback (Declarator.read_ends (hs.atIndex _) _)
      fun d s₁ hs₁ hto₁ hmet => ?_
    have hlt₁ : b.window.index < s₁.window.index :=
      hstart ▸ hmet.index_lt (hback.shows ht hstart) hopens
    cases d with
    | none => exact EndsIn.pure hs₁ (hback.trans hto₁) hlt₁
    | some d => exact EndsIn.pure hs₁ (hback.trans hto₁) hlt₁

/-- A variable is read from the start of the statement, and passes the token there. -/
theorem readNumber_ends {b : Reading} (hs : s₀.Steady) (hto : b.To s₀) (v : Subject)
    (hstart : v.start = b.window.index) (ht : ∃ t, b.Shows t ∧ t.opens v.scope = true)
    (number : Nat) :
    EndsIn b s₀ (readNumber v number) fun more s =>
      b.window.index < s.window.index ∧ (more = true → number ≤ b.rest) := by
  obtain ⟨t, ht, hopens⟩ := ht
  have hback : b.To (s₀.atIndex v.start) := To.atIndex hto hstart.ge
  have hrest : (s₀.atIndex v.start).rest ≤ b.rest := by grind -linarith
  unfold readNumber
  refine EndsIn.moveTo_bind ?_
  refine EndsIn.bind_ends hback (Declarator.read_ends (hs.atIndex _) _)
    fun d s₁ hs₁ hto₁ hmet => ?_
  have hlt₁ : b.window.index < s₁.window.index :=
    hstart ▸ hmet.index_lt (hback.shows ht hstart) hopens
  have hto₁ := hback.trans hto₁
  cases d with
  | none => exact EndsIn.pure hs₁ hto₁ ⟨hlt₁, by simp⟩
  | some d =>
      dsimp only
      split
      · exact EndsIn.pure hs₁ hto₁ ⟨hlt₁, by simp⟩
      next hname =>
        rw [Bool.not_eq_true] at hname
        have hnumber : number ≤ b.rest :=
          (hmet.number_le hname rfl (hback.not_raw ht.raw_eq)).trans hrest
        refine EndsIn.bind (readText_ends hs₁ hto₁ hlt₁ v hstart ⟨t, ht, hopens⟩ number d)
          fun text s₂ hs₂ hto₂ hlt₂ => ?_
        refine EndsIn.of_ends hto₂ (Ends.imp (Q := fun _ _ => True) (Ends.intro fun P hP => ?_)
          fun _ _ _ hto₃ _ => ⟨Nat.lt_of_lt_of_le hlt₂ hto₃.index_le, fun _ => hnumber⟩)
        mvcgen
        all_goals grind -linarith

/-- There are no more variables than tokens. -/
theorem readAll_ends (hs : s₀.Steady) {i : Nat} (hi : i ≤ s₀.window.index)
    (v : Subject) (hstart : v.start = i)
    (ht : ∃ t, (s₀.atIndex i).Shows t ∧ t.opens v.scope = true) :
    EndsIn (s₀.atIndex i) s₀ (iterate 0 fun number => do
      if ← readNumber v number then return .again (number + 1)
      return .done ()) fun _ s => i < s.window.index := by
  refine iterate_endsIn (I := fun _ _ => True) (fun number _ => (s₀.atIndex i).rest + 1 - number) hs
    (.ofIndex s₀ hi) trivial (by grind -linarith) fun number s hs hto _ => ?_
  refine EndsIn.bind (readNumber_ends hs hto v hstart ht number) fun more s' hs' hto' h => ?_
  cases more with
  | true => exact EndsIn.pure hs' hto' ⟨trivial, by grind -linarith⟩
  | false => exact EndsIn.pure hs' hto' h.1

@[spec high]
theorem read_ends (hs : s₀.Steady) (hraw : s₀.window.raw = false) (scope : Scope) :
    Ends s₀ (read scope) fun matched s => matched = true → s₀.window.index < s.window.index := by
  unfold read
  refine EndsIn.cursor_bind ?_
  refine Ends.bind (peek_ends hs) fun t s₁ hs₁ hto₁ hpeek => ?_
  have hshows := hpeek.2.2 hraw
  rw [← hpeek.1]
  extract_lets spacing
  refine EndsIn.bind (Declarator.read_ends hs₁ _) fun d s₂ hs₂ hto₂ hmet => ?_
  cases d with
  | none => exact EndsIn.pure hs₂ hto₂ (by simp)
  | some d =>
      dsimp only
      split
      · exact EndsIn.pure hs₂ hto₂ (by simp)
      next hname =>
        rw [Bool.not_eq_true] at hname
        have hopens := hmet.opens hname rfl (hto₁.not_raw hraw) rfl hshows
        have hlt := hmet.index_lt hshows hopens
        refine EndsIn.bind_ends hto₂ (peek_ends hs₂) fun u s₃ hs₃ hto₃ hindex => ?_
        have hto₃ := hto₂.trans hto₃
        have hlt₃ : s₁.window.index < s₃.window.index := hindex.1 ▸ hlt
        split
        · exact EndsIn.pure hs₃ hto₃ (by simp)
        refine EndsIn.bind_ends hto₃ (rule_ends hs₃ _) fun rule s₄ hs₄ hto₄ hrule => ?_
        obtain ⟨rfl, -⟩ := hrule
        split
        · refine EndsIn.of_ends hto₃ (Ends.imp (Q := fun _ _ => True) (Ends.intro fun P hP => ?_)
            fun _ _ _ hto₅ _ _ => Nat.lt_of_lt_of_le hlt₃ hto₅.index_le)
          mvcgen
          all_goals grind -linarith
        · let b := s₄.atIndex s₁.window.index
          have hb : s₁.To b := To.atIndex hto₃ (Nat.le_refl _)
          have hvariables := readAll_ends hs₄ hto₃.index_le
            { scope, spacing, start := s₁.window.index, rule
              modifiers := modifiersOf scope d.type.staticMember } rfl
            ⟨t, hb.shows hshows rfl, hopens⟩
          refine EndsIn.bind (EndsIn.imp hvariables fun _ _ _ hto h => ⟨hb.trans hto, h⟩)
            fun _ s₅ hs₅ hto₅ hlt₅ => ?_
          refine EndsIn.bind_ends hto₅ (modifyOutline_ends hs₅ _) fun _ s₆ hs₆ hto₆ hwindow => ?_
          exact EndsIn.pure hs₆ (hto₅.trans hto₆) fun _ => hwindow ▸ hlt₅

end Variable

end HeaderPeers

import HeaderPeers.Proofs.Progress.Directives

/-!
# Reading enumerations and aliases ends

Each of them passes the word that it is recognized by.
-/

set_option mvcgen.warning false

namespace HeaderPeers

open Std.Do ReadM Reading

variable {s₀ : Reading}

attribute [local spec high] cursor

attribute [local grind →] Token.isEof_of_is Token.isEof_of_isWord Token.isEof_of_isKeyword

namespace ReadM

variable {σ β : Type}

/-- What a turn of a loop over tokens says: it goes on to another token. -/
def Carried [Carries σ] (s : Reading) (r : Turn σ β) (s' : Reading) : Prop :=
  match r with
  | .again state => ((Carries.token state).isEof = false → s'.Live) ∧ s'.rest < s.rest
  | .done _ => True

/-- A turn that takes a token and goes on to the next one. -/
theorem carry_ends [Carries σ] (hs : s₀.Steady) (hlive : s₀.Live) {f : Token → σ}
    (hf : ∀ t, Carries.token (f t) = t) :
    Ends s₀ (advance >>= fun t => pure (Turn.again (β := β) (f t))) (Carried s₀) := by
  refine Ends.bind (advance_ends hs) fun t s hs' hto h => Ends.pure hs' ?_
  have hlt := h.1 hlive
  have hsize := hto.size_le
  rw [Carried, hf]
  refine ⟨h.2.1, ?_⟩
  rw [rest_eq, rest_eq]
  rw [live_iff] at hlive
  omega

/-- A loop over tokens, of which each turn that goes on goes on to another one. -/
theorem iterate_carried [Carries σ] {start : σ} {turn : σ → ReadM (Turn σ β)} (hs : s₀.Steady)
    (hstart : (Carries.token start).isEof = false → s₀.Live)
    (hturn : ∀ state s, s.Steady → s₀.To s → ((Carries.token state).isEof = false → s.Live) →
      Ends s (turn state) (Carried s)) :
    Ends s₀ (iterate start turn) fun _ _ => True := by
  refine iterate_carries hs hstart fun state s hs hto hI => (hturn state s hs hto hI).imp ?_
  intro r s' _ _ h
  cases r with
  | again _ => exact h
  | done _ => trivial

end ReadM

theorem Token.not_isEof_of_or {t : Token} {b : Bool} (h : ¬ (t.isEof || b) = true) :
    t.isEof = false := by
  simp_all

/-! ## Declarators -/

namespace Declarator

@[spec high]
theorem read_ends (hs : s₀.Steady) (request : DeclaratorRequest) :
    Ends s₀ (read request) (Met request s₀) :=
  nest_ends (Q := Met) (fun _ _ hread request _ hs hm => readWith_ends hread hs hm request) hs
    request

variable {s : Reading} {request : DeclaratorRequest} {d : Declarator}

/-- Of a list of declarators there are no more than tokens. -/
@[grind →]
theorem Met.number_le (h : Met request s₀ (some d) s) (hname : d.nativeName.isEmpty = false)
    (hdefault : request.defaultName = none) (hraw : s₀.window.raw = false) :
    request.number ≤ s₀.rest :=
  (h.2 d rfl hdefault (by simpa using hname) hraw).1

/-- A declarator with a name starts with a token that opens it. -/
theorem Met.opens (h : Met request s₀ (some d) s) (hname : d.nativeName.isEmpty = false)
    (hdefault : request.defaultName = none) (hraw : s₀.window.raw = false)
    (hnumber : request.number = 0) {t : Token} (ht : s₀.Shows t) : t.opens request.scope = true :=
  (h.2 d rfl hdefault (by simpa using hname) hraw).2 hnumber t ht

/-- The cursor goes on at a token that opens a declarator. -/
@[grind →]
theorem Met.index_lt {d : Option Declarator} (h : Met request s₀ d s) {t : Token}
    (ht : s₀.Shows t) (hopens : t.opens request.scope = true) :
    s₀.window.index < s.window.index :=
  h.1 t ht hopens

end Declarator

@[spec high]
theorem Parameters.read_ends (hs : s₀.Steady) (scope : Scope) (choice : Int)
    (keep : Option Nat) :
    Ends s₀ (Parameters.read scope choice keep) fun p s =>
      (p = none → s.window.index = s₀.window.index) ∧
      (p.isSome = true → s₀.window.index < s.window.index ∧
        ∀ t, s₀.Shows t → t.is "(" = true) :=
  readWith_ends (m := s₀.rest) (Q := Declarator.Met)
    (fun request _ hs _ => Declarator.read_ends hs request) hs (Nat.le_refl _) scope choice keep

/-! ## Enumerations -/

namespace Enumeration

@[spec high]
theorem readInitializer_ends (hs : s₀.Steady) :
    Ends s₀ readInitializer fun _ _ => True := by
  unfold readInitializer
  refine Ends.bind (advance_ends hs) fun first s₁ hs₁ _ hfirst => ?_
  refine Ends.bind (iterate_carried hs₁ hfirst.2.1 fun (v, t) s hs _ hI => ?_)
    fun v s₂ hs₂ _ _ => EndsIn.table_bind (Ends.pure hs₂ trivial)
  dsimp only
  split
  · exact Ends.pure hs trivial
  next hgoes =>
    exact EndsIn.table_bind (carry_ends hs (hI (Token.not_isEof_of_or hgoes)) fun _ => rfl)

@[spec high]
theorem readEnumerator_ends (hs : s₀.Steady) (path commentBefore : String) (counter : Counter) :
    Ends s₀ (readEnumerator path commentBefore counter) fun _ s =>
      s₀.window.index < s.window.index := by
  unfold readEnumerator
  refine Ends.bind (peek_ends hs) fun t s₁ hs₁ hto₁ hpeek => ?_
  refine Ends.bind (expectWord_ends hs₁ t) fun _ s₂ hs₂ _ hexpect => ?_
  obtain ⟨rfl, hword⟩ := hexpect
  refine Ends.bind (rule_ends hs₂ _) fun _ s₃ hs₃ _ hrule => ?_
  obtain ⟨rfl, -⟩ := hrule
  refine Ends.bind (advance_ends hs₃) fun u s₄ hs₄ hto₄ hadvance => ?_
  have hlt : s₀.window.index < s₄.window.index := by grind -linarith
  extract_lets behind
  have hend {c : Counter × Bool} {s : Reading} (hs : s.Steady) (hto : s₄.To s) :
      Ends s (behind c) fun _ s' => s₀.window.index < s'.window.index := by
    obtain ⟨counter, getter⟩ := c
    have hindex := hto.index_le
    unfold behind
    refine Ends.bind (Comment.takeAfter_ends hs) fun comment s₅ hs₅ hto₅ _ => ?_
    refine Ends.bind (peek_ends hs₅) fun v s₆ hs₆ hto₆ _ => ?_
    extract_lets finish
    split
    · refine Ends.bind (advance_ends hs₆) fun _ s₇ hs₇ hto₇ _ => ?_
      refine Ends.bind (Comment.takeAfter_ends hs₇) fun _ s₈ hs₈ hto₈ _ => ?_
      exact Ends.pure hs₈ (by grind -linarith)
    · exact Ends.pure hs₆ (by grind -linarith)
  clear_value behind
  split
  · refine Ends.bind (readInitializer_ends hs₄) fun r s₅ hs₅ hto₅ _ => ?_
    exact EndsIn.pure_bind (hend hs₅ hto₅)
  · exact EndsIn.pure_bind (hend hs₄ (.refl _))

/-- A directive among the enumerators, which prints to an outline of its own. -/
@[spec high]
theorem readDirective_ends (hs : s₀.Ready) (scope : Scope) :
    Ends s₀ (withOutline {} (attempt (Directive.read scope))) fun r s =>
      if r.1 then s₀.window.index < s.window.index else s.window.index = s₀.window.index := by
  refine withOutline_ends (Q := fun (matched : Bool) w =>
    if matched then s₀.window.index < w.index else w.index = s₀.window.index) ?_
  have hs' : Ready { s₀ with outline := {} } :=
    ⟨⟨hs.plain, hs.sound, hs.fuel⟩, hs.not_raw, hs.undefining⟩
  refine (attempt_ends (Directive.read_ends hs' scope)).imp fun matched s _ _ h => ?_
  cases matched with
  | true => exact h rfl
  | false => exact h

@[spec high]
theorem readEntries_ends (hready : s₀.Ready) (scope : Scope) (path : String) :
    Ends s₀ (readEntries scope path) fun _ _ => True := by
  unfold readEntries
  refine Ends.bind (advance_ends hready.toSteady) fun first s₁ hs₁ hto₁ hfirst => ?_
  refine iterate_carried hs₁ hfirst.2.1 fun (entries, counter, t) s hs hto hI => ?_
  dsimp only
  split
  · exact Ends.pure hs trivial
  next hgoes =>
    have hlive : s.Live := hI (Token.not_isEof_of_or hgoes)
    refine Ends.bind (Comment.takeBefore_ends hs) fun comment s₂ hs₂ hto₂ _ => ?_
    have hto' : s₀.To s₂ := (hto₁.trans hto).trans hto₂
    refine Ends.bind (readDirective_ends (hto'.ready hready hs₂) scope) fun (isDirective, directives) s₃ hs₃ hto₃ hdirective => ?_
    dsimp only at hdirective ⊢
    split
    · refine Ends.bind (peek_ends hs₃) fun u s₄ hs₄ hto₄ hpeek => ?_
      exact Ends.pure hs₄ ⟨hpeek.2.1, by grind -linarith⟩
    · refine Ends.bind (readEnumerator_ends hs₃ path comment counter) fun r s₄ hs₄ hto₄ hlt => ?_
      refine Ends.bind (peek_ends hs₄) fun u s₅ hs₅ hto₅ hpeek => ?_
      exact Ends.pure hs₅ ⟨hpeek.2.1, by grind -linarith⟩

theorem nativeText_ruleFrom (scope : Scope) {existing : Option Rule}
    (h : ∀ rule, existing = some rule → rule.nativeText = none)
    (nativeName targetName targetType : String) :
    (ruleFrom scope existing nativeName targetName targetType).nativeText = none := by
  cases existing with
  | none => rfl
  | some rule => exact h rule rfl

@[spec high]
theorem register_ends (hs : s₀.Steady) (scope : Scope)
    (nativeName targetName targetType : String) :
    Ends s₀ (register scope nativeName targetName targetType) fun _ s =>
      s.window = s₀.window := by
  unfold register
  refine Ends.bind (rule_ends hs _) fun existing s₁ hs₁ _ hrule => ?_
  obtain ⟨rfl, hrule⟩ := hrule
  dsimp only
  split
  · exact learnFirst_ends hs₁ (nativeText_ruleFrom scope hrule _ _ _)
  · exact learn_ends hs₁ (nativeText_ruleFrom scope hrule _ _ _)

@[spec high]
theorem toEnum_ends (hs : s₀.Steady) :
    Ends s₀ toEnum fun found s => found = true → s.Live := by
  unfold toEnum
  refine Ends.bind (peek_ends hs) fun first s₁ hs₁ hto₁ hfirst => ?_
  refine iterate_ends (I := fun t s => t.isEof = false → s.Live) (fun _ s => s.rest) hs₁
    hfirst.2.1 (by grind -linarith) fun t s hs hto hI => ?_
  split
  · exact Ends.pure hs (by simp)
  next hgoes =>
    have hlive : s.Live := hI (by simpa using hgoes)
    split
    · exact Ends.pure hs fun _ => hlive
    split
    · exact Ends.pure hs (by simp)
    · refine Ends.bind (advance_ends hs) fun u s₂ hs₂ hto₂ hadvance => ?_
      exact Ends.pure hs₂ ⟨hadvance.2.1, by grind -linarith⟩

@[spec high]
theorem readHead_ends (hs : s₀.Steady) (scope : Scope) (spacing : String) (isTypedef : Bool) :
    Ends s₀ (readHead scope spacing isTypedef) fun _ s =>
      s₀.Live → s₀.window.index < s.window.index := by
  unfold readHead
  refine Ends.bind (peekAt_ends hs 1) fun word s₁ hs₁ hto₁ _ => ?_
  extract_lets isScoped underlying name tag
  have hunderlying {s : Reading} (hs : s.Steady) (read : String × Token)
      (hlt : s₀.Live → s₀.window.index < s.window.index) :
      Ends s (underlying read) fun _ s' => s₀.Live → s₀.window.index < s'.window.index := by
    unfold underlying
    refine Ends.intro fun P hP => ?_
    mvcgen
    all_goals grind -linarith
  clear_value underlying
  -- the cursor goes over the keyword, whatever is behind it
  have hname {s : Reading} (hs : s.Steady) (hto : s₀.To s) :
      Ends s (name ()) fun _ s' => s₀.Live → s₀.window.index < s'.window.index := by
    unfold name
    refine Ends.bind (advance_ends hs) fun t s₂ hs₂ hto₂ hadvance => ?_
    split
    · refine Ends.bind (advance_ends hs₂) fun u s₃ hs₃ hto₃ _ => ?_
      exact EndsIn.pure_bind (hunderlying hs₃ _ (by grind -linarith))
    · exact EndsIn.pure_bind (hunderlying hs₂ _ (by grind -linarith))
  clear_value name
  have htag {s : Reading} (hs : s.Steady) (hto : s₀.To s) :
      Ends s (tag ()) fun _ s' => s₀.Live → s₀.window.index < s'.window.index := by
    unfold tag
    split
    · refine Ends.bind (peekAt_ends hs 1) fun _ s₂ hs₂ hto₂ _ => ?_
      split
      · refine Ends.bind (peekAt_ends hs₂ 2) fun _ s₃ hs₃ hto₃ _ => ?_
        split
        · exact Ends.bind (advance_ends hs₃) fun _ s₄ hs₄ hto₄ _ =>
            hname hs₄ (hto.trans (hto₂.trans (hto₃.trans hto₄)))
        · exact hname hs₃ (hto.trans (hto₂.trans hto₃))
      · exact hname hs₂ (hto.trans hto₂)
    · exact hname hs hto
  clear_value tag
  split
  · exact Ends.bind (advance_ends hs₁) fun _ s₂ hs₂ hto₂ _ => htag hs₂ (hto₁.trans hto₂)
  · exact htag hs₁ hto₁

@[spec high]
theorem print_ends (hs : s₀.Steady) (scope : Scope) (head : Head) (name ending comment : String)
    (entries : List EnumEntry) :
    Ends s₀ (print scope head name ending comment entries) fun _ s => s.window = s₀.window := by
  unfold print
  refine Ends.intro fun P hP => ?_
  mvcgen
  all_goals grind -linarith

@[spec high]
theorem readBody_ends (hs : s₀.Ready) (scope : Scope) (head : Head) :
    Ends s₀ (readBody scope head) fun _ _ => True := by
  unfold readBody
  refine Ends.intro fun P hP => ?_
  mvcgen
  all_goals grind -linarith

@[spec high]
theorem read_ends (hs : s₀.Ready) (scope : Scope) :
    Ends s₀ (read scope) fun matched s => matched = true → s₀.window.index < s.window.index := by
  unfold read
  refine Ends.intro fun P hP => ?_
  mvcgen
  all_goals grind -linarith

end Enumeration

/-! ## Aliases -/

namespace Alias

theorem nativeText_aliasRule {known : Option Rule}
    (h : ∀ rule, known = some rule → rule.nativeText = none) (name : String) (d : Declarator) :
    (aliasRule known name d).nativeText = none := by
  have hknown : (known.getD {}).nativeText = none := by
    cases known with
    | none => rfl
    | some rule => exact h rule rfl
  unfold aliasRule
  dsimp only
  split <;> split <;> exact hknown

@[spec high]
theorem declareVoid_ends (hs : s₀.Steady) (scope : Scope) (name : String) (d : Declarator) :
    Ends s₀ (declareVoid scope name d) fun _ s => s.window = s₀.window := by
  have hknown {known : Option Rule} (h : ∀ rule, known = some rule → rule.nativeText = none) :
      (known.getD (.named [name])).nativeText = none := by
    cases known with
    | none => rfl
    | some rule => exact h rule rfl
  unfold declareVoid
  refine Ends.intro fun P hP => ?_
  mvcgen
  all_goals grind -linarith

@[spec high]
theorem declare_ends (hs : s₀.Steady) (scope : Scope) (d : Declarator) :
    Ends s₀ (declare scope d) fun _ s => s.window = s₀.window := by
  have hpointer (name : String) : (pointerRule scope name d).nativeText = none := rfl
  unfold declare
  refine Ends.intro fun P hP => ?_
  mvcgen
  all_goals grind -linarith [nativeText_aliasRule]

/-- The names that a typedef declares, each read from the start. -/
def readDeclared (scope : Scope) (start : Nat) : ReadM (List Declaration) :=
  iterate (#[], 0) fun ((ds : Array Declaration), number) => do
    moveTo start
    match ← Declarator.read { scope, number, view := .asPointer } with
    | none => return .done ds.toList
    | some d =>
      if d.nativeName.isEmpty then return .done ds.toList
      let ds := ds.push (← declare scope d)
      if (← peek).is "," then return .again (ds, number + 1)
      return .done ds.toList

/-- There are no more names than tokens, and reading one passes the word in front. -/
@[spec high]
theorem readDeclared_ends (hs : s₀.Steady) (scope : Scope) {start : Nat}
    (hstart : start = s₀.window.index) (ht : ∃ t, s₀.Shows t ∧ t.opens scope = true) :
    Ends s₀ (readDeclared scope start) fun _ s => s₀.window.index < s.window.index := by
  obtain ⟨t, ht, hopens⟩ := ht
  unfold readDeclared
  refine iterate_endsIn (I := fun _ _ => True) (fun state _ => s₀.rest + 1 - state.2) hs
    (.refl s₀) trivial (by grind -linarith) fun (ds, number) s hs hto _ => ?_
  refine EndsIn.intro fun P hP => ?_
  mvcgen
  all_goals grind -linarith

@[spec high]
theorem readTarget_ends (hs : s₀.Steady) :
    Ends s₀ readTarget fun _ _ => True := by
  unfold readTarget
  refine Ends.intro fun P hP => ?_
  mvcgen
  all_goals grind -linarith

@[spec high]
theorem readName_ends (hs : s₀.Steady) :
    Ends s₀ readName fun _ _ => True := by
  unfold readName
  refine Ends.intro fun P hP => ?_
  mvcgen
  all_goals grind -linarith

theorem readTypedef_eq (scope : Scope) : readTypedef scope = (do
    let spacing := (← peek).spacing
    if !(← peek).isKeyword .typedef_ then return false
    let start ← cursor
    let ds ← readDeclared scope start
    if ds.isEmpty then return false
    skipStatement
    let comment ← Comment.takeAfter
    addSpaced spacing (withComment comment false ds)
    return true) := rfl

theorem opens_of_isWord {t : Token} (ht : t.isWord = true) (scope : Scope) :
    t.opens scope = true := by
  have heof := Token.isEof_of_isWord ht
  cases hbracket : t.is "[" with
  | true => simp [Token.opens, hbracket]
  | false => simp [Token.opens, Token.startsType, ht, heof, hbracket]

@[spec high]
theorem readTypedef_ends (hs : s₀.Steady) (hraw : s₀.window.raw = false) (scope : Scope) :
    Ends s₀ (readTypedef scope) fun matched s =>
      matched = true → s₀.window.index < s.window.index := by
  rw [readTypedef_eq]
  refine Ends.intro fun P hP => ?_
  mvcgen
  all_goals grind -linarith [opens_of_isWord, Token.isWord_of_isKeyword]

@[spec high]
theorem inherited?_ends (hs : s₀.Steady) (scope : Scope) (name : String) :
    Ends s₀ (inherited? scope name) fun _ s => s = s₀ := by
  unfold inherited?
  refine Ends.bind (get_ends hs) fun known s hs hto h => ?_
  obtain ⟨rfl, rfl⟩ := h
  split
  · split
    · exact Ends.pure hs rfl
    · exact Ends.pure hs rfl
  · exact Ends.pure hs rfl

@[spec high]
theorem bringIn_ends (hs : s₀.Steady) (name : String) :
    Ends s₀ (bringIn name) fun _ s => s.window = s₀.window :=
  modify_ends hs rfl rfl rfl

/-- A text read as a typedef, with an outline of its own. -/
@[spec high]
theorem readFragment_ends (hs : s₀.Steady) (scope : Scope) (text : String) :
    Ends s₀ (withOutline {} (fragment text (readTypedef scope))) fun _ s =>
      s.window.index = s₀.window.index := by
  refine withOutline_ends (Q := fun _ w => w.index = s₀.window.index) ?_
  have hs' : Steady { s₀ with outline := {} } := ⟨hs.plain, hs.sound, hs.fuel⟩
  exact fragment_ends hs' fun s hs hraw =>
    (readTypedef_ends hs hraw scope).imp fun _ _ _ _ _ => trivial

@[spec high]
theorem readUsing_ends (hs : s₀.Steady) (scope : Scope) :
    Ends s₀ (readUsing scope) fun matched s =>
      matched = true → s₀.window.index < s.window.index := by
  unfold readUsing
  refine Ends.intro fun P hP => ?_
  mvcgen
  all_goals grind -linarith

end Alias

end HeaderPeers

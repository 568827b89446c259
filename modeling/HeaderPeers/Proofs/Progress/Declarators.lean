import HeaderPeers.Proofs.Progress.Types

/-!
# Reading declarators ends
-/

set_option mvcgen.warning false

namespace HeaderPeers

open Std.Do ReadM Reading

variable {s₀ : Reading}

attribute [local spec high] cursor

attribute [local grind →] Token.isEof_of_is Token.isEof_of_isWord Token.isEof_of_isKeyword

namespace Draft

theorem pushMark?_eq_none {d : Draft} {t : Token} (hstar : t.is "*" = false)
    (hand : t.is "&" = false) (hands : t.is "&&" = false) (hword : t.isWord = false) :
    d.pushMark? t = none := by
  have hconst : t.isKeyword .const_ = false := by
    by_contra h
    rw [Token.isWord_of_isKeyword (by simpa using h)] at hword
    cases hword
  simp [pushMark?, hstar, hand, hands, hconst]

theorem pushMark?_of_isEof {d : Draft} {t : Token} (h : t.isEof = true) : d.pushMark? t = none := by
  simp_all [pushMark?, Token.is, Token.isEof, Token.isKeyword]

@[spec high]
theorem readMarks_ends (hs : s₀.Steady) (d : Draft) :
    Ends s₀ d.readMarks fun _ s =>
      ∀ t, s₀.Shows t → t.is "*" = false → t.is "&" = false → t.is "&&" = false →
        t.isWord = false → s.window.index = s₀.window.index := by
  unfold readMarks
  refine iterate_ends (I := fun _ s => ∀ t, s₀.Shows t → t.is "*" = false → t.is "&" = false →
      t.is "&&" = false → t.isWord = false → s.window.index = s₀.window.index)
    (fun _ s => s.rest) hs (fun _ _ _ _ _ _ => rfl) (by grind -linarith) fun d s hs hto hI => ?_
  mvcgen
  all_goals grind -linarith [pushMark?_eq_none, pushMark?_of_isEof]

@[spec high]
theorem readAttributes_ends (hs : s₀.Steady) (d : Draft) :
    Ends s₀ d.readAttributes fun _ s =>
      ∀ t, s₀.Shows t → t.isWord = false → t.is "[" = false →
        s.window.index = s₀.window.index := by
  unfold readAttributes
  refine Ends.bind (Q := fun start s => s = s₀ ∧ start = s₀.window.index) ?_
    fun start s₁ hs₁ _ hstart => ?_
  · mvcgen
    all_goals grind -linarith
  obtain ⟨rfl, rfl⟩ := hstart
  refine EndsIn.bind (iterate_ends (I := fun state s => s₁.window.index ≤ state.2.2 ∧
      ∀ t, s₁.Shows t → t.isWord = false → t.is "[" = false →
        state.2.2 = s₁.window.index ∧ s.window.index = s₁.window.index)
    (Q := fun state _ => s₁.window.index ≤ state.2.2 ∧
      ∀ t, s₁.Shows t → t.isWord = false → t.is "[" = false → state.2.2 = s₁.window.index)
    (fun _ s => s.rest) hs₁ (by grind -linarith) (by grind -linarith)
    fun state s hs hto hI => ?_) fun state s hs hto hstate => ?_
  · mvcgen
    all_goals grind -linarith
  · have hback := To.atIndex hto hstate.1
    mvcgen
    all_goals grind -linarith

@[spec high]
theorem findRule_ends (hs : s₀.Steady) (d : Draft) (scope : Scope) (isTypedef : Bool) :
    Ends s₀ (d.findRule scope isTypedef) fun _ s => s.window.index = s₀.window.index := by
  have hfragment (text : String) {s : Reading} (hs : s.Steady) :
      Ends s (fragment text (NativeType.read scope)) fun _ s' =>
        s'.window.index = s.window.index :=
    fragment_ends hs fun s' hs' _ => (NativeType.read_ends hs' scope).imp fun _ _ _ _ _ => trivial
  unfold findRule
  mvcgen [hfragment, -fragment_ends, -fragment_keeps]
  all_goals grind -linarith

@[spec high]
theorem readMapping_ends (hs : s₀.Steady) (d : Draft) (request : DeclaratorRequest)
    (isTypedef isUsing : Bool) :
    Ends s₀ (d.readMapping request isTypedef isUsing) fun _ s =>
      s.window.index = s₀.window.index := by
  unfold readMapping
  mvcgen
  all_goals grind -linarith

end Draft

namespace Parameters

variable {m : Nat} {readDeclarator : DeclaratorReader}
  {Q : DeclaratorRequest → Reading → Option Declarator → Reading → Prop}

@[spec high]
theorem readOne_ends (hread : EndsWithin m readDeclarator Q) (hs : s₀.Steady) (hm : s₀.rest < m)
    (scope : Scope) (choice : Int) (keep : Option Nat) (p : Progress) (t : Token) :
    Ends s₀ (readOne readDeclarator scope choice keep p t) fun _ _ => True := by
  have hinner : ∀ request s, s.Steady → s.rest < m →
      Ends s (readDeclarator request) (Q request s) := hread
  unfold readOne
  mvcgen [hinner, orM, -orM_keeps]
  all_goals grind -linarith

@[spec high]
theorem readList_ends (hread : EndsWithin m readDeclarator Q) (hs : s₀.Steady) (hm : s₀.rest ≤ m)
    (hlive : s₀.Live) (scope : Scope) (choice : Int) (keep : Option Nat) :
    Ends s₀ (readList readDeclarator scope choice keep) fun _ s =>
      s₀.window.index < s.window.index := by
  unfold readList
  refine Ends.bind (advance_ends hs) fun first s₁ hs₁ hto₁ hfirst => ?_
  -- a closing parenthesis is met once more, where it was seen
  refine iterate_ends (I := fun state s => (Carries.token state).isEof = false → s.Live)
    (fun state s => s.rest + if state.2.is ")" then 0 else 1) hs₁ (by grind -linarith)
    (by grind -linarith) fun state s hs hto hI => ?_
  mvcgen
  all_goals grind -linarith

@[spec high]
theorem readWith_ends (hread : EndsWithin m readDeclarator Q) (hs : s₀.Steady) (hm : s₀.rest ≤ m)
    (scope : Scope) (choice : Int) (keep : Option Nat) :
    Ends s₀ (readWith readDeclarator scope choice keep) fun p s =>
      (p = none → s.window.index = s₀.window.index) ∧
      (p.isSome = true → s₀.window.index < s.window.index ∧
        ∀ t, s₀.Shows t → t.is "(" = true) := by
  unfold readWith
  mvcgen
  all_goals grind -linarith

end Parameters

namespace Draft

variable {m : Nat} {readDeclarator : DeclaratorReader}
  {Q : DeclaratorRequest → Reading → Option Declarator → Reading → Prop}

@[spec high]
theorem readParameters_ends (hread : EndsWithin m readDeclarator Q) (hs : s₀.Steady)
    (hm : s₀.rest ≤ m) (d : Draft) (request : DeclaratorRequest) (n : DeclaredName)
    (isTypedef : Bool) :
    Ends s₀ (d.readParameters readDeclarator request n isTypedef) fun r s =>
      r.declarator.nativeName = d.declarator.nativeName ∧
      ∀ t, s₀.Shows t → t.is "(" = false → s.window.index = s₀.window.index := by
  unfold readParameters
  mvcgen
  all_goals grind -linarith [pointTo]

theorem nameBy_empty {d : Draft} (h : d.declarator.nativeName = "") (table : RuleTable)
    (scope : Scope) (usings : List String) (hint : Option String) (isOperator madeUp : Bool) :
    (d.nameBy table scope usings hint isOperator madeUp).declarator.nativeName = "" := by
  unfold nameBy
  simp [h, Scope.qualify, NativeType.settleName]

end Draft

namespace Declarator

@[spec high]
theorem skipTo_ends (hs : s₀.Steady) (number : Nat) :
    Ends s₀ (skipTo number) fun found s =>
      (number = 0 → found = true ∧ s.window.index = s₀.window.index) ∧
      (∀ t, s₀.Shows t → t.isEof = false → number ≠ 0 → s₀.window.index < s.window.index) ∧
      (s₀.window.raw = false → found = true → number ≤ s₀.rest ∨ s.Ended) := by
  unfold skipTo
  refine Ends.bind (peek_ends hs) fun first s₁ hs₁ hto₁ hfirst => ?_
  refine iterate_ends (I := fun state s => ((Carries.token state).isEof = false → s.Live) ∧
      (s₀.window.raw = false → s.Shows (Carries.token state)) ∧ state.2.1 ≤ s₀.rest ∧
      s₀.window.index + state.2.1 ≤ s.window.index ∧
      (number = 0 → s.window.index = s₀.window.index) ∧
      (s₀.window.index < s.window.index ∨ (state.2.1 = 0 ∧ state.2.2 = first ∧
        s.window.index = s₀.window.index)))
    (fun _ s => s.rest) hs₁ (by grind -linarith) (by grind -linarith) fun state s hs hto hI => ?_
  mvcgen
  all_goals grind -linarith

@[spec high]
theorem openParens_ends (hs : s₀.Steady) :
    Ends s₀ openParens fun n s =>
      ∀ t, s₀.Shows t → t.is "(" = false → n = 0 ∧ s.window.index = s₀.window.index := by
  unfold openParens
  refine iterate_ends (I := fun n s =>
      ∀ t, s₀.Shows t → t.is "(" = false → n = 0 ∧ s.window.index = s₀.window.index)
    (fun _ s => s.rest) hs (fun _ _ _ => ⟨rfl, rfl⟩) (by grind -linarith)
    fun n s hs hto hI => ?_
  mvcgen
  all_goals grind -linarith

@[spec high]
theorem closeParens_ends (hs : s₀.Steady) (n : Nat) :
    Ends s₀ (closeParens n) fun _ s => n = 0 → s.window.index = s₀.window.index := by
  unfold closeParens
  refine iterate_ends (I := fun k s => n = 0 → k = 0 ∧ s.window.index = s₀.window.index)
    (fun _ s => s.rest) hs (fun h => ⟨h, rfl⟩) (by grind -linarith) fun k s hs hto hI => ?_
  mvcgen
  all_goals grind -linarith

variable {m : Nat} {readDeclarator : DeclaratorReader}
  {Q : DeclaratorRequest → Reading → Option Declarator → Reading → Prop}

theorem spreadStars_name (n : DeclaredName) : n.spreadStars.name = n.name := by
  unfold DeclaredName.spreadStars
  split <;> rfl

theorem readBehind_ends (hread : EndsWithin m readDeclarator Q) (hs : s₀.Steady)
    (hm : s₀.rest ≤ m) (request : DeclaratorRequest) (type : NativeType)
    (isTypedef isUsing : Bool) :
    Ends s₀ (readBehind readDeclarator request type isTypedef isUsing) fun d s =>
      (∀ t, s₀.Shows t → t.isAny ["[", "(", ":"] = true → s₀.window.index < s.window.index) ∧
      (s₀.Ended → request.defaultName = none → d.nativeName = "") ∧
      (∀ t, s₀.Shows t → t.opens request.scope = false → isTypedef = false →
        s.window.index = s₀.window.index ∧
          (request.defaultName = none → d.nativeName = "")) := by
  have hparameters {s : Reading} (hs : s.Steady) (hm : s.rest ≤ m) (d : Draft)
      (n : DeclaredName) :=
    Draft.readParameters_ends hread hs hm d request n isTypedef
  unfold readBehind
  refine Ends.bind (Draft.readMarks_ends hs _) fun d₁ s₁ hs₁ hto₁ hmarks => ?_
  refine Ends.bind (Draft.readAttributes_ends hs₁ d₁) fun r s₂ hs₂ hto₂ hattributes => ?_
  refine Ends.bind (openParens_ends hs₂) fun parens s₃ hs₃ hto₃ hopen => ?_
  refine Ends.bind (DeclaredName.read_ends hs₃ request.scope isTypedef) fun n s₄ hs₄ hto₄ hname => ?_
  refine Ends.bind (DeclaredName.readDims_ends hs₄ n.dims) fun dims s₅ hs₅ hto₅ hdims => ?_
  refine Ends.bind (Draft.readBitfield_ends hs₅ _) fun d₂ s₆ hs₆ hto₆ hbitfield => ?_
  refine Ends.bind (Draft.readMapping_ends hs₆ d₂ request isTypedef isUsing)
    fun d₃ s₇ hs₇ hto₇ hmapping => ?_
  refine Ends.bind (get_ends hs₇) fun _ s₈ hs₈ hto₈ hget => ?_
  refine Ends.bind (hparameters hs₈ (by grind -linarith) _ _) fun d₄ s₉ hs₉ hto₉ hlist => ?_
  refine Ends.bind (closeParens_ends hs₉ parens) fun _ s' hs' hto' hclose => ?_
  refine Ends.pure hs' ⟨fun t hshows ht => ?_, fun hended hdefault => ?_,
    fun t hshows ht htypedef => ?_⟩
  · grind -linarith
  · have hn : n = {} := hname.1 (by grind -linarith)
    rw [hlist.1, Draft.nameBy_empty]
    simp [spreadStars_name, hn, hdefault]
  · obtain ⟨hword, hstar, hand, hands, hbracket, hparen, hcolon⟩ := Token.marks_of_not_opens ht
    have h₁ := hmarks t hshows hstar hand hands hword
    have hshows₁ := hto₁.shows hshows h₁
    have h₂ := hattributes t hshows₁ hword hbracket
    have hshows₂ := hto₂.shows hshows₁ h₂
    obtain ⟨hparens, h₃⟩ := hopen t hshows₂ hparen
    have hshows₃ := hto₃.shows hshows₂ h₃
    obtain ⟨hn, h₄⟩ := hname.2.2 t hshows₃ hword hparen htypedef
    have hshows₄ := hto₄.shows hshows₃ h₄
    have h₅ := hdims.2 t hshows₄ hbracket
    have hshows₅ := hto₅.shows hshows₄ h₅
    have h₆ := hbitfield.2 t hshows₅ hcolon
    have hshows₈ := (hto₆.trans (hto₇.trans hto₈)).shows hshows₅ (by grind -linarith)
    have h₉ := hlist.2 t hshows₈ hparen
    refine ⟨by grind -linarith, fun hdefault => ?_⟩
    rw [hlist.1, Draft.nameBy_empty]
    simp [spreadStars_name, hn, hdefault]

/-- What is known of a declarator that was read. At a token that opens one the cursor goes on; a name
is found only there, and only if there are as many declarators in the list. -/
def Met (request : DeclaratorRequest) (s₀ : Reading) (d : Option Declarator) (s : Reading) :
    Prop :=
  (∀ t, s₀.Shows t → t.opens request.scope = true → s₀.window.index < s.window.index) ∧
    ∀ d', d = some d' → request.defaultName = none → d'.nativeName ≠ "" →
      s₀.window.raw = false → request.number ≤ s₀.rest ∧
        (request.number = 0 → ∀ t, s₀.Shows t → t.opens request.scope = true)

theorem not_isEof_of_opens {t : Token} {scope : Scope} (h : t.opens scope = true) :
    t.isEof = false := by
  by_contra heof
  have hnone : t.isAny ["...", "[", "(", ":"] = false := by
    simp [Token.isAny, Token.is_of_isEof (by simpa using heof)]
  rw [Token.opens, Token.not_startsType_of_isEof (by simpa using heof), hnone] at h
  cases h

/-- A token that opens a declarator without starting a type. -/
theorem isAny_of_opens {t : Token} {scope : Scope} (h : t.opens scope = true)
    (hstarts : t.startsType scope = false) (hellipsis : t.is "..." = false) :
    t.isAny ["[", "(", ":"] = true := by
  rw [Token.opens, hstarts, Bool.false_or, Token.isAny_cons, hellipsis, Bool.false_or] at h
  exact h

theorem readWith_ends (hread : EndsWithin m readDeclarator Q) (hs : s₀.Steady)
    (hm : s₀.rest ≤ m) (request : DeclaratorRequest) :
    Ends s₀ (readWith readDeclarator request) (Met request s₀) := by
  unfold readWith
  refine Ends.bind (peek_ends hs) fun t s₁ hs₁ hto₁ hpeek => ?_
  refine Ends.bind (peek_ends hs₁) fun t' s₂ hs₂ hto₂ hpeek' => ?_
  refine Ends.bind (NativeType.read_ends hs₂ request.scope) fun type s₃ hs₃ hto₃ htype => ?_
  have hto : s₀.To s₃ := hto₁.trans (hto₂.trans hto₃)
  cases type with
  | none =>
      refine Ends.pure hs₃ ⟨fun u hshows hopens => ?_, fun d' hd' => by cases hd'⟩
      obtain hlt | ⟨-, hsome, -⟩ := htype
      · grind -linarith
      · cases hsome
  | some type =>
      refine Ends.bind (skipTo_ends hs₃ request.number) fun found s₄ hs₄ hto₄ hskip => ?_
      -- where the type has no tokens, what opens the declarator is behind it still
      have hat (hindex : s₃.window.index = s₀.window.index) (u : Token) (hshows : s₀.Shows u) :
          s₃.Shows u := hto.shows hshows hindex
      cases found with
      | false =>
          refine Ends.pure hs₄ ⟨fun u hshows hopens => ?_, fun d' hd' => by cases hd'⟩
          have hnumber : request.number ≠ 0 := fun hzero => by simpa using (hskip.1 hzero).1
          have heof := not_isEof_of_opens hopens
          grind -linarith
      | true =>
          refine Ends.bind (readBehind_ends hread hs₄ (by grind -linarith) request type _ _)
            fun d s₅ hs₅ hto₅ hbehind => ?_
          refine Ends.pure hs₅ ⟨fun u hshows hopens => ?_, fun d' hd' hdefault hname hraw => ?_⟩
          · obtain ⟨hlt, -⟩ | ⟨hindex, -, -, hnone⟩ := htype
            · grind -linarith
            have hat₂ : s₂.Shows u := (hto₁.trans hto₂).shows hshows (by grind -linarith)
            obtain ⟨hstarts, hellipsis⟩ := hnone u hat₂
            have hany := isAny_of_opens hopens hstarts hellipsis
            have heof := not_isEof_of_opens hopens
            have hat₃ := hat (by grind -linarith) u hshows
            by_cases hnumber : request.number = 0
            · have hindex₄ := (hskip.1 hnumber).2
              have hbehind := hbehind.1 u (hto₄.shows hat₃ hindex₄) hany
              grind -linarith
            · have hlt := hskip.2.1 u hat₃ heof hnumber
              grind -linarith
          · obtain rfl := Option.some.inj hd'
            have hnot : ¬ s₄.Ended := fun hended => hname (hbehind.2.1 hended hdefault)
            have hraw₃ : s₃.window.raw = false := hto.raw.trans hraw
            refine ⟨by grind -linarith, fun hnumber u hshows => ?_⟩
            by_contra hopens
            rw [Bool.not_eq_true] at hopens
            obtain ⟨-, hall⟩ | ⟨hindex, -⟩ := htype
            · -- the type has tokens, and the first of them opens it
              have hstart : s₂.window.index = s₀.window.index := by grind -linarith
              rw [hall u ((hto₁.trans hto₂).shows hshows hstart)] at hopens
              cases hopens
            · -- there is no type, and nothing behind it
              have hstart : s₃.window.index = s₀.window.index := by grind -linarith
              have hshows₄ : s₄.Shows u := hto₄.shows (hat hstart u hshows) (hskip.1 hnumber).2
              have htypedef : t.isKeyword .typedef_ = false := by
                have hword := (Token.marks_of_not_opens hopens).1
                rw [(hto₁.shows hshows hpeek.1).isWord_eq (hpeek.2.2 hraw)] at hword
                by_contra hkeyword
                rw [Token.isWord_of_isKeyword (by simpa using hkeyword)] at hword
                cases hword
              exact hname ((hbehind.2.2 u hshows₄ hopens htypedef).2 hdefault)

end Declarator

end HeaderPeers

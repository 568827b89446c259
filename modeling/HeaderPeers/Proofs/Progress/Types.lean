import HeaderPeers.Proofs.Progress.Looking

/-!
# Reading types ends

-/

set_option mvcgen.warning false

namespace HeaderPeers

open Std.Do ReadM Reading

variable {s₀ : Reading}

attribute [local spec high] cursor

attribute [local grind →] Token.isEof_of_is Token.isEof_of_isWord Token.isEof_of_isKeyword

namespace NativeType

/-! ## Types without tokens -/

theorem substitute?_empty {map : TemplateMap} (h : map.binding? "" = none) :
    substitute? map "" = none := by
  have hget : map.get? "" = none := by
    simp [TemplateMap.get?, h]
  rw [substitute?, hget]
  rfl

/-- A type of which nothing has been read means nothing. -/
theorem resolve_empty {scope : Scope} (h : scope.Named) (table : RuleTable)
    (usings : List String) : ({} : NativeType).resolve table scope usings = {} := by
  have hhoist : ({} : NativeType).hoist = {} := rfl
  have hinstantiate : ({} : NativeType).instantiate scope = {} := by
    have hnone : scope.template.bind (fun map => substitute? map "") = none := by
      rw [Option.bind_eq_none_iff]
      exact fun map hmap => substitute?_empty (h map hmap)
    rw [instantiate, hnone]
  rw [resolve, hhoist, hinstantiate]
  rfl

end NativeType

namespace Token

/-- Whether a token starts a type or is taken into it. -/
def startsType (scope : Scope) (t : Token) : Bool :=
  !t.isEof && !t.is "[" && (t.isWord || t.isAny ["::", "<", "*", "&", "&&", "\x7d"]
    || (t.is "~" && !scope.cOnly) || Name.fundamentalWords.contains t.text)

/-- Whether a token starts a declarator with or without a type. -/
def opens (scope : Scope) (t : Token) : Bool :=
  t.startsType scope || t.isAny ["...", "[", "(", ":"]

@[simp, grind =]
theorem isAny_nil (t : Token) : t.isAny [] = false := rfl

@[simp, grind =]
theorem isAny_cons (t : Token) (text : String) (texts : List String) :
    t.isAny (text :: texts) = (t.is text || t.isAny texts) := rfl

variable {t u : Token}

theorem startsType_of_face_eq (h : t.face = u.face) (scope : Scope) :
    t.startsType scope = u.startsType scope := by
  obtain ⟨hkind, htext⟩ := Prod.mk.injEq .. ▸ h
  simp only [startsType, is, isAny_cons, isAny_nil, isWord, isEof, hkind, htext]

theorem opens_of_face_eq (h : t.face = u.face) (scope : Scope) :
    t.opens scope = u.opens scope := by
  obtain ⟨hkind, htext⟩ := Prod.mk.injEq .. ▸ h
  simp only [opens, startsType_of_face_eq h, is, isAny_cons, isAny_nil, hkind, htext]

theorem not_startsType_of_isEof (h : t.isEof = true) (scope : Scope) :
    t.startsType scope = false := by
  simp [startsType, h]

theorem not_startsType_of_bracket (h : t.is "[" = true) (scope : Scope) :
    t.startsType scope = false := by
  simp [startsType, h]

theorem not_startsType {scope : Scope} (hword : t.isWord = false)
    (hpath : t.is "::" = false) (hless : t.is "<" = false) (hstar : t.is "*" = false)
    (hand : t.is "&" = false) (hands : t.is "&&" = false)
    (hnot : (t.is "~" && !scope.cOnly) = false)
    (hwords : Name.fundamentalWords.contains t.text = false) (hbrace : t.is "\x7d" = false) :
    t.startsType scope = false := by
  simp only [startsType, hword, isAny_cons, isAny_nil, hpath, hless, hstar, hand, hands, hbrace,
    hnot, hwords, Bool.or_false, Bool.and_false]

/-- The tests that a token fails if it opens nothing. -/
theorem tests_of_not_opens {scope : Scope} (h : t.opens scope = false) :
    t.isEof = true ∨ (t.isWord = false ∧ t.is "::" = false ∧ t.is "<" = false ∧
      t.is "*" = false ∧ t.is "&" = false ∧ t.is "&&" = false ∧ (t.is "~" && !scope.cOnly) = false ∧
      Name.fundamentalWords.contains t.text = false ∧ t.is "\x7d" = false ∧ t.is "[" = false) := by
  cases ht : t.isEof with
  | true => exact .inl rfl
  | false =>
      simp only [opens, startsType, isAny_cons, isAny_nil, ht, Bool.or_eq_false_iff] at h
      simp_all

/-- What a token that opens nothing is not. -/
theorem marks_of_not_opens {t : Token} {scope : Scope} (h : t.opens scope = false) :
    t.isWord = false ∧ t.is "*" = false ∧ t.is "&" = false ∧ t.is "&&" = false ∧
      t.is "[" = false ∧ t.is "(" = false ∧ t.is ":" = false := by
  cases heof : t.isEof with
  | true => simp [Token.isWord_of_isEof heof, Token.is_of_isEof heof]
  | false =>
      obtain htests := tests_of_not_opens h
      simp only [opens, isAny_cons, Bool.or_eq_false_iff] at h
      simp_all

theorem isWord_of_isKeyword {word : Keyword} (h : t.isKeyword word = true) :
    t.isWord = true := by
  simp_all [isKeyword, isWord]

theorem isWord_of_isKeywordWith {p : Keyword → Bool} (h : t.isKeywordWith p = true) :
    t.isWord = true := by
  unfold isKeywordWith at h
  unfold isWord
  split at h <;> simp_all

end Token

namespace Reading.Shows

variable {s : Reading} {t u : Token}

theorem startsType_eq (h : s.Shows t) (h' : s.Shows u) (scope : Scope) :
    t.startsType scope = u.startsType scope :=
  Token.startsType_of_face_eq (h.face_eq h') scope

grind_pattern startsType_eq => s.Shows t, s.Shows u, t.startsType scope

theorem opens_eq (h : s.Shows t) (h' : s.Shows u) (scope : Scope) :
    t.opens scope = u.opens scope :=
  Token.opens_of_face_eq (h.face_eq h') scope

grind_pattern opens_eq => s.Shows t, s.Shows u, t.opens scope

end Reading.Shows

namespace NativeType

variable {m : Nat} {readType : Scope → ReadM (Option NativeType)}
  {Q : Scope → Reading → Option NativeType → Reading → Prop}

@[spec high]
theorem readArgument_ends (hread : EndsWithin m readType Q) (hs : s₀.Steady) (hm : s₀.rest < m)
    (scope : Scope) :
    Ends s₀ (readArgument readType scope) fun r s => r.2.isEof = false → s.Live := by
  have hinner : ∀ scope s, s.Steady → s.rest < m → Ends s (readType scope) (Q scope s) := hread
  unfold readArgument
  mvcgen [hinner]
  all_goals grind -linarith

@[spec high]
theorem readArguments_ends (hread : EndsWithin m readType Q) (hs : s₀.Steady) (hm : s₀.rest ≤ m)
    (hlive : s₀.Live) (scope : Scope) :
    Ends s₀ (readArguments readType scope) fun _ s => s₀.window.index < s.window.index := by
  unfold readArguments
  mvcgen
  all_goals grind -linarith

@[spec high]
theorem onward_ends (hs : s₀.Steady) (type : NativeType) :
    Ends s₀ (onward type) fun r s => r = .again type ∧
      (s₀.Live → s₀.window.index < s.window.index) := by
  unfold onward
  mvcgen
  all_goals grind -linarith

@[spec high]
theorem closing_ends (hs : s₀.Steady) (type : NativeType) :
    Ends s₀ (closing type) fun r s => r = .done type ∧
      (s₀.Live → s₀.window.index < s.window.index) := by
  unfold closing
  mvcgen
  all_goals grind -linarith

/-- What a turn says about the cursor: the type goes on behind it, or nothing has
been added to it. -/
def Onward (scope : Scope) (s₀ : Reading) (type : NativeType) (r : Turn NativeType NativeType)
    (s : Reading) : Prop :=
  match r with
  | .again _ => s₀.window.index < s.window.index ∧ s₀.Live
  | .done result =>
      s₀.window.index < s.window.index ∨ (s.window.index = s₀.window.index ∧ result = type ∧
        (type.nativeName.isEmpty = true → ∀ t, s₀.Shows t → t.startsType scope = false))

theorem Onward.of_looked {scope : Scope} {s s' : Reading} {type : NativeType}
    {r : Turn NativeType NativeType} (h : Onward scope s type r s') (hto : s₀.To s)
    (hindex : s.window.index = s₀.window.index) : Onward scope s₀ type r s' := by
  cases r with
  | again _ => grind -linarith [Onward]
  | done _ => grind -linarith [Onward]

attribute [local grind →] Token.isWord_of_isKeyword Token.isWord_of_isKeywordWith
  Token.tests_of_not_opens

theorem readWord_ends (hs : s₀.Steady) (scope : Scope) (type : NativeType) {t : Token}
    (hlive : s₀.Live) :
    Ends s₀ (readWord type t) (Onward scope s₀ type) := by
  unfold readWord
  mvcgen
  all_goals grind -linarith [Onward]

@[spec high]
theorem readPart_ends (hread : EndsWithin m readType Q) (hs : s₀.Steady) (hm : s₀.rest ≤ m)
    (scope : Scope) (type : NativeType) :
    Ends s₀ (readPart readType scope type) (Onward scope s₀ type) := by
  have hword : ∀ {s t}, s.Steady → s.Live →
      Ends s (readWord type t) (Onward scope s type) :=
    fun hs hlive => readWord_ends hs scope type hlive
  unfold readPart
  refine Ends.intro fun P hP => ?_
  mvcgen [hword, -readWord_keeps]
  all_goals
    grind -linarith [Onward, Onward.of_looked, Token.not_startsType, Token.not_startsType_of_isEof,
      Token.not_startsType_of_bracket]

/-- A token that opens nothing is no part of a type. -/
theorem readPart_stays {t : Token} {scope : Scope} (ht : t.opens scope = false) (hs : s₀.Steady)
    (hshows : s₀.Shows t) (type : NativeType) :
    Ends s₀ (readPart readType scope type) fun r s =>
      r = .done type ∧ s.window.index = s₀.window.index := by
  unfold readPart
  refine Ends.intro fun P hP => ?_
  mvcgen -trivial
  all_goals grind -linarith

@[spec high]
theorem readSymbol_ends (hs : s₀.Steady) (type : NativeType) :
    Ends s₀ (readSymbol type) fun _ _ => True := by
  unfold readSymbol
  refine iterate_ends (I := fun _ _ => True) (fun _ s => s.rest) hs trivial
    (by grind -linarith) fun type s hs hto _ => ?_
  mvcgen
  all_goals grind -linarith

theorem placeInGroup_empty (scope : Scope) : placeInGroup scope {} = pure {} := by
  unfold placeInGroup
  cases scope.group with
  | none => rfl
  | some _ => rfl

@[spec high]
theorem placeInGroup_ends (hs : s₀.Steady) (scope : Scope) (type : NativeType) :
    Ends s₀ (placeInGroup scope type) fun r s =>
      s.window.index = s₀.window.index ∧ (type = {} → r = {}) := by
  by_cases hempty : type = {}
  · rw [hempty, placeInGroup_empty]
    mvcgen
    all_goals grind -linarith
  · have hindex : Ends s₀ (placeInGroup scope type) fun _ s =>
        s.window.index = s₀.window.index := by
      unfold placeInGroup
      mvcgen
      all_goals grind -linarith
    exact hindex.imp fun _ _ _ _ h => ⟨h, fun htype => absurd htype hempty⟩

@[spec high]
theorem finish_ends (hs : s₀.Steady) (scope : Scope) (type : NativeType) :
    Ends s₀ (finish scope type) fun r s =>
      s.window.index = s₀.window.index ∧ (scope.Named → type = {} → r = {}) := by
  unfold finish
  mvcgen
  all_goals grind -linarith [resolve_empty]

/-- The parts of a type, up to something that is none. -/
theorem readParts_ends (hread : EndsWithin m readType Q) (hs : s₀.Steady) (hm : s₀.rest ≤ m)
    (scope : Scope) :
    Ends s₀ (iterate {} (readPart readType scope)) fun type s =>
      s₀.window.index < s.window.index ∨ (s.window.index = s₀.window.index ∧ type = {} ∧
        ∀ t, s₀.Shows t → t.startsType scope = false) := by
  refine iterate_ends (I := fun type s => s₀.window.index < s.window.index ∨
    (s.window.index = s₀.window.index ∧ type = {})) (fun _ s => s.rest) hs (.inr ⟨rfl, rfl⟩)
    (by grind -linarith) fun type s hs hto hI => ?_
  refine Ends.imp (readPart_ends hread hs (by grind -linarith) scope type)
    fun r s' hs' hto' hr => ?_
  have hempty : type = {} → type.nativeName.isEmpty = true := by
    rintro rfl
    rfl
  cases r with
  | again _ => grind -linarith [Onward]
  | done _ => grind -linarith [Onward]

/-- No part of a type is read where the token at the cursor opens nothing. -/
theorem readParts_stays {t : Token} {scope : Scope} (ht : t.opens scope = false)
    (hs : s₀.Steady) (hshows : s₀.Shows t) :
    Ends s₀ (iterate {} (readPart readType scope)) fun type s =>
      type = {} ∧ s.window.index = s₀.window.index := by
  refine iterate_ends (I := fun type s => type = {} ∧ s.window.index = s₀.window.index)
    (fun _ s => s.rest) hs ⟨rfl, rfl⟩ (by grind -linarith) fun type s hs hto hI => ?_
  obtain ⟨rfl, hindex⟩ := hI
  refine Ends.imp (readPart_stays ht hs (hto.shows hshows hindex) {}) fun r s' _ _ hr => ?_
  obtain ⟨rfl, hindex'⟩ := hr
  exact ⟨rfl, hindex'.trans hindex⟩

/-- What is known of a type that was read: it has tokens, or nothing at the cursor
starts a type and it means nothing. -/
def Taken (scope : Scope) (s₀ : Reading) (type : Option NativeType) (s : Reading) : Prop :=
  (s₀.window.index < s.window.index ∧ ∀ t, s₀.Shows t → t.opens scope = true) ∨
    (s.window.index = s₀.window.index ∧ type.isSome = true ∧ (scope.Named → type = some {}) ∧
      ∀ t, s₀.Shows t → t.startsType scope = false ∧ t.is "..." = false)

/-- Nothing is read where the token at the cursor opens nothing. -/
theorem readWith_stays {t : Token} {scope : Scope} (ht : t.opens scope = false)
    (hs : s₀.Steady) (hshows : s₀.Shows t) :
    Ends s₀ (readWith readType scope) fun _ s => s.window.index = s₀.window.index := by
  have hellipsis : t.is "..." = false := by
    simp only [Token.opens, Bool.or_eq_false_iff, Token.isAny_cons] at ht
    exact ht.2.1
  unfold readWith
  refine Ends.bind (readParts_stays ht hs hshows) fun type s₁ hs₁ hto₁ htype => ?_
  obtain ⟨rfl, hindex⟩ := htype
  mvcgen
  all_goals grind -linarith

theorem readWith_ends (hread : EndsWithin m readType Q) (hs : s₀.Steady) (hm : s₀.rest ≤ m)
    (scope : Scope) : Ends s₀ (readWith readType scope) fun type s =>
      s₀.window.index < s.window.index ∨
        (s.window.index = s₀.window.index ∧ type.isSome = true ∧ (scope.Named → type = some {}) ∧
          ∀ t, s₀.Shows t → t.startsType scope = false ∧ t.is "..." = false) := by
  unfold readWith
  refine Ends.bind (readParts_ends hread hs hm scope) fun type s hs₁ hto₁ htype => ?_
  refine Ends.bind (peek_ends hs₁) fun t s₂ hs₂ hto₂ ht => ?_
  split
  · refine Ends.bind (advance_ends hs₂) fun _ s₃ hs₃ hto₃ hadvance => ?_
    have hlt : s₀.window.index < s₃.window.index := by grind -linarith
    split
    · exact Ends.pure hs₃ (.inl hlt)
    · refine Ends.bind (finish_ends hs₃ scope _) fun _ s₄ hs₄ _ hfinish => ?_
      exact Ends.pure hs₄ (.inl (hfinish.1 ▸ hlt))
  split
  next hoperator =>
    have hlt : s₀.window.index < s₂.window.index := by grind -linarith
    refine Ends.bind (readSymbol_ends hs₂ _) fun _ s₃ hs₃ hto₃ _ => ?_
    refine Ends.bind (finish_ends hs₃ scope _) fun _ s₄ hs₄ hto₄ _ => ?_
    exact Ends.pure hs₄ (.inl (by grind -linarith))
  next hellipsis _ =>
    refine Ends.bind (finish_ends hs₂ scope _) fun _ s₃ hs₃ hto₃ hfinish => ?_
    refine Ends.pure hs₃ ?_
    obtain hlt | ⟨hindex, rfl, hstarts⟩ := htype
    · exact .inl (by grind -linarith)
    · refine .inr ⟨by grind -linarith, rfl, fun hnamed => ?_, fun u hu => ⟨hstarts u hu, ?_⟩⟩
      · rw [hfinish.2 hnamed rfl]
      · grind -linarith

@[spec high]
theorem read_ends (hs : s₀.Steady) (scope : Scope) : Ends s₀ (read scope) (Taken scope s₀) := by
  refine nest_ends (Q := Taken) (fun readType m hread scope s hs hm => ?_) hs scope
  have hboth := (readWith_ends hread hs hm scope).and_forall
    (P := fun t => s.Shows t ∧ t.opens scope = false) fun _ ht => readWith_stays ht.2 hs ht.1
  refine hboth.imp fun type s' _ _ ⟨htype, hstays⟩ => ?_
  obtain hlt | hnone := htype
  · refine Or.inl ⟨hlt, fun t hshows => ?_⟩
    by_contra hopens
    have hindex := hstays t ⟨hshows, by simpa using hopens⟩
    omega
  · exact Or.inr hnone

end NativeType

end HeaderPeers

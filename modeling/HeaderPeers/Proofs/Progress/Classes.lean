import HeaderPeers.Proofs.Progress.Entities

/-!
# Reading classes and namespaces ends

What stands between braces is read as a scope of its own, further on.

- `Class.ReadsWithin` — what is known of how the scope inside is read.
- `Class.readWith_passes`, `Namespace.readWith_ends`, `Namespace.readLinkageWith_ends` — whatever is
  recognized, the cursor goes on.
-/

set_option mvcgen.warning false

namespace HeaderPeers

open Std.Do ReadM Reading

variable {s₀ : Reading}

attribute [local spec high] cursor

attribute [local grind →] Token.isEof_of_is Token.isEof_of_isWord Token.isEof_of_isKeyword

namespace Class

/-- Scopes are read where fewer than `m` tokens are left. -/
def ReadsWithin (m : Nat) (readScope : ScopeReader) : Prop :=
  ∀ scope s, s.Ready → scope.Named → s.rest < m → ReadM.Ends s (readScope scope) fun _ _ => True

@[spec high]
theorem toKeyword_ends (hs : s₀.Steady) :
    ReadM.Ends s₀ toKeyword fun r s => r.isSome = true → s.Live := by
  unfold toKeyword
  refine ReadM.Ends.bind (peek_ends hs) fun first s₁ hs₁ hto₁ hfirst => ?_
  refine iterate_ends (I := fun state s => (Carries.token state).isEof = false → s.Live)
    (fun _ s => s.rest) hs₁ (by grind -linarith) (by grind -linarith) fun state s hs hto hI => ?_
  mvcgen
  all_goals grind -linarith

@[spec high]
theorem readBases_ends (hs : s₀.Steady) (scope : Scope) (isPrivate : Bool) :
    ReadM.Ends s₀ (readBases scope isPrivate) fun _ _ => True := by
  unfold readBases
  refine ReadM.Ends.intro fun P hP => ?_
  mvcgen
  all_goals grind -linarith

@[spec high]
theorem readName_ends (hs : s₀.Steady) (scope : Scope) (isTypedef : Bool) :
    ReadM.Ends s₀ (readName scope isTypedef) fun _ s =>
      s₀.Live → s₀.window.index < s.window.index := by
  unfold readName
  refine ReadM.Ends.intro fun P hP => ?_
  mvcgen
  all_goals grind -linarith

@[spec high]
theorem readHead_ends (hs : s₀.Steady) (scope : Scope) :
    ReadM.Ends s₀ (readHead scope) fun r s =>
      r.isSome = true → s₀.Live ∧ s₀.window.index < s.window.index := by
  unfold readHead
  refine ReadM.Ends.intro fun P hP => ?_
  mvcgen
  all_goals grind -linarith

@[spec high]
theorem readTypedefName_ends (hs : s₀.Steady) (type : NativeType) :
    ReadM.Ends s₀ (readTypedefName type) fun _ _ => True := by
  unfold readTypedefName
  refine ReadM.Ends.intro fun P hP => ?_
  mvcgen
  all_goals grind -linarith

@[spec high]
theorem readMembers_ends (hs : s₀.Steady) :
    ReadM.Ends s₀ readMembers fun _ s => s.window.index = s₀.window.index := by
  unfold readMembers
  refine ReadM.Ends.intro fun P hP => ?_
  mvcgen
  all_goals grind -linarith

@[spec high]
theorem readBehind_ends (hs : s₀.Steady) (head : Head) (isAnonymous : Bool) :
    ReadM.Ends s₀ (readBehind head isAnonymous) fun _ _ => True := by
  unfold readBehind
  refine ReadM.Ends.intro fun P hP => ?_
  mvcgen
  all_goals grind -linarith

@[spec high]
theorem settle_ends (hs : s₀.Steady) (scope : Scope) (type : NativeType) :
    ReadM.Ends s₀ (settle scope type) fun _ s => s.window = s₀.window := by
  have hrule (name target : String) : (ruleFor name target).nativeText = none := rfl
  unfold settle
  refine ReadM.Ends.intro fun P hP => ?_
  mvcgen
  all_goals grind -linarith

@[spec high]
theorem readForward_ends (hs : s₀.Steady) (scope : Scope) (head : Head) (type : NativeType)
    (name base : String) :
    ReadM.Ends s₀ (readForward scope head type name base) fun _ _ => True := by
  unfold readForward
  refine ReadM.Ends.intro fun P hP => ?_
  mvcgen
  all_goals grind -linarith

@[spec high]
theorem inheritedText_ends (hs : s₀.Steady) (scope : Scope) (bases : List NativeType) :
    ReadM.Ends s₀ (inheritedText scope bases) fun _ s => s = s₀ :=
  ends_iff.mpr ⟨hs, .refl s₀, rfl⟩

@[spec high]
theorem remember_ends (hs : s₀.Steady) (nativeName : String) (rule : Option Rule) (text : String)
    (members : List Declaration) :
    ReadM.Ends s₀ (remember nativeName rule text members) fun _ s => s.window = s₀.window := by
  unfold remember
  refine ReadM.Ends.intro fun P hP => ?_
  mvcgen [modify_ends]
  all_goals grind -linarith

@[spec high]
theorem readEnd_ends (hs : s₀.Steady) : ReadM.Ends s₀ readEnd fun _ _ => True := by
  unfold readEnd
  refine ReadM.Ends.intro fun P hP => ?_
  mvcgen
  all_goals grind -linarith

/-- A class is a scope with the template parameters around it. -/
theorem named_innerScope {scope : Scope} (h : scope.Named) (table : RuleTable) (type : NativeType)
    (rule : Option Rule) (isPrivate isAnonymous : Bool) :
    (innerScope scope table type rule isPrivate isAnonymous).Named := by
  cases isAnonymous <;> exact h

variable {m : Nat} {readScope : ScopeReader}

@[spec high]
theorem readInside_ends (hread : ReadsWithin m readScope) (hs : s₀.Ready) (hm : s₀.rest < m)
    (scope inner : Scope) (hinner : inner.Named) (vars : List Declarator) :
    ReadM.Ends s₀ (readInside readScope scope inner vars) fun _ _ => True := by
  unfold readInside
  refine EndsIn.cursor_bind ?_
  refine ReadM.Ends.bind (withOutline_ends (Q := fun _ _ => True) ?_) fun r s hs' _ _ =>
    ReadM.Ends.pure hs' trivial
  have hs' : Ready { s₀ with outline := {} } :=
    ⟨⟨hs.plain, hs.sound, hs.fuel⟩, hs.not_raw, hs.undefining⟩
  split
  · exact hread inner _ hs' hinner hm
  · refine forM_endsIn (I := fun _ => True) (fun d s hs hto _ => ?_) vars _ hs'.toSteady (.refl _)
      trivial
    refine EndsIn.moveTo_bind ?_
    have hback := To.atIndex hto (Nat.le_refl _)
    refine EndsIn.of_ends hback (hread _ _ (hback.ready hs' (hs.atIndex _)) hinner ?_)
    have hsize := hto.size_le
    grind -linarith

@[spec high]
theorem readBody_ends (hread : ReadsWithin m readScope) (hs : s₀.Ready) (hm : s₀.rest < m)
    (scope : Scope) (hscope : scope.Named) (head : Head) (type : NativeType) (rule : Option Rule)
    (name : String) (base : NativeType) (others : List NativeType) (vars : List Declarator)
    (isAnonymous : Bool) :
    ReadM.Ends s₀ (readBody readScope scope head type rule name base others vars isAnonymous)
      fun _ _ => True := by
  unfold readBody
  refine ReadM.Ends.intro fun P hP => ?_
  mvcgen
  all_goals grind -linarith [named_innerScope]

@[spec high]
theorem readWith_passes (hread : ReadsWithin m readScope) (hs : s₀.Ready) (hm : s₀.rest ≤ m)
    (scope : Scope) (hscope : scope.Named) :
    ReadM.Ends s₀ (readWith readScope scope) fun matched s =>
      matched = true → s₀.window.index < s.window.index := by
  unfold readWith
  refine ReadM.Ends.bind (readHead_ends hs.toSteady scope) fun head s₁ hs₁ hto₁ hhead => ?_
  cases head with
  | none => exact ReadM.Ends.pure hs₁ (by simp)
  | some head =>
      obtain ⟨hlive, hlt⟩ := hhead rfl
      have hready := hto₁.ready hs hs₁
      have hrest : s₁.rest < m := by grind -linarith
      -- what follows goes back to here and no further
      refine ReadM.Ends.imp (Q := fun _ _ => True) (ReadM.Ends.intro fun P hP => ?_)
        fun _ _ _ hto _ _ => Nat.lt_of_lt_of_le hlt hto.index_le
      mvcgen [andM, -andM_keeps]
      all_goals grind -linarith

end Class

namespace Namespace

variable {m : Nat} {readScope : Class.ScopeReader}

theorem named_innerScope {scope : Scope} (h : scope.Named) (name : String) :
    (innerScope scope name).Named := h

@[spec high]
theorem readBlock_ends (hread : Class.ReadsWithin m readScope) (hs : s₀.Ready) (hm : s₀.rest < m)
    (scope : Scope) (hscope : scope.Named) :
    Ends s₀ (readBlock readScope scope) fun _ _ => True := by
  unfold readBlock
  refine Ends.bind (hread scope s₀ hs hscope hm) fun _ s₁ hs₁ _ _ => ?_
  refine Ends.intro fun P hP => ?_
  mvcgen
  all_goals grind -linarith

@[spec high]
theorem readWith_ends (hread : Class.ReadsWithin m readScope) (hs : s₀.Ready) (hm : s₀.rest ≤ m)
    (scope : Scope) (hscope : scope.Named) :
    Ends s₀ (readWith readScope scope) fun matched s =>
      matched = true → s₀.window.index < s.window.index := by
  unfold readWith
  refine Ends.bind (Q := fun _ _ => True) ?_ fun isInline s₁ hs₁ hto₁ _ => ?_
  · refine Ends.intro fun P hP => ?_
    have hsteady := hs.toSteady
    mvcgen [andM, -andM_keeps]
    all_goals grind -linarith
  extract_lets behind
  have hbehind {s : Reading} (hs : s.Ready) (hm : s.rest ≤ m) :
      Ends s (behind ()) fun matched s' =>
        matched = true → s.window.index < s'.window.index := by
    have hsteady := hs.toSteady
    unfold behind
    refine Ends.intro fun P hP => ?_
    mvcgen
    all_goals grind -linarith [named_innerScope]
  clear_value behind
  have hready := hto₁.ready hs hs₁
  have hrest : s₁.rest ≤ m := by grind -linarith
  have hindex := hto₁.index_le
  split
  · refine Ends.bind (advance_ends hs₁) fun _ s₂ hs₂ hto₂ _ => ?_
    have hindex₂ := hto₂.index_le
    refine (hbehind (hto₂.ready hready hs₂) (by grind -linarith)).imp fun _ _ _ _ h hmatched => ?_
    exact Nat.lt_of_le_of_lt (hindex.trans hindex₂) (h hmatched)
  · exact (hbehind hready hrest).imp fun _ _ _ _ h hmatched =>
      Nat.lt_of_le_of_lt hindex (h hmatched)

@[spec high]
theorem readLinkageWith_ends (hread : Class.ReadsWithin m readScope) (hs : s₀.Ready)
    (hm : s₀.rest ≤ m) (scope : Scope) (hscope : scope.Named) :
    Ends s₀ (readLinkageWith readScope scope) fun matched s =>
      matched = true → s₀.window.index < s.window.index := by
  unfold readLinkageWith
  refine Ends.intro fun P hP => ?_
  mvcgen [andM, -andM_keeps]
  all_goals grind -linarith

end Namespace

end HeaderPeers

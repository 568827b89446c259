import HeaderPeers.Proofs.Function.Declarators
import HeaderPeers.Proofs.Progress.Directives
import HeaderPeers.Proofs.Recognizers

/-!
# Access labels

A turn of the loop over a scope asks for the end of the scope first and passes
over access labels then. So labels in front of a statement set its access, and
labels in front of the end of a class are followed by a statement that nothing
recognizes: the whole header is refused.

- `AccessLabel.readAccess_passes` — labels are passed, whatever they are followed
  by.
- `Statement.tryAll_closing` — nothing is recognized at the end of a class.
- `Statement.Turns` — a number of turns of the loop.
- `Statement.readAllWith_of_labels` — the main statement.
- `Statement.trailing_label_is_refused` — a header that is read, and refused with
  a label more.
-/

namespace HeaderPeers

open ReadM

/-- An access label. -/
structure AccessLabel where
  word : Token
  colon : Token
  isAccess : word.isAnyKeyword [.private_, .protected_, .public_] = true
  isWord : Text.isWord word.text.toList = true
  isColon : colon.IsMark ":"

namespace AccessLabel

def tokens (label : AccessLabel) : List Token :=
  [label.word, label.colon]

/-- The scope behind the label. -/
def enter (scope : Scope) (label : AccessLabel) : Scope :=
  { scope with inaccessible := !label.word.isKeyword .public_ }

theorem not_isEof (label : AccessLabel) : label.word.isEof = false := by
  have haccess := label.isAccess
  by_contra heof
  have hkind : label.word.kind = .eof := by simpa [Token.isEof] using heof
  simp [Token.isAnyKeyword, Token.isKeywordWith, hkind] at haccess

theorem not_isBrace (label : AccessLabel) : label.word.is "\x7d" = false :=
  Token.is_of_word label.isWord "\x7d" (by decide)

theorem named_foldl_enter {scope : Scope} (h : scope.Named) (labels : List AccessLabel) :
    (labels.foldl enter scope).Named := by
  induction labels generalizing scope with
  | nil => exact h
  | cons label labels ih => exact ih (by exact h)

variable {s : Reading} {t : Token} {ts : List Token}

/-- Labels are passed up to a token that starts none. -/
theorem readAccess_passes {labels : List AccessLabel} (scope : Scope) {first : Token}
    (h : s.Sees (labels.flatMap tokens ++ t :: ts))
    (hfirst : (labels.flatMap tokens ++ t :: ts).head? = some first)
    (ht : t.isAnyKeyword [.private_, .protected_, .public_] = false) :
    Passes (Statement.readAccess scope first) s (t :: ts) (· = labels.foldl enter scope) := by
  refine iterate_passes h fun n hn => ?_
  have hlength : labels.length < n := by
    refine Nat.lt_of_lt_of_le ?_ hn
    simp [List.length_flatMap, tokens]
    omega
  clear hn
  induction labels generalizing scope first s n with
  | nil =>
      obtain rfl := Option.some.inj hfirst
      obtain ⟨n, rfl⟩ := Nat.exists_eq_add_one.mpr hlength
      refine iterateUpTo_done ?_
      simp only [ht]
      exact passes_pure h ⟨_, rfl, rfl⟩
  | cons label labels ih =>
      obtain rfl := Option.some.inj hfirst
      obtain ⟨n, rfl⟩ := Nat.exists_eq_add_one.mpr (Nat.zero_lt_of_lt hlength)
      obtain ⟨next, us, hnext⟩ : ∃ next us, labels.flatMap tokens ++ t :: ts = next :: us := by
        cases labels with
        | nil => exact ⟨t, ts, rfl⟩
        | cons label labels => exact ⟨label.word, _, rfl⟩
      have hsees : s.Sees (label.word :: label.colon :: next :: us) := by
        rw [← hnext]
        exact h
      refine iterateUpTo_again (?_ : Passes _ _ (next :: us) fun r => ∃ a,
        r = Turn.again a ∧ a = (enter scope label, next)) ?_
      · have hlabel : Passes (pure true <&&> (do return (← peekAt 1).is ":")) s
            (label.word :: label.colon :: next :: us) (· = true) :=
          (peekAt_one_passes hsees).bind_eq fun j h => passes_pure h (by simp [label.isColon.is_eq])
        simp only [label.isAccess]
        refine hlabel.bind_eq fun j h => ?_
        rw [if_neg (by simp)]
        refine (advance_passes h).bind_eq fun j h => ?_
        exact (advance_passes h).bind_eq fun j h => passes_pure h ⟨_, rfl, rfl⟩
      · rintro _ j rfl h
        refine ih _ (hnext ▸ h) (by rw [hnext]; rfl) _ (Nat.lt_of_succ_lt_succ hlength)

end AccessLabel

/-! ## The end of a class -/

theorem Token.IsMark.isKeywordWith_eq {t : Token} {text : String} (h : t.IsMark text)
    (p : Keyword → Bool) : t.isKeywordWith p = false := by
  obtain ⟨hkind | hkind, -⟩ := h <;> simp [Token.isKeywordWith, hkind]

section Closing

variable {s : Reading} {scope : Scope} {close semicolon : Token} {ts : List Token}

namespace NativeType

theorem finish_anonymous (hnamed : scope.Named) (s : Reading) :
    finish scope { anonymous := true } s = .ok { anonymous := true } s := by
  have hinstantiate : ({ anonymous := true } : NativeType).instantiate scope =
      { anonymous := true } := by
    have hnone : scope.template.bind (fun map => substitute? map "") = none :=
      Option.bind_eq_none_iff.mpr fun map hmap => substitute?_empty (hnamed map hmap)
    rw [instantiate, hnone]
  have hresolve : ({ anonymous := true } : NativeType).resolve s.table scope s.usings =
      { anonymous := true } := by
    have hhoist : ({ anonymous := true } : NativeType).hoist = { anonymous := true } := rfl
    rw [resolve, hhoist, hinstantiate]
    rfl
  have hget : (get : ReadM Reading) s = .ok s s := rfl
  unfold finish
  rw [bind_of_ok hget, hresolve]
  unfold placeInGroup
  cases scope.group with
  | none => rfl
  | some _ => rfl

/-- A closing brace makes a type that means nothing. -/
theorem read_closing (h : s.Sees (close :: semicolon :: ts)) (hclose : close.IsMark "\x7d")
    (hsemicolon : semicolon.IsMark ";") (hnamed : scope.Named) :
    Passes (NativeType.read scope) s (semicolon :: ts) (· = some { anonymous := true }) := by
  have hparts (n : Nat) : Passes (iterate {} (readPart (nestUpTo readWith n) scope)) s
      (semicolon :: ts) (· = { anonymous := true }) := by
    refine iterate_passes h fun m hm => ?_
    obtain ⟨m, rfl⟩ := Nat.exists_eq_add_one.mpr (Nat.lt_of_lt_of_le (Nat.succ_pos _) hm)
    refine iterateUpTo_done ?_
    unfold readPart
    refine (peek_passes h).bind_eq fun j h => ?_
    have hfundamental : Name.fundamentalWords.contains close.text = false := by
      rw [hclose.2]
      decide
    simp only [hclose.isEof_eq, hclose.is_eq, hclose.isKeyword_eq, hclose.isKeywordWith_eq,
      hclose.isWord_eq, hfundamental, String.reduceBEq, Bool.false_and, Bool.false_eq_true,
      if_false, if_true]
    unfold closing
    exact (advance_passes h).bind_eq fun j h => passes_pure h ⟨_, rfl, rfl⟩
  have hnest (n : Nat) : Passes (readWith (nestUpTo readWith n) scope) s (semicolon :: ts)
      (· = some { anonymous := true }) := by
    unfold readWith
    refine (hparts _).bind_eq fun j h => (peek_passes h).bind_eq fun j h => ?_
    rw [if_neg (by simp [hsemicolon.is_eq]), if_neg (by simp)]
    exact (passes_of_eq (finish_anonymous hnamed _) h).bind_eq fun j h => passes_pure h rfl
  exact nest_passes h hnest

end NativeType

/-- A semicolon is no name. -/
theorem DeclaredName.read_semicolon (h : s.Sees (semicolon :: ts))
    (hsemicolon : semicolon.IsMark ";") :
    Passes (DeclaredName.read scope false) s (semicolon :: ts) (· = {}) := by
  unfold DeclaredName.read
  refine (peek_passes h).bind_eq fun j h => ?_
  rw [if_neg (by simp [hsemicolon.is_eq]), if_neg (by simp), pure_bind]
  dsimp only
  rw [if_neg (by simp)]
  refine (peek_passes h).bind_eq fun j h => ?_
  rw [if_neg (by simp [hsemicolon.isWord_eq])]
  exact passes_pure h rfl

namespace Declarator

/-- What is asked of the declarator of a variable. -/
abbrev ofVariable (scope : Scope) : DeclaratorRequest :=
  { scope, view := .asDimension }

/-- The draft of what a closing brace is read as. -/
def closingDraft : Draft :=
  (Draft.ofType { anonymous := true } true).withDims .asDimension []

theorem readMapping_closing (h : s.Sees (semicolon :: ts))
    (hunnamed : ∀ rule ∈ s.table.findWith? "" false, rule.nativeTypes.getD [] = []) :
    Passes (closingDraft.readMapping (ofVariable scope) false false) s (semicolon :: ts)
      fun _ => True := by
  have hfinds : closingDraft.Finds s.table s.usings scope
      (closingDraft, s.table.findWith? closingDraft.lookupName false) :=
    Draft.finds_of_plain rfl hunnamed fun _ => rfl
  unfold Draft.readMapping
  refine (passes_of_eq (hfinds s semicolon ts rfl rfl h) h).bind_eq fun j h => ?_
  cases s.table.findWith? closingDraft.lookupName false with
  | none => exact passes_pure h trivial
  | some rule => exact passes_pure h trivial

/-- A semicolon gives a type no name. -/
theorem readBehind_closing (readDeclarator : DeclaratorReader) (h : s.Sees (semicolon :: ts))
    (hsemicolon : semicolon.IsMark ";")
    (hunnamed : ∀ rule ∈ s.table.findWith? "" false, rule.nativeTypes.getD [] = []) :
    Passes (readBehind readDeclarator (ofVariable scope) { anonymous := true } false false) s
      (semicolon :: ts) (·.nativeName = "") := by
  have hmark : Draft.marks semicolon = false := by
    simp [Draft.marks, Token.isAny, hsemicolon.is_eq, hsemicolon.isKeyword_eq]
  have hword : semicolon.isWord = true → ts ≠ [] ∧
      (s.table.find? semicolon.text).any (·.isAttribute) = false := by
    simp [hsemicolon.isWord_eq]
  unfold readBehind
  have hmarks : Passes (Draft.ofType { anonymous := true } true).readMarks s (semicolon :: ts)
      (· = Draft.ofType { anonymous := true } true) :=
    Draft.readMarks_passes (List.forall_mem_nil _) hmark _ h
  refine hmarks.bind_eq fun j h => ?_
  refine (Draft.readAttributes_passes _ h (by simp [hsemicolon.is_eq]) hword).bind_eq fun j h => ?_
  refine (openParens_passes h (by simp [hsemicolon.is_eq])).bind_eq fun j h => ?_
  refine (DeclaredName.read_semicolon h hsemicolon).bind_eq fun j h => ?_
  refine (DeclaredName.readDims_passes h (by simp [hsemicolon.is_eq]) []).bind_eq fun j h => ?_
  have hcolon : semicolon.is ":" = false := by simp [hsemicolon.is_eq]
  refine (Draft.readBitfield_passes closingDraft h hcolon).bind_eq fun j h => ?_
  refine (readMapping_closing h hunnamed).bind fun d j _ h => ?_
  refine (passes_of_eq (a := _) rfl h : Passes get _ _ (· = _)).bind_eq fun j h => ?_
  refine (Draft.readParameters_absent _ readDeclarator (ofVariable scope) _ false h
    (by simp [hsemicolon.is_eq])).bind_eq fun j h => ?_
  exact (closeParens_passes h).bind_eq fun j h =>
    passes_pure h (Draft.nameBy_empty rfl _ _ _ _ _ _)

/-- A closing brace is read as a declarator without a name. -/
theorem read_closing (h : s.Sees (close :: semicolon :: ts)) (hclose : close.IsMark "\x7d")
    (hsemicolon : semicolon.IsMark ";") (hnamed : scope.Named)
    (hunnamed : ∀ rule ∈ s.table.findWith? "" false, rule.nativeTypes.getD [] = []) :
    Passes (Declarator.read (ofVariable scope)) s (semicolon :: ts) fun d =>
      ∃ d', d = some d' ∧ d'.nativeName = "" := by
  have hwith (n : Nat) : Passes (readWith (nestUpTo readWith n) (ofVariable scope)) s
      (semicolon :: ts) fun d => ∃ d', d = some d' ∧ d'.nativeName = "" := by
    unfold readWith
    refine (peek_passes h).bind_eq fun j h => (peek_passes h).bind_eq fun j h => ?_
    rw [hclose.isKeyword_eq, hclose.isKeyword_eq]
    refine (NativeType.read_closing h hclose hsemicolon hnamed).bind_eq fun j h => ?_
    refine (skipTo_zero_passes h).bind_eq fun j h => ?_
    rw [if_neg (by simp)]
    exact (readBehind_closing _ h hsemicolon hunnamed).bind fun d j hd h =>
      passes_pure h ⟨d, rfl, hd⟩
  exact nest_passes h hwith

end Declarator

end Closing

namespace Statement

variable {readScope : Class.ScopeReader} {scope : Scope} {s : Reading} {close semicolon : Token}
  {ts us : List Token}

/-- The reading stands in front of the brace that ends a class, and nothing it knows gives a
meaning to what has no name. -/
structure AtClosing (scope : Scope) (close semicolon : Token) (ts : List Token) (s : Reading) :
    Prop where
  sees : s.Sees (close :: semicolon :: ts)
  close : close.IsMark "\x7d"
  semicolon : semicolon.IsMark ";"
  named : scope.Named
  unnamed : ∀ rule ∈ s.table.findWith? "" false, rule.nativeTypes.getD [] = []

namespace AtClosing

theorem startsPlain (h : AtClosing scope close semicolon ts s) : StartsPlain [] close :=
  ⟨List.forall_mem_nil _, h.close.isEof_eq, h.close.isWord_eq, by simp [h.close.is_eq]⟩

/-- A function is looked for up to its type, which takes the brace and means nothing. -/
theorem attempt_function (h : AtClosing scope close semicolon ts s) :
    attempt (Function.read scope) s = .ok false s := by
  refine attempt_of_passes (semicolon :: ts) ?_
  unfold Function.read
  refine (peek_passes h.sees).bind_eq fun j hsees => (peek_passes hsees).bind_eq fun j hsees => ?_
  rw [h.close.isKeyword_eq, if_neg (by simp)]
  refine (passes_of_eq (a := _) rfl hsees : Passes cursor _ _ (· = _)).bind_eq fun j hsees => ?_
  refine (NativeType.read_closing hsees h.close h.semicolon h.named).bind_eq fun j hsees => ?_
  refine (peek_passes hsees).bind_eq fun j hsees => ?_
  refine (Parameters.readWith_absent _ scope 0 none hsees
    (by simp [h.semicolon.is_eq])).bind_eq fun j hsees => ?_
  exact passes_pure hsees rfl

/-- A variable is looked for up to its name, which is missing. -/
theorem attempt_variable (h : AtClosing scope close semicolon ts s) :
    attempt (Variable.read scope) s = .ok false s := by
  refine attempt_of_passes (semicolon :: ts) ?_
  unfold Variable.read
  refine (passes_of_eq (a := _) rfl h.sees : Passes cursor _ _ (· = _)).bind_eq fun j hsees => ?_
  refine (peek_passes hsees).bind_eq fun j hsees => ?_
  refine (Declarator.read_closing hsees h.close h.semicolon h.named h.unnamed).bind ?_
  rintro _ j ⟨d, rfl, hname⟩ hsees
  dsimp only
  rw [if_pos (by simp [hname])]
  exact passes_pure hsees rfl

/-- **Nothing is recognized at the end of a class.** -/
theorem tryAll_eq_false (h : AtClosing scope close semicolon ts s) :
    tryAll (recognizers readScope scope) s = .ok false s := by
  rw [h.startsPlain.tryAll_eq h.sees, tryAll_of_false h.attempt_function,
    tryAll_of_false h.attempt_variable]
  rfl

/-- **The end of a class is no statement.** -/
theorem read_fails (readScope : Class.ScopeReader) (h : AtClosing scope close semicolon ts s) :
    ∃ s', read readScope scope s = .error (.unrecognized close.location "\x7d") s' := by
  obtain ⟨comment, j, hcomment, hsees, -⟩ := takeBefore_passes h.sees
  obtain ⟨outline, hopening⟩ := readOpening_eq_none scope hcomment (peek_of_sees hsees)
    (h.close.isKeyword_eq _)
  generalize hs₁ : ({ s.atIndex j with outline } : Reading) = s₁ at hopening
  have hclosing : AtClosing scope close semicolon ts s₁ := by
    subst hs₁
    exact ⟨⟨hsees.cooked, hsees.fueled, hsees.inside, hsees.ahead⟩, h.close, h.semicolon, h.named,
      h.unnamed⟩
  have hpeek := peek_of_sees hclosing.sees
  have hone : readOne readScope scope close s₁ =
      .error (.unrecognized close.location "\x7d") s₁ := by
    have hattribute : Attribute.read s₁ = .ok none s₁ := by
      unfold Attribute.read
      rw [bind_of_ok hpeek, if_pos (by simp [h.close.isWord_eq])]
      rfl
    have hshown : close.shown = "\x7d" := by
      simp [Token.shown, h.close.isEof_eq, h.close.2]
    unfold readOne
    rw [bind_of_ok hclosing.tryAll_eq_false, if_neg (by simp), bind_of_ok hpeek,
      bind_of_ok hattribute, hshown]
    rfl
  have hpass (start : Nat) : readPass readScope scope scope none start close s₁ =
      .error (.unrecognized close.location "\x7d") s₁ := by
    have hnext : nextPass scope scope none start s₁ = .ok (.read scope) s₁ := rfl
    unfold readPass
    rw [bind_of_ok hnext]
    exact bind_of_error hone _
  have hcursor : cursor s₁ = .ok s₁.window.index s₁ := rfl
  refine ⟨s₁, ?_⟩
  rw [read_eq, bind_of_ok hopening]
  unfold readPasses
  rw [bind_of_ok hcursor, bind_of_ok hpeek]
  exact bind_of_error (hpass _) _

end AtClosing

/-! ## The loop -/

/-- Labels in front of a token that starts none are passed, and set the access of the statement
that the token starts. -/
theorem scopeTurn_of_labels (readScope : Class.ScopeReader) (scope : Scope)
    {labels : List AccessLabel} {t : Token} (hlabels : labels ≠ [])
    (h : s.Sees (labels.flatMap AccessLabel.tokens ++ t :: ts))
    (ht : t.isAnyKeyword [.private_, .protected_, .public_] = false) :
    ∃ j, (s.atIndex j).Sees (t :: ts) ∧ scopeTurn readScope scope s =
      (do
        read readScope (labels.foldl AccessLabel.enter scope)
        return Turn.again (labels.foldl AccessLabel.enter scope)) (s.atIndex j) := by
  obtain ⟨label, labels, rfl⟩ := List.exists_cons_of_ne_nil hlabels
  have hpeek : peek s = .ok label.word s := peek_of_sees h
  obtain ⟨_, j, haccess, hsees, rfl⟩ := AccessLabel.readAccess_passes scope h rfl ht
  refine ⟨j, hsees, ?_⟩
  unfold scopeTurn
  rw [bind_of_ok hpeek, if_neg (by simp [label.not_isEof, label.not_isBrace]), bind_of_ok haccess]

/-- **Labels at the end of a class.** Let the members be read in some turns of the loop, up to
access labels and the brace that ends the class. The scope is read if there are no labels, and else
the brace is reported as a declaration that nothing recognizes. -/
theorem readAllWith_of_labels {n : Nat} {scope' : Scope} {s' : Reading}
    {labels : List AccessLabel} (hturns : Turns readScope n scope (opened s) scope' s')
    (hbound : n < (opened s).bound)
    (hsees : s'.Sees (labels.flatMap AccessLabel.tokens ++ close :: semicolon :: ts))
    (hclose : close.IsMark "\x7d") (hsemicolon : semicolon.IsMark ";") (hnamed : scope'.Named)
    (hunnamed : ∀ rule ∈ s'.table.findWith? "" false, rule.nativeTypes.getD [] = []) :
    (labels = [] → ∃ s'', readAllWith readScope scope s = .ok () s'') ∧
      (labels ≠ [] → ∃ s'', readAllWith readScope scope s =
        .error (.unrecognized close.location "\x7d") s'') := by
  obtain ⟨m, hm⟩ := Nat.exists_eq_add_of_lt hbound
  have hloop : iterateUpTo (scopeTurn readScope) (opened s).bound scope (opened s) =
      iterateUpTo (scopeTurn readScope) (m + 1) scope' s' := by
    rw [hm, Nat.add_assoc]
    exact hturns.iterateUpTo_eq (m + 1)
  constructor
  · rintro rfl
    have hdone : scopeTurn readScope scope' s' = .ok (.done ()) s' := by
      unfold scopeTurn
      rw [bind_of_ok (peek_of_sees hsees), if_pos (by simp [hclose.is_eq])]
      rfl
    obtain ⟨i, outline, hread⟩ := readAllWith_eq_ok (hloop.trans (bind_of_ok hdone _))
    exact ⟨_, hread⟩
  · intro hlabels
    obtain ⟨j, hsees, hturn⟩ := scopeTurn_of_labels readScope scope' hlabels hsees
      (hclose.isKeywordWith_eq _)
    have hclosing : AtClosing (labels.foldl AccessLabel.enter scope') close semicolon ts
        (s'.atIndex j) :=
      ⟨hsees, hclose, hsemicolon, AccessLabel.named_foldl_enter hnamed labels, hunnamed⟩
    obtain ⟨s'', hfails⟩ := hclosing.read_fails readScope
    have hturn : scopeTurn readScope scope' s' =
        .error (.unrecognized close.location "\x7d") s'' :=
      hturn.trans (bind_of_error hfails _)
    exact ⟨s'', readAllWith_eq_error (hloop.trans (bind_of_error hturn _))⟩

/-- The inside of a structure. -/
def memberScope : Scope :=
  { path := some "S", group := some (.named "S") }

/-- A mark on the first line of a text. -/
def markToken (text : String) (spacing : String) : Token :=
  { kind := .punct, text, spacing, location.line := 1 }

/-- A label on the first line of a text. -/
def publicLabel : AccessLabel where
  word := { kind := .keyword .public_, text := "public", spacing := " ", location.line := 1 }
  colon := markToken ":" ""
  isAccess := by decide
  isWord := by decide
  isColon := ⟨.inl rfl, rfl⟩

/-- The members of a structure, a label, and its end. -/
def atMember : Reading :=
  .ofTokens {} (Token.ofText none "int a; public: \x7d;")

/-- Behind the member only the label and the end of the class are left. -/
theorem atMember_leaves (close semicolon : Token) (hclose : close = markToken "\x7d" " ")
    (hsemicolon : semicolon = markToken ";" "") :
    (match scopeTurn (nestUpTo readAllWith 0) memberScope (opened atMember) with
      | .ok (.again scope) s => scope.template.isNone && !s.window.raw && 0 < s.fuel &&
          s.window.index ≤ s.window.tokens.size &&
          s.window.tokens.toList.drop s.window.index == publicLabel.tokens ++ [close, semicolon] &&
          ((publicLabel.tokens ++ [close, semicolon]).all fun t =>
            !t.is "#" && (Expansion.ruleFor? s.table t).isNone) &&
          (s.table.findWith? "" false).isNone
      | _ => false) = true := by
  subst hclose hsemicolon
  decide +kernel

/-- The label behind the member is refused. -/
theorem readAllWith_of_labels_member :
    ∃ s, readAllWith (nestUpTo readAllWith 0) memberScope atMember =
      .error (.unrecognized { line := 1 } "\x7d") s := by
  let close := markToken "\x7d" " "
  let semicolon := markToken ";" ""
  have hmember := atMember_leaves close semicolon rfl rfl
  split at hmember
  next scope s hturn =>
    simp only [Bool.and_eq_true, Bool.not_eq_true', decide_eq_true_eq, beq_iff_eq,
      Option.isNone_iff_eq_none, List.all_eq_true] at hmember
    obtain ⟨⟨⟨⟨⟨⟨htemplate, hraw⟩, hfuel⟩, hinside⟩, hrest⟩, hstill⟩, hrule⟩ := hmember
    rw [← hrest] at hstill
    have hsees : s.Sees _ := ⟨hraw, hfuel, hinside, Window.sees_of_still hinside hstill⟩
    rw [hrest] at hsees
    have hlabel : s.Sees ([publicLabel].flatMap AccessLabel.tokens ++
        close :: semicolon :: [Window.endToken s.window.tokens]) := hsees
    exact (readAllWith_of_labels (.turn hturn (.none scope s)) (by decide +kernel) hlabel
      ⟨.inl rfl, rfl⟩ ⟨.inl rfl, rfl⟩ (by simp [Scope.Named, htemplate]) (by simp [hrule])).2
      (by simp)
  · cases hmember

end Statement

/-- Whether the header of this text is read, and the report if it is not. -/
def Statement.refusal? (text : String) : Option String :=
  match readAll {} (.ofTokens {} (Token.ofText none text)) with
  | .ok () _ => none
  | .error e _ => some e.message

/-- A structure is read, and refused with a label behind its last member. -/
theorem Statement.trailing_label_is_refused :
    refusal? "struct S \x7b int a; \x7d;" = none ∧
      refusal? "struct S \x7b int a; public: \x7d;" =
        some "<fragment>:1: Could not parse declaration at '\x7d'" := by
  decide +kernel

end HeaderPeers

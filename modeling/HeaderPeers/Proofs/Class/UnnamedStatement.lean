import HeaderPeers.Proofs.Class.Unnamed
import HeaderPeers.Proofs.Variable.Fundamental

/-!
# Unnamed classes as statements

- `Class.Unnamed.text` — what is printed for an unnamed class.
- `Class.Unnamed.scopeTurn_unnamed` — one turn of the loop over the scope around reads it.
- `Class.Unnamed.second_variable_is_lost` — nothing is printed for any other variable.
-/

namespace HeaderPeers

open ReadM

variable {s : Reading} {t u : Token} {ts us : List Token} {scope : Scope}

/-- These are the tokens from the cursor on, and all of them are visible as they stand. -/
structure Reading.Lies (s : Reading) (ts : List Token) : Prop where
  faces : s.Faces ts
  calm : ∀ t ∈ ts, t.Calm s.table

namespace Reading.Lies

theorem sees (h : s.Lies ts) : s.Sees (ts ++ [Window.endToken s.window.tokens]) := by
  have hsees := Reading.sees_of_still h.faces.cooked h.faces.fueled h.faces.inside (by
    rw [h.faces.ahead]
    exact fun t ht => ⟨(h.calm t ht).unmarked, by rw [(h.calm t ht).unexpanded]; rfl⟩)
  rw [h.faces.ahead, List.filter_eq_self.mpr fun t ht => by simp [(h.calm t ht).visible]] at hsees
  exact hsees

theorem of_faces (h : s.Lies (us ++ ts)) {j : Nat} (hj : (s.atIndex j).Faces ts) :
    (s.atIndex j).Lies ts :=
  ⟨hj, fun t ht => h.calm t (List.mem_append_right _ ht)⟩

end Reading.Lies

namespace Class.Unnamed

variable {c : Unnamed}

/-! ## What does not recognize it -/

theorem is_keyword (c : Unnamed) (text : String) (htext : Text.isWord text.toList = false) :
    c.keyword.is text = false :=
  Token.is_of_word (by rw [c.isKeyword.2]; decide) text htext

theorem isKeyword_keyword (c : Unnamed) (word : Keyword) (hword : word ≠ .struct_) :
    c.keyword.isKeyword word = false := by
  simp [Token.isKeyword, c.isKeyword.1, Ne.symm hword]

theorem attempt_directive (h : s.Sees (c.keyword :: ts)) :
    attempt (Directive.read scope) s = .ok false s := by
  refine Statement.attempt_of_passes (c.keyword :: ts) ?_
  unfold Directive.read
  refine (peek_passes h).bind_eq fun j h => ?_
  rw [if_pos (by simp [c.is_keyword "#" (by decide)])]
  exact passes_pure h rfl

theorem attempt_linkage {readScope : ScopeReader} (h : s.Sees (c.keyword :: ts)) :
    attempt (Namespace.readLinkageWith readScope scope) s = .ok false s := by
  refine Statement.attempt_of_passes (c.keyword :: ts) ?_
  unfold Namespace.readLinkageWith
  have hextern : Passes (do return (← peek).isKeyword .extern_) s (c.keyword :: ts) (· = false) :=
    (peek_passes h).bind_eq fun j h => passes_pure h (c.isKeyword_keyword _ (by decide))
  exact (Statement.passes_andM_of_false hextern).bind_eq fun j h => passes_pure h rfl

theorem attempt_namespace {readScope : ScopeReader} (h : s.Sees (c.keyword :: ts)) :
    attempt (Namespace.readWith readScope scope) s = .ok false s := by
  refine Statement.attempt_of_passes (c.keyword :: ts) ?_
  unfold Namespace.readWith
  have hinline : Passes (do return (← peek).isKeyword .inline_) s (c.keyword :: ts) (· = false) :=
    (peek_passes h).bind_eq fun j h => passes_pure h (c.isKeyword_keyword _ (by decide))
  refine (Statement.passes_andM_of_false hinline).bind_eq fun j h => ?_
  rw [if_neg (by simp)]
  refine (peek_passes h).bind_eq fun j h => ?_
  rw [if_pos (by simp [c.isKeyword_keyword .namespace_ (by decide)])]
  exact passes_pure h rfl

theorem attempt_enumeration (h : s.Sees (c.keyword :: c.opening :: ts)) :
    attempt (Enumeration.read scope) s = .ok false s := by
  refine Statement.attempt_of_passes (c.opening :: ts) ?_
  have htoEnum {s : Reading} (h : s.Sees (c.keyword :: c.opening :: ts)) :
      Passes Enumeration.toEnum s (c.opening :: ts) (· = false) := by
    unfold Enumeration.toEnum
    refine (peek_passes h).bind_eq fun j h => iterate_passes h fun n hn => ?_
    obtain ⟨n, rfl⟩ : ∃ m, n = m + 1 + 1 :=
      ⟨n - 2, by simp only [List.length_cons] at hn; omega⟩
    have hword : c.keyword.isWord = true := by simp [Token.isWord, c.isKeyword.1]
    have hturn : Passes (do
        if c.keyword.isEof then return .done false
        if c.keyword.isKeyword .enum_ then return .done true
        if !c.keyword.isWord then return .done false
        return .again (← advance) : ReadM (Turn Token Bool)) (s.atIndex j) (c.opening :: ts)
          (· = .again c.opening) := by
      rw [if_neg (by simp [Token.isEof_of_isWord hword]),
        if_neg (by simp [c.isKeyword_keyword .enum_ (by decide)]), if_neg (by simp [hword])]
      exact (advance_passes h).bind_eq fun j h => passes_pure h rfl
    refine iterateUpTo_again (hturn.imp fun r hr => ⟨_, hr, rfl⟩) ?_
    rintro _ k rfl h
    refine iterateUpTo_done ?_
    rw [if_neg (by simp [c.isOpening.isEof_eq]), if_neg (by simp [c.isOpening.isKeyword_eq]),
      if_pos (by simp [c.isOpening.isWord_eq])]
    exact passes_pure h ⟨_, rfl, rfl⟩
  unfold Enumeration.read
  refine (peek_passes h).bind_eq fun j h => (peek_passes h).bind_eq fun j h => ?_
  exact (htoEnum h).bind_eq fun j h => passes_pure h rfl

/-! ## Its parts -/

/-- What stands before the body. -/
def head (c : Unnamed) : Head :=
  { spacing := c.keyword.spacing, isTypedef := false, isFriend := false, isPrivate := false
    type := {} }

theorem readHead_moves (scope : Scope) (h : s.Lies (c.keyword :: c.opening :: ts)) :
    Moves (readHead scope) s (c.opening :: ts) (· = some c.head) := by
  have hkeyword := h.calm c.keyword (by simp)
  have hopening := h.calm c.opening (by simp)
  have hpeek {j : Nat} (hfaces : (s.atIndex j).Faces (c.keyword :: c.opening :: ts)) :
      peek (s.atIndex j) = .ok c.keyword (s.atIndex j) := peek_of_faces hfaces (.here hkeyword)
  have hto {j : Nat} (hfaces : (s.atIndex j).Faces (c.keyword :: c.opening :: ts)) :
      Moves toKeyword (s.atIndex j) (c.keyword :: c.opening :: ts) (· = some (false, false)) := by
    have hany : c.keyword.isAnyKeyword [.class_, .struct_, .union_] = true := by
      simp [Token.isAnyKeyword, Token.isKeywordWith, c.isKeyword.1]
    unfold toKeyword
    refine .of_ok (hpeek hfaces) (iterate_moves hfaces fun n hn => ?_)
    obtain ⟨n, rfl⟩ := Nat.exists_eq_add_one.mpr (Nat.zero_lt_of_lt hn)
    refine iterateUpTo_stops ?_
    dsimp only
    rw [if_neg (by simp [Token.isEof, c.isKeyword.1]), if_pos hany,
      c.isKeyword_keyword .class_ (by decide)]
    exact moves_pure hfaces ⟨_, rfl, rfl⟩
  have hname {j : Nat} (hfaces : (s.atIndex j).Faces (c.keyword :: c.opening :: ts)) :
      Moves (readName scope false) (s.atIndex j) (c.opening :: ts) (· = some {}) := by
    unfold readName
    refine (advance_moves hfaces (.cons (.here hkeyword) (.cons (.here hopening)
      (.nil _)))).bind_eq fun j hfaces => ?_
    rw [if_neg (by simp [c.isOpening.is_eq]), if_neg (by simp [c.isOpening.is_eq])]
    refine Moves.of_ok (peek_of_faces hfaces (.here hopening)) ?_
    rw [if_pos (by simp [c.isOpening.is_eq])]
    exact moves_pure hfaces rfl
  unfold readHead
  refine .of_ok (hpeek h.faces) (.of_ok (hpeek h.faces) ?_)
  rw [c.isKeyword_keyword .typedef_ (by decide)]
  refine (hto h.faces).bind_eq fun j hfaces => ?_
  dsimp only
  refine (hname hfaces).bind_eq fun j hfaces => ?_
  dsimp only
  rw [if_pos (by simp)]
  refine (moves_pure hfaces rfl : Moves (pure false) _ _ (· = false)).bind_eq fun j hfaces => ?_
  rw [if_neg (by simp)]
  refine (moves_pure hfaces rfl : Moves (pure (some [])) _ _ (· = some [])).bind_eq
    fun j hfaces => ?_
  dsimp only
  refine Moves.of_ok (peek_of_faces hfaces (.here hopening)) ?_
  rw [if_neg (by simp [Token.isAny, c.isOpening.is_eq])]
  exact moves_pure hfaces rfl

/-- Behind the body there are the variables. -/
theorem readBehind_eq (c : Unnamed)
    (h : s.Lies (c.opening :: (c.body ++
      c.closing :: c.first :: (listed c.others ++ c.semicolon :: us)))) :
    ∃ j, readBehind c.head true s = .ok ({}, c.names.map holder) (s.atIndex j) := by
  obtain ⟨_, j, hskip, hfaces, rfl⟩ := skipBody_moves c.isBody c.isOpening c.isClosing h.faces
  have hbehind : (s.atIndex j).Lies (c.first :: (listed c.others ++ c.semicolon :: us)) :=
    ⟨hfaces, fun t ht => h.calm t
      (List.mem_cons_of_mem _ (List.mem_append_right _ (List.mem_cons_of_mem _ ht)))⟩
  have hsees := hbehind.sees
  rw [List.cons_append, List.append_assoc, List.cons_append] at hsees
  have hpeek : peek (s.atIndex j) = .ok c.first (s.atIndex j) := peek_of_sees hsees
  have hmembers := c.readMembers_eq hsees
  refine ⟨j, ?_⟩
  unfold readBehind
  rw [bind_of_ok hskip, if_pos rfl, bind_of_ok hpeek,
    if_pos (by simp [c.isFirst.is_eq ";" (by decide)]), if_neg (by simp [head]), if_pos rfl,
    bind_of_ok hmembers]
  rfl

/-- One turn of going to the semicolon. -/
def endTurn : Token → ReadM (Turn Token String) := fun t => do
  if t.isEof then return .done ""
  if t.is ";" then return .done t.spacing
  return .again (← advance)

theorem endTurn_passes (heof : t.isEof = false) (hsemicolon : t.is ";" = false)
    (h : s.Sees (t :: u :: us)) : Passes (endTurn t) s (u :: us) (· = .again u) := by
  unfold endTurn
  rw [if_neg (by simp [heof]), if_neg (by simp [hsemicolon])]
  exact (advance_passes h).bind_eq fun j h => passes_pure h rfl

/-- Variables are passed over, by induction on them. -/
theorem iterateUpTo_end {others : List (Token × Token)} {semicolon : Token} {n : Nat}
    (hothers : ∀ y ∈ others, y.1.IsMark "," ∧ y.2.IsName) (hsemicolon : semicolon.IsMark ";")
    (h : s.Sees (listed others ++ semicolon :: us))
    (hu : (listed others ++ semicolon :: us).head? = some u) (hn : (listed others).length < n) :
    Passes (iterateUpTo endTurn n u) s (semicolon :: us) (· = semicolon.spacing) := by
  induction others generalizing s u n with
  | nil =>
      obtain rfl := Option.some.inj hu
      obtain ⟨n, rfl⟩ := Nat.exists_eq_add_one.mpr hn
      refine iterateUpTo_done ?_
      unfold endTurn
      rw [if_neg (by simp [hsemicolon.isEof_eq]), if_pos (by simp [hsemicolon.is_eq])]
      exact passes_pure h ⟨_, rfl, rfl⟩
  | cons y others ih =>
      obtain ⟨comma, w⟩ := y
      obtain rfl := Option.some.inj hu
      rw [List.forall_mem_cons] at hothers
      obtain ⟨⟨hcomma, hw⟩, hothers⟩ := hothers
      obtain ⟨next, more, hnext⟩ : ∃ next more, listed others ++ semicolon :: us =
          next :: more := by
        cases others with
        | nil => exact ⟨semicolon, us, rfl⟩
        | cons y others => exact ⟨y.1, _, rfl⟩
      have htokens : listed ((comma, w) :: others) ++ semicolon :: us =
          comma :: w :: next :: more := by
        rw [← hnext]
        rfl
      obtain ⟨n, rfl⟩ : ∃ m, n = m + 1 + 1 := by
        have hlength : (listed ((comma, w) :: others)).length = (listed others).length + 2 := rfl
        exact ⟨n - 2, by omega⟩
      rw [htokens] at h
      refine iterateUpTo_again ((endTurn_passes hcomma.isEof_eq (by simp [hcomma.is_eq]) h).imp
        fun r hr => ⟨_, hr, rfl⟩) ?_
      rintro _ j rfl h
      refine iterateUpTo_again ((endTurn_passes hw.isEof_eq (hw.is_eq ";" (by decide)) h).imp
        fun r hr => ⟨_, hr, rfl⟩) ?_
      rintro _ k rfl h
      exact ih hothers (hnext ▸ h) (by rw [hnext]; rfl)
        (Nat.lt_of_succ_lt_succ (Nat.lt_of_succ_lt_succ hn))

/-- The white space in front of the semicolon. -/
theorem readEnd_passes (c : Unnamed)
    (h : s.Sees (c.closing :: c.first :: (listed c.others ++ c.semicolon :: u :: us))) :
    Passes readEnd s (u :: us) (· = c.semicolon.spacing) := by
  obtain ⟨next, more, hnext⟩ : ∃ next more, listed c.others ++ c.semicolon :: u :: us =
      next :: more := by
    cases c.others with
    | nil => exact ⟨c.semicolon, u :: us, rfl⟩
    | cons y others => exact ⟨y.1, _, rfl⟩
  change Passes (advance >>= fun first => iterate first endTurn >>= fun spacing =>
    advance >>= fun _ => pure spacing) s _ _
  refine (advance_passes h).bind_eq fun j h => ?_
  have hloop : Passes (iterate c.first endTurn) (s.atIndex j) (c.semicolon :: u :: us)
      (· = c.semicolon.spacing) := by
    refine iterate_passes h fun n hn => ?_
    rw [List.length_cons, List.length_append, List.length_cons] at hn
    obtain ⟨n, rfl⟩ := Nat.exists_eq_add_one.mpr (Nat.zero_lt_of_lt hn)
    rw [hnext] at h
    refine iterateUpTo_again ((endTurn_passes c.isFirst.isEof_eq
      (c.isFirst.is_eq ";" (by decide)) h).imp fun r hr => ⟨_, hr, rfl⟩) ?_
    rintro _ k rfl h
    exact iterateUpTo_end c.areOthers c.isSemicolon (hnext ▸ h) (by rw [hnext]; rfl) (by omega)
  exact hloop.bind_eq fun k h => (advance_passes h).bind fun _ l _ h => passes_pure h rfl

/-! ## The class -/

/-- What the bases of classes without bases repeat. -/
def inherited (s : Reading) (scope : Scope) : String :=
  ((scope.qualify "Pointer" s.usings).findSome? fun n => s.flattened.lookup n).getD ""

/-- The accessors of all members, through the first variable. -/
def text (c : Unnamed) (s : Reading) (scope : Scope) : String :=
  String.join (c.fields.map fun x => (x.printed s.table s.usings (inside scope c.first)).text) ++
    inherited s scope ++ c.semicolon.spacing

/-- The declaration that is added. -/
def declaration (c : Unnamed) (s : Reading) (scope : Scope) : Declaration :=
  { text := c.text s scope, type := some {} }

/-- Variables do not make a class abstract. -/
theorem isAbstract_makingOf {members : List Declaration}
    (h : ∀ d ∈ members, d.abstractMember = false) (cOnly : Bool) :
    (makingOf members none cOnly).isAbstract = false := by
  have hfold (m : Making) : (members.foldl Making.push m).isAbstract = m.isAbstract := by
    induction members generalizing m with
    | nil => rfl
    | cons d members ih =>
        rw [List.forall_mem_cons] at h
        rw [List.foldl_cons, ih h.2]
        unfold Making.push
        dsimp only
        split
        · rfl
        · rw [if_neg (by simp [h.1])]
  cases cOnly with
  | false => exact hfold {}
  | true => exact hfold {}

/-- All variables of a public section are printed. -/
theorem memberText_printed {xs : List Variable.Single} {table : RuleTable} {usings : List String}
    (hxs : ∀ x ∈ xs, x.Readable table usings scope) (hpublic : scope.inaccessible = false)
    (cOnly : Bool) :
    memberText (makingOf (xs.map (·.printed table usings scope)) none cOnly)
        (xs.map (·.printed table usings scope)) =
      String.join (xs.map fun x => (x.printed table usings scope).text) := by
  have hconcrete : ∀ d ∈ xs.map (·.printed table usings scope), d.abstractMember = false := by
    intro d hd
    obtain ⟨x, -, rfl⟩ := List.mem_map.mp hd
    rfl
  have habstract := isAbstract_makingOf hconcrete cOnly
  have haccess : ∀ d ∈ xs.map (·.printed table usings scope), d.inaccessible = false := by
    intro d hd
    obtain ⟨x, hx, rfl⟩ := List.mem_map.mp hd
    have hfirm := (hxs x hx).isFirm_printed hpublic
    simp only [Outline.isFirm, Bool.and_eq_true, Bool.not_eq_true'] at hfirm
    exact hfirm.1.1.2
  unfold memberText
  rw [List.filter_eq_self.mpr fun d hd => by simp [haccess d hd, habstract], List.map_map]
  rfl

/-- No variable is a constructor. -/
theorem filter_isConstructor {xs : List Variable.Single} {table : RuleTable} {usings : List String}
    (hxs : ∀ x ∈ xs, x.Readable table usings scope) :
    (xs.map (·.printed table usings scope)).filter (·.isConstructor) = [] := by
  refine List.filter_eq_nil_iff.mpr fun d hd => ?_
  obtain ⟨x, hx, rfl⟩ := List.mem_map.mp hd
  have hconstructor := ((hxs x hx).declared_as (Variable.Single.lookingFor scope 0
    .asDimension)).isConstructor
  change ¬ (x.declared table usings _).type.constructor = true
  rw [hconstructor]
  simp

theorem innerScope_eq (scope : Scope) (table : RuleTable) :
    innerScope scope table {} none false true = { scope with inaccessible := false } := by
  simp [innerScope]

/-- **The body** is read, and what is kept of it is added. -/
theorem readBody_eq {n : Nat} (hfields : ∀ x ∈ c.fields, x.Readable s.table s.usings scope)
    (hbare : ∀ t ∈ s.window.tokens, t.isComment = false)
    (h : s.Sees (c.opening :: (c.body ++
      c.closing :: c.first :: (listed c.others ++ c.semicolon :: u :: us)))) :
    ∃ j, readBody (nestUpTo Statement.readAllWith (n + 1)) scope c.head {} none "" (.named "Pointer")
        [] (c.names.map holder) true s = .ok true
          { s.atIndex j with outline := (s.outline.add s.table (c.declaration s scope)).2 } ∧
      (s.atIndex j).Sees (u :: us) := by
  obtain ⟨v, vs, hv⟩ : ∃ v vs, c.body ++
      c.closing :: c.first :: (listed c.others ++ c.semicolon :: u :: us) = v :: vs := by
    cases c.body with
    | nil => exact ⟨c.closing, _, rfl⟩
    | cons t ts => exact ⟨t, _, rfl⟩
  rw [hv] at h
  obtain ⟨_, j, hadvance, hbody, rfl⟩ := advance_passes h
  rw [← hv] at hbody
  have htable : ReadM.table (s.atIndex j) = .ok s.table (s.atIndex j) := rfl
  obtain ⟨_, ⟨o, k, hinside, hclosing, rfl⟩, hlist⟩ :=
    c.readInside_eq (s := s.atIndex j) (n := n) hfields hbare hbody
  replace hlist : o.toList =
      c.fields.map (·.printed s.table s.usings (inside scope c.first)) := hlist
  have hinherited : inheritedText scope [.named "Pointer"] ((s.atIndex j).atIndex k) =
      .ok (inherited s scope) ((s.atIndex j).atIndex k) := by
    have hget : (get : ReadM Reading) ((s.atIndex j).atIndex k) =
        .ok ((s.atIndex j).atIndex k) ((s.atIndex j).atIndex k) := rfl
    unfold inheritedText
    rw [bind_of_ok hget]
    have hsame : inherited ((s.atIndex j).atIndex k) scope = inherited s scope := rfl
    rw [← hsame]
    exact congrArg (EStateM.Result.ok · _) (by simp [inherited, NativeType.named])
  obtain ⟨_, l, hend, hstop, rfl⟩ := c.readEnd_passes hclosing
  have hpublic : (inside scope c.first).inaccessible = false := rfl
  have hall : ∀ x ∈ c.fields, x.Readable s.table s.usings (inside scope c.first) :=
    fun x hx => readable_inside (hfields x hx) c.first
  have hremember (text : String) : remember "" none text o.toList ((s.atIndex j).atIndex k) =
      .ok () ((s.atIndex j).atIndex k) := by
    have hnone := filter_isConstructor hall
    unfold remember
    rw [hlist, hnone]
    rfl
  refine ⟨l, ?_, hstop⟩
  unfold readBody
  rw [bind_of_ok hadvance, bind_of_ok htable]
  dsimp only [head]
  rw [innerScope_eq, bind_of_ok hinside]
  dsimp only
  rw [bind_of_ok hinherited, bind_of_ok (hremember _), if_pos rfl]
  have htext : memberText (makingOf o.toList none scope.cOnly) o.toList = String.join
      (c.fields.map fun x => (x.printed s.table s.usings (inside scope c.first)).text) := by
    rw [hlist]
    exact memberText_printed hall hpublic scope.cOnly
  rw [htext, pure_bind, bind_of_ok hend, String.empty_append]
  rfl

theorem settle_unnamed (scope : Scope) (s : Reading) :
    settle scope {} s = .ok (none, "", {}) s :=
  rfl

/-- **The class** is recognized. -/
theorem readWith_eq {n : Nat} (hfields : ∀ x ∈ c.fields, x.Readable s.table s.usings scope)
    (hbare : ∀ t ∈ s.window.tokens, t.isComment = false) (h : s.Lies (c.tokens ++ u :: us)) :
    ∃ j, readWith (nestUpTo Statement.readAllWith (n + 1)) scope s = .ok true
          { s.atIndex j with outline := (s.outline.add s.table (c.declaration s scope)).2 } ∧
      (s.atIndex j).Sees (u :: us) := by
  have htokens : c.tokens ++ u :: us = c.keyword :: c.opening :: (c.body ++
      c.closing :: c.first :: (listed c.others ++ c.semicolon :: u :: us)) := by simp [tokens]
  rw [htokens] at h
  obtain ⟨_, j, hhead, hfaces, rfl⟩ := readHead_moves scope h
  have hlies : (s.atIndex j).Lies (c.opening :: (c.body ++
      c.closing :: c.first :: (listed c.others ++ c.semicolon :: u :: us))) :=
    ⟨hfaces, fun t ht => h.calm t (List.mem_cons_of_mem _ ht)⟩
  obtain ⟨k, hbehind⟩ := c.readBehind_eq hlies
  have hsees : (s.atIndex j).Sees (c.opening :: (c.body ++
      c.closing :: c.first :: (listed c.others ++ c.semicolon :: u :: us))) := hlies.sees.of_append
  obtain ⟨l, hbody, hstop⟩ := c.readBody_eq (s := s.atIndex j) (n := n) hfields hbare hsees
  refine ⟨l, ?_, hstop⟩
  have hcursor : cursor (s.atIndex j) = .ok j (s.atIndex j) := rfl
  have hback : moveTo j ((s.atIndex j).atIndex k) = .ok () (s.atIndex j) := rfl
  unfold readWith
  rw [bind_of_ok hhead]
  dsimp only
  have hanonymous : (!c.head.isTypedef && c.head.type.nativeName.isEmpty) = true := by simp [head]
  rw [bind_of_ok hcursor, hanonymous, bind_of_ok hbehind]
  dsimp only
  rw [if_pos (by simp), if_pos (by simp), pure_bind, if_neg (by simp),
    bind_of_ok (settle_unnamed scope _)]
  dsimp only
  have hforward : (pure (!"".isEmpty) <&&> (do return (← peek).is ";") : ReadM Bool) (s.atIndex j) =
      .ok false (s.atIndex j) := rfl
  rw [bind_of_ok hback, bind_of_ok hforward, if_neg (by simp)]
  exact hbody

/-! ## What it prints -/

/-- Some accessor has this name, and is annotated with this native path. -/
def Reaches (text path name : String) : Prop :=
  ∃ before words after : String,
    text = before ++ ("@Name(\"" ++ path ++ "\") ") ++ words ++ name ++ "(" ++ after

theorem isEmpty_memberOf (hv : t.IsName) :
    (memberOf scope (holder t)).nativeName.isEmpty = false := by
  have hne : t.text ≠ "" := by simpa using hv.isEmpty_eq
  rw [Bool.eq_false_iff]
  intro hempty
  have hempty := String.isEmpty_iff.mp hempty
  unfold memberOf at hempty
  split at hempty
  · simp at hempty
  · exact hne hempty

theorem throughMember_eq {outer : Declarator} (h : outer.dims = []) (d : Declarator) :
    Variable.throughMember outer d =
      ("@Name(\"" ++ (outer.nativeName ++ "." ++ d.nativeName) ++ "\") ",
        outer.targetName ++ "_" ++ d.targetName) := by
  unfold Variable.throughMember
  rw [h]
  refine Prod.ext ?_ rfl
  dsimp only
  rw [if_pos (by simp), ← String.toList_inj]
  simp

theorem Reaches.append {text path name : String} (h : Reaches text path name) (more : String) :
    Reaches (text ++ more) path name := by
  obtain ⟨before, words, after, rfl⟩ := h
  exact ⟨before, words, after ++ more, by simp only [String.append_assoc]⟩

/-- A getter is printed under its name, behind the annotations. -/
theorem reaches_elementText (m : Variable.Modifiers) {naming : Variable.Naming} (d : Declarator)
    (path : String) (h : naming.annotations = "@Name(\"" ++ path ++ "\") ") :
    Reaches (Variable.elementText scope m naming d) path naming.getter := by
  unfold Variable.elementText
  dsimp only
  rw [h]
  generalize Variable.indexList _ = indices
  refine Reaches.append (Reaches.append (Reaches.append ?_ _) _) _
  exact ⟨scope.namespaceText, (if d.type.constValue then "@MemberGetter " else "") ++ m.words ++
    Variable.byReference d.type.annotations ++ d.type.targetName ++ " ", indices,
    by simp only [String.append_assoc]⟩

/-- The accessors of a member are annotated with its path through the variable, and have a name of
both. -/
theorem reaches_text {x : Variable.Single} {table : RuleTable} {usings : List String} {v : Token}
    (hx : x.Readable table usings scope) (hv : v.IsName) (hplain : scope.beanify = false) :
    Reaches (x.text table usings (inside scope v))
      ((memberOf scope (holder v)).nativeName ++ "." ++ x.item.name.text)
      ((memberOf scope (holder v)).targetName ++ "_" ++ x.item.name.text) := by
  have hdeclared := (readable_inside hx v).declared_as
    (Variable.Single.lookingFor (inside scope v) 0 .asDimension)
  have hdims : (memberOf scope (holder v)).dims = [] := by
    unfold memberOf
    split <;> rfl
  have houter : Variable.outerIndices (inside scope v) = 0 := by
    simp [Variable.outerIndices, inside, hdims]
  unfold Variable.Single.text
  generalize x.declared table usings (Variable.Single.lookingFor (inside scope v) 0 .asDimension) =
    d at *
  have hnaming : Variable.namingOf (inside scope v) d =
      { name := (memberOf scope (holder v)).targetName ++ "_" ++ x.item.name.text
        annotations := "@Name(\"" ++ ((memberOf scope (holder v)).nativeName ++ "." ++
          x.item.name.text) ++ "\") "
        getter := (memberOf scope (holder v)).targetName ++ "_" ++ x.item.name.text
        setter := (memberOf scope (holder v)).targetName ++ "_" ++ x.item.name.text } := by
    have hbeanify : (inside scope v).beanify = false := hplain
    have hmember : (inside scope v).member = some (memberOf scope (holder v)) := rfl
    unfold Variable.namingOf
    rw [hbeanify, hmember]
    dsimp only
    rw [isEmpty_memberOf hv, throughMember_eq hdims, hdeclared.nativeName, hdeclared.targetName]
    rfl
  dsimp only
  rw [houter, if_pos (by simp), hnaming]
  exact (reaches_elementText _ d _ rfl).append _

/-- **An unnamed class** is read in one turn of the loop over the scope around it. Each member is
reached through the first variable, and nothing is printed for the others. -/
theorem scopeTurn_unnamed {n : Nat} (hfields : ∀ x ∈ c.fields, x.Readable s.table s.usings scope)
    (hpublic : scope.inaccessible = false) (hplain : scope.beanify = false)
    (hbare : ∀ t ∈ s.window.tokens, t.isComment = false) (h : s.Lies (c.tokens ++ u :: us))
    (hu : u.is ";" = false) :
    (∃ s' d, Statement.scopeTurn (nestUpTo Statement.readAllWith (n + 1)) scope s =
        .ok (.again scope) s' ∧ s'.Sees (u :: us) ∧
      s'.outline.toList = s.outline.toList ++ [d] ∧ d.text = c.text s scope ∧
      d.inaccessible = d.text.isEmpty) ∧
    ∀ x ∈ c.fields, Reaches (x.text s.table s.usings (inside scope c.first))
      ((memberOf scope (holder c.first)).nativeName ++ "." ++ x.item.name.text)
      ((memberOf scope (holder c.first)).targetName ++ "_" ++ x.item.name.text) := by
  refine ⟨?_, fun x hx => reaches_text (hfields x hx) c.isFirst hplain⟩
  have hbegun : (Statement.begun scope s).Lies (c.tokens ++ u :: us) :=
    ⟨⟨h.faces.cooked, h.faces.fueled, h.faces.inside, h.faces.ahead⟩, h.calm⟩
  have hstart : s.Sees (c.keyword :: c.opening :: (c.body ++
      c.closing :: c.first :: (listed c.others ++ c.semicolon :: u :: us))) := by
    have hsees := h.sees.of_append
    simpa [tokens] using hsees
  have hstarted : (Statement.begun scope s).Sees (c.keyword :: c.opening :: (c.body ++
      c.closing :: c.first :: (listed c.others ++ c.semicolon :: u :: us))) := hstart.withOutline _
  obtain ⟨j, hread, hstop⟩ :=
    c.readWith_eq (s := Statement.begun scope s) (n := n) hfields hbare hbegun
  generalize hs' : ({ (Statement.begun scope s).atIndex j with
    outline := ((Statement.begun scope s).outline.add (Statement.begun scope s).table
      (c.declaration (Statement.begun scope s) scope)).2 } : Reading) = s' at hread
  have hall : Statement.tryAll (Statement.recognizers (nestUpTo Statement.readAllWith (n + 1)) scope)
      (Statement.begun scope s) = .ok true s' := by
    have hattempt : attempt (readWith (nestUpTo Statement.readAllWith (n + 1)) scope)
        (Statement.begun scope s) = .ok true s' := by
      have hcursor (s : Reading) : cursor s = .ok s.window.index s := rfl
      unfold attempt
      rw [bind_of_ok (hcursor _), bind_of_ok hread]
      rfl
    unfold Statement.recognizers
    rw [Statement.tryAll_of_false (attempt_directive hstarted),
      Statement.tryAll_of_false (attempt_linkage hstarted),
      Statement.tryAll_of_false (attempt_namespace hstarted),
      Statement.tryAll_of_false (attempt_enumeration hstarted)]
    exact Statement.tryAll_of_true hattempt
  have hseen : s'.Sees (u :: us) := by
    rw [← hs']
    exact hstop.withOutline _
  have houtline : s'.outline = (s.outline.beginStatement scope.inaccessible none).insert
      (c.declaration s scope) := by
    rw [← hs']
    exact Outline.add_of_taken rfl
  have hnone : s'.outline.statement.instances = none := by
    rw [houtline, Outline.insert_statement]
    rfl
  refine ⟨s', (s.outline.beginStatement scope.inaccessible none).stored (c.declaration s scope), ?_,
    hseen, ?_, rfl, ?_⟩
  · exact Statement.scopeTurn_of_unlabelled hbare hstart (by simp [Token.isEof, c.isKeyword.1])
      (c.is_keyword "\x7d" (by decide))
      (by simp [Token.isAnyKeyword, Token.isKeywordWith, c.isKeyword.1])
      (c.isKeyword_keyword .template_ (by decide)) hall hseen hu hnone
  · rw [houtline, Outline.toList_insert]
    rfl
  · change (_ || (c.text s scope).isEmpty) = _
    have hsettled : (if Text.hasPart "@Virtual " (c.text s scope) then false
        else scope.inaccessible) = false := by rw [hpublic, ite_self]
    exact (congrArg (· || _) hsettled).trans (Bool.false_or _)

/-! ### Two members and two variables -/

/-- In a class `X`. -/
def sampleScope : Scope :=
  { group := some { nativeName := "X", targetName := "X" } }

def sampleRule : Rule :=
  { nativeNames := ["T"], valueTypes := some ["int"] }

/-- A member of type `T`. -/
def sampleField (name : String) (hname : Text.isWord name.toList = true) : Variable.Single where
  words := [Variable.lined .identifier "T" " "]
  item :=
    { stars := [], name := Variable.lined .identifier name " ", dims := [], value := none
      areStars := Variable.Item.areStars_nil, isName := ⟨rfl, hname⟩
      isValue := Variable.Item.isValue_none }
  semicolon := Variable.lined .punct ";" ""

/-- The class `struct { T a; T b; } v, w;`. -/
def sample : Unnamed where
  keyword := Variable.lined (.keyword .struct_) "struct" ""
  opening := Variable.lined .punct "\x7b" " "
  fields := [sampleField "a" (by decide +kernel), sampleField "b" (by decide +kernel)]
  closing := Variable.lined .punct "\x7d" " "
  first := Variable.lined .identifier "v" " "
  others := [(Variable.lined .punct "," "", Variable.lined .identifier "w" " ")]
  semicolon := Variable.lined .punct ";" ""
  isKeyword := ⟨rfl, rfl⟩
  isOpening := ⟨.inl rfl, rfl⟩
  isBody := .token rfl rfl rfl (.token rfl rfl rfl (.token rfl rfl rfl
    (.token rfl rfl rfl (.token rfl rfl rfl (.token rfl rfl rfl .nil)))))
  isClosing := ⟨.inl rfl, rfl⟩
  isFirst := ⟨rfl, by decide +kernel⟩
  areOthers := List.forall_mem_singleton.mpr ⟨⟨.inl rfl, rfl⟩, rfl, by decide +kernel⟩
  isSemicolon := Variable.sampleListing.isSemicolon
  distinct := by decide

def sampleTable : RuleTable :=
  ({} : RuleTable).put sampleRule

theorem readable_sample : ∀ x ∈ sample.fields, x.Readable sampleTable [] sampleScope := by
  have hspelled : NativeType.Spells sampleTable {} [Variable.lined .identifier "T" " "] :=
    ⟨.name ⟨rfl, by decide +kernel⟩ (by decide +kernel) (by decide +kernel) (by decide +kernel),
      trivial⟩
  have hclosed (name : String) (hname : Text.isWord name.toList = true) :
      (sampleField name hname).item.Closed := List.forall_mem_nil _
  refine List.forall_mem_cons.mpr ⟨?_, List.forall_mem_singleton.mpr ?_⟩
  · exact ⟨⟨.inl rfl, rfl⟩, hclosed _ _, List.cons_ne_nil _ _, hspelled, by decide +kernel,
      by decide +kernel, fun view => ⟨sampleRule, by cases view <;> decide +kernel, rfl⟩,
      by decide +kernel, by decide +kernel, by decide +kernel⟩
  · exact ⟨⟨.inl rfl, rfl⟩, hclosed _ _, List.cons_ne_nil _ _, hspelled, by decide +kernel,
      by decide +kernel, fun view => ⟨sampleRule, by cases view <;> decide +kernel, rfl⟩,
      by decide +kernel, by decide +kernel, by decide +kernel⟩

/-- The class is one declaration, with the accessors of both members of `v`. -/
theorem scopeTurn_sample : ∃ s' d,
    Statement.scopeTurn (nestUpTo Statement.readAllWith 1) sampleScope
        (.ofTokens sampleTable (Token.ofText none "struct \x7b T a; T b; \x7d v, w; \x7d")) =
      .ok (.again sampleScope) s' ∧
    s'.outline.toList = [d] ∧ d.inaccessible = false ∧
    d.text =
      " @Name(\"v.a\") public native int v_a(); @Name(\"v.a\") public native X v_a(int v_a);" ++
      " @Name(\"v.b\") public native int v_b(); @Name(\"v.b\") public native X v_b(int v_b);" := by
  have htokens : Token.ofText none "struct \x7b T a; T b; \x7d v, w; \x7d" =
      sample.tokens ++ [Variable.lined .punct "\x7d" " "] := by
    decide +kernel
  rw [htokens]
  have hcalm : ∀ t ∈ sample.tokens ++ [Variable.lined .punct "\x7d" " "],
      t.isComment = false ∧ t.is "#" = false ∧ (Expansion.ruleFor? sampleTable t).isNone = true := by
    decide +kernel
  have hlies : (Reading.ofTokens sampleTable
      (sample.tokens ++ [Variable.lined .punct "\x7d" " "])).Lies
      (sample.tokens ++ [Variable.lined .punct "\x7d" " "]) :=
    ⟨⟨rfl, by decide +kernel, Nat.zero_le _, rfl⟩,
      fun t ht => ⟨(hcalm t ht).1, (hcalm t ht).2.1, Option.isNone_iff_eq_none.mp (hcalm t ht).2.2⟩⟩
  obtain ⟨⟨s', d, hturn, -, hlist, htext, haccess⟩, -⟩ :=
    scopeTurn_unnamed (n := 0) readable_sample rfl rfl
      (fun t ht => (hcalm t (Array.mem_toList_iff.mpr ht)).1) hlies rfl
  have hwritten : d.text =
      " @Name(\"v.a\") public native int v_a(); @Name(\"v.a\") public native X v_a(int v_a);" ++
      " @Name(\"v.b\") public native int v_b(); @Name(\"v.b\") public native X v_b(int v_b);" :=
    htext.trans (by decide +kernel)
  refine ⟨s', d, hturn, hlist, ?_, hwritten⟩
  rw [haccess, hwritten]
  decide +kernel

/-- **The other variables are not reached.** In a class `X`, nothing is printed for the member
of `w`. -/
theorem second_variable_is_lost :
    (match Statement.readAll sampleScope (.ofTokens {} (Token.ofText none
        "struct \x7b int a; \x7d v, w;")) with
      | .ok _ s' => s'.outline.toList.map fun d =>
        ["v_a(", "w_a("].map fun part => Text.hasPart part d.text
      | .error _ _ => []) = [[true, false]] := by
  decide +kernel

end Class.Unnamed

end HeaderPeers

import HeaderPeers.Proofs.Variable.Added

/-!
# Headers that are a list of variables

A list of variables is one statement: what stands in front of a function is its result type, and
no parameters follow the first item. So the header prints the items of the list, each like a
header that has this item only.

- `Statement.scopeTurn_of_bare` — a turn that reads a statement without comments.
- `Variable.AtItems.attempt_function` — a list is no function.
- `Variable.AtItems.readAll_eq` — a header that is a list of variables.
-/

namespace HeaderPeers

open ReadM

variable {s s' : Reading} {t u : Token} {ts us : List Token}

/-! ## Statements without comments -/

namespace Statement

variable {readScope : Class.ScopeReader} {scope scope' : Scope}

/-- The state in which a statement without comments and template parameters is recognized. -/
def begun (scope : Scope) (s : Reading) : Reading :=
  { s with outline := s.outline.beginStatement scope.inaccessible none }

theorem readOpening_of_bare (scope : Scope) (hbare : ∀ t ∈ s.window.tokens, t.isComment = false)
    (h : s.Sees (t :: ts)) (ht : t.isKeyword .template_ = false) :
    readOpening scope s = .ok none (begun scope s) := by
  have hpeek := peek_of_sees h
  have htemplate : TemplateMap.read scope s = .ok none s := by
    unfold TemplateMap.read
    rw [bind_of_ok hpeek, ht]
    rfl
  unfold readOpening readFront openWith
  simp only [bind_assoc]
  rw [bind_of_ok (takeBefore_of_bare hbare), bind_of_ok hpeek, bind_of_ok htemplate]
  rfl

/-- **A statement without comments** that is recognized is read in one turn, if neither an access
label nor template parameters stand in front. -/
theorem scopeTurn_of_unlabelled (hbare : ∀ t ∈ s.window.tokens, t.isComment = false)
    (h : s.Sees (t :: ts)) (ht : t.isEof = false) (hbrace : t.is "\x7d" = false)
    (hlabel : t.isAnyKeyword [.private_, .protected_, .public_] = false)
    (htemplate : t.isKeyword .template_ = false)
    (hread : tryAll (recognizers readScope scope) (begun scope s) = .ok true s')
    (hsees : s'.Sees (u :: us)) (hu : u.is ";" = false)
    (hnone : s'.outline.statement.instances = none) :
    scopeTurn readScope scope s = .ok (.again scope) s' := by
  have hpeek := peek_of_sees h
  have hbound : 0 < s.bound := Nat.lt_of_lt_of_le (Nat.succ_pos _) h.length_le
  have hbound' : 0 < s'.bound := Nat.lt_of_lt_of_le (Nat.succ_pos _) hsees.length_le
  have hopening := readOpening_of_bare scope hbare h htemplate
  have hbegun : peek (begun scope s) = .ok t (begun scope s) :=
    peek_of_sees ⟨h.cooked, h.fueled, h.inside, h.ahead⟩
  have hcursor : cursor (begun scope s) = .ok s.window.index (begun scope s) := rfl
  have hone : readOne readScope scope t (begun scope s) = .ok () s' := by
    unfold readOne
    rw [bind_of_ok hread, if_pos rfl]
    rfl
  have hend : endPass s' = .ok (.done ()) s' := by
    have hinstances : s'.outline.hasInstances = false := by
      rw [Outline.hasInstances, hnone]
      rfl
    unfold endPass
    have houtline : outline s' = .ok s'.outline s' := rfl
    rw [bind_of_ok houtline, hinstances]
    rfl
  have hpass (start : Nat) :
      readPass readScope scope scope none start t (begun scope s) = .ok (.done ()) s' := by
    have hnext : nextPass scope scope none start (begun scope s) =
        .ok (.read scope) (begun scope s) := rfl
    unfold readPass
    rw [bind_of_ok hnext]
    refine (bind_of_ok hone _).trans ?_
    rw [bind_of_ok (skipSemicolons_of_not hbound' (peek_of_sees hsees) hu)]
    exact hend
  have hstatement : read readScope scope s = .ok () s' := by
    rw [read_eq, bind_of_ok hopening]
    unfold readPasses
    rw [bind_of_ok hcursor, bind_of_ok hbegun]
    exact bind_of_ok (hpass _) _
  unfold scopeTurn
  rw [bind_of_ok hpeek, if_neg (by simp [ht, hbrace]),
    bind_of_ok (readAccess_of_not_label hbound hlabel), bind_of_ok hstatement]
  rfl

/-- What starts with a plain word has neither in front. -/
theorem scopeTurn_of_bare (hbare : ∀ t ∈ s.window.tokens, t.isComment = false)
    (h : s.Sees (t :: ts)) (ht : t.isEof = false) (hbrace : t.is "\x7d" = false)
    (hstarts : t.isKeywordWith Keyword.starts = false)
    (hread : tryAll (recognizers readScope scope) (begun scope s) = .ok true s')
    (hsees : s'.Sees (u :: us)) (hu : u.is ";" = false)
    (hnone : s'.outline.statement.instances = none) :
    scopeTurn readScope scope s = .ok (.again scope) s' :=
  scopeTurn_of_unlabelled hbare h ht hbrace
    (Token.isAnyKeyword_of_isKeywordWith hstarts _ (by simp [Keyword.starts]))
    (Token.isKeyword_of_isKeywordWith hstarts .template_ rfl) hread hsees hu hnone

/-- A scope without comments is read in its turns, up to its end. -/
theorem readAllWith_of_bare {n : Nat} (hturns : Turns readScope n scope (opened s) scope' s')
    (hn : n < s.bound) (hbare : ∀ t ∈ s'.window.tokens, t.isComment = false)
    (h : s'.Sees (t :: ts)) (ht : t.isEof = true ∨ t.is "\x7d" = true) :
    readAllWith readScope scope s =
      .ok () { s' with outline.statement := s.outline.statement } := by
  obtain ⟨m, hm⟩ := Nat.exists_eq_add_of_lt hn
  have hdone : scopeTurn readScope scope' s' = .ok (.done ()) s' := by
    unfold scopeTurn
    rw [bind_of_ok (peek_of_sees h), if_pos (by simpa using ht)]
    rfl
  have hloop : iterate scope (scopeTurn readScope) (opened s) = .ok () s' := by
    change iterateUpTo (scopeTurn readScope) s.bound scope (opened s) = _
    rw [hm, Nat.add_assoc, hturns.iterateUpTo_eq, iterateUpTo, bind_of_ok hdone]
    rfl
  have hlast : readLastComment s' = .ok () s' := by
    unfold readLastComment
    rw [bind_of_ok (takeBefore_of_bare hbare)]
    rfl
  change (iterate scope (scopeTurn readScope) >>= _) (opened s) = _
  rw [bind_of_ok hloop, bind_of_ok hlast]
  rfl

end Statement

/-- **Where no parameters follow,** there is no function. -/
theorem Function.attempt_of_absent {scope : Scope} {word : Token} {type : NativeType}
    {vs : List Token} (hplain : word.isKeywordWith Keyword.starts = false) (h : s.Sees (word :: ts))
    (htype : Passes (NativeType.read scope) s (u :: us) (· = some type)) (hu : u.is "(" = false)
    (hordinary : (type.constructor || type.destructor || type.operator) = false)
    (hread : Passes (Declarator.read { scope, choice := 0, keepDefaults := none }) s vs
      fun d => ∃ d', d = some d' ∧ d'.parameters = none) :
    attempt (Function.read scope) s = .ok false s := by
  have hpeek : peek s = .ok word s := peek_of_sees h
  have hcursor : cursor s = .ok s.window.index s := rfl
  obtain ⟨_, j, htype, hsees, rfl⟩ := htype
  obtain ⟨_, i, hread, hsees', d, rfl, hnone⟩ := hread
  obtain ⟨_, k, hparameters, hbehind, rfl⟩ : Passes (Parameters.read scope 0 none) (s.atIndex j)
      (u :: us) (· = none) := Parameters.readWith_absent Declarator.read scope 0 none hsees hu
  have hnext : peek (s.atIndex j) = .ok u (s.atIndex j) := peek_of_sees hsees
  have hback : moveTo s.window.index (s.atIndex j) = .ok () s := rfl
  have hback' : moveTo s.window.index ((s.atIndex j).atIndex k) = .ok () s := rfl
  have hdeclarator : ∃ d, Function.readDeclarator scope 0 none s = .ok (some d) (s.atIndex i) ∧
      d.parameters = none := by
    unfold Function.readDeclarator
    rw [bind_of_ok hcursor, bind_of_ok htype]
    dsimp only
    rw [if_neg (by simp [hordinary])]
    refine ⟨if d.nativeName.isEmpty then d else
      { d with nativeName := scope.qualifyLocal d.nativeName },
      (bind_of_ok hback _).trans (bind_of_ok hread _), ?_⟩
    split <;> exact hnone
  obtain ⟨d, hdeclarator, hnone⟩ := hdeclarator
  have hrun : ∃ k us, Function.read scope s = .ok false (s.atIndex k) ∧ (s.atIndex k).Sees us := by
    unfold Function.read
    rw [bind_of_ok hpeek, bind_of_ok hpeek, Token.isKeyword_of_isKeywordWith hplain .friend_ rfl,
      if_neg (by simp)]
    dsimp only
    rw [bind_of_ok hcursor, bind_of_ok htype]
    dsimp only
    rw [bind_of_ok hnext, bind_of_ok hparameters]
    by_cases htarget : type.targetName.isEmpty = true
    · rw [if_pos htarget]
      exact ⟨_, _, rfl, hbehind⟩
    · rw [if_neg htarget, if_neg (by simp [hu]), bind_of_ok hback', bind_of_ok hdeclarator]
      dsimp only
      rw [hnone]
      exact ⟨_, _, rfl, hsees'⟩
  obtain ⟨k, us, hrun, hsees⟩ := hrun
  exact Statement.attempt_of_passes us ⟨_, k, hrun, hsees, rfl⟩

/-! ## A list as a statement -/

namespace Variable

variable {table : RuleTable} {b : Base table} {xs : List Item} {stop : List Token}

/-- A name is followed by its dimensions, its value or the end of the item. -/
theorem Item.exists_stop (x : Item) (ht : t.EndsItem) (ts : List Token) :
    ∃ u us mark, x.dims.flatMap Dimension.tokens ++ (x.valueTokens ++ t :: ts) = u :: us ∧
      u.IsMark mark ∧ mark ∈ ["[", "=", ",", ";"] := by
  cases x.dims with
  | cons d dims => exact ⟨d.opening, _, "[", rfl, d.isOpening, by simp⟩
  | nil =>
      obtain ⟨u, us, hu, mark, hmem, hmark⟩ := Base.exists_behind x ht ts
      refine ⟨u, us, mark, by simpa using hu, hmark, ?_⟩
      simp only [List.mem_cons] at hmem ⊢
      exact .inr hmem

/-- A list starts with plain words. -/
theorem Spells.exists_startsPlain (h : Spells b xs ts stop) : ∃ ws u us,
    b.words ++ ts = ws ++ u :: us ∧ Statement.StartsPlain ws u := by
  obtain ⟨x, t, ts, -, hends, rfl⟩ := h.starts
  have hplain : ∀ w ∈ b.words, w.isWord = true ∧ w.is "#" = false ∧
      w.isKeywordWith Keyword.starts = false := by
    intro w hw
    obtain ⟨hisWord, hword, hstarts⟩ := b.plain w hw
    exact ⟨hisWord, Token.is_of_word hword "#" (by decide), hstarts⟩
  unfold Item.tokens
  cases hstars : x.stars with
  | cons star stars =>
      have hstar := x.areStars star (by simp [hstars])
      exact ⟨b.words, star, _, rfl, hplain, hstar.isEof_eq, hstar.isWord_eq,
        by simp [hstar.is_eq]⟩
  | nil =>
      obtain ⟨u, us, mark, hu, hmark, hmem⟩ := x.exists_stop hends ts
      refine ⟨b.words ++ [x.name], u, us, ?_, ?_, hmark.isEof_eq, hmark.isWord_eq, ?_⟩
      · rw [List.nil_append, List.append_assoc, List.singleton_append, ← hu]
        simp [Item.named]
      · intro w hw
        rcases List.mem_append.mp hw with hw | hw
        · exact hplain w hw
        · obtain rfl := List.mem_singleton.mp hw
          have hname := x.isName
          exact ⟨hname.isWord_eq, hname.is_eq "#" (by decide),
            by simp [Token.isKeywordWith, hname.kind]⟩
      · rw [hmark.is_eq, beq_eq_false_iff_ne]
        rintro rfl
        revert hmem
        decide

namespace AtItems

/-- The type of a list is read up to a token that opens no parameters. -/
theorem readType (h : AtItems b xs ts stop s) : ∃ (x : Item) (u : Token) (us : List Token),
    xs[0]? = some x ∧ u.is "(" = false ∧
      Passes (NativeType.read {}) s (u :: us) (· = some (b.type x.isStarred)) := by
  obtain ⟨x, t, us, hfirst, hends, rfl⟩ := h.spelled.starts
  rw [List.head?_eq_getElem?] at hfirst
  have hname := h.spelled.unmatched x (List.mem_of_getElem? hfirst)
  have hread := b.reads x h.table h.usings hname hends h.sees
  cases hstars : x.stars.drop 1 with
  | nil =>
      rw [hstars] at hread
      exact ⟨x, x.name, _, hfirst, x.isName.is_eq "(" (by decide), hread⟩
  | cons star stars =>
      rw [hstars] at hread
      have hstar : star.IsMark "*" :=
        x.areStars star (List.mem_of_mem_drop (by rw [hstars]; exact List.mem_cons_self))
      exact ⟨x, star, _, hfirst, by simp [hstar.is_eq], hread⟩

/-- **A list is no function.** -/
theorem attempt_function (h : AtItems b xs ts stop s) :
    attempt (Function.read {}) s = .ok false s := by
  obtain ⟨word, words, hwords⟩ := List.exists_cons_of_ne_nil b.nonempty
  obtain ⟨-, -, hplain⟩ := b.plain word (by simp [hwords])
  have hstart := h.sees
  rw [hwords] at hstart
  obtain ⟨x, u, us, hfirst, hopening, htype⟩ := h.readType
  have hordinary : ((b.type x.isStarred).constructor || (b.type x.isStarred).destructor ||
      (b.type x.isStarred).operator) = false := by
    obtain ⟨target, targets, hshape⟩ := b.shape x.isStarred
    rw [hshape]
    simp [NativeType.reshaped, b.ordinary]
  let request : DeclaratorRequest := { scope := {}, choice := 0, keepDefaults := none }
  have hrequest : AtTop request := ⟨rfl, rfl⟩
  obtain ⟨v, vs, -, -, hread⟩ := h.spelled.reads hfirst hrequest rfl h.table h.usings h.sees
  have hdeclared := x.declared_as b hrequest (h.spelled.unmatched x (List.mem_of_getElem? hfirst))
  refine Function.attempt_of_absent hplain hstart htype hopening hordinary (hread.imp ?_)
  rintro _ ⟨stars, rfl⟩
  exact ⟨_, rfl, hdeclared.parameters⟩

/-- **A header that is a list of variables** prints its items in order. -/
theorem readAll_eq (h : AtItems b xs ts [t] s) (ht : t.isEof = true)
    (hfront : Text.Blank b.front) (hempty : s.outline.toList = []) :
    ∃ s', Statement.readAll {} s = .ok () s' ∧
      List.Forall₂ (fun x d => x.Prints b b.front d) xs s'.outline.toList := by
  obtain ⟨ws, u, us, htokens, hplain⟩ := h.spelled.exists_startsPlain
  obtain ⟨word, words, hwords⟩ := List.exists_cons_of_ne_nil b.nonempty
  obtain ⟨hisWord, hword, hstarts⟩ := b.plain word (by simp [hwords])
  have hsees : (Statement.opened s).Sees (word :: (words ++ ts)) := by
    have hsees := (h.withOutline { s.outline with statement := {} }).sees
    rwa [hwords] at hsees
  have hlist : AtItems b xs ts [t] (Statement.begun {} (Statement.opened s)) := h.withOutline _
  have hplainly := hlist.sees
  rw [htokens] at hplainly
  obtain ⟨j, o, hread, hbehind, hstatement, hprints⟩ := hlist.read hfront rfl hempty
  generalize hs' : ({ (Statement.begun {} (Statement.opened s)).atIndex j with outline := o } :
    Reading) = s' at hread
  have hend : s'.Sees [t] := by
    subst hs'
    exact ⟨hbehind.cooked, hbehind.fueled, hbehind.inside, hbehind.ahead⟩
  have hbare : ∀ t ∈ s'.window.tokens, t.isComment = false := by
    subst hs'
    exact h.bare
  have houtline : s'.outline = o := by rw [← hs']
  have hattempt : attempt (Variable.read {}) (Statement.begun {} (Statement.opened s)) =
      .ok true s' := by
    have hcursor (s : Reading) : cursor s = .ok s.window.index s := rfl
    unfold attempt
    rw [bind_of_ok (hcursor _), bind_of_ok hread]
    rfl
  have hall (readScope : Class.ScopeReader) : Statement.tryAll (Statement.recognizers readScope {})
      (Statement.begun {} (Statement.opened s)) = .ok true s' := by
    rw [hplain.tryAll_eq hplainly, Statement.tryAll_of_false hlist.attempt_function]
    exact Statement.tryAll_of_true hattempt
  have hnone : s'.outline.statement.instances = none := by rw [houtline, hstatement]; rfl
  have hturn (readScope : Class.ScopeReader) :
      Statement.scopeTurn readScope {} (Statement.opened s) = .ok (.again {}) s' :=
    Statement.scopeTurn_of_bare h.bare hsees (Token.isEof_of_isWord hisWord)
      (Token.is_of_word hword "\x7d" (by decide)) hstarts (hall readScope) hend
      (Token.is_of_isEof ht ";") hnone
  have hbound : 1 < s.bound := by
    obtain ⟨x, _, _, hfirst, -⟩ := h.spelled.starts
    have hpos := List.length_pos_of_mem (List.mem_of_head? hfirst)
    have hlt := h.length_lt
    omega
  have hscope (readScope : Class.ScopeReader) := Statement.readAllWith_of_bare
    (.turn (hturn readScope) (.none {} s')) hbound hbare hend (.inl ht)
  rw [← houtline] at hprints
  refine ⟨{ s' with outline.statement := s.outline.statement }, ?_, hprints⟩
  obtain ⟨n, hn⟩ := Nat.exists_eq_add_one.mpr (Nat.zero_lt_of_lt hbound)
  have hget : (get : ReadM Reading) s = .ok s s := rfl
  unfold Statement.readAll nest
  rw [bind_of_ok hget, hn]
  exact hscope _

end AtItems

end Variable

end HeaderPeers

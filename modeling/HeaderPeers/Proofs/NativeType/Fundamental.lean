import HeaderPeers.Proofs.BuiltinRules
import HeaderPeers.Proofs.NativeType.Candidates
import HeaderPeers.Proofs.NativeType.Words

/-!
# Fundamental types

A fundamental type is looked up in the namespaces around and below each `using` before it
is taken for itself. With the built-in rules all these names map values to one target type
at most.

- `Scope.IsNamespace` — the scope of a free declaration.
- `NativeType.IsFundamental` — the words of a fundamental type.
- `NativeType.IsFundamental.isValue` — what they are read as.
-/

namespace HeaderPeers

/-! ## What a name may refer to -/

namespace Scope

/-- A scope outside of classes and templates, where no namespace around and none that a
`using` names has template arguments. -/
structure IsNamespace (scope : Scope) (usings : List String) : Prop where
  free : scope.group = none
  plain : scope.template = none
  path : ∀ path ∈ scope.path, '>' ∉ path.toList
  usings : ∀ used ∈ usings, '>' ∉ used.toList

variable {scope : Scope} {usings : List String} {path around name : String}

/-- What stands in front of the last cut is a part of the text. -/
theorem mem_of_mem_before {needle s before after : String} (hneedle : needle ≠ "")
    (hcut : Text.cutLast? needle s = some (before, after)) {c : Char} (hc : c ∈ before.toList) :
    c ∈ s.toList := by
  rw [((Text.cutLast?_eq_some_iff hneedle).mp hcut).eq]
  simp [hc]

/-- Around a path without template arguments there is another one. -/
theorem plain_of_outer? (hpath : '>' ∉ path.toList) (h : outer? path = some around) :
    '>' ∉ around.toList := by
  have hkey : '>' ∉ (Name.normalize path false true).toList := by
    intro hmem
    rcases Name.mem_of_mem_normalize hpath hmem with hold | hletter | hspace
    · exact hpath hold
    · exact absurd hletter (by decide)
    · exact absurd hspace (by decide)
  simp only [outer?] at h
  split at h
  next before after hcut =>
    cases h
    exact fun hmem => hkey (mem_of_mem_before (by simp) hcut hmem)
  · split at h
    · cases h
    · cases h
      simp

theorem plain_of_mem_enclosing {fuel : Nat} (hpath : '>' ∉ path.toList) :
    ∀ around ∈ enclosing fuel path, '>' ∉ around.toList := by
  induction fuel generalizing path with
  | zero => simp [enclosing]
  | succ fuel ih =>
      intro around haround
      rw [enclosing, List.mem_cons] at haround
      rcases haround with rfl | haround
      · exact hpath
      · split at haround
        next next hnext => exact ih (plain_of_outer? hpath hnext) around haround
        · cases haround

/-- **Candidates of a fundamental type.** In a scope of namespaces, all that the name of a
fundamental type may refer to ends like one. -/
theorem IsNamespace.endsFundamental (h : scope.IsNamespace usings)
    (hname : Name.EndsFundamental name) :
    ∀ candidate ∈ scope.qualify name usings, Name.EndsFundamental candidate := by
  have hbelow {front : String} (hfront : '>' ∉ front.toList) :
      Name.EndsFundamental (front ++ "::" ++ name) := by
    refine hname.append ?_
    rw [String.toList_append, List.mem_append, not_or]
    exact ⟨hfront, by decide⟩
  intro candidate hcandidate
  unfold qualify at hcandidate
  split at hcandidate
  · cases hcandidate
  dsimp only at hcandidate
  rcases List.mem_append.mp hcandidate with hscoped | hbrought
  · obtain ⟨around, haround, hfull⟩ := List.mem_flatMap.mp hscoped
    have hinstance : scope.instance? (below around name) = none := by simp [instance?, h.plain]
    rw [hinstance, Option.toList_none, List.nil_append, List.mem_singleton] at hfull
    have hplain : '>' ∉ around.toList := by
      refine plain_of_mem_enclosing ?_ around haround
      cases hpath : scope.path with
      | none => simp
      | some path => exact h.path path hpath
    rw [hfull, below]
    split
    · exact hname
    · exact hbelow hplain
  · obtain ⟨used, hused, hfull⟩ := List.mem_filterMap.mp hbrought
    split at hfull
    next front last hcut =>
      split at hfull
      · cases hfull
        exact hbelow fun hmem => h.usings used hused (mem_of_mem_before (by simp) hcut hmem)
      · cases hfull
    · cases hfull

end Scope

/-! ## The words -/

/-- A word of a fundamental type: one that names it, or `const` and the like. -/
inductive Token.OfFundamental (t : Token) : Prop
  | named (ht : t.IsName) (named : Name.fundamentalWords.contains t.text = true)
  | modifier {word : Keyword} (kind : t.kind = .keyword word)
      (plain : word = .const_ ∨ word = .static_ ∨ word.decorates = true)
      (word : Text.isWord t.text.toList = true)

namespace NativeType

variable {t : Token} {ws : List Token} {type : NativeType} {table : RuleTable} {scope : Scope}
  {usings : List String}

/-- The words of a fundamental type; not all of them are `const` and the like. -/
structure IsFundamental (ws : List Token) : Prop where
  words : ∀ t ∈ ws, t.OfFundamental
  named : ∃ t ∈ ws, t.IsName ∧ Name.fundamentalWords.contains t.text = true

/-- They are read one after another. -/
theorem spells_of_fundamental (h : ∀ t ∈ ws, t.OfFundamental) (table : RuleTable)
    (type : NativeType) : Spells table type ws := by
  induction ws generalizing type with
  | nil => trivial
  | cons t ws ih =>
      rw [List.forall_mem_cons] at h
      refine ⟨?_, ih h.2 _⟩
      cases h.1 with
      | named ht named => exact .fundamental ht named
      | modifier kind plain word => exact .modifier kind plain word

theorem namePart_of_fundamental (ht : t.IsName)
    (named : Name.fundamentalWords.contains t.text = true) : namePart t = t.text ++ " " := by
  have hmodifies : modifies t = false := by
    simp [modifies, ht.isKeyword_eq, Token.isKeywordWith, ht.kind]
  rw [namePart, ht.is_eq "::" (by decide), if_neg (by simp), hmodifies, if_neg (by simp),
    if_pos named]

/-- Behind its words, the name of the type ends with the last that names it and a blank, by
induction from the last word on. -/
theorem exists_word_foldl (h : IsFundamental ws) (type : NativeType) :
    ∃ w ∈ Name.fundamentalWords,
      (w ++ " ").toList <:+ (ws.foldl push type).nativeName.toList := by
  obtain ⟨hwords, hnamed⟩ := h
  induction ws using List.reverseRecOn with
  | nil =>
      obtain ⟨t, ht, -⟩ := hnamed
      cases ht
  | append_singleton ws t ih =>
      rw [List.foldl_append, List.foldl_cons, List.foldl_nil, push_nativeName, String.toList_append]
      have hnaming (ht : t.IsName) (named : Name.fundamentalWords.contains t.text = true) :
          ∃ w ∈ Name.fundamentalWords, (w ++ " ").toList <:+
            (ws.foldl push type).nativeName.toList ++ (namePart t).toList := by
        rw [namePart_of_fundamental ht named]
        exact ⟨t.text, by simpa using named, List.suffix_append _ _⟩
      cases hwords t (by simp) with
      | named ht named => exact hnaming ht named
      | @modifier word kind plain isWord =>
          have hmodifies : modifies t = true := by
            rcases plain with rfl | rfl | hdecorating
            · simp [modifies, Token.isKeyword, kind]
            · simp [modifies, Token.isKeyword, kind]
            · simp [modifies, Token.isKeywordWith, kind, hdecorating]
          have hcolons : t.is "::" = false := by
            have hne : t.text ≠ "::" := by
              intro htext
              rw [htext] at isWord
              exact absurd isWord (by decide)
            simp [Token.is, hne]
          have hpart : namePart t = "" := by
            rw [namePart, hcolons, if_neg (by simp), if_pos hmodifies]
          rw [hpart, String.toList_empty, List.append_nil]
          refine ih (fun u hu => hwords u (by simp [hu])) ?_
          obtain ⟨u, hu, huname, hunamed⟩ := hnamed
          rcases List.mem_append.mp hu with hu | hu
          · exact ⟨u, hu, huname, hunamed⟩
          · obtain rfl := List.mem_singleton.mp hu
            rw [huname.kind] at kind
            cases kind

/-- The name of a type does not go on behind a fundamental one. -/
theorem IsFundamental.closed (h : IsFundamental ws) : (ws.foldl push {}).isOpen = false := by
  obtain ⟨w, -, hends⟩ := exists_word_foldl h {}
  obtain ⟨front, hfront⟩ := hends
  refine isOpen_of_last (c := ' ') ?_ (by decide)
  rw [← hfront, String.toList_append, ← List.append_assoc, List.getLast?_append]
  rfl

/-- Words pass the type by value. -/
theorem value_foldl (ws : List Token) (type : NativeType) :
    (ws.foldl push type).indirections = type.indirections ∧
      (ws.foldl push type).reference = type.reference := by
  induction ws generalizing type with
  | nil => exact ⟨rfl, rfl⟩
  | cons t ws ih =>
      have hpush : (type.push t).indirections = type.indirections ∧
          (type.push t).reference = type.reference := by
        unfold push
        split
        · exact ⟨rfl, rfl⟩
        split
        · split <;> exact ⟨rfl, rfl⟩
        split
        · exact ⟨rfl, rfl⟩
        split
        · exact ⟨rfl, rfl⟩
        split <;> exact ⟨rfl, rfl⟩
      exact ⟨(ih _).1.trans hpush.1, (ih _).2.trans hpush.2⟩

end NativeType

/-- Trimming keeps a word that only a blank stands behind. -/
theorem Text.suffix_trim {w s : String} (hw : Text.Tidy w.toList)
    (h : (w ++ " ").toList <:+ s.toList) : w.toList <:+ (Text.trim s).toList := by
  obtain ⟨c, cs, hcs⟩ := List.exists_cons_of_ne_nil hw.nonempty
  have hfirst : Text.isBlank c = false := hw.head c (by rw [hcs]; rfl)
  have hdrop : (w ++ " ").toList <:+ s.toList.dropWhile Text.isBlank := by
    obtain ⟨front, hfront⟩ := h
    rw [← hfront, List.dropWhile_append]
    split
    · rw [String.toList_append, hcs, List.cons_append,
        List.dropWhile_cons_of_neg (by simp [hfirst])]
    · exact List.suffix_append _ _
  have hend : Text.dropEndWhile Text.isBlank (w ++ " ").toList = w.toList := by
    have hspace : Text.isBlank ' ' = true := by decide
    obtain ⟨d, ds, hds⟩ := List.exists_cons_of_ne_nil
      (fun hnil => hw.nonempty (List.reverse_eq_nil_iff.mp hnil))
    have hlast : Text.isBlank d = false := hw.last d (by rw [← List.head?_reverse, hds]; rfl)
    have hreverse : (w ++ " ").toList.reverse = ' ' :: w.toList.reverse := by simp
    rw [Text.dropEndWhile, hreverse, List.dropWhile_cons_of_pos hspace, hds,
      List.dropWhile_cons_of_neg (by simp [hlast]), ← hds, List.reverse_reverse]
  rw [Text.trim, String.toList_ofList, ← hend]
  exact Text.dropEndWhile_isSuffix Text.isBlank hdrop

namespace NativeType

variable {ws : List Token} {type : NativeType} {scope : Scope} {usings : List String}

/-- The name that the words of a fundamental type spell. -/
theorem IsFundamental.endsFundamental (h : IsFundamental ws) :
    Name.EndsFundamental (ofWords ws none).nativeName := by
  obtain ⟨w, hw, hends⟩ := exists_word_foldl h {}
  rw [nativeName_ofWords]
  refine ⟨fun hmem => ?_, w, hw, Text.suffix_trim (Name.tidy_of_fundamental hw) hends⟩
  rcases nameChars_foldl (spells_of_fundamental h.words {} {}) (by simp [NameChars]) _
    (Text.mem_of_mem_trim hmem) with hword | hspace | hcolon
  · exact absurd hword (by decide)
  · exact absurd hspace (by decide)
  · exact absurd hcolon (by decide)

/-! ## What they are read as -/

/-- A value of a type that ends like a fundamental one and is something on the target side. -/
structure IsValue (type : NativeType) : Prop where
  stars : type.indirections = 0
  reference : type.reference = false
  native : Name.EndsFundamental type.nativeName
  target : type.targetName ≠ "" ∧ type.targetName ≠ "void"

/-- Without a rule, the target name of a fundamental type ends like it. -/
theorem endsFundamental_plainTarget {name : String} (h : Name.EndsFundamental name) :
    Name.EndsFundamental (plainTarget name) := by
  unfold plainTarget
  split
  next before last hcut =>
    split
    · exact h
    have heq := ((Text.cutLast?_eq_some_iff (by simp)).mp hcut).eq
    have hlast : last.toList <:+ name.toList := by
      rw [heq, String.toList_append]
      exact List.suffix_append _ _
    refine ⟨fun hmem => h.plain (hlast.subset hmem), ?_⟩
    obtain ⟨w, hw, hends⟩ := h.ends
    refine ⟨w, hw, ?_⟩
    -- a word that is longer than what stands behind the colons would hold one of them
    rcases List.suffix_or_suffix_of_suffix hends hlast with hword | ⟨front, hfront⟩
    · exact hword
    rcases eq_or_ne front [] with rfl | hne
    · exact hfront ▸ List.suffix_refl _
    have hcolon : ':' ∈ front := by
      obtain ⟨rest, hrest⟩ := hends
      rw [← hfront, ← List.append_assoc, heq, String.toList_append] at hrest
      have hbefore := List.append_cancel_right hrest
      rw [String.toList_append] at hbefore
      have hlastChar : (rest ++ front).getLast? = some ':' := by
        rw [hbefore, List.getLast?_append]
        rfl
      rw [List.getLast?_append_of_ne_nil _ hne] at hlastChar
      exact List.mem_of_getLast? hlastChar
    have hword : ':' ∈ w.toList := by
      rw [← hfront]
      exact List.mem_append_left _ hcolon
    have hchar := Text.isWordChar_of_isWord (Name.word_of_fundamental hw).1 ':' hword
    exact absurd hchar (by decide)
  · exact h

/-- No name that ends like a fundamental type is `void`. -/
theorem ne_void_of_endsFundamental {name : String} (h : Name.EndsFundamental name) :
    name ≠ "void" := by
  rintro rfl
  obtain ⟨w, hw, hends⟩ := h.ends
  have hvoid : ∀ w ∈ Name.fundamentalWords, ¬ w.toList <:+ "void".toList := by decide
  exact hvoid w hw hends

/-- What a fundamental type is settled as. -/
theorem settleName_standard (hscope : scope.IsNamespace usings) {name : String}
    (hname : Name.EndsFundamental name) :
    Name.EndsFundamental (settleName .standard name (scope.qualify name usings)).1 ∧
      ∀ r ∈ (settleName .standard name (scope.qualify name usings)).2, r.IsTame := by
  have hcandidates := hscope.endsFundamental hname
  rw [settleName_eq]
  constructor
  · cases hexact : exactMatch? .standard (scope.qualify name usings) with
    | some candidate => exact hcandidates _ (List.mem_of_find?_eq_some hexact)
    | none =>
        cases houter : outerMatch? .standard (scope.qualify name usings) with
        | some candidate =>
            exact hcandidates _ (List.mem_reverse.mp (List.mem_of_find?_eq_some houter))
        | none => exact hname
  · intro r hr
    obtain ⟨candidate, hexact, hfind⟩ := Option.bind_eq_some_iff.mp hr
    exact RuleTable.isTame_of_findWith?_standard
      (hcandidates _ (List.mem_of_find?_eq_some hexact)) hfind

/-- Without candidates but itself, a name stays what it is. -/
theorem resolve_nativeName (table : RuleTable) (hname : IsName type.nativeName)
    (hplain : scope.template = none) (hcandidates : scope.qualify type.nativeName usings =
      [type.nativeName]) : (type.resolve table scope usings).nativeName = type.nativeName := by
  have hlooked : lookedUp scope type = type.nativeName := by
    rw [lookedUp, hname.hoist_eq, instantiate, hplain]
    rfl
  have hsettled : (type.resolve table scope usings).nativeName =
      (settleName table (lookedUp scope type) (scope.qualify (lookedUp scope type) usings)).1 :=
    mapBy_nativeName _ _
  rw [hsettled, hlooked, hcandidates, settleName_singleton]

/-- A tame rule, or none, leaves a value what it is. -/
theorem IsValue.mapBy {rule : Option Rule} (h : type.IsValue) (hrule : ∀ r ∈ rule, r.IsTame) :
    (NativeType.mapBy rule type).1.IsValue := by
  cases rule with
  | none =>
      have hmapped : NativeType.mapBy none type = (type, false) := by simp [NativeType.mapBy]
      rw [hmapped]
      exact h
  | some r =>
      obtain ⟨⟨value, hvalue, hvoid⟩, -, -⟩ := hrule r rfl
      have hmapped : NativeType.mapBy (some r) type =
          ({ type with targetName := value, targetNames := [value] }, true) := by
        simp [NativeType.mapBy, h.stars, h.reference, hvalue]
      rw [hmapped]
      exact ⟨h.stars, h.reference, h.native, hvoid⟩

/-- **Reading a fundamental type.** In a scope of namespaces it stands for a value, whatever the
namespaces are called. -/
theorem IsFundamental.isValue (h : IsFundamental ws) (hscope : scope.IsNamespace usings) :
    ((ofWords ws none).resolve .standard scope usings).IsValue := by
  have hname : IsName (ofWords ws none).nativeName :=
    isName_ofWords (spells_of_fundamental h.words .standard {}) h.endsFundamental.ne_empty
  obtain ⟨hstars, hreference⟩ := value_foldl ws {}
  obtain ⟨hnative, htame⟩ := settleName_standard hscope h.endsFundamental
  have hinstance : (ofWords ws none).instantiate scope = ofWords ws none := by
    rw [instantiate, hscope.plain]
    rfl
  unfold resolve
  dsimp only
  rw [hname.hoist_eq, hinstance]
  generalize settleName _ _ _ = settled at hnative htame
  have htarget := endsFundamental_plainTarget hnative
  have hplain : IsValue { ofWords ws none with
      nativeName := settled.1, targetName := plainTarget settled.1 } :=
    ⟨hstars, hreference, hnative, htarget.ne_empty, ne_void_of_endsFundamental htarget⟩
  have hmapped := hplain.mapBy htame
  exact ⟨hmapped.stars, hmapped.reference, hmapped.native, hmapped.target⟩

end NativeType

end HeaderPeers

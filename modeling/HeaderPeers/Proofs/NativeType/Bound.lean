import HeaderPeers.Proofs.NativeType.Arguments

/-!
# What a template parameter is bound to

A type is bound to a parameter as it is, but it takes the parameter's place as text: its
qualifiers and marks are spelled out behind and in front of the name, and taken off again.

- `NativeType.Bindable` — types that can be told from their spelling.
- `NativeType.hoist_spelled` — the marks behind a name are taken off.
- `NativeType.instantiate_of_bound` — spelling a type and taking it apart again.
- `NativeType.read_of_bound` — a name, perhaps with `const` in front of it and a star behind it.
- `NativeType.read_parameter` — the texts of a parameter, a pointer to it and a constant.
-/

namespace HeaderPeers

open ReadM

/-! ## Heads and tails of a text -/

namespace Text

theorem dropHead?_append (head s : String) : dropHead? head (head ++ s) = some s := by
  have hstarts : startsWith head (head ++ s) = true := by
    simp [startsWith, String.toList_append, List.isPrefixOf_iff_prefix]
  rw [dropHead?, if_pos hstarts, String.toList_append, List.drop_left, String.ofList_toList]

theorem dropTail?_append (s tail : String) : dropTail? tail (s ++ tail) = some s := by
  have hlength : (s ++ tail).toList.length - tail.toList.length = s.toList.length := by
    rw [String.toList_append, List.length_append, Nat.add_sub_cancel]
  rw [dropTail?, if_pos (endsWith_append s tail), hlength, String.toList_append, List.take_left,
    String.ofList_toList]

/-- A text does not end with what has another last character. -/
theorem dropTail?_of_last {s tail : String} {c d : Char} (hc : s.toList.getLast? = some c)
    (hd : tail.toList.getLast? = some d) (hne : c ≠ d) : dropTail? tail s = none := by
  refine if_neg fun hends => ?_
  obtain ⟨front, hfront⟩ := List.isSuffixOf_iff_suffix.mp hends
  rw [← hfront, List.getLast?_append, hd] at hc
  exact hne (Option.some.inj hc).symm

theorem trim_word_space {name : String} (h : isWord name.toList = true) :
    trim (name ++ " ") = name := by
  have hvisible : ∀ c ∈ name.toList, isBlank c = false := fun c hc =>
    isBlank_of_isWordChar (isWordChar_of_isWord h c hc)
  cases hname : name.toList with
  | nil =>
      rw [hname] at h
      cases h
  | cons c cs =>
      obtain ⟨d, hd⟩ := Option.isSome_iff_exists.mp
        (List.getLast?_isSome.mpr (hname ▸ List.cons_ne_nil c cs : name.toList ≠ []))
      have hblank : isBlank d = false := hvisible d (List.mem_of_getLast? hd)
      have hdrop : (name ++ " ").toList.dropWhile isBlank = name.toList ++ [' '] := by
        rw [String.toList_append, hname]
        exact List.dropWhile_cons_of_neg (by simp [hvisible c (hname ▸ List.mem_cons_self)])
      have hend : dropEndWhile isBlank (name.toList ++ [' ']) =
          dropEndWhile isBlank name.toList := by
        simp [dropEndWhile, show isBlank ' ' = true by decide]
      rw [trim, hdrop, hend, NativeType.getLast?_dropEndWhile hd hblank, String.ofList_toList]

end Text

namespace NativeType

/-! ## Taking marks off -/

/-- What the marks of a type are spelled as. -/
def marksText (b : NativeType) : String :=
  String.ofList (List.replicate b.indirections '*') ++
    (if b.rvalue then "&&" else if b.reference then "&" else "")

/-- The text of a name with stars behind it ends with a star, or the name does. -/
theorem getLast?_stars {name : String} {c : Char} (hlast : name.toList.getLast? = some c)
    (n : Nat) :
    (name ++ String.ofList (List.replicate n '*')).toList.getLast? =
      some (if n = 0 then c else '*') := by
  rw [String.toList_append, String.toList_ofList, List.getLast?_append, List.getLast?_replicate]
  split <;> simp [hlast]

/-- Stars behind a name that has none are counted. -/
theorem hoist_stars {name : String} {c : Char} (hlast : name.toList.getLast? = some c)
    (hstar : c ≠ '*') (hblank : Text.isBlank c = false) (n : Nat) :
    let text := name ++ String.ofList (List.replicate n '*')
    (text.toList.reverse.takeWhile (· == '*')).length = n ∧
      Text.trimEnd (String.ofList (Text.dropEndWhile (· == '*') text.toList)) = name := by
  obtain ⟨front, hfront⟩ := List.getLast?_eq_some_iff.mp hlast
  have hreverse : (name ++ String.ofList (List.replicate n '*')).toList.reverse =
      List.replicate n '*' ++ c :: front.reverse := by
    rw [String.toList_append, String.toList_ofList, List.reverse_append, List.reverse_replicate,
      hfront]
    simp
  have hstars : ∀ d ∈ List.replicate n '*', (d == '*') = true := by simp
  refine ⟨?_, ?_⟩
  · rw [hreverse, List.takeWhile_append_of_pos hstars]
    simp [hstar]
  · rw [Text.dropEndWhile, hreverse, List.dropWhile_append_of_pos hstars,
      List.dropWhile_cons_of_neg (by simp [hstar]), List.reverse_cons, List.reverse_reverse,
      ← hfront, String.ofList_toList, Text.trimEnd, getLast?_dropEndWhile hlast hblank,
      String.ofList_toList]

/-- **Taking marks off.** What the marks of a type are spelled as goes into the fields. -/
theorem hoist_spelled {t b : NativeType} {name : String} {c : Char}
    (hname : t.nativeName = name ++ b.marksText) (hlast : name.toList.getLast? = some c)
    (hstar : c ≠ '*') (hmark : c ≠ '&') (hblank : Text.isBlank c = false)
    (href : b.rvalue = true → b.reference = true) :
    t.hoist = { t with
      nativeName := name
      indirections := t.indirections + b.indirections
      reference := t.reference || b.reference
      rvalue := t.rvalue || b.rvalue } := by
  obtain ⟨hcount, hrest⟩ := hoist_stars hlast hstar hblank b.indirections
  have hend := getLast?_stars hlast b.indirections
  have hne : (if b.indirections = 0 then c else '*') ≠ '&' := by
    split
    · exact hmark
    · decide
  have hnone (tail : String) (htail : tail.toList.getLast? = some '&') :=
    Text.dropTail?_of_last hend htail hne
  rw [marksText, ← String.append_assoc] at hname
  cases hrvalue : b.rvalue with
  | true =>
      have hreference := href hrvalue
      rw [hrvalue, if_pos rfl] at hname
      unfold hoist
      simp only [hname, Text.dropTail?_append, hcount, hrest, hreference, Bool.or_true]
  | false =>
      cases hreference : b.reference with
      | true =>
          -- one `&` behind a name or a star is not taken for two
          have hone : Text.dropTail? "&&"
              (name ++ String.ofList (List.replicate b.indirections '*') ++ "&") = none := by
            refine if_neg fun hends => ?_
            obtain ⟨front, hfront⟩ := List.isSuffixOf_iff_suffix.mp hends
            rw [String.toList_append, show "&&".toList = ['&'] ++ "&".toList from rfl,
              ← List.append_assoc] at hfront
            have hbefore := List.append_cancel_right hfront
            rw [← hbefore, List.getLast?_append] at hend
            exact hne (Option.some.inj hend).symm
          rw [hrvalue, hreference, if_neg (by simp), if_pos rfl] at hname
          unfold hoist
          simp only [hname, hone, Text.dropTail?_append, hcount, hrest, Bool.or_true,
            Bool.or_false]
      | false =>
          rw [hrvalue, hreference, if_neg (by simp), if_neg (by simp), String.append_empty] at hname
          unfold hoist
          simp only [hname, hnone "&&" rfl, hnone "&" rfl, hcount, hrest, Bool.or_false]

/-! ## Types that can be told from their spelling -/

/-- The name is there and trimmed, and holds no qualifiers and marks at its ends. -/
structure Bindable (b : NativeType) : Prop where
  named : b.nativeName ≠ ""
  trimmed : Text.trim b.nativeName = b.nativeName
  genuine : b.nativeName ≠ "const"
  front : Text.startsWith "const " b.nativeName = false
  star : Text.endsWith "*" b.nativeName = false
  mark : Text.endsWith "&" b.nativeName = false
  back : Text.endsWith " const" b.nativeName = false
  reference : b.rvalue = true → b.reference = true

variable {b type : NativeType} {scope : Scope} {table : RuleTable}

/-- The name and the `const` behind it. -/
def backText (b : NativeType) : String :=
  b.nativeName ++ (if b.constPointer then " const" else "")

theorem spelling_eq (b : NativeType) :
    b.spelling = (if b.constValue then "const " else "") ++ (b.backText ++ b.marksText) := by
  simp only [spelling, backText, marksText, String.append_assoc]

namespace Bindable

/-- The last character of the name is no mark. -/
theorem exists_last (h : b.Bindable) : ∃ c, b.nativeName.toList.getLast? = some c ∧
    c ≠ '*' ∧ c ≠ '&' ∧ Text.isBlank c = false := by
  obtain ⟨c, hlast, hblank⟩ := Text.exists_last_trim (s := b.nativeName) (h.trimmed.symm ▸ h.named)
  rw [h.trimmed] at hlast
  have hne {d : Char} (hends : Text.endsWith (String.ofList [d]) b.nativeName = false) :
      c ≠ d := by
    rintro rfl
    obtain ⟨front, hfront⟩ := List.getLast?_eq_some_iff.mp hlast
    have hname : b.nativeName = String.ofList front ++ String.ofList [c] :=
      String.toList_inj.mp (by simp [hfront])
    rw [hname, endsWith_append] at hends
    cases hends
  exact ⟨c, hlast, hne h.star, hne h.mark, hblank⟩

/-- So it is with the `const` behind the name. -/
theorem exists_last_back (h : b.Bindable) : ∃ c, b.backText.toList.getLast? = some c ∧
    c ≠ '*' ∧ c ≠ '&' ∧ Text.isBlank c = false := by
  unfold backText
  split
  · refine ⟨'t', ?_, by decide, by decide, by decide⟩
    rw [String.toList_append, List.getLast?_append]
    rfl
  · simpa using h.exists_last

/-- The first character of what stands behind the name. -/
theorem head?_behind (b : NativeType) {c : Char} {cs : List Char}
    (h : (if b.constPointer then " const" else "").toList ++ b.marksText.toList = c :: cs) :
    c = ' ' ∨ c = '*' ∨ c = '&' := by
  cases hback : b.constPointer with
  | true =>
      rw [hback] at h
      exact Or.inl (List.cons.inj h).1.symm
  | false =>
      rw [hback, marksText] at h
      cases hstars : b.indirections with
      | zero =>
          rw [hstars] at h
          cases hrvalue : b.rvalue <;> cases hreference : b.reference <;>
            simp [hrvalue, hreference] at h <;> exact Or.inr (Or.inr h.1.symm)
      | succ n =>
          rw [hstars] at h
          simp [List.replicate_succ] at h
          exact Or.inr (Or.inl h.1.symm)

/-- Without `const` in front, the spelling does not start with it: the name would have to
be a part of that. -/
theorem dropHead?_eq_none (h : b.Bindable) :
    Text.dropHead? "const " (b.backText ++ b.marksText) = none := by
  refine if_neg fun hstarts => ?_
  obtain ⟨rest, hrest⟩ := List.isPrefixOf_iff_prefix.mp hstarts
  rw [backText, String.toList_append, String.toList_append, List.append_assoc] at hrest
  rcases List.append_eq_append_iff.mp hrest with ⟨more, hname, -⟩ | ⟨more, hconst, hbehind⟩
  · have hfront := h.front
    simp [Text.startsWith, hname] at hfront
  · cases more with
    | nil =>
        have hfront := h.front
        rw [List.append_nil] at hconst
        simp [Text.startsWith, ← hconst] at hfront
    | cons c more =>
        have hc := head?_behind b hbehind
        have hsuffix : c :: more ∈ "const ".toList.tails := by
          rw [List.mem_tails, hconst]
          exact List.suffix_append _ _
        have hlast : c :: more = [' '] := by
          simp only [List.tails, show "const ".toList = ['c', 'o', 'n', 's', 't', ' '] from rfl,
            List.mem_cons, List.not_mem_nil, or_false] at hsuffix
          rcases hsuffix with h | h | h | h | h | h | h <;>
            first | exact h | (cases h; revert hc; decide) | cases h
        refine h.genuine (String.toList_inj.mp ?_)
        rw [hlast] at hconst
        exact (List.append_cancel_right (hconst : "const".toList ++ [' '] = _)).symm

theorem dropTail?_eq_none (h : b.Bindable) : Text.dropTail? " const" b.nativeName = none :=
  if_neg (by simp [h.back])

/-- **Taking the place of a parameter.** What a type shows is spelled out and taken off again,
next to what stands there already. -/
theorem instantiate_of_bound (h : b.Bindable)
    (hbound : scope.template.bind (substitute? · type.nativeName) = some b.spelling) :
    type.instantiate scope = { type with
      nativeName := b.nativeName
      constValue := type.constValue || b.constValue
      constPointer := type.constPointer || b.constPointer
      indirections := type.indirections + b.indirections
      reference := type.reference || b.reference
      rvalue := type.rvalue || b.rvalue } := by
  obtain ⟨c, hlast, hstar, hmark, hblank⟩ := h.exists_last_back
  have hback : Text.dropTail? " const" b.backText =
      if b.constPointer then some b.nativeName else none := by
    unfold backText
    split
    · exact Text.dropTail?_append _ _
    · rw [String.append_empty]
      exact h.dropTail?_eq_none
  have hhoist (t : NativeType) (ht : t.nativeName = b.backText ++ b.marksText) :=
    hoist_spelled ht hlast hstar hmark hblank h.reference
  unfold instantiate
  rw [hbound, spelling_eq]
  dsimp only
  cases hvalue : b.constValue with
  | true =>
      rw [if_pos rfl, Text.dropHead?_append]
      dsimp only
      rw [hhoist _ rfl]
      dsimp only
      rw [hback]
      cases hpointer : b.constPointer <;> simp [backText, hpointer]
  | false =>
      rw [if_neg (by simp), String.empty_append, h.dropHead?_eq_none]
      dsimp only
      rw [hhoist _ rfl]
      dsimp only
      rw [hback]
      cases hpointer : b.constPointer <;> simp [backText, hpointer]

end Bindable

/-! ## What a type shows -/

/-- What the spelling of a type shows of it. -/
structure Shown where
  name : String
  constValue : Bool
  constPointer : Bool
  indirections : Nat
  reference : Bool
  rvalue : Bool
deriving DecidableEq, Repr

def shown (type : NativeType) : Shown :=
  { name := type.nativeName
    constValue := type.constValue
    constPointer := type.constPointer
    indirections := type.indirections
    reference := type.reference
    rvalue := type.rvalue }

/-- What is shown once another type has taken the place of the name. -/
def Shown.filledWith (t b : Shown) : Shown :=
  { name := b.name
    constValue := t.constValue || b.constValue
    constPointer := t.constPointer || b.constPointer
    indirections := t.indirections + b.indirections
    reference := t.reference || b.reference
    rvalue := t.rvalue || b.rvalue }

theorem mapBy_none (type : NativeType) : mapBy none type = (type, false) := by
  simp [mapBy]

/-- Without rules, looking a type up only puts what is bound to it in its place. -/
theorem shown_resolve (hbare : table.Bare) (h : b.Bindable) (hname : IsName type.nativeName)
    (hbound : scope.template.bind (·.binding? type.nativeName) = some b) (usings : List String) :
    (type.resolve table scope usings).shown = type.shown.filledWith b.shown := by
  have hsubstitute : scope.template.bind (substitute? · type.nativeName) = some b.spelling := by
    obtain ⟨map, hmap, hbinding⟩ := Option.bind_eq_some_iff.mp hbound
    rw [hmap, Option.bind_some, substitute?, TemplateMap.get?, hbinding]
    rfl
  unfold resolve
  rw [hname.hoist_eq, h.instantiate_of_bound hsubstitute]
  simp only [hbare.settleName, mapBy_none]
  rfl

/-! ## Reading the words of a text -/

section Reading

variable {readType : Scope → ReadM (Option NativeType)} {s : Reading} {ws us : List Token}
  {t u : Token} {m : Option Token}

/-- The end of the input ends a type. -/
theorem readPart_of_end (hu : u.isEof = true) (h : s.Sees (u :: us)) :
    Passes (readPart readType scope type) s (u :: us) (· = .done type) := by
  unfold readPart
  refine (peek_passes h).bind_eq fun j h => ?_
  rw [if_pos hu]
  exact passes_pure h rfl

/-- Words and perhaps a mark behind them are read as a type up to the end of the input. -/
theorem read_of_words {tokens : Array Token} (hws : Spells s.table {} ws)
    (hm : ∀ t ∈ m, ∃ text ∈ ["*", "&", "&&"], t.IsMark text)
    (h : s.Sees (ws ++ (m.toList ++ [Window.endToken tokens]))) :
    ∃ type s', read scope s = .ok (some type) s' ∧
      type.shown = ((ofWords ws m).resolve s.table scope s.usings).shown := by
  have hbound : 0 < s.bound :=
    Nat.lt_of_lt_of_le (List.length_pos_iff.mpr (by simp)) h.length_le
  obtain ⟨n, hn⟩ := Nat.exists_eq_add_one.mpr hbound
  have hends : EndsType (nestUpTo readWith n) scope s (ws.foldl push {}) m
      [Window.endToken tokens] := by
    cases m with
    | none => exact fun j h => readPart_of_end (Window.isEof_endToken tokens) h
    | some t => exact hm t rfl
  have hdots : (Window.endToken tokens).is "..." = false := by
    unfold Window.endToken
    split <;> rfl
  obtain ⟨_, j, hread, -, type, rfl, -, target, constructed, htype⟩ :=
    readWith_passes hws hends hdots h
  have hnest : read scope s = nestUpTo readWith s.bound scope s := rfl
  refine ⟨type, s.atIndex j, ?_, ?_⟩
  · rw [hnest, hn]
    exact hread
  · rw [htype]
    rfl

/-- A name as the first word of a type. -/
theorem spells_name (hbare : table.Bare) (ht : t.IsName) (hopen : type.isOpen = true) :
    Spells table type [t] := by
  refine ⟨?_, trivial⟩
  cases hnamed : Name.fundamentalWords.contains t.text with
  | true => exact .fundamental ht hnamed
  | false => exact .name ht hnamed hopen (by simp [hbare.find?])

theorem push_of_isName (ht : t.IsName) (type : NativeType) :
    (type.push t).shown = { type with nativeName := type.nativeName ++ namePart t }.shown := by
  have hdecorates : t.isKeywordWith Keyword.decorates = false := by
    simp [Token.isKeywordWith, ht.kind]
  unfold push namePart modifies
  simp only [ht.is_eq "::" (by decide), ht.isKeyword_eq, hdecorates, Bool.false_eq_true, if_false,
    Bool.or_self]
  split
  · rw [← String.append_assoc]
    rfl
  · rfl

/-- Behind a fundamental word there is a space, which is trimmed. -/
theorem trim_namePart (ht : t.IsName) : Text.trim (namePart t) = t.text := by
  have hdecorates : t.isKeywordWith Keyword.decorates = false := by
    simp [Token.isKeywordWith, ht.kind]
  unfold namePart modifies
  simp only [ht.is_eq "::" (by decide), ht.isKeyword_eq, hdecorates, Bool.false_eq_true, if_false,
    Bool.or_self]
  split
  · exact Text.trim_word_space ht.word
  · exact Text.trim_word ht.word

end Reading

end NativeType

/-! ## The tokens of a text -/

/-- A comment is no mark of a directive. -/
theorem Token.is_of_isComment {numbering : Token.Numbering} {file : Option String} {line : Nat}
    {cs : List Char} {t : Token} (ht : t ∈ scan numbering file line cs)
    (hcomment : t.isComment = true) : t.is "#" = false := by
  have hne {c : Char} (hc : c ≠ '#') (cs : List Char) :
      (String.ofList (c :: cs) == "#") = false := by
    refine beq_eq_false_iff_ne.mpr fun heq => hc ?_
    have hlist := congrArg String.toList heq
    rw [String.toList_ofList] at hlist
    exact (List.cons.inj hlist).1
  fun_induction scan numbering file line cs with
  | case1 => cases ht
  | case2 =>
      obtain rfl := List.mem_singleton.mp ht
      rfl
  | case3 line cs spacing line' c rest hrest lexeme ih =>
      rcases List.mem_cons.mp ht with rfl | ht
      · have hkind : (Lexeme.read c rest).kind = .comment := by simpa [isComment] using hcomment
        obtain ⟨rfl, rest, rfl | rfl⟩ | ⟨rfl, rest, rfl⟩ := Lexeme.comment_cases hkind
        · exact hne (by decide) _
        · exact hne (by decide) _
        · exact hne (by decide) _
      · exact ih ht

/-- What is seen of a text without directives and macros. -/
theorem Reading.sees_ofText {table : RuleTable} (h : table.Plain) {text : String}
    {fs : List (Kind × String)} (hfaces : Token.faces (Text.unifyBreaks text.toList) = fs)
    (hmarks : ∀ f ∈ fs, f.2 ≠ "#") :
    ∃ ts, ts.map Token.face = fs ∧ (Reading.ofTokens table (Token.ofText none text)).Sees
      (ts ++ [Window.endToken (Token.ofText none text).toArray]) := by
  have hface : (Name.tokens text).map Token.face = fs := by rw [Name.map_face_tokens, hfaces]
  refine ⟨Name.tokens text, hface, Reading.sees_ofTokens h fun t ht => ?_⟩
  cases hcomment : t.isComment with
  | true => exact Token.is_of_isComment ht hcomment
  | false =>
      have hmem : t ∈ Name.tokens text := List.mem_filter.mpr ⟨ht, by simp [hcomment]⟩
      have htext : t.text ≠ "#" := hmarks t.face (hface ▸ List.mem_map_of_mem hmem)
      simp [Token.is, htext]

namespace NativeType

/-! ## A parameter and what is bound to it -/

variable {b : NativeType} {scope : Scope} {table : RuleTable} {t : Token} {front m : Option Token}

/-- A star is counted. -/
theorem shown_ofWords (ws : List Token) (hm : ∀ t ∈ m, t.IsMark "*") :
    (ofWords ws m).shown = { (ws.foldl push {}).shown with
      name := Text.trim (ws.foldl push {}).nativeName
      indirections := (ws.foldl push {}).indirections + m.toList.length } := by
  cases m with
  | none => rfl
  | some star =>
      have hstar := hm star rfl
      simp [ofWords, mark, hstar.is_eq, shown]

/-- A name, perhaps with `const` in front of it and a star behind it. -/
theorem shown_ofWords_name (hfront : ∀ c ∈ front, IsConst c) (ht : t.IsName)
    (hm : ∀ t ∈ m, t.IsMark "*") :
    (ofWords (front.toList ++ [t]) m).shown =
      { name := t.text
        constValue := front.isSome
        constPointer := false
        indirections := m.toList.length
        reference := false
        rvalue := false } := by
  let start : NativeType := { constValue := front.isSome }
  have hstart : front.toList.foldl push {} = start := by
    cases hconst : front with
    | none => simp [start, hconst]
    | some c => simp [start, hconst, (hfront c hconst).push]
  have hpush : (front.toList ++ [t]).foldl push {} = start.push t := by
    rw [List.foldl_append, hstart]
    rfl
  have hshown := push_of_isName ht start
  have hname : (start.push t).nativeName = namePart t := by
    rw [push_nativeName]
    exact String.empty_append
  have hstars : (start.push t).indirections = 0 := congrArg Shown.indirections hshown
  rw [shown_ofWords _ hm, hpush, hname, trim_namePart ht, hstars, hshown]
  simp [start, shown]

/-- **Reading a parameter.** A name that is bound to a type is read as that type, perhaps with
`const` in front of it and a star behind it. -/
theorem read_of_bound {s : Reading} {tokens : Array Token} (hbare : s.table.Bare)
    (hb : b.Bindable) (hfront : ∀ c ∈ front, IsConst c) (ht : t.IsName)
    (hm : ∀ t ∈ m, t.IsMark "*")
    (hbound : scope.template.bind (·.binding? t.text) = some b)
    (h : s.Sees (front.toList ++ [t] ++ (m.toList ++ [Window.endToken tokens]))) :
    ∃ type s', read scope s = .ok (some type) s' ∧ type.shown =
      { b.shown with
        constValue := front.isSome || b.constValue
        indirections := m.toList.length + b.indirections } := by
  have hspells : Spells s.table {} (front.toList ++ [t]) := by
    cases hconst : front with
    | none => exact spells_name hbare ht rfl
    | some c =>
        have hc := hfront c hconst
        refine ⟨hc.joins s.table {}, ?_⟩
        rw [hc.push]
        exact spells_name hbare ht rfl
  have hword := shown_ofWords_name hfront ht hm
  have hname : (ofWords (front.toList ++ [t]) m).nativeName = t.text :=
    congrArg Shown.name hword
  have hne : t.text ≠ "" := by
    intro hempty
    have hisWord := ht.word
    rw [hempty] at hisWord
    cases hisWord
  have hisName := isName_ofWords (m := m) hspells (by rwa [hname])
  obtain ⟨type, s', hread, htype⟩ : ∃ type s', read scope s = .ok (some type) s' ∧
      type.shown = ((ofWords (front.toList ++ [t]) m).resolve s.table scope s.usings).shown :=
    read_of_words hspells (fun t ht => ⟨"*", by decide, hm t ht⟩) h
  refine ⟨type, s', hread, ?_⟩
  rw [htype, shown_resolve hbare hb hisName (by rwa [hname]), hword]
  simp [Shown.filledWith, shown]

/-- An identifier, as the name of a template parameter. -/
structure IsParameter (name : String) : Prop where
  word : Text.isWord name.toList = true
  kind : Token.wordKind name = .identifier

namespace IsParameter

variable {name : String}

theorem isWordChar (h : IsParameter name) : ∀ c ∈ name.toList, Text.isWordChar c = true :=
  Text.isWordChar_of_isWord h.word

/-- What a name is read as in front of something else. -/
theorem faces (h : IsParameter name) (rest : List Char)
    (hrest : ∀ c ∈ rest.head?, Text.isWordChar c = false) :
    Token.faces (name.toList ++ rest) = (.identifier, name) :: Token.faces rest := by
  rw [Token.faces_word h.word hrest, String.ofList_toList, h.kind]

theorem unifyBreaks_append (h : IsParameter name) (cs ds : List Char) (hcs : '\r' ∉ cs)
    (hds : '\r' ∉ ds) :
    Text.unifyBreaks (cs ++ (name.toList ++ ds)) = cs ++ (name.toList ++ ds) := by
  refine Text.unifyBreaks_of_not_mem fun hmem => ?_
  rcases List.mem_append.mp hmem with hmem | hmem
  · exact hcs hmem
  rcases List.mem_append.mp hmem with hmem | hmem
  · exact absurd (h.isWordChar _ hmem) (by decide)
  · exact hds hmem

/-- A token like this is a name. -/
theorem isName (h : IsParameter name) (ht : t.face = (.identifier, name)) :
    t.IsName ∧ t.text = name := by
  obtain ⟨hkind, htext⟩ := Prod.mk.inj ht
  exact ⟨⟨hkind, htext.symm ▸ h.word⟩, htext⟩

end IsParameter

/-- What the spelling shows of the type that a text is read as, from its start to its end. -/
def ReadsAs (table : RuleTable) (scope : Scope) (text : String) (shown : Shown) : Prop :=
  ∃ type s', read scope (.ofTokens table (Token.ofText none text)) = .ok (some type) s' ∧
    type.shown = shown

/-- **A parameter stands for what is bound to it**, whatever its qualifiers and marks: alone, as a
pointer with one more star, and with `const` in front of it. -/
theorem read_parameter (hbare : table.Bare) {name : String} (hname : IsParameter name)
    (hb : b.Bindable) (hbound : scope.template.bind (·.binding? name) = some b) :
    ReadsAs table scope name b.shown ∧
      ReadsAs table scope (name ++ "*") { b.shown with indirections := b.indirections + 1 } ∧
      ReadsAs table scope ("const " ++ name) { b.shown with constValue := true } := by
  have hreads (front m : Option Token) {t : Token} {text : String}
      (hfront : ∀ c ∈ front, IsConst c) (ht : t.face = (.identifier, name))
      (hm : ∀ t ∈ m, t.IsMark "*")
      (h : (Reading.ofTokens table (Token.ofText none text)).Sees (front.toList ++ [t] ++
        (m.toList ++ [Window.endToken (Token.ofText none text).toArray]))) :
      ReadsAs table scope text { b.shown with
        constValue := front.isSome || b.constValue
        indirections := m.toList.length + b.indirections } := by
    obtain ⟨hisName, htext⟩ := hname.isName ht
    exact read_of_bound hbare hb hfront hisName hm (htext.symm ▸ hbound) h
  have hne : name ≠ "#" := by
    rintro rfl
    exact absurd hname.word (by decide)
  refine ⟨?_, ?_, ?_⟩
  · have hfaces : Token.faces (Text.unifyBreaks name.toList) = [(.identifier, name)] := by
      have hunified := hname.unifyBreaks_append [] [] (by simp) (by simp)
      rw [List.nil_append, List.append_nil] at hunified
      simpa [hunified, Token.faces_nil] using hname.faces [] (by simp)
    obtain ⟨ts, hts, hsees⟩ := Reading.sees_ofText hbare.plain hfaces (by simpa using hne)
    obtain ⟨t, rfl, ht⟩ := List.map_eq_singleton_iff.mp hts
    simpa [shown] using hreads none none (by simp) ht (by simp) (by simpa using hsees)
  · have hfaces : Token.faces (Text.unifyBreaks (name ++ "*").toList) =
        [(.identifier, name), (.punct, "*")] := by
      have hunified := hname.unifyBreaks_append [] ['*'] (by simp) (by simp)
      rw [String.toList_append, ← List.nil_append (name.toList ++ _)]
      refine (congrArg Token.faces hunified).trans ?_
      have hstar : Text.isWordChar '*' = false := by decide
      rw [List.nil_append, hname.faces ['*'] (by simpa using hstar),
        Token.faces_punct (Or.inl rfl) (by simp), Token.faces_nil]
    obtain ⟨ts, hts, hsees⟩ := Reading.sees_ofText hbare.plain hfaces (by simpa using hne)
    obtain ⟨t, rest, rfl, ht, hrest⟩ := List.map_eq_cons_iff.mp hts
    obtain ⟨star, rfl, hstar⟩ := List.map_eq_singleton_iff.mp hrest
    obtain ⟨hkind, htext⟩ := Prod.mk.inj hstar
    have hmark : star.IsMark "*" := ⟨Or.inl hkind, htext⟩
    simpa [shown, Nat.add_comm] using
      hreads none (some star) (by simp) ht (by simpa using hmark) (by simpa using hsees)
  · have hfaces : Token.faces (Text.unifyBreaks ("const " ++ name).toList) =
        [(.keyword .const_, "const"), (.identifier, name)] := by
      have hunified := hname.unifyBreaks_append "const ".toList [] (by simp) (by simp)
      rw [List.append_nil] at hunified
      have hspace : Text.isWordChar ' ' = false := by decide
      have hconst : Token.faces ("const".toList ++ ' ' :: name.toList) = _ :=
        Token.faces_word (by decide +kernel) (by simpa using hspace)
      rw [String.toList_append, hunified]
      refine hconst.trans ?_
      have hword := hname.faces [] (by simp)
      rw [List.append_nil, Token.faces_nil] at hword
      rw [Token.faces_blank (by decide), hword]
      rfl
    obtain ⟨ts, hts, hsees⟩ := Reading.sees_ofText hbare.plain hfaces (by simpa using hne)
    obtain ⟨c, rest, rfl, hc, hrest⟩ := List.map_eq_cons_iff.mp hts
    obtain ⟨t, rfl, ht⟩ := List.map_eq_singleton_iff.mp hrest
    obtain ⟨hkind, htext⟩ := Prod.mk.inj hc
    have hconst : IsConst c := ⟨hkind, htext⟩
    simpa [shown] using hreads (some c) none (by simpa using hconst) ht (by simp) (by simpa using hsees)

/-- A parameter bound to `const ns::Box const**&&`. -/
theorem read_parameter_box :
    let b : NativeType :=
      { nativeName := "ns::Box", constValue := true, constPointer := true, indirections := 2
        reference := true, rvalue := true }
    let scope : Scope := { template := some { frame := { parameters := [("T", some b)] } } }
    RuleTable.Bare {} ∧ IsParameter "T" ∧ b.Bindable ∧
      scope.template.bind (·.binding? "T") = some b ∧ ReadsAs {} scope "T" b.shown ∧
      ReadsAs {} scope "T*" { b.shown with indirections := 3 } ∧
      ReadsAs {} scope "const T" { b.shown with constValue := true } := by
  intro b scope
  have hbare : RuleTable.Bare {} := by simp [RuleTable.Bare, RuleTable.layers]
  have hname : IsParameter "T" := ⟨by decide +kernel, by decide +kernel⟩
  have hb : b.Bindable := by
    constructor <;> decide +kernel
  have hbound : scope.template.bind (·.binding? "T") = some b := rfl
  exact ⟨hbare, hname, hb, hbound, read_parameter hbare hname hb hbound⟩

end NativeType

end HeaderPeers

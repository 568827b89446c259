import HeaderPeers.Container.Reader
import HeaderPeers.Proofs.NameKeys
import HeaderPeers.Proofs.RuleKeys
import HeaderPeers.Proofs.Scope.Paths

/-!
# The forms of a name

The name of a rule may be a path with a list of template arguments behind it and `const` in front.
A rule is put under the name itself, the name without `const` and the name without the list. Looked
up is the name itself, the name without `const` and the name without both. So whichever of the two
is left out, the rule is found, except that a name which has both is not found under the path alone.

- `Name.IsPath`, `Name.IsArgumentList` — what such a name is made of.
- `Name.normalize_named` — the keys of a name.
- `RuleTable.putEntry_finds_forms` — what finds a rule that has been put.
- `RuleTable.plain_form_is_missed` — a rule for `const` instances is missed under their template.
-/

namespace HeaderPeers

namespace Name

variable {path list w : String} {t : Token} {ts us ls : List Token}

/-! ## Paths -/

/-- Words other than `const` with `::` between them. -/
def IsPath (path : String) : Prop :=
  ∃ words, words ≠ [] ∧ (∀ w ∈ words, Text.isWord w.toList = true ∧ w ≠ "const") ∧
    path = Text.joinWith "::" words

/-- Read as tokens, the text starts with `<` and ends with the `>` that closes it. -/
structure IsArgumentList (list : String) : Prop where
  opens : list.toList.head? = some '<'
  closes : list.toList.getLast? = some '>'
  balanced : ∃ (opening : Token) (inner : List Token) (closing : Token),
    tokens list = opening :: (inner ++ [closing]) ∧
      opening.IsMark "<" ∧ closing.IsMark ">" ∧ Balanced inner

/-- A name with `const` in front or without, and with a list of arguments behind it or without. -/
def named (const : Bool) (path list : String) : String :=
  (if const then "const " else "") ++ path ++ list

/-- The tokens of a path: words and `::` right behind each other. -/
structure PathTokens (path : String) (t : Token) (ts : List Token) : Prop where
  spacing : t.spacing = ""
  unconst : t.isKeyword .const_ = false
  other : ∀ u ∈ t :: ts, u.isComment = false ∧ u.is "<" = false ∧ u.is ">" = false
  spelled : Scope.spelled (t :: ts) = path.toList
  next : ∀ u ∈ ts.head?, u.IsMark "::"

/-- A path is read as such tokens, by induction on its words. -/
theorem exists_scan_path (numbering : Token.Numbering) (file : Option String) (h : IsPath path)
    {rest : List Char} (hrest : ∀ c ∈ rest.head?, Text.isWordChar c = false) (line : Nat) :
    ∃ t ts line', Token.scan numbering file line (path.toList ++ rest) =
      t :: (ts ++ Token.scan numbering file line' rest) ∧ PathTokens path t ts := by
  obtain ⟨words, hne, hwords, rfl⟩ := h
  induction words generalizing line with
  | nil => exact absurd rfl hne
  | cons w words ih =>
      obtain ⟨⟨hw, hconst⟩, hmore⟩ := List.forall_mem_cons.mp hwords
      cases words with
      | nil =>
          obtain ⟨t, line', hscan, hface, hspacing⟩ :=
            Token.exists_scan_word numbering file hw hrest line
          rw [String.ofList_toList] at hface
          have htext : t.text = w := congrArg Prod.snd hface
          refine ⟨t, [], line', ?_, hspacing, Scope.unconst_of_face hface hconst, ?_, ?_, by simp⟩
          · simpa [Text.joinWith] using hscan
          · exact List.forall_mem_singleton.mpr (Scope.other_of_face hface hw)
          · simp [hspacing, htext, Text.joinWith]
      | cons v vs =>
          have hsplit : (Text.joinWith "::" (w :: v :: vs)).toList ++ rest =
              w.toList ++ ':' :: ':' :: ((Text.joinWith "::" (v :: vs)).toList ++ rest) := by
            simp [Text.joinWith, String.intercalate_cons_cons]
          have hmark : ∀ c ∈ (':' :: ':' :: ((Text.joinWith "::" (v :: vs)).toList ++ rest)).head?,
              Text.isWordChar c = false := by
            intro c hc
            cases hc
            decide +kernel
          obtain ⟨t, line₁, hword, hface, hspacing⟩ :=
            Token.exists_scan_word numbering file hw hmark line
          obtain ⟨colons, line₂, hcolons, hcolon, hspacing'⟩ :=
            Token.exists_scan_mark numbering file rfl (Or.inr rfl) (Lexeme.read_colons _) line₁
          obtain ⟨u, us, line', hscan, hpath⟩ := ih line₂ (List.cons_ne_nil v vs) hmore
          rw [String.ofList_toList] at hface
          have htext : t.text = w := congrArg Prod.snd hface
          refine ⟨t, colons :: u :: us, line', ?_, hspacing, Scope.unconst_of_face hface hconst,
            ?_, ?_, ?_⟩
          · rw [hsplit, hword, hcolons, hscan]
            rfl
          · refine List.forall_mem_cons.mpr ⟨Scope.other_of_face hface hw, ?_⟩
            exact List.forall_mem_cons.mpr
              ⟨Scope.other_of_isMark hcolon (by simp) (by simp), hpath.other⟩
          · rw [Scope.spelled_cons, Scope.spelled_cons, hpath.spelled, hspacing, htext, hspacing',
              hcolon.2]
            simp [Text.joinWith, String.intercalate_cons_cons]
          · rintro _ ⟨⟩
            exact hcolon

/-- Words, commas, `::` and lists between `<` and `>` are such a list. -/
theorem isArgumentList_of_arguments {inner : String} (apart : inner.toList.head? ≠ some '<')
    (inside : Scope.Arguments inner.toList) (unbroken : '\r' ∉ inner.toList) :
    IsArgumentList ("<" ++ inner ++ ">") := by
  have htext : ("<" ++ inner ++ ">").toList = '<' :: (inner.toList ++ '>' :: []) := by simp
  have hhead (c : Char) (hne : c ≠ '>') (hc : inner.toList.head? ≠ some c) :
      (inner.toList ++ '>' :: []).head? ≠ some c := by
    cases hinner : inner.toList with
    | nil => simpa using hne.symm
    | cons d inner => simpa [hinner] using hc
  obtain ⟨opening, line, hopens, hopening, -⟩ :=
    Token.exists_scan_mark .counted none rfl (Or.inl rfl)
    (Lexeme.read_opening (hhead '<' (by decide) apart) (hhead '=' (by decide) inside.head_ne)) 1
  obtain ⟨ts, closing, line', hscan, hbalanced, hclosing, -⟩ :=
    inside.closes .counted none [] line
  have hlast : ('<' :: inner.toList ++ ['>']).getLast? = some '>' := List.getLast?_concat
  refine ⟨by simp [htext], htext ▸ hlast, opening, ts, closing, ?_, hopening, hclosing,
    hbalanced⟩
  rw [tokens, Token.ofText, Text.unifyBreaks_of_not_mem (by simpa [htext] using unbroken), htext,
    hopens, hscan, Token.scan_nil]
  exact List.filter_eq_self.mpr fun u hu => by
    simpa using (Balanced.list hopening hclosing hbalanced .nil).visible u hu

/-! ## Names -/

/-- What a token is does not depend on where it stands. -/
theorem is_of_face {t u : Token} (h : u.face = t.face) (text : String) : u.is text = t.is text := by
  obtain ⟨hkind, htext⟩ := Prod.mk.inj h
  rw [Token.is, Token.is, hkind, htext]

theorem isMark_of_face {t u : Token} {text : String} (h : u.face = t.face) (ht : t.IsMark text) :
    u.IsMark text := by
  obtain ⟨hkind, htext⟩ := Prod.mk.inj h
  exact ⟨hkind ▸ ht.1, htext.trans ht.2⟩

theorem Balanced.of_face (h : Balanced ts) (hface : us.map Token.face = ts.map Token.face) :
    Balanced us := by
  induction h generalizing us with
  | nil =>
      obtain rfl := List.map_eq_nil_iff.mp hface
      exact .nil
  | @cons t ts visible opens closes more ih =>
      obtain ⟨u, us, rfl, hu, hus⟩ := List.map_eq_cons_iff.mp hface
      have hvisible : u.isComment = t.isComment := congrArg (·.1 == .comment) hu
      exact .cons (hvisible.trans visible) ((is_of_face hu _).trans opens)
        ((is_of_face hu _).trans closes) (ih hus)
  | @list opening closing inner ts ho hc inside more ihinside ihmore =>
      obtain ⟨u, us, rfl, hu, hus⟩ := List.map_eq_cons_iff.mp hface
      rw [List.map_append, List.map_cons] at hus
      obtain ⟨vs, ws, rfl, hvs, hws⟩ := List.map_eq_append_iff.mp hus
      obtain ⟨w, ws, rfl, hw, hws⟩ := List.map_eq_cons_iff.mp hws
      exact .list (isMark_of_face hu ho) (isMark_of_face hw hc) (ihinside hvs) (ihmore hws)

/-- The tokens of a list of arguments, or none where there is no list. -/
def IsList (list : String) (ls : List Token) : Prop :=
  (list = "" ∧ ls = []) ∨ ∃ (opening : Token) (inner : List Token) (closing : Token),
    ls = opening :: (inner ++ [closing]) ∧
      opening.IsMark "<" ∧ closing.IsMark ">" ∧ Balanced inner

/-- The text behind a path: a list of arguments, or nothing. -/
def IsTail (list : String) : Prop :=
  list = "" ∨ IsArgumentList list

/-- Wherever a list of arguments stands, its tokens are those of one. -/
theorem IsTail.isList (h : IsTail list) (line : Nat) :
    IsList list ((Token.scan .counted none line (Text.unifyBreaks list.toList)).filter
      (!·.isComment)) := by
  rcases h with rfl | h
  · exact Or.inl ⟨rfl, by simp [Text.unifyBreaks, Token.scan_nil]⟩
  · obtain ⟨opening, inner, closing, htokens, ho, hc, hinner⟩ := h.balanced
    right
    have hface : ((Token.scan .counted none line (Text.unifyBreaks list.toList)).filter
        (!·.isComment)).map Token.face = (opening :: (inner ++ [closing])).map Token.face := by
      rw [← htokens, Token.faces_scan, map_face_tokens]
    obtain ⟨opening', us, htokens', hopening, hus⟩ := List.map_eq_cons_iff.mp hface
    rw [List.map_append] at hus
    obtain ⟨inner', vs, rfl, hinner', hvs⟩ := List.map_eq_append_iff.mp hus
    obtain ⟨closing', ws, rfl, hclosing, hws⟩ := List.map_eq_cons_iff.mp hvs
    obtain rfl := List.map_eq_nil_iff.mp hws
    exact ⟨opening', inner', closing', htokens', isMark_of_face hopening ho,
      isMark_of_face hclosing hc, hinner.of_face hinner'⟩

/-- Neither `const` nor a fundamental word, the mark ends the words of a name. -/
theorem parts_of_mark (h : ∀ u ∈ us.head?, u.IsMark "::" ∨ u.IsMark "<") :
    parts us = ⟨false, [], us⟩ := by
  cases us with
  | nil => rfl
  | cons u us =>
      have hmark := h u rfl
      have hconst : u.isKeyword .const_ = false := by
        rcases hmark with hmark | hmark <;> exact hmark.isKeyword_eq _
      have hother : fundamentalWords.contains u.text = false := by
        rcases hmark with hmark | hmark <;> rw [hmark.2] <;> decide
      rw [parts, hconst, hother]
      rfl

/-- Only the first word of a path can be told apart from what is behind it. -/
theorem PathTokens.parts (h : PathTokens path t ts) (hls : IsList list ls) (spacing : String) :
    ∃ words rest, parts ({ t with spacing } :: (ts ++ ls)) = ⟨false, words, rest⟩ ∧
      words ++ rest = { t with spacing } :: (ts ++ ls) ∧ (rest = [] → ts ++ ls = []) := by
  have hnext : ∀ u ∈ (ts ++ ls).head?, u.IsMark "::" ∨ u.IsMark "<" := by
    intro u hu
    cases ts with
    | nil =>
        rcases hls with ⟨-, rfl⟩ | ⟨opening, inner, closing, rfl, ho, -, -⟩
        · cases hu
        · cases hu
          exact Or.inr ho
    | cons v vs => exact Or.inl (h.next u hu)
  have hconst : ({ t with spacing } : Token).isKeyword .const_ = false := h.unconst
  rw [Name.parts, hconst]
  by_cases hword : fundamentalWords.contains t.text = true
  · refine ⟨[{ t with spacing }], ts ++ ls, ?_, rfl, id⟩
    simp only [Bool.false_eq_true, if_false, if_pos hword, parts_of_mark hnext]
  · refine ⟨[], _, ?_, rfl, by simp⟩
    simp only [Bool.false_eq_true, if_false, if_neg hword]

/-- White space stands nowhere in a path. -/
theorem IsPath.visible (h : IsPath path) : ∀ c ∈ path.toList, Text.isBlank c = false := by
  obtain ⟨words, -, hwords, rfl⟩ := h
  induction words with
  | nil => simp [Text.joinWith]
  | cons w words ih =>
      obtain ⟨⟨hw, -⟩, hmore⟩ := List.forall_mem_cons.mp hwords
      have hword : ∀ c ∈ w.toList, Text.isBlank c = false := fun c hc =>
        Text.isBlank_of_isWordChar (Text.isWordChar_of_isWord hw c hc)
      cases words with
      | nil => simpa [Text.joinWith] using hword
      | cons v vs =>
          rw [Text.joinWith, String.intercalate_cons_cons]
          simp only [String.toList_append, List.forall_mem_append]
          have hcolons : "::".toList.all (!Text.isBlank ·) = true := by decide
          exact ⟨⟨hword, fun c hc => by simpa using List.all_eq_true.mp hcolons c hc⟩, ih hmore⟩

theorem IsPath.ne_nil (h : IsPath path) : path.toList ≠ [] := by
  have hend : ∀ c ∈ ([] : List Char).head?, Text.isWordChar c = false := by simp
  obtain ⟨t, ts, line', hscan, -⟩ := exists_scan_path .counted none h hend 1
  intro hnil
  rw [hnil, List.append_nil, Token.scan_nil] at hscan
  cases hscan

/-- Line terminators are unified behind a text without any. -/
theorem unifyBreaks_append_of_not_mem {cs : List Char} (h : '\r' ∉ cs) (ds : List Char) :
    Text.unifyBreaks (cs ++ ds) = cs ++ Text.unifyBreaks ds := by
  rw [Text.unifyBreaks_append fun hlast => absurd (List.mem_of_getLast? hlast) h,
    Text.unifyBreaks_of_not_mem h]

/-- **A name is read** as `const`, the tokens of its path and those of its list. -/
theorem exists_parts (const : Bool) (hpath : IsPath path) (hlist : IsTail list) :
    ∃ t ts ls words rest spacing, PathTokens path t ts ∧ IsList list ls ∧
      parts (tokens (named const path list)) = ⟨const, words, rest⟩ ∧
      words ++ rest = { t with spacing } :: (ts ++ ls) ∧ (rest = [] → ts ++ ls = []) := by
  have hreturn : '\r' ∉ path.toList := fun hmem =>
    absurd (hpath.visible _ hmem) (by decide)
  have hrest : ∀ c ∈ (Text.unifyBreaks list.toList).head?, Text.isWordChar c = false := by
    rcases hlist with rfl | hlist
    · simp [Text.unifyBreaks]
    · obtain ⟨cs, hcs⟩ := List.head?_eq_some_iff.mp hlist.opens
      rw [hcs, Text.unifyBreaks_cons (by decide)]
      rintro _ ⟨⟩
      decide +kernel
  have hread (line : Nat) : ∃ t ts ls, PathTokens path t ts ∧ IsList list ls ∧
      ∃ us, Token.scan .counted none line (path.toList ++ Text.unifyBreaks list.toList) = t :: us ∧
        us.filter (!·.isComment) = ts ++ ls := by
    obtain ⟨t, ts, line', hscan, htokens⟩ := exists_scan_path .counted none hpath hrest line
    refine ⟨t, ts, _, htokens, hlist.isList line', _, hscan, ?_⟩
    rw [List.filter_append, List.filter_eq_self.mpr]
    exact fun u hu => by simp [(htokens.other u (List.mem_cons_of_mem t hu)).1]
  cases const with
  | false =>
      obtain ⟨t, ts, ls, htokens, hls, us, hscan, hus⟩ := hread 1
      obtain ⟨words, rest, hparts, hsplit, hbare⟩ := htokens.parts hls t.spacing
      refine ⟨t, ts, ls, words, rest, t.spacing, htokens, hls, ?_, hsplit, hbare⟩
      have hvisible := (htokens.other t List.mem_cons_self).1
      have htext : (named false path list).toList = path.toList ++ list.toList := by simp [named]
      rw [tokens, Token.ofText, htext, unifyBreaks_append_of_not_mem hreturn, hscan,
        List.filter_cons_of_pos (by simp [hvisible]), hus]
      exact hparts
  | true =>
      have hblank : ∀ c ∈ (' ' :: (path.toList ++ Text.unifyBreaks list.toList)).head?,
          Text.isWordChar c = false := by
        rintro _ ⟨⟩
        decide +kernel
      obtain ⟨k, line, hword, hface, -⟩ := Token.exists_scan_word .counted none
        (w := "const".toList) (by decide +kernel) hblank 1
      obtain ⟨t, ts, ls, htokens, hls, us, hscan, hus⟩ :=
        hread (Token.Numbering.counted.advance line [' '])
      obtain ⟨words, rest, hparts, hsplit, hbare⟩ :=
        htokens.parts hls (String.ofList [' '] ++ t.spacing)
      refine ⟨t, ts, ls, words, rest, _, htokens, hls, ?_, hsplit, hbare⟩
      have hvisible := (htokens.other t List.mem_cons_self).1
      have hkind : k.kind = .keyword .const_ := congrArg Prod.fst hface
      have htext : (named true path list).toList =
          "const".toList ++ ([' '] ++ path.toList ++ list.toList) := by simp [named]
      have hkeyword : k.isKeyword .const_ = true := by simp [Token.isKeyword, hkind]
      rw [tokens, Token.ofText, htext, ← List.append_assoc,
        unifyBreaks_append_of_not_mem (by simpa using hreturn)]
      simp only [List.append_assoc, List.cons_append, List.nil_append]
      rw [hword, Token.scan_blank rfl hscan,
        List.filter_cons_of_pos (by simp [Token.isComment, hkind]),
        List.filter_cons_of_pos (by simpa [Token.isComment] using hvisible), hus, Name.parts,
        if_pos hkeyword]
      rw [hparts]

/-! ## Keys -/

variable {const : Bool}

/-- The tokens of a path are spelled as the path, whatever stands in front. -/
theorem PathTokens.spell_eq (h : PathTokens path t ts) (spacing : String) :
    spell ({ t with spacing } :: ts) = path := by
  have hspell : spell ({ t with spacing } :: ts) = spell (t :: ts) := rfl
  rw [hspell, ← String.toList_inj, Scope.spell_of_spacing h.spacing, h.spelled]

theorem PathTokens.balanced (h : PathTokens path t ts) (spacing : String) :
    Balanced ({ t with spacing } :: ts) := by
  have hall : ∀ us : List Token, (∀ u ∈ us, u.isComment = false ∧ u.is "<" = false ∧
      u.is ">" = false) → Balanced us := by
    intro us
    induction us with
    | nil => exact fun _ => .nil
    | cons u us ih =>
        intro hus
        obtain ⟨⟨hvisible, hopens, hcloses⟩, hmore⟩ := List.forall_mem_cons.mp hus
        exact .cons hvisible hopens hcloses (ih hmore)
  exact (hall _ h.other).respaced spacing

/-- A path without a list behind it holds none. -/
theorem PathTokens.argumentsStart?_eq (h : PathTokens path t ts) (spacing : String) :
    argumentsStart? ({ t with spacing } :: ts) = none := by
  have hrun : ∀ (us : List Token) (count i : Nat), (∀ u ∈ us, u.isComment = false ∧
      u.is "<" = false ∧ u.is ">" = false) → ArgumentSearch.run {} count i us = {} := by
    intro us count
    induction us with
    | nil => exact fun i _ => rfl
    | cons u us ih =>
        intro i hus
        obtain ⟨⟨-, hopens, hcloses⟩, hmore⟩ := List.forall_mem_cons.mp hus
        rw [ArgumentSearch.run_cons, ArgumentSearch.step_other hopens hcloses, ih _ hmore]
  have hother : ∀ u ∈ ({ t with spacing } : Token) :: ts, u.isComment = false ∧
      u.is "<" = false ∧ u.is ">" = false :=
    List.forall_mem_cons.mpr ⟨h.other t List.mem_cons_self,
      fun u hu => h.other u (List.mem_cons_of_mem t hu)⟩
  unfold argumentsStart?
  rw [show (List.foldl _ _ _ : ArgumentSearch) = _ from hrun _ _ 0 hother]
  rfl

/-- The key of a name before `const` is dropped. -/
theorem spelling_named {t : Token} {ts ls words rest : List Token} {spacing : String}
    (htokens : PathTokens path t ts) (hls : IsList list ls)
    (hsplit : words ++ rest = { t with spacing } :: (ts ++ ls)) (hbare : rest = [] → ts ++ ls = [])
    (untemplate : Bool) : spelling (named const path list) ⟨const, words, rest⟩ untemplate =
      named const path (if untemplate then "" else list) := by
  have hpath := htokens.spell_eq spacing
  rcases eq_or_ne rest [] with rfl | hrest
  · obtain ⟨rfl, rfl⟩ := List.append_eq_nil_iff.mp (hbare rfl)
    obtain rfl : list = "" := by
      rcases hls with ⟨hlist, -⟩ | ⟨opening, inner, closing, hnil, -⟩
      · exact hlist
      · cases hnil
    obtain rfl : words = [{ t with spacing }] := by simpa using hsplit
    have htext : t.text = path := by simpa [spell] using hpath
    simp [spelling, htext, sortWords, insertWord, Text.joinWith, named]
  · have hempty : rest.isEmpty = false := by simpa using hrest
    cases untemplate with
    | false => simp [spelling, hempty]
    | true =>
        simp only [spelling, hempty, Bool.false_and, Bool.not_false, Bool.and_true,
          Bool.false_eq_true, if_false, if_true]
        rw [hsplit]
        rcases hls with ⟨rfl, rfl⟩ | ⟨opening, inner, closing, rfl, ho, hc, hinner⟩
        · rw [List.append_nil, htokens.argumentsStart?_eq]
        · rw [← List.cons_append, argumentsStart?_of_list (htokens.balanced spacing) ho hc hinner]
          simp [hpath, named]

/-- White space neither starts nor ends a path with a list or without. -/
theorem trim_named_false (hpath : IsPath path) (hlist : IsTail list) :
    Text.trim (named false path list) = named false path list := by
  have htext : (named false path list).toList = path.toList ++ list.toList := by simp [named]
  obtain ⟨c, cs, hcs⟩ := List.exists_cons_of_ne_nil hpath.ne_nil
  refine Text.trim_of_ends ?_ ?_
  · rw [htext, hcs]
    rintro _ ⟨⟩
    exact hpath.visible c (by simp [hcs])
  · rw [htext]
    rcases hlist with rfl | hlist
    · intro d hd
      exact hpath.visible d (List.mem_of_getLast? (by simpa using hd))
    · rw [List.getLast?_append, hlist.closes]
      rintro _ ⟨⟩
      rfl

theorem trim_named (hpath : IsPath path) (hlist : IsTail list) :
    Text.trim (named const path list) = named const path list := by
  cases const with
  | false => exact trim_named_false hpath hlist
  | true =>
      have hends := Text.trim_ends (named false path list)
      rw [trim_named_false hpath hlist] at hends
      have htext : (named true path list).toList =
          "const ".toList ++ (named false path list).toList := by simp [named]
      have hne : (named false path list).toList ≠ [] := by simp [named, hpath.ne_nil]
      refine Text.trim_of_ends ?_ ?_
      · rw [htext]
        rintro _ ⟨⟩
        rfl
      · rw [htext, List.getLast?_append_of_ne_nil _ hne]
        exact hends.2

theorem dropConst_named : dropConst (named true path list) = " " ++ named false path list := by
  have hcut : Text.cutChars? "const".toList (named true path list).toList =
      some ([], ' ' :: (named false path list).toList) := by
    have htext : (named true path list).toList =
        "const".toList ++ ' ' :: (named false path list).toList := by simp [named]
    rw [htext]
    rfl
  have hafter : String.ofList (' ' :: (named false path list).toList) =
      " " ++ named false path list := by
    rw [← String.toList_inj]
    simp
  rw [dropConst, Text.cut?, hcut]
  exact hafter

/-- **The keys of a name**: `const` and the list are left out as asked for. -/
theorem normalize_named (const unconst untemplate : Bool) (hpath : IsPath path)
    (hlist : IsTail list) : normalize (named const path list) unconst untemplate =
      named (const && !unconst) path (if untemplate then "" else list) := by
  obtain ⟨t, ts, ls, words, rest, spacing, htokens, hls, hparts, hsplit, hbare⟩ :=
    exists_parts const hpath hlist
  have hkept : IsTail (if untemplate then "" else list) := by
    cases untemplate
    · exact hlist
    · exact Or.inl rfl
  have hempty : (named const path list).isEmpty = false := by
    refine Bool.eq_false_iff.mpr fun hempty => hpath.ne_nil ?_
    have hnil := String.toList_inj.mpr (String.isEmpty_iff.mp hempty)
    simp only [named, String.toList_append] at hnil
    simp_all
  simp only [normalize, hempty, Bool.false_eq_true, if_false, hparts]
  rw [spelling_named htokens hls hsplit hbare]
  cases const with
  | false => simpa using trim_named hpath hkept
  | true =>
      cases unconst with
      | false => simpa using trim_named hpath hkept
      | true => simpa [dropConst_named, trim_space_append] using trim_named hpath hkept

theorem length_named (const : Bool) (path list : String) :
    (named const path list).length = (if const then 6 else 0) + path.length + list.length := by
  cases const with
  | false => simp [named]
  | true =>
      have hmark : ("const " : String).length = 6 := rfl
      simp [named, hmark]

@[simp] theorem named_path : named false path "" = path := by
  rw [← String.toList_inj]
  simp [named]

end Name

/-! ## What an entry is found under -/

namespace Layer

variable {layer : Layer} {priority : Priority} {entry : Entry} {key : String}

/-- Where the identity of an entry is, there is the entry. -/
def Identifies (layer : Layer) (entry : Entry) : Prop :=
  ∀ key list, layer.find? key = some list → ∀ other ∈ list, other.id = entry.id → other = entry

/-- The next new entry is told apart from all that are there. -/
theorem Numbered.identifies (h : layer.Numbered) (rule : Rule) :
    layer.Identifies ⟨layer.fresh, rule⟩ :=
  fun key list hlist other hother hid =>
    absurd hid (Nat.ne_of_lt (h key list hlist other hother))

theorem mem_place_self {list : List Entry}
    (h : ∀ other ∈ list, other.id = entry.id → other = entry) :
    entry ∈ place priority entry list := by
  unfold place
  split
  next hany =>
    obtain ⟨other, hother, hid⟩ := List.any_eq_true.mp hany
    exact h other hother (by simpa using hid) ▸ hother
  · cases priority <;> simp

/-- An entry is under each of the keys it has been put under, by induction on these. -/
theorem exists_lookup_foldl_place (keys : List String) (lists : List (String × List Entry))
    (h : ∀ list, lists.lookup key = some list → ∀ other ∈ list, other.id = entry.id →
      other = entry) (hkey : key ∈ keys) :
    ∃ list, (keys.foldl (fun lists k => alter lists k (place priority entry)) lists).lookup key =
      some list ∧ entry ∈ list := by
  induction keys generalizing lists with
  | nil => cases hkey
  | cons k keys ih =>
      by_cases hk : key = k
      · subst hk
        have hold : ∀ other ∈ (lists.lookup key).getD [], other.id = entry.id → other = entry := by
          cases hlist : lists.lookup key with
          | none => simp
          | some list => exact h list hlist
        have hput : entry ∈ place priority entry ((lists.lookup key).getD []) :=
          mem_place_self hold
        exact ⟨_, lookup_foldl_place_of_mem hput keys _ (by simp [lookup_alter]), hput⟩
      · have hsame : (alter lists k (place priority entry)).lookup key = lists.lookup key := by
          simp [lookup_alter, hk]
        exact ih _ (by rwa [hsame]) ((List.mem_cons.mp hkey).resolve_left hk)

/-- Under other keys nothing changes. -/
theorem lookup_foldl_place_of_not_mem (keys : List String) (lists : List (String × List Entry))
    (hkey : key ∉ keys) :
    (keys.foldl (fun lists k => alter lists k (place priority entry)) lists).lookup key =
      lists.lookup key := by
  induction keys generalizing lists with
  | nil => rfl
  | cons k keys ih =>
      obtain ⟨hk, hkeys⟩ := not_or.mp (List.mem_cons.not.mp hkey)
      rw [List.foldl_cons, ih _ hkeys, lookup_alter, if_neg (by simpa using hk)]

/-- A name that is all of its keys is looked up as it stands. -/
theorem get_of_normalize {name : String}
    (hname : ∀ unconst untemplate, Name.normalize name unconst untemplate = name) (part : Bool) :
    layer.get name part = (layer.find? name).getD [] := by
  simp only [get, hname]
  cases layer.find? name <;> cases part <;> rfl

/-- A name that is its own key finds an entry that has been put under it. -/
theorem mem_get_putEntry {name : String} (hids : layer.Identifies entry)
    (hname : Name.normalize name false false = name)
    (hkey : name ∈ (namesOf entry.rule).flatMap keysOf) (part : Bool) :
    entry ∈ (layer.putEntry priority entry).get name part := by
  obtain ⟨list, hlist, hmem⟩ : ∃ list,
      (layer.putEntry priority entry).find? name = some list ∧ entry ∈ list :=
    exists_lookup_foldl_place _ layer.lists (hids name) hkey
  have hget : (layer.putEntry priority entry).get name part = list := by
    simp only [get, hname, hlist]
  rwa [hget]

end Layer

namespace RuleTable

open Name

variable {table : RuleTable} {priority : Priority} {entry : Entry} {const : Bool}
  {path list : String}

/-- **What finds a rule that has been put**: its name, the name without `const`, and the name
without the list of arguments. The path alone finds it if the name has not both. If it has, and the
rule has no other name, the path finds what it found before. -/
theorem putEntry_finds_forms (hpath : IsPath path) (hlist : IsTail list)
    (hname : named const path list ∈ entry.rule.nativeNames)
    (hids : table.top.Identifies entry) :
    (∀ name ∈ [named const path list, named false path list, named const path ""],
      entry ∈ (table.putEntry priority entry).top.get name true) ∧
    (const = false ∨ list = "" → entry ∈ (table.putEntry priority entry).top.get path true ∧
      entry.rule ∈ (table.putEntry priority entry).topRules path) ∧
    (const = true → list ≠ "" → entry.rule.nativeNames = [named const path list] →
      (table.putEntry priority entry).top.get path true = table.top.get path true ∧
        (table.putEntry priority entry).topRules path = table.topRules path) := by
  have hbare : IsTail "" := Or.inl rfl
  have hkeys : Layer.keysOf (named const path list) =
      [named const path list, named false path list, named const path ""] := by
    simp [Layer.keysOf, normalize_named _ _ _ hpath hlist]
  have hself (const : Bool) {list : String} (hlist : IsTail list) :
      normalize (named const path list) false false = named const path list := by
    simp [normalize_named _ _ _ hpath hlist]
  have hnames : Layer.namesOf entry.rule = entry.rule.nativeNames :=
    if_neg (by simpa using List.ne_nil_of_mem hname)
  have hmem : ∀ name ∈ Layer.keysOf (named const path list),
      name ∈ (Layer.namesOf entry.rule).flatMap Layer.keysOf := fun name hkey =>
    List.mem_flatMap.mpr ⟨_, hnames ▸ hname, hkey⟩
  rw [hkeys] at hmem
  have hfound : ∀ name ∈ [named const path list, named false path list, named const path ""],
      entry ∈ (table.putEntry priority entry).top.get name true := by
    intro name hkey
    refine Layer.mem_get_putEntry hids ?_ (hmem name hkey) true
    simp only [List.mem_cons, List.not_mem_nil, or_false] at hkey
    rcases hkey with rfl | rfl | rfl
    · exact hself _ hlist
    · exact hself _ hlist
    · exact hself _ hbare
  refine ⟨hfound, ?_, ?_⟩
  · intro hone
    have hplain : entry ∈ (table.putEntry priority entry).top.get path true := by
      refine hfound path ?_
      rcases hone with rfl | rfl <;> simp
    exact ⟨hplain, List.mem_map_of_mem hplain⟩
  · rintro rfl hne honly
    have hplain (unconst untemplate : Bool) : normalize path unconst untemplate = path := by
      simpa using normalize_named false unconst untemplate hpath hbare
    have hlength : list.length ≠ 0 := by simpa using hne
    have hother : path ∉ (Layer.namesOf entry.rule).flatMap Layer.keysOf := by
      rw [hnames, honly, List.flatMap_singleton, hkeys]
      intro hmem
      simp only [List.mem_cons, List.not_mem_nil, or_false] at hmem
      rcases hmem with heq | heq | heq
      all_goals
        have hlen := congrArg String.length heq
        rw [length_named] at hlen
        simp only [if_true, Bool.false_eq_true, if_false] at hlen
        omega
    have hget : (table.putEntry priority entry).top.get path true = table.top.get path true := by
      rw [Layer.get_of_normalize hplain, Layer.get_of_normalize hplain]
      exact congrArg (·.getD []) (Layer.lookup_foldl_place_of_not_mem _ _ hother)
    exact ⟨hget, congrArg (List.map fun other : Entry => other.rule) hget⟩

theorem isPath_vector : IsPath "std::vector" := by
  refine ⟨["std", "vector"], by simp, ?_, by decide +kernel⟩
  have hwords : ["std", "vector"].all (fun w => Text.isWord w.toList && w != "const") = true := by
    decide +kernel
  simpa using hwords

theorem isArgumentList_int : IsArgumentList "<int>" := by
  have hinside : Scope.Arguments (['i', 'n', 't'] ++ []) :=
    .word (by decide +kernel) (by simp) .nil
  have hlist : IsArgumentList ("<" ++ "int" ++ ">") :=
    isArgumentList_of_arguments (by simp) hinside (by simp)
  exact hlist

/-- An instance of a template, in a table with a rule for the template. -/
theorem putEntry_finds_vector :
    let table := ({} : RuleTable).put { nativeNames := ["std::vector"] }
    let entry : Entry := ⟨1, { nativeNames := ["std::vector<int>"], define := true }⟩
    IsPath "std::vector" ∧ IsTail "<int>" ∧
      named false "std::vector" "<int>" ∈ entry.rule.nativeNames ∧ table.top.Identifies entry ∧
      entry.rule ∈ (table.putEntry .last entry).topRules "std::vector" := by
  intro table entry
  have hlist : IsTail "<int>" := Or.inr isArgumentList_int
  have hname : named false "std::vector" "<int>" ∈ entry.rule.nativeNames := by decide
  have hids : table.top.Identifies entry :=
    (Layer.numbered_empty.putEntry .last _).identifies _
  exact ⟨isPath_vector, hlist, hname, hids,
    ((putEntry_finds_forms isPath_vector hlist hname hids).2.1 (Or.inl rfl)).2⟩

/-- A rule that asks for a class for the `const` instances of a template is found under its name, but
not where the rules for the template are looked for. -/
theorem plain_form_is_missed :
    let entry : Entry := ⟨0, { nativeNames := ["const std::vector<int>"], define := true }⟩
    let table := ({} : RuleTable).putEntry .last entry
    IsPath "std::vector" ∧ IsArgumentList "<int>" ∧
      named true "std::vector" "<int>" ∈ entry.rule.nativeNames ∧
      "std::vector" ∈ containerFamilies ∧
      table.topRules "const std::vector<int>" = [entry.rule] ∧
      table.topRules "std::vector" = [] := by
  refine ⟨isPath_vector, isArgumentList_int, by decide, by decide, ?_⟩
  decide +kernel

end RuleTable

end HeaderPeers

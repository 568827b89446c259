import HeaderPeers.Proofs.NativeType.Builtin
import HeaderPeers.Proofs.Variable.Statements

/-!
# Variables of fundamental types

The words of a fundamental type, and of those types only, are read as its name whether a star or a
name follows. So fundamental types are the types of lists of variables, and a header that is such a
list prints each variable like a header that declares this one alone.

- `NativeType.SpellsFundamental` — tokens that spell a fundamental type.
- `Variable.Base.ofFundamental` — such a type as that of a list.
- `Variable.readAll_listing` — a header that is a list of variables of a fundamental type.
- `Variable.open_bracket_hides_items` — a bracket inside a dimension hides the items behind it.
-/

namespace HeaderPeers

open ReadM

namespace NativeType

variable {t : Token} {ws : List Token} {type : NativeType}

/-! ## What words leave as it is -/

/-- A word changes the name and the qualifiers of a type only. -/
theorem pushWord_keeps (type : NativeType) (t : Token) : ∃ name const pointer static simple,
    pushWord type t = { type with
      nativeName := name, constValue := const, constPointer := pointer, staticMember := static
      simple := simple } := by
  have hsame : ∃ name const pointer static simple, type = { type with
      nativeName := name, constValue := const, constPointer := pointer, staticMember := static
      simple := simple } := ⟨type.nativeName, type.constValue, type.constPointer,
    type.staticMember, type.simple, by cases type; rfl⟩
  unfold pushWord push
  split
  · split
    · exact ⟨_, type.constValue, type.constPointer, type.staticMember, type.simple, rfl⟩
    split
    · split
      · exact ⟨type.nativeName, _, type.constPointer, type.staticMember, type.simple, rfl⟩
      · exact ⟨type.nativeName, type.constValue, _, type.staticMember, type.simple, rfl⟩
    split
    · exact ⟨type.nativeName, type.constValue, type.constPointer, _, type.simple, rfl⟩
    split
    · exact hsame
    split
    · exact ⟨_, type.constValue, type.constPointer, type.staticMember, _, rfl⟩
    · exact ⟨_, type.constValue, type.constPointer, type.staticMember, type.simple, rfl⟩
  · exact hsame

theorem foldl_pushWord_keeps (ws : List Token) (type : NativeType) :
    ∃ name const pointer static simple, ws.foldl pushWord type = { type with
      nativeName := name, constValue := const, constPointer := pointer, staticMember := static
      simple := simple } := by
  induction ws generalizing type with
  | nil =>
      exact ⟨type.nativeName, type.constValue, type.constPointer, type.staticMember, type.simple,
        by cases type; rfl⟩
  | cons t ws ih =>
      obtain ⟨_, _, _, _, _, heq⟩ := pushWord_keeps type t
      rw [List.foldl_cons, heq]
      obtain ⟨_, _, _, _, _, heq'⟩ := ih _
      exact ⟨_, _, _, _, _, heq'⟩

theorem operator_spelled (ws : List Token) (starred : Bool) :
    (spelled ws starred).operator = false := by
  obtain ⟨_, _, _, _, _, heq⟩ := foldl_pushWord_keeps ws {}
  rw [spelled, heq]

/-- The name of a type does not go on behind a name among its words, by induction from the last word
on. -/
theorem isOpen_foldl_pushWord (hws : ∀ t ∈ ws, t.OfType) (hnamed : ∃ t ∈ ws, t.IsName) :
    (ws.foldl pushWord type).isOpen = false := by
  induction ws using List.reverseRecOn with
  | nil =>
      obtain ⟨t, ht, -⟩ := hnamed
      cases ht
  | append_singleton ws t ih =>
      rw [List.foldl_append, List.foldl_cons, List.foldl_nil]
      cases hws t (by simp) with
      | name ht =>
          rw [pushWord]
          split
          · exact isOpen_push_of_isName _ ht
          next hpassed =>
            obtain ⟨-, hclosed⟩ := Bool.or_eq_false_iff.mp (Bool.eq_false_iff.mpr hpassed)
            exact hclosed
      | const kind word =>
          have hclosed : (ws.foldl pushWord type).isOpen = false := by
            refine ih (fun u hu => hws u (by simp [hu])) ?_
            obtain ⟨u, hu, hname⟩ := hnamed
            rcases List.mem_append.mp hu with hu | hu
            · exact ⟨u, hu, hname⟩
            · obtain rfl := List.mem_singleton.mp hu
              rw [hname.kind] at kind
              cases kind
          have hconst : t.isKeyword .const_ = true := by simp [Token.isKeyword, kind]
          have hmodifies : modifies t = true := by simp [modifies, hconst]
          have hcolons : t.is "::" = false := Token.is_of_word word "::" (by decide)
          have hname : (pushWord (ws.foldl pushWord type) t).nativeName =
              (ws.foldl pushWord type).nativeName := by
            rw [pushWord, hconst, Bool.true_or, Bool.true_or, if_pos rfl, push_nativeName, namePart,
              hcolons, if_neg (by simp), if_pos hmodifies, String.append_empty]
          rw [isOpen, hname]
          exact hclosed

/-- A type is constant only if one of its words says so. -/
theorem constValue_foldl_pushWord (h : (ws.foldl pushWord type).constValue = true)
    (htype : type.constValue = false) : ∃ t ∈ ws, t.isKeyword .const_ = true := by
  by_contra hnone
  have hplain : ∀ t ∈ ws, t.isKeyword .const_ = false := by simpa using hnone
  have hkept : (ws.foldl pushWord type).constValue = type.constValue := by
    clear h hnone htype
    induction ws generalizing type with
    | nil => rfl
    | cons t ws ih =>
        rw [List.forall_mem_cons] at hplain
        rw [List.foldl_cons, ih hplain.2]
        unfold pushWord push
        rw [hplain.1]
        split
        · split
          · rfl
          rw [if_neg (by simp)]
          split
          · rfl
          split
          · rfl
          split <;> rfl
        · rfl
  rw [hkept, htype] at h
  cases h

/-! ## The words of fundamental types -/

/-- The tokens spell a fundamental type. -/
structure SpellsFundamental (name : String) (ws : List Token) : Prop where
  named : name ∈ Rule.fundamentalNames
  faces : ws.map Token.face = (Name.tokens name).map Token.face

/-- Words that stand in the names of fundamental types; each of them names one itself. -/
def nameWords : List String :=
  Name.fundamentalWords ++ ["__int8", "__int16", "__int32", "__int64"]

/-- The tokens of a name are such words, or the name itself; only `const char` is constant. -/
def hasTypeWords (name : String) (ts : List Token) : Bool :=
  ts.any (·.kind == .identifier) && ts.all fun t =>
    Text.isWord t.text.toList &&
      ((t.kind == .keyword .const_ && t.text == "const" && name == "const char") ||
        (t.kind == .identifier && (t.text == name || nameWords.contains t.text)))

/-- The name of a type is read as it is, or as one of its words. -/
def keepsName (name m : String) : Bool :=
  ((m == name && (Text.isWord name.toList ||
      Name.fundamentalWords.any fun w => Text.endsWith w name)) || m == "unsigned" || m == "char") &&
    m.toList.all (fun c => Text.isWordChar c || c == ' ') && m.toList.getLast?.any Text.isWordChar

theorem all_fundamentalNames : (Rule.fundamentalNames.all fun name =>
    hasTypeWords name (Name.tokens name) &&
      keepsName name (Text.trim ((Name.tokens name).foldl pushWord {}).nativeName)) = true := by
  decide +kernel

theorem mem_of_mem_nameWords : ∀ w ∈ nameWords, Text.isWord w.toList = true ∧
    w ∈ Rule.fundamentalNames := by
  decide +kernel

/-- The name that the words of a fundamental type are read as. -/
structure NamesFundamental (m : String) : Prop where
  named : m ∈ Rule.fundamentalNames
  ends : Name.EndsFundamental m ∨ Text.isWord m.toList = true

theorem NamesFundamental.exists_mapsOnly {m : String} (h : NamesFundamental m) :
    ∃ r : Rule, (∀ part, RuleTable.standard.findWith? m part = some r) ∧ r.MapsOnly :=
  RuleTable.exists_mapsOnly h.named h.ends

namespace SpellsFundamental

variable {name : String}

theorem foldl_eq (h : SpellsFundamental name ws) :
    ws.foldl pushWord {} = (Name.tokens name).foldl pushWord {} :=
  foldl_pushWord_of_face h.faces {}

theorem checks (h : SpellsFundamental name ws) : hasTypeWords name (Name.tokens name) = true ∧
    keepsName name (spelled ws false).nativeName = true := by
  have hname : (spelled ws false).nativeName =
      Text.trim ((Name.tokens name).foldl pushWord {}).nativeName := by
    rw [← h.foldl_eq]
    rfl
  rw [hname]
  exact Bool.and_eq_true_iff.mp (List.all_eq_true.mp all_fundamentalNames name h.named)

/-- The words are names without annotations, or `const`. -/
theorem words (h : SpellsFundamental name ws) : (∃ t ∈ ws, t.IsName) ∧ ∀ t ∈ ws,
    Text.isWord t.text.toList = true ∧
      (t.IsName ∧ (t.text = name ∨ t.text ∈ nameWords) ∨
        t.kind = .keyword .const_ ∧ t.text = "const" ∧ name = "const char") := by
  obtain ⟨hany, hall⟩ := Bool.and_eq_true_iff.mp h.checks.1
  have hface (t : Token) (ht : t ∈ ws) : ∃ u ∈ Name.tokens name, u.kind = t.kind ∧ u.text = t.text := by
    have hmem : t.face ∈ (Name.tokens name).map Token.face := h.faces ▸ List.mem_map_of_mem ht
    obtain ⟨u, hu, heq⟩ := List.mem_map.mp hmem
    exact ⟨u, hu, congrArg Prod.fst heq, congrArg Prod.snd heq⟩
  have hwords : ∀ t ∈ ws, Text.isWord t.text.toList = true ∧
      (t.IsName ∧ (t.text = name ∨ t.text ∈ nameWords) ∨
        t.kind = .keyword .const_ ∧ t.text = "const" ∧ name = "const char") := by
    intro t ht
    obtain ⟨u, hu, hkind, htext⟩ := hface t ht
    have hword := List.all_eq_true.mp hall u hu
    simp only [Bool.and_eq_true, Bool.or_eq_true, beq_iff_eq, List.contains_iff_mem, hkind, htext]
      at hword
    obtain ⟨hisWord, ⟨⟨hconst, htext⟩, hname⟩ | ⟨hidentifier, hnamed⟩⟩ := hword
    · exact ⟨hisWord, .inr ⟨hconst, htext, hname⟩⟩
    · exact ⟨hisWord, .inl ⟨⟨hidentifier, hisWord⟩, hnamed⟩⟩
  refine ⟨?_, hwords⟩
  obtain ⟨u, hu, hkind⟩ := List.any_eq_true.mp hany
  have hmem : u.face ∈ ws.map Token.face := h.faces ▸ List.mem_map_of_mem hu
  obtain ⟨t, ht, heq⟩ := List.mem_map.mp hmem
  have hidentifier : t.kind = .identifier := by
    rw [show t.kind = u.kind from congrArg Prod.fst heq]
    simpa using hkind
  refine ⟨t, ht, ?_⟩
  obtain ⟨-, ⟨hname, -⟩ | ⟨hconst, -⟩⟩ := hwords t ht
  · exact hname
  · rw [hidentifier] at hconst
    cases hconst

/-- **The name of a fundamental type** is that of a fundamental type. -/
theorem namesFundamental (h : SpellsFundamental name ws) :
    NamesFundamental (spelled ws false).nativeName ∧ IsName (spelled ws false).nativeName := by
  obtain ⟨hkeeps, hlast⟩ := Bool.and_eq_true_iff.mp h.checks.2
  obtain ⟨hnames, hchars⟩ := Bool.and_eq_true_iff.mp hkeeps
  generalize (spelled ws false).nativeName = m at *
  simp only [List.all_eq_true, Bool.or_eq_true, Bool.and_eq_true, beq_iff_eq, List.any_eq_true]
    at hnames hchars
  have hname : IsName m := by
    refine ⟨fun c hc => (hchars c hc).imp_right .inl, ?_⟩
    obtain ⟨c, hc, hword⟩ := (Option.any_eq_true ..).mp hlast
    exact ⟨c, hc, Text.isBlank_of_isWordChar hword⟩
  refine ⟨?_, hname⟩
  rcases hnames with (⟨rfl, hword | ⟨w, hw, hends⟩⟩ | rfl) | rfl
  · exact ⟨h.named, .inr hword⟩
  · refine ⟨h.named, .inl ⟨fun hmem => ?_, w, hw, List.isSuffixOf_iff_suffix.mp hends⟩⟩
    rcases hchars _ hmem with hword | hspace
    · exact absurd hword (by decide)
    · cases hspace
  · obtain ⟨hword, hnamed⟩ := mem_of_mem_nameWords "unsigned" (by decide)
    exact ⟨hnamed, .inr hword⟩
  · obtain ⟨hword, hnamed⟩ := mem_of_mem_nameWords "char" (by decide)
    exact ⟨hnamed, .inr hword⟩

theorem nativeName_ne (h : SpellsFundamental name ws) : (spelled ws false).nativeName ≠ "" := by
  obtain ⟨c, hc, -⟩ := h.namesFundamental.2.last
  intro hempty
  rw [hempty] at hc
  cases hc

/-- **Looking a fundamental type up.** With and without a star it has the name that its words are
read as, and target names of its rule. -/
theorem resolve_spelled (h : SpellsFundamental name ws) (starred : Bool) : ∃ target targets,
    (spelled ws starred).resolve .standard {} [] =
      (spelled ws false).reshaped starred.toNat target targets := by
  obtain ⟨hfundamental, hname⟩ := h.namesFundamental
  obtain ⟨r, hfind, hr⟩ := hfundamental.exists_mapsOnly
  obtain ⟨v, vs, hvalues⟩ := List.exists_cons_of_ne_nil hr.values
  obtain ⟨p, ps, hpointers⟩ := List.exists_cons_of_ne_nil hr.pointers
  obtain ⟨_, _, _, _, _, heq⟩ := foldl_pushWord_keeps ws {}
  have hinstantiate : (spelled ws starred).instantiate {} = spelled ws starred := rfl
  have hsame : (spelled ws starred).nativeName = (spelled ws false).nativeName := rfl
  have hhoist : (spelled ws starred).hoist = spelled ws starred := IsName.hoist_eq (hsame ▸ hname)
  have htext : r.annotationText = "" := by
    rw [Rule.annotationText, hr.annotations]
    rfl
  have hmapped (type : NativeType) : mapBy (some r) type =
      if (type.indirections == 0 && !type.reference) = true then
        ({ type with targetName := v, targetNames := v :: vs }, true)
      else ({ type with targetName := p, targetNames := p :: ps }, false) := by
    unfold mapBy
    rw [Option.bind_some, Option.bind_some, hvalues, hpointers]
    dsimp only
    by_cases hplain : (type.indirections == 0 && !type.reference) = true
    · rw [if_pos hplain, if_pos hplain]
    · rw [if_neg hplain, if_neg hplain]
  unfold resolve
  rw [hhoist, hinstantiate]
  dsimp only
  rw [hsame, qualify_empty h.nativeName_ne, settleName_singleton, hfind, hmapped]
  unfold spelled
  rw [heq]
  cases starred with
  | false => 
    refine ⟨v, v :: vs, ?_⟩
    simp [reshaped, htext]
  | true =>
    refine ⟨p, p :: ps, ?_⟩
    simp [reshaped, htext]

/-- A type that is `const` has a rule as such. -/
theorem const_mapsOnly (h : SpellsFundamental name ws)
    (hconst : (spelled ws false).constValue = true) : ∃ r : Rule,
      RuleTable.standard.findWith? ("const " ++ (spelled ws false).nativeName) false = some r ∧
        r.MapsOnly := by
  obtain ⟨t, ht, hkeyword⟩ := constValue_foldl_pushWord hconst rfl
  have hname : name = "const char" := by
    obtain ⟨-, ⟨hname, -⟩ | ⟨-, -, hname⟩⟩ := h.words.2 t ht
    · rw [hname.isKeyword_eq] at hkeyword
      cases hkeyword
    · exact hname
  subst hname
  have hchar : (spelled ws false).nativeName = "char" := by
    have heq : Text.trim ((Name.tokens "const char").foldl pushWord {}).nativeName = "char" := by
      decide +kernel
    rw [← heq, ← h.foldl_eq]
    rfl
  have hends : Name.EndsFundamental "const char" := ⟨by decide, "char", by decide, by decide⟩
  obtain ⟨r, hfind, hr⟩ := RuleTable.exists_mapsOnly h.named (.inl hends)
  rw [hchar]
  exact ⟨r, hfind false, hr⟩

/-- What the words stand for is no attribute. -/
theorem unannotated (h : SpellsFundamental name ws) :
    ∀ t ∈ ws, t.OfType ∧ Unannotated .standard t := by
  intro t ht
  obtain ⟨hword, ⟨hname, hnamed⟩ | ⟨hconst, htext, -⟩⟩ := h.words.2 t ht
  · refine ⟨.name hname, ?_⟩
    have hmem : t.text ∈ Rule.fundamentalNames := by
      rcases hnamed with heq | hmem
      · rw [heq]
        exact h.named
      · exact (mem_of_mem_nameWords _ hmem).2
    obtain ⟨r, hfind, hr⟩ := RuleTable.exists_mapsOnly hmem (.inr hword)
    rw [Unannotated, RuleTable.find?, hfind true]
    simp [hr.annotations]
  · refine ⟨.const hconst hword, ?_⟩
    unfold Unannotated
    rw [htext]
    cases hfind : RuleTable.standard.find? "const" with
    | none => rfl
    | some r => simp [RuleTable.annotations_of_mark (by simp) hfind]

end SpellsFundamental

end NativeType

/-! ## Lists of variables of a fundamental type -/

namespace Variable

open NativeType

variable {name : String} {ws : List Token}

/-- A fundamental word names no variable that no rule matches. -/
theorem contains_of_unmatched {x : String} (h : RuleTable.standard.find? x = none) :
    Name.fundamentalWords.contains x = false := by
  rw [Bool.eq_false_iff]
  intro hmem
  obtain ⟨hword, hnamed⟩ := mem_of_mem_nameWords x
    (List.mem_append_left _ (List.contains_iff_mem.mp hmem))
  obtain ⟨r, hfind, -⟩ := RuleTable.exists_mapsOnly hnamed (.inr hword)
  rw [RuleTable.find?, hfind true] at h
  cases h

/-- **A fundamental type** is the type of lists of variables. -/
def Base.ofFundamental (h : SpellsFundamental name ws) : Base .standard where
  words := ws
  type starred := (spelled ws starred).resolve .standard {} []
  nonempty := by
    obtain ⟨t, ht, -⟩ := h.words.1
    exact List.ne_nil_of_mem ht
  plain t ht := by
    obtain ⟨hword, ⟨hname, -⟩ | ⟨hconst, -⟩⟩ := h.words.2 t ht
    · exact ⟨hname.isWord_eq, hword, by simp [Token.isKeywordWith, hname.kind]⟩
    · refine ⟨by simp [Token.isWord, hconst], hword, ?_⟩
      rw [Token.isKeywordWith, hconst]
      rfl
  shape starred := by
    obtain ⟨target, targets, heq⟩ := h.resolve_spelled starred
    obtain ⟨target', targets', heq'⟩ := h.resolve_spelled false
    exact ⟨target, targets, by rw [heq, heq']; rfl⟩
  named := by
    obtain ⟨target, targets, heq⟩ := h.resolve_spelled false
    rw [heq]
    exact h.nativeName_ne
  ordinary := by
    obtain ⟨target, targets, heq⟩ := h.resolve_spelled false
    obtain ⟨_, _, _, _, _, hkept⟩ := foldl_pushWord_keeps ws {}
    rw [heq, spelled, hkept]
    exact ⟨rfl, rfl, rfl, rfl⟩
  unhinted := by
    obtain ⟨target, targets, heq⟩ := h.resolve_spelled false
    obtain ⟨_, _, _, _, _, hkept⟩ := foldl_pushWord_keeps ws {}
    rw [heq, spelled, hkept]
    rfl
  rules const hconst := by
    obtain ⟨target, targets, heq⟩ := h.resolve_spelled false
    rw [heq] at hconst ⊢
    obtain ⟨r, hfind, hr⟩ : ∃ r : Rule, RuleTable.standard.findWith?
        ((if const then "const " else "") ++ (spelled ws false).nativeName) false = some r ∧
          r.MapsOnly := by
      cases const with
      | true => exact h.const_mapsOnly (hconst rfl)
      | false =>
          obtain ⟨r, hfind, hr⟩ := h.namesFundamental.1.exists_mapsOnly
          exact ⟨r, by simpa using hfind false, hr⟩
    exact ⟨r, hfind, hr.values, hr.pointers, hr.native⟩
  kept rule hrule := by
    obtain ⟨target, targets, heq⟩ := h.resolve_spelled false
    obtain ⟨r, hfind, hr⟩ := h.namesFundamental.1.exists_mapsOnly
    rw [heq] at hrule
    obtain rfl : r = rule := Option.some.inj ((hfind true).symm.trans hrule)
    simp [Rule.skipsType, hr.kept]
  reads_star s star u ts htable husings hstar hdots hsees := by
    have hplain : Unannotated s.table star := by
      unfold Unannotated
      rw [htable, hstar.2]
      cases hfind : RuleTable.standard.find? "*" with
      | none => rfl
      | some r => simp [RuleTable.annotations_of_mark (by simp) hfind]
    rw [← htable, ← husings]
    refine read_words true (fun t ht => ?_) (.inr (by simp [hstar.is_eq])) hplain
      (operator_spelled ws true) rfl hsees hdots fun n j hsees => ?_
    · rw [htable]
      exact h.unannotated t ht
    · refine (readPart_of_mark (by simp) hstar hsees).imp ?_
      rintro _ rfl
      rw [mark, hstar.is_eq, if_pos (by simp)]
      rfl
  reads_name s x u ts htable husings hname hunmatched hstops hsees := by
    have hplain : Unannotated s.table x := by
      rw [Unannotated, htable, hunmatched]
      rfl
    have hclosed : (ws.foldl pushWord {}).isOpen = false :=
      isOpen_foldl_pushWord (fun t ht => (h.unannotated t ht).1) h.words.1
    rw [← htable, ← husings]
    refine read_words false (fun t ht => ?_) (.inl hname.isWord_eq) hplain
      (operator_spelled ws false) rfl hsees (hname.is_eq "..." (by decide)) fun n j hsees => ?_
    · rw [htable]
      exact h.unannotated t ht
    · refine (readPart_of_name (s := s.atIndex j) hname (contains_of_unmatched hunmatched) hplain.isAttribute hstops
        hclosed hsees).imp ?_
      rintro _ rfl
      cases ws.foldl pushWord {}
      rfl

/-! ## Headers -/

/-- Two tokens that do not open a conditional group. -/
abbrev Apart (t u : Token) : Prop :=
  (t.is "#" && u.isKeywordWith Keyword.opensGroup) = false

/-- Tokens that are read as they stand: there are no comments and no conditional groups. -/
structure StandsBare (ts : List Token) : Prop where
  bare : ∀ t ∈ ts, t.isComment = false
  apart : ts.IsChain Apart

theorem StandsBare.sees {ts : List Token} (h : StandsBare ts) :
    (Reading.ofTokens .standard ts).Sees (ts ++ [Window.endToken ts.toArray]) := by
  refine Reading.ofTokens_sees_of_opens (fun us hsuffix => ?_) fun t ht =>
    ⟨h.bare t ht, RuleTable.plain_standard.ruleFor? t⟩
  have hchain : us.IsChain Apart := h.apart.suffix hsuffix
  match us with
  | [] => rfl
  | [_] => rfl
  | t :: u :: us => exact (List.isChain_cons_cons.mp hchain).1

/-- A list stands bare with one of its items only. -/
theorem StandsBare.alone (h : SpellsFundamental name ws) {l : Listing .standard} {x : Item}
    (hx : x ∈ l.items) (hbare : StandsBare (ws ++ l.tokens)) :
    StandsBare (ws ++ (x.tokens ++ [l.semicolon])) := by
  obtain ⟨before, after, htokens⟩ : x.tokens <:+: l.tokens := by
    unfold Listing.tokens
    rcases List.mem_cons.mp hx with rfl | hx
    · exact List.infix_append' [] _ _
    · obtain ⟨y, hy, rfl⟩ := List.mem_map.mp hx
      obtain ⟨before, after, hothers⟩ := List.append_of_mem hy
      rw [hothers]
      exact ⟨l.first.tokens ++ (Item.listed before ++ [y.1]), Item.listed after ++ [l.semicolon],
        by simp [Item.listed]⟩
  have hwords : ∀ t ∈ ws, t.is "#" = false := fun t ht =>
    Token.is_of_word (h.words.2 t ht).1 "#" (by decide)
  rw [← htokens] at hbare
  have hchain : (ws.IsChain Apart ∧ x.tokens.IsChain Apart) := by
    refine ⟨hbare.apart.left_of_append, ?_⟩
    exact hbare.apart.right_of_append.left_of_append.right_of_append
  refine ⟨fun t ht => ?_, ?_⟩
  · simp only [List.mem_append, List.mem_singleton] at ht
    rcases ht with ht | ht | rfl
    · exact hbare.bare t (by simp [ht])
    · exact hbare.bare t (by simp [ht])
    · rcases l.isSemicolon.1 with hkind | hkind <;> simp [Token.isComment, hkind]
  · refine List.isChain_append.mpr ⟨hchain.1, List.isChain_append.mpr ⟨hchain.2, List.isChain_singleton _, ?_⟩, ?_⟩
    · intro t ht u hu
      obtain rfl := Option.some.inj hu
      rcases l.isSemicolon.1 with hkind | hkind <;> simp [Apart, Token.isKeywordWith, hkind]
    · intro t ht u hu
      simp [Apart, hwords t (List.mem_of_getLast? ht)]

/-- The header is read from where its items are found. -/
theorem atItems_ofTokens (h : SpellsFundamental name ws) (l : Listing .standard)
    (hbare : StandsBare (ws ++ l.tokens)) :
    let stop := Window.endToken (ws ++ l.tokens).toArray
    AtItems (Base.ofFundamental h) l.items (l.tokens ++ [stop]) [stop]
      (.ofTokens .standard (ws ++ l.tokens)) where
  spelled := l.spells _ _ []
  table := rfl
  usings := rfl
  bare t ht := hbare.bare t (Array.mem_toList_iff.mpr ht)
  sees := by
    rw [← List.append_assoc]
    exact hbare.sees

theorem readAll_items (h : SpellsFundamental name ws) (l : Listing .standard)
    (hfront : ∀ t ∈ ws.head?, Text.Blank t.spacing) (hbare : StandsBare (ws ++ l.tokens)) :
    ∃ s', Statement.readAll {} (.ofTokens .standard (ws ++ l.tokens)) = .ok () s' ∧
      List.Forall₂ (fun x d => x.Prints (Base.ofFundamental h) (Base.ofFundamental h).front d)
        l.items s'.outline.toList := by
  have hspacing : Text.Blank (Base.ofFundamental h).front :=
    hfront _ (List.head?_eq_some_head _)
  exact (atItems_ofTokens h l hbare).readAll_eq (Window.isEof_endToken _) hspacing rfl

/-- **A list of variables of a fundamental type** at the top of a header adds one variable for each
of its items, in order. Each of them has the signature and the text, up to white space at its ends,
that it has in a header that declares it alone. -/
theorem readAll_listing (h : SpellsFundamental name ws) (l : Listing .standard)
    (hfront : ∀ t ∈ ws.head?, Text.Blank t.spacing) (hbare : StandsBare (ws ++ l.tokens)) :
    ∃ s', Statement.readAll {} (.ofTokens .standard (ws ++ l.tokens)) = .ok () s' ∧
      List.Forall₂ (fun x d => d.isVariable = true ∧ d.signature = x.name.text ∧
        ∃ s₁ e, Statement.readAll {} (.ofTokens .standard (ws ++ (x.tokens ++ [l.semicolon]))) =
            .ok () s₁ ∧
          s₁.outline.toList = [e] ∧ e.isVariable = true ∧ d.signature = e.signature ∧
          Text.trim d.text = Text.trim e.text) l.items s'.outline.toList := by
  obtain ⟨s', hread, hprints⟩ := readAll_items h l hfront hbare
  refine ⟨s', hread, ?_⟩
  have hmem : ∀ x ∈ l.items, x ∈ l.items := fun _ => id
  refine List.Forall₂.imp ?_ ((List.forall₂_and_left _ _).mpr ⟨hmem, hprints⟩)
  rintro x d ⟨hx, hd⟩
  have htokens : (l.alone x hx).tokens = x.tokens ++ [l.semicolon] := rfl
  have halone := StandsBare.alone h hx hbare
  rw [← htokens] at halone ⊢
  obtain ⟨s₁, hread₁, hprints₁⟩ := readAll_items h (l.alone x hx) hfront halone
  have hitems : (l.alone x hx).items = [x] := rfl
  rw [hitems] at hprints₁
  obtain ⟨e, rest, he, hrest, hlist⟩ := List.forall₂_cons_left_iff.mp hprints₁
  obtain rfl := List.forall₂_nil_left_iff.mp hrest
  exact ⟨hd.isVariable, hd.signature, s₁, e, hread₁, hlist, he.isVariable,
    hd.signature.trans he.signature.symm, hd.text.trans he.text.symm⟩

/-! ### Two headers -/

/-- A token on the first line. -/
def lined (kind : Kind) (text : String) (spacing : String) : Token :=
  { kind, text, spacing, location := { line := 1 } }

theorem spellsFundamental_int : SpellsFundamental "int" [lined .identifier "int" ""] :=
  ⟨by decide +kernel, by decide +kernel⟩

/-- The item `q[size]`. -/
def arrayItem (size : List Token) (hsize : ∀ t ∈ size, t.isEof = false ∧ t.is "]" = false) :
    Item where
  stars := []
  name := lined .identifier "q" " "
  dims := [{ opening := lined .punct "[" "", size, closing := lined .punct "]" ""
             isOpening := ⟨.inl rfl, rfl⟩, isClosing := ⟨.inl rfl, rfl⟩, isSize := hsize }]
  value := none
  areStars := List.forall_mem_nil _
  isName := ⟨rfl, by decide +kernel⟩
  isValue v hv := absurd hv (Option.not_mem_none v)

/-- The item `*z = 1`. -/
def pointerItem : Item where
  stars := [lined .punct "*" " "]
  name := lined .identifier "z" ""
  dims := []
  value := some (lined .punct "=" " ", [lined .integer "1" " "])
  areStars := by simp [lined, Token.IsMark]
  isName := ⟨rfl, by decide +kernel⟩
  isValue v hv := by
    obtain rfl := Option.some.inj hv
    exact ⟨⟨.inl rfl, rfl⟩, .plain (by decide) (by decide) .nil, by decide⟩

theorem find?_names : ∀ name ∈ ["q", "z"], RuleTable.standard.find? name = none :=
  fun name hname => RuleTable.find?_sample name (List.mem_append_left ["q(int, int)"] hname)

/-- The list `q[4], *z = 1;`. -/
def sampleListing : Listing .standard where
  first := arrayItem [lined .integer "4" ""] (by decide)
  others := [(lined .punct "," "", pointerItem)]
  semicolon := lined .punct ";" ""
  areCommas := by simp [lined, Token.IsMark]
  isSemicolon := ⟨.inl rfl, rfl⟩
  closed := by simp [Item.Closed, Dimension.Closed, arrayItem, pointerItem, lined, Token.isAny, Token.is]
  unmatched := by simpa [arrayItem, pointerItem, lined] using find?_names
  distinct := by simp [arrayItem, pointerItem, lined]

/-- The header `int q[4], *z = 1;` adds two variables. -/
theorem readAll_listing_sample : ∃ s' d e,
    Statement.readAll {} (.ofTokens .standard (Token.ofText none "int q[4], *z = 1;")) = .ok () s' ∧
      s'.outline.toList = [d, e] ∧ d.signature = "q" ∧ e.signature = "z" := by
  have htokens : Token.ofText none "int q[4], *z = 1;" =
      [lined .identifier "int" ""] ++ sampleListing.tokens := by decide +kernel
  obtain ⟨s', hread, hlist⟩ := readAll_listing spellsFundamental_int sampleListing (by simp [lined, Text.Blank])
    ⟨by decide +kernel, by decide +kernel⟩
  obtain ⟨d, rest, hd, hrest, heq⟩ := List.forall₂_cons_left_iff.mp hlist
  obtain ⟨e, rest, he, hnil, rfl⟩ := List.forall₂_cons_left_iff.mp hrest
  obtain rfl := List.forall₂_nil_left_iff.mp hnil
  rw [htokens]
  exact ⟨s', d, e, hread, heq, hd.2.1, he.2.1⟩

/-- **A bracket inside a dimension hides the items behind it.** Of `int q[(], z;` only the first
variable is added. -/
theorem open_bracket_hides_items : (∀ name ∈ ["q", "z"], RuleTable.standard.find? name = none) ∧
    ∃ s' d, Statement.readAll {} (.ofTokens .standard (Token.ofText none "int q[(], z;")) =
        .ok () s' ∧
      s'.outline.toList = [d] ∧ d.signature = "q" := by
  refine ⟨find?_names, ?_⟩
  let ts := Token.ofText none "int q[(], z;"
  let x := arrayItem [lined .punct "(" ""] (by decide)
  have htokens : ts = [lined .identifier "int" ""] ++ (x.tokens ++
      lined .punct "," "" :: ([lined .identifier "z" " "] ++ [lined .punct ";" ""])) := by
    decide +kernel
  have hhidden : Declarator.Hidden 0 (x.stars.drop 1 ++ (x.named ++ lined .punct "," "" ::
      ([lined .identifier "z" " "] ++ [lined .punct ";" ""]))) := by
    simp [Declarator.Hidden, Declarator.depthBehind, Declarator.opens, Declarator.closes, x, arrayItem, Item.named,
      Item.valueTokens, Dimension.tokens, lined, Token.isAny, Token.is, Token.isEof]
  have hbare : StandsBare ts := ⟨by decide +kernel, by decide +kernel⟩
  have hspelled := Spells.of_hidden (Base.ofFundamental spellsFundamental_int) x hhidden
    (find?_names "q" (by simp)) ⟨",", by simp, .inl rfl, rfl⟩ (by decide) ⟨.inl rfl, rfl⟩
    (Window.isEof_endToken ts.toArray)
  have hitems : AtItems (Base.ofFundamental spellsFundamental_int) [x] _ _ (.ofTokens .standard ts) :=
    { spelled := hspelled, table := rfl, usings := rfl
      bare := fun t ht => hbare.bare t (Array.mem_toList_iff.mpr ht)
      sees := by
        have hsees := hbare.sees
        generalize Window.endToken ts.toArray = stop at hsees ⊢
        have hall : ts ++ [stop] = [lined .identifier "int" ""] ++ (x.tokens ++
            lined .punct "," "" :: ([lined .identifier "z" " "] ++
              [lined .punct ";" "", stop])) := by
          rw [htokens]
          simp
        rwa [hall] at hsees }
  have hfront : Text.Blank (Base.ofFundamental spellsFundamental_int).front := by
    have hempty : (Base.ofFundamental spellsFundamental_int).front = "" := rfl
    simp [hempty, Text.Blank]
  obtain ⟨s', hread, hlist⟩ := hitems.readAll_eq (Window.isEof_endToken _) hfront rfl
  obtain ⟨d, rest, hd, hnil, heq⟩ := List.forall₂_cons_left_iff.mp hlist
  obtain rfl := List.forall₂_nil_left_iff.mp hnil
  exact ⟨s', d, hread, heq, hd.signature⟩

end Variable

end HeaderPeers

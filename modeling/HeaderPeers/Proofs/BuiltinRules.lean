import HeaderPeers.Proofs.Scope.Walk
import HeaderPeers.Rule.Builtin

/-!
# What the built-in rules are found under

A key of a name without template arguments is an end of the name, or made of
fundamental words in order. So a name that ends with a fundamental word, in whatever
namespace it is looked up, finds no built-in rule but those that map values to one
target type.

- `Name.isSuffix_normalize` — how the keys of a name end.
- `Name.EndsFundamental` — names that end like a fundamental type.
- `RuleTable.exists_of_findWith?_standard` — what is found is a built-in rule.
- `RuleTable.isTame_of_findWith?_standard` — what names of fundamental types find.
-/

namespace HeaderPeers

/-! ## How keys end -/

namespace Text

theorem mem_of_mem_unifyBreaks {cs : List Char} {c : Char} (h : c ∈ unifyBreaks cs) :
    c ∈ cs ∨ c = '\n' := by
  fun_induction unifyBreaks cs with
  | case1 => cases h
  | case2 cs ih =>
      rcases List.mem_cons.mp h with rfl | h
      · exact Or.inr rfl
      · exact (ih h).imp_left fun h => by simp [h]
  | case3 cs _ ih =>
      rcases List.mem_cons.mp h with rfl | h
      · exact Or.inr rfl
      · exact (ih h).imp_left (List.mem_cons_of_mem _)
  | case4 d cs _ _ ih =>
      rcases List.mem_cons.mp h with rfl | h
      · exact Or.inl List.mem_cons_self
      · exact (ih h).imp_left (List.mem_cons_of_mem _)

/-- White space behind a text is dropped from what it ends with. -/
theorem dropEndWhile_isSuffix {cs ds : List Char} (p : Char → Bool) (h : cs <:+ ds) :
    dropEndWhile p cs <:+ dropEndWhile p ds := by
  obtain ⟨front, rfl⟩ := h
  rw [dropEndWhile, dropEndWhile, ← List.reverse_prefix, List.reverse_reverse, List.reverse_reverse,
    List.reverse_append, List.dropWhile_append]
  split
  next hempty =>
    rw [List.isEmpty_iff.mp hempty]
    exact List.nil_prefix
  · exact List.prefix_append _ _

theorem trim_isSuffix (s : String) : (trim s).toList <:+ dropEndWhile isBlank s.toList := by
  rw [trim, String.toList_ofList]
  exact dropEndWhile_isSuffix isBlank (List.dropWhile_suffix _)

end Text

/-- A token that is no comment starts with a character of the text. -/
theorem Token.exists_head_of_mem_scan {numbering : Numbering} {file : Option String} {line : Nat}
    {cs : List Char} {t : Token} (ht : t ∈ scan numbering file line cs)
    (hcomment : t.isComment = false) : ∃ c ∈ cs, t.text.toList.head? = some c := by
  fun_induction scan numbering file line cs with
  | case1 => cases ht
  | case2 =>
      obtain rfl := List.mem_singleton.mp ht
      cases hcomment
  | case3 line cs spacing line' c rest hrest lexeme ih =>
      have hmem : ∀ d ∈ c :: rest, d ∈ cs := fun d hd =>
        (List.dropWhile_sublist _).mem (hrest ▸ hd)
      rcases List.mem_cons.mp ht with rfl | ht
      · have hkind : (Lexeme.read c rest).kind ≠ .comment := by
          simpa [isComment] using hcomment
        exact ⟨c, hmem c List.mem_cons_self, by simp [lexeme, Lexeme.head?_text hkind]⟩
      · obtain ⟨d, hd, hhead⟩ := ih ht
        refine ⟨d, hmem d ?_, hhead⟩
        rw [← Lexeme.read_append c rest]
        exact List.mem_append_right _ hd

namespace Name

/-- Without a closing bracket there is no list of template arguments. -/
theorem argumentsStart?_eq_none {ts : List Token} (h : ∀ t ∈ ts, t.is ">" = false) :
    argumentsStart? ts = none := by
  have hfold : ∀ (us : List (Token × Nat)) (search : ArgumentSearch),
      (∀ u ∈ us, u.1 ∈ ts) → (search.depth = 0 ∧ search.start = none ∨ 0 < search.depth) →
      (us.foldl (fun s u => s.step ts.length u.2 u.1) search).depth = 0 ∧
          (us.foldl (fun s u => s.step ts.length u.2 u.1) search).start = none ∨
        0 < (us.foldl (fun s u => s.step ts.length u.2 u.1) search).depth := by
    intro us
    induction us with
    | nil => exact fun _ _ hsearch => hsearch
    | cons u us ih =>
        intro search hus hsearch
        rw [List.foldl_cons]
        refine ih _ (fun v hv => hus v (List.mem_cons_of_mem _ hv)) ?_
        rw [ArgumentSearch.step, h u.1 (hus u List.mem_cons_self)]
        split
        · exact Or.inr (by dsimp only; omega)
        · exact hsearch
  let search := ts.zipIdx.foldl (fun (s : ArgumentSearch) u => s.step ts.length u.2 u.1) {}
  change (if (search.depth == 0) = true then search.start else none) = none
  rcases hfold ts.zipIdx {} (fun u hu => List.fst_mem_of_mem_zipIdx hu) (Or.inl ⟨rfl, rfl⟩) with
    ⟨-, hstart⟩ | hdepth
  · split
    · exact hstart
    · rfl
  · rw [if_neg (by simpa using Int.ne_of_gt hdepth)]

/-- Words with spaces between them end with the last. -/
theorem suffix_joinWith {ws : List String} (h : ws ≠ []) :
    (ws.getLast h).toList <:+ (Text.joinWith " " ws).toList := by
  induction ws with
  | nil => exact absurd rfl h
  | cons w ws ih =>
      rcases eq_or_ne ws [] with rfl | hne
      · simp [Text.joinWith]
      · rw [List.getLast_cons hne, joinWith_cons hne, String.toList_append]
        exact (ih hne).trans (List.suffix_append _ _)

theorem mem_joinWith {ws : List String} {c : Char} (h : c ∈ (Text.joinWith " " ws).toList) :
    (∃ w ∈ ws, c ∈ w.toList) ∨ c = ' ' := by
  induction ws with
  | nil => simp [Text.joinWith] at h
  | cons w ws ih =>
      rcases eq_or_ne ws [] with rfl | hne
      · exact Or.inl ⟨w, List.mem_cons_self, by simpa [Text.joinWith] using h⟩
      · rw [joinWith_cons hne, String.toList_append, String.toList_append, List.append_assoc] at h
        rcases List.mem_append.mp h with h | h
        · exact Or.inl ⟨w, List.mem_cons_self, h⟩
        rcases List.mem_append.mp h with h | h
        · exact Or.inr (by simpa using h)
        · refine (ih h).imp_left ?_
          rintro ⟨v, hv, hc⟩
          exact ⟨v, List.mem_cons_of_mem _ hv, hc⟩

/-- Without template arguments, a name of other than fundamental words is spelled as it is. -/
theorem spelling_of_plain {name : String} (hname : '>' ∉ name.toList) (h : ¬ IsFundamental name)
    (untemplate : Bool) : spelling name (parts (tokens name)) untemplate = name := by
  have hstart : argumentsStart? ((parts (tokens name)).words ++ (parts (tokens name)).rest) =
      none := by
    refine argumentsStart?_eq_none fun t ht => ?_
    have hmem := (parts_sublist (tokens name)).mem ht
    obtain ⟨hscan, hcomment⟩ := List.mem_filter.mp hmem
    obtain ⟨c, hc, hhead⟩ := Token.exists_head_of_mem_scan hscan (by simpa using hcomment)
    rw [Token.is, Bool.and_eq_false_iff]
    refine Or.inr (beq_false_of_ne fun htext => ?_)
    rw [htext] at hhead
    obtain rfl := Option.some.inj hhead
    rcases Text.mem_of_mem_unifyBreaks hc with hmem | hbreak
    · exact hname hmem
    · exact absurd hbreak (by decide)
  unfold spelling
  dsimp only
  split
  next hwords =>
    simp only [Bool.and_eq_true, List.isEmpty_iff, Bool.not_eq_true', List.isEmpty_eq_false_iff]
      at hwords
    exact absurd (isFundamental_of_parts hwords.1 hwords.2) h
  · rw [hstart]
    split <;> rfl

/-- The key of a name of other than fundamental words is the name or what follows `const` in it,
if no list of template arguments can be left out. -/
theorem isSuffix_normalize {name : String} (hname : '>' ∉ name.toList)
    (h : ¬ IsFundamental name) (unconst untemplate : Bool) :
    (normalize name unconst untemplate).toList <:+
      Text.dropEndWhile Text.isBlank name.toList := by
  unfold normalize
  split
  · simp
  · dsimp only
    rw [spelling_of_plain hname h]
    split
    · refine (Text.trim_isSuffix _).trans (Text.dropEndWhile_isSuffix _ ?_)
      unfold dropConst
      split
      next before after hcut =>
        obtain ⟨⟨b, a⟩, hchars, heq⟩ := Option.map_eq_some_iff.mp hcut
        cases heq
        have hs := ((Text.cutChars?_eq_some_iff (by simp)).mp hchars).1
        rw [String.toList_ofList, hs, ← List.append_assoc]
        exact List.suffix_append _ _
      · exact List.suffix_refl _
    · exact Text.trim_isSuffix _

/-- Without template arguments, a name that starts with a word of its own has no key but itself. -/
theorem normalize_of_plain_leads {name : String} {w blanks rest : List Char}
    (hname : '>' ∉ name.toList) (h : Text.Leads w (Text.unifyBreaks name.toList) blanks rest)
    (hword : Keyword.ofWord? (String.ofList w) ≠ some .const_)
    (hnamed : fundamentalWords.contains (String.ofList w) = false) (unconst untemplate : Bool) :
    normalize name unconst untemplate = Text.trim name := by
  obtain ⟨t, ts, hparts⟩ := exists_parts_of_leads h hword hnamed
  have hother : ¬ IsFundamental name := by
    intro hfundamental
    have hrest := congrArg Parts.rest (parts_of_fundamental hfundamental.only)
    rw [hparts] at hrest
    cases hrest
  rw [← normalize_of_parts hparts unconst]
  unfold normalize
  dsimp only
  rw [spelling_of_plain hname hother, spelling_of_plain hname hother]

/-- Without template arguments, a key of a name holds nothing but what the name or a fundamental
type is made of. -/
theorem mem_of_mem_normalize {name : String} (hname : '>' ∉ name.toList) {unconst untemplate : Bool}
    {c : Char} (hc : c ∈ (normalize name unconst untemplate).toList) :
    c ∈ name.toList ∨ Text.isWordChar c = true ∨ c = ' ' := by
  by_cases h : IsFundamental name
  · obtain ⟨hmem, -⟩ := mem_sortWords h.mem h.named
    rw [normalize_of_isFundamental h, key, String.toList_append] at hc
    refine Or.inr ?_
    rcases List.mem_append.mp hc with hconst | hc
    · split at hconst
      · rw [show "const ".toList = "const".toList ++ [' '] from rfl] at hconst
        rcases List.mem_append.mp hconst with hletter | hspace
        · exact Or.inl (Text.isWordChar_of_isWord (by decide) c hletter)
        · exact Or.inr (List.mem_singleton.mp hspace)
      · cases hconst
    · rcases mem_joinWith hc with ⟨w, hw, hletter⟩ | hspace
      · exact Or.inl (Text.isWordChar_of_isWord (word_of_fundamental (hmem w hw)).1 c hletter)
      · exact Or.inr (by simpa using hspace)
  · have hmem := (isSuffix_normalize hname h unconst untemplate).subset hc
    rw [Text.dropEndWhile, List.mem_reverse] at hmem
    exact Or.inl (List.mem_reverse.mp ((List.dropWhile_sublist _).mem hmem))

/-- The key of fundamental words ends with one of them. -/
theorem exists_word_of_isFundamental {name : String} (h : IsFundamental name)
    (unconst untemplate : Bool) :
    ∃ w ∈ fundamentalWords, w.toList <:+ (normalize name unconst untemplate).toList := by
  obtain ⟨hmem, hsorted⟩ := mem_sortWords h.mem h.named
  refine ⟨_, hmem _ (List.getLast_mem hsorted), ?_⟩
  rw [normalize_of_isFundamental h, key, String.toList_append]
  exact (suffix_joinWith hsorted).trans (List.suffix_append _ _)

/-- The key neither ends with a fundamental word nor is the end of one. -/
def IsApart (key : String) : Prop :=
  ∀ w ∈ fundamentalWords, ¬ (w.toList <:+ key.toList ∨ key.toList <:+ w.toList)

instance : DecidablePred IsApart := fun key =>
  inferInstanceAs (Decidable (∀ w ∈ fundamentalWords,
    ¬ (w.toList <:+ key.toList ∨ key.toList <:+ w.toList)))

/-- A name without template arguments that ends with a word of a fundamental type. -/
structure EndsFundamental (name : String) : Prop where
  plain : '>' ∉ name.toList
  ends : ∃ w ∈ fundamentalWords, w.toList <:+ name.toList

theorem EndsFundamental.ne_empty {name : String} (h : EndsFundamental name) : name ≠ "" := by
  rintro rfl
  obtain ⟨w, hw, hends⟩ := h.ends
  exact (tidy_of_fundamental hw).nonempty (List.suffix_nil.mp hends)

theorem EndsFundamental.append {front name : String} (hfront : '>' ∉ front.toList)
    (h : EndsFundamental name) : EndsFundamental (front ++ name) := by
  obtain ⟨w, hw, hends⟩ := h.ends
  refine ⟨?_, w, hw, ?_⟩
  · rw [String.toList_append, List.mem_append, not_or]
    exact ⟨hfront, h.plain⟩
  · rw [String.toList_append]
    exact hends.trans (List.suffix_append _ _)

theorem exists_of_mem_keysOf {name key : String} (hkey : key ∈ Layer.keysOf name) :
    ∃ unconst untemplate, key = normalize name unconst untemplate := by
  simp only [Layer.keysOf, List.mem_cons, List.not_mem_nil, or_false] at hkey
  rcases hkey with rfl | rfl | rfl
  · exact ⟨false, false, rfl⟩
  · exact ⟨true, false, rfl⟩
  · exact ⟨false, true, rfl⟩

/-- A key of a rule's name without template arguments ends with a fundamental word, or it is an end
of the name. -/
theorem cases_of_mem_keysOf {name key : String} (hname : '>' ∉ name.toList)
    (hkey : key ∈ Layer.keysOf name) : (∃ w ∈ fundamentalWords, w.toList <:+ key.toList) ∨
      key.toList <:+ Text.dropEndWhile Text.isBlank name.toList := by
  obtain ⟨unconst, untemplate, rfl⟩ := exists_of_mem_keysOf hkey
  by_cases h : IsFundamental name
  · exact Or.inl (exists_word_of_isFundamental h unconst untemplate)
  · exact Or.inr (isSuffix_normalize hname h unconst untemplate)

/-- **How the keys of a fundamental type end.** They end with a fundamental word, or they are an end
of one. -/
theorem EndsFundamental.exists_word_normalize {name : String} (h : EndsFundamental name)
    (unconst untemplate : Bool) : ∃ w ∈ fundamentalWords,
      w.toList <:+ (normalize name unconst untemplate).toList ∨
        (normalize name unconst untemplate).toList <:+ w.toList := by
  by_cases hfundamental : IsFundamental name
  · obtain ⟨w, hw, hends⟩ := exists_word_of_isFundamental hfundamental unconst untemplate
    exact ⟨w, hw, Or.inl hends⟩
  · obtain ⟨w, hw, hends⟩ := h.ends
    have hsuffix := isSuffix_normalize h.plain hfundamental unconst untemplate
    have htidy := tidy_of_fundamental hw
    have htrimmed : Text.dropEndWhile Text.isBlank name.toList = name.toList := by
      obtain ⟨front, hfront⟩ := hends
      obtain ⟨c, cs, hcs⟩ := List.exists_cons_of_ne_nil
        (fun h => htidy.nonempty (List.reverse_eq_nil_iff.mp h))
      have hc : Text.isBlank c = false :=
        htidy.last c (by rw [← List.head?_reverse, hcs]; rfl)
      rw [← hfront, Text.dropEndWhile, List.reverse_append, hcs, List.cons_append,
        List.dropWhile_cons_of_neg (by simp [hc]), ← List.cons_append, ← hcs, List.reverse_append,
        List.reverse_reverse, List.reverse_reverse]
    rw [htrimmed] at hsuffix
    exact ⟨w, hw, List.suffix_or_suffix_of_suffix hends hsuffix⟩

end Name

/-! ## What is found -/

/-- A rule that maps values to one target type, and neither skips its type nor takes another one in
its place. -/
structure Rule.IsTame (r : Rule) : Prop where
  value : ∃ v, r.valueTypes = some [v] ∧ v ≠ "" ∧ v ≠ "void"
  native : r.nativeTypes = none
  kept : r.skip = false

instance (r : Rule) : Decidable r.IsTame :=
  decidable_of_iff
    ((∃ vs ∈ r.valueTypes, ∃ v ∈ vs.head?, vs.length = 1 ∧ v ≠ "" ∧ v ≠ "void") ∧
      r.nativeTypes = none ∧ r.skip = false) <| by
    constructor
    · rintro ⟨⟨vs, hvs, v, hv, hlength, hne⟩, hnative, hkept⟩
      obtain ⟨u, rfl⟩ := List.length_eq_one_iff.mp hlength
      obtain rfl := Option.some.inj hv
      exact ⟨⟨u, hvs, hne⟩, hnative, hkept⟩
    · rintro ⟨⟨v, hv, hne⟩, hnative, hkept⟩
      exact ⟨⟨_, hv, v, rfl, rfl, hne⟩, hnative, hkept⟩

namespace Layer

/-- All rules of a layer stand under keys of their names. -/
def Keyed (rules : List Rule) (layer : Layer) : Prop :=
  ∀ key list, layer.find? key = some list → ∀ entry ∈ list, entry.rule ∈ rules ∧
    key ∈ (namesOf entry.rule).flatMap keysOf

theorem keyed_putAt {rules : List Rule} {layer : Layer} (h : layer.Keyed rules)
    (priority : Priority) {rule : Rule} (hrule : rule ∈ rules) :
    (layer.putAt priority rule).Keyed rules := by
  intro key list hfind entry hentry
  rw [find?_putAt] at hfind
  split at hfind
  next hkey =>
    cases hfind
    rcases mem_place hentry with rfl | hold
    · exact ⟨hrule, hkey⟩
    · cases hlist : layer.find? key with
      | none => simp [hlist] at hold
      | some list => exact h key list hlist entry (by simpa [hlist] using hold)
  · exact h key list hfind entry hentry

/-- What a name finds has a name that shares a key with it. -/
theorem exists_of_mem_get {rules : List Rule} {layer : Layer} (h : layer.Keyed rules)
    {name : String} {part : Bool} {entry : Entry} (hentry : entry ∈ layer.get name part) :
    entry.rule ∈ rules ∧ ∃ key ∈ (namesOf entry.rule).flatMap keysOf,
      ∃ unconst untemplate, key = Name.normalize name unconst untemplate := by
  unfold get at hentry
  split at hentry
  next list hlist =>
    obtain ⟨hrule, hkey⟩ := h _ _ hlist entry hentry
    exact ⟨hrule, _, hkey, _, _, rfl⟩
  · split at hentry
    next list hlist =>
      obtain ⟨hrule, hkey⟩ := h _ _ hlist entry hentry
      exact ⟨hrule, _, hkey, _, _, rfl⟩
    · split at hentry
      · cases hlist : layer.find? (Name.normalize name true true) with
        | none => simp [hlist] at hentry
        | some list =>
            obtain ⟨hrule, hkey⟩ := h _ _ hlist entry (by simpa [hlist] using hentry)
            exact ⟨hrule, _, hkey, _, _, rfl⟩
      · cases hentry

end Layer

namespace RuleTable

theorem keyed_foldl_put {all : List Rule} (rules : List Rule) (hrules : rules ⊆ all)
    {table : RuleTable} (htop : table.top.Keyed all) (hunder : table.under = []) :
    (rules.foldl put table).top.Keyed all ∧ (rules.foldl put table).under = [] := by
  induction rules generalizing table with
  | nil => exact ⟨htop, hunder⟩
  | cons rule rules ih =>
      rw [List.cons_subset] at hrules
      exact ih hrules.2 (Layer.keyed_putAt htop .last hrules.1) hunder

/-- In a table over one layer, everything is found in that layer. -/
theorem findWith?_child {table : RuleTable} (h : table.under = []) (name : String) (part : Bool) :
    table.child.findWith? name part = ((table.top.get name part).head?).map (·.rule) := by
  simp [findWith?, child, layers, h, Layer.get, Layer.find?]

theorem keyed_builtin : builtin.top.Keyed Rule.builtin ∧ builtin.under = [] := by
  have hempty : ({} : RuleTable).top.Keyed Rule.builtin := by simp [Layer.Keyed, Layer.find?]
  exact keyed_foldl_put Rule.builtin (List.Subset.refl _) hempty rfl

/-- No built-in rule holds the text of a definition. -/
theorem plain_standard : standard.Plain := by
  obtain ⟨hkeyed, hunder⟩ := keyed_builtin
  have hplain : ∀ r ∈ Rule.builtin, r.nativeText = none := by decide
  intro layer hlayer key list hlist entry hentry
  rw [standard, child, layers, layers, hunder, List.mem_cons, List.mem_singleton] at hlayer
  rcases hlayer with rfl | rfl
  · simp [Layer.find?] at hlist
  · exact hplain _ (hkeyed key list hlist entry hentry).1

/-- **What is found** is a built-in rule with a name that shares a key. -/
theorem exists_of_findWith?_standard {name : String} {part : Bool} {r : Rule}
    (h : standard.findWith? name part = some r) : r ∈ Rule.builtin ∧
      ∃ key ∈ (Layer.namesOf r).flatMap Layer.keysOf,
        ∃ unconst untemplate, key = Name.normalize name unconst untemplate := by
  obtain ⟨hkeyed, hunder⟩ := keyed_builtin
  rw [standard, findWith?_child hunder] at h
  obtain ⟨entry, hentry, rfl⟩ := Option.map_eq_some_iff.mp h
  exact Layer.exists_of_mem_get hkeyed (List.mem_of_mem_head? hentry)

/-- The words that built-in names start with, but for `const` and the fundamental ones. -/
def ownWords : List String :=
  ["operator", "std", "__attribute__", "__declspec", "void", "va_list", "FILE"] ++
    Rule.inheritedMethods

theorem plain_of_mem_ownWords : ∀ w ∈ ownWords, Text.isWord w.toList = true ∧
    Keyword.ofWord? w ≠ some .const_ ∧ Name.fundamentalWords.contains w = false := by
  decide +kernel

/-- A name that starts with one of these words is its own key. -/
theorem normalize_of_ownWords {name w : String} (hname : '>' ∉ name.toList ∧ '\r' ∉ name.toList)
    (hw : w ∈ ownWords) (hstarts : name.toList.takeWhile Text.isWordChar = w.toList)
    (unconst untemplate : Bool) :
    Name.normalize name unconst untemplate = Text.trim name := by
  obtain ⟨hword, hkeyword, hnamed⟩ := plain_of_mem_ownWords w hw
  have hleads : Text.Leads w.toList (Text.unifyBreaks name.toList) []
      (name.toList.dropWhile Text.isWordChar) := by
    refine ⟨?_, List.forall_mem_nil _, hword, fun c hc => ?_, fun c hc => ?_⟩
    · rw [Text.unifyBreaks_of_not_mem hname.2, List.nil_append, ← hstarts,
        List.takeWhile_append_dropWhile]
    · exact Text.isBlank_of_isWordChar (Text.isWordChar_of_isWord hword c (List.mem_of_mem_head? hc))
    · have hhead := List.head?_dropWhile_not Text.isWordChar name.toList
      rw [hc] at hhead
      simpa using hhead
  exact Name.normalize_of_plain_leads hname.1 hleads (by rwa [String.ofList_toList])
    (by rwa [String.ofList_toList]) unconst untemplate

/-- **The built-in names.** The keys of a name with template arguments start as the name does, and
end unlike any fundamental word. Another name belongs to a tame rule, or it starts with a word of its
own and ends unlike any fundamental word. -/
theorem namesOf_builtin : ∀ r ∈ Rule.builtin, ∀ other ∈ Layer.namesOf r,
    if '>' ∈ other.toList then
      ∀ key ∈ Layer.keysOf other, Name.IsApart key ∧
        ∃ front ∈ ["operator", "std::"], front.toList <+: key.toList
    else r.IsTame ∨ '\r' ∉ other.toList ∧
      (∃ w ∈ ownWords, other.toList.takeWhile Text.isWordChar = w.toList) ∧
        Name.IsApart (Text.trim other) := by
  decide +kernel

/-- The keys of a rule that is not tame end unlike any fundamental word. -/
theorem isApart_of_mem_keysOf {r : Rule} (hr : r ∈ Rule.builtin) (hwild : ¬ r.IsTame)
    {key : String} (hkey : key ∈ (Layer.namesOf r).flatMap Layer.keysOf) : Name.IsApart key := by
  obtain ⟨other, hother, hkey⟩ := List.mem_flatMap.mp hkey
  have hname := namesOf_builtin r hr other hother
  split at hname
  · exact (hname key hkey).1
  next hplain =>
    obtain ⟨hbroken, ⟨w, hw, hstarts⟩, hapart⟩ := hname.resolve_left hwild
    obtain ⟨unconst, untemplate, rfl⟩ := Name.exists_of_mem_keysOf hkey
    rw [normalize_of_ownWords ⟨hplain, hbroken⟩ hw hstarts]
    exact hapart

/-- **Fundamental types.** What a name that ends with a fundamental word finds is tame. -/
theorem isTame_of_findWith?_standard {name : String} {part : Bool} {r : Rule}
    (hname : Name.EndsFundamental name) (h : standard.findWith? name part = some r) :
    r.IsTame := by
  obtain ⟨hr, key, hkey, unconst, untemplate, rfl⟩ := exists_of_findWith?_standard h
  obtain ⟨w, hw, hends⟩ := hname.exists_word_normalize unconst untemplate
  by_contra hwild
  exact isApart_of_mem_keysOf hr hwild hkey w hw hends

/-- **Free names.** A name that is its own key finds nothing, if it starts like no built-in name with
template arguments, and neither a fundamental word nor a built-in name ends like it. -/
theorem findWith?_standard_eq_none {names : List String} {part : Bool}
    (hfree : ∀ name ∈ names,
      (∀ unconst untemplate, Name.normalize name unconst untemplate = name) ∧
        (∀ w ∈ Name.fundamentalWords, ¬ w.toList <:+ name.toList) ∧
        ∀ front ∈ ["operator", "std::"], ¬ front.toList <+: name.toList)
    (hends : ∀ r ∈ Rule.builtin, ∀ other ∈ Layer.namesOf r, ∀ name ∈ names,
      ¬ name.toList <:+ Text.dropEndWhile Text.isBlank other.toList) :
    ∀ name ∈ names, standard.findWith? name part = none := by
  intro name hname
  obtain ⟨hkey, hwords, hfronts⟩ := hfree name hname
  by_contra hfound
  obtain ⟨r, hfind⟩ := Option.ne_none_iff_exists'.mp hfound
  obtain ⟨hr, key, hmem, unconst, untemplate, heq⟩ := exists_of_findWith?_standard hfind
  obtain rfl : key = name := heq.trans (hkey unconst untemplate)
  obtain ⟨other, hother, hkeys⟩ := List.mem_flatMap.mp hmem
  have hbuiltin := namesOf_builtin r hr other hother
  split at hbuiltin
  · obtain ⟨-, front, hfront, hstarts⟩ := hbuiltin key hkeys
    exact hfronts front hfront hstarts
  next hplain =>
    rcases Name.cases_of_mem_keysOf hplain hkeys with ⟨w, hw, hsuffix⟩ | hsuffix
    · exact hwords w hw hsuffix
    · exact hends r hr other hother key hname hsuffix

/-- No built-in rule matches these names of variables and functions. -/
theorem find?_sample : ∀ name ∈ ["q", "z", "q(int, int)"], standard.find? name = none :=
  findWith?_standard_eq_none (by decide +kernel) (by decide +kernel)

end RuleTable

end HeaderPeers

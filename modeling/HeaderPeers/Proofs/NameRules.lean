import HeaderPeers.Proofs.RuleLayers

/-!
# The rules of one name

A word is its own key, so its rules are the one list under that key, and what is
put for the word alone goes into that list.

- `Name.normalize_word` — the keys of a word.
- `RuleTable.Stacks` — the rules of a name, as one list in the top layer, and
  what putting one more makes of it.
-/

namespace HeaderPeers

/-! ## Words as keys -/

/-- The characters that are blank are no letters. -/
theorem Text.isBlank_of_isWordChar {c : Char} (h : isWordChar c = true) : isBlank c = false := by
  have hblanks : ∀ n ∈ [9, 10, 11, 12, 13, 0x20, 0x85, 0xA0, 0x1680, 0x2000, 0x2001, 0x2002,
      0x2003, 0x2004, 0x2005, 0x2006, 0x2007, 0x2008, 0x2009, 0x200A, 0x2028, 0x2029, 0x202F,
      0x205F, 0x3000], isWordChar (Char.ofNat n) = false := by
    decide +kernel
  by_contra hblank
  have hnot := hblanks c.toNat (by
    simp only [isBlank, Bool.not_eq_false, Bool.or_eq_true, Bool.and_eq_true, decide_eq_true_eq,
      beq_iff_eq] at hblank
    simp only [List.mem_cons, List.not_mem_nil, or_false]
    omega)
  rw [Char.ofNat_toNat, h] at hnot
  cases hnot

/-- A text without white space at its ends stays as it is. -/
theorem Text.trim_of_ends {s : String} (hhead : ∀ c ∈ s.toList.head?, isBlank c = false)
    (hlast : ∀ c ∈ s.toList.getLast?, isBlank c = false) : trim s = s := by
  have hdrop : ∀ cs : List Char, (∀ c ∈ cs.head?, isBlank c = false) →
      cs.dropWhile isBlank = cs := by
    intro cs hcs
    cases cs with
    | nil => rfl
    | cons c cs => simp [hcs c rfl]
  rw [trim, dropEndWhile, hdrop _ hhead, hdrop _ (by simpa using hlast), List.reverse_reverse,
    String.ofList_toList]

/-- What is trimmed off is white space. -/
theorem Text.exists_trim (s : String) : ∃ before after : List Char,
    s.toList = before ++ ((trim s).toList ++ after) ∧ (∀ c ∈ before, isBlank c = true) ∧
      ∀ c ∈ after, isBlank c = true := by
  let rest := s.toList.dropWhile isBlank
  refine ⟨s.toList.takeWhile isBlank, (rest.reverse.takeWhile isBlank).reverse, ?_,
    fun c hc => List.mem_takeWhile_imp hc,
    fun c hc => List.mem_takeWhile_imp (List.mem_reverse.mp hc)⟩
  have hrest : (trim s).toList ++ (rest.reverse.takeWhile isBlank).reverse = rest := by
    rw [trim, dropEndWhile, String.toList_ofList, ← List.reverse_append,
      List.takeWhile_append_dropWhile, List.reverse_reverse]
  rw [hrest, List.takeWhile_append_dropWhile]

theorem Text.trim_word {name : String} (h : isWord name.toList = true) : trim name = name := by
  have hvisible : ∀ c ∈ name.toList, isBlank c = false := fun c hc =>
    isBlank_of_isWordChar (isWordChar_of_isWord h c hc)
  exact trim_of_ends (fun c hc => hvisible c (List.mem_of_mem_head? hc)) fun c hc =>
    hvisible c (List.mem_of_getLast? hc)

/-- The only token of a word is the word. -/
theorem Token.ofText_word {name : String} (h : Text.isWord name.toList = true) :
    ∃ t, ofText none name = [t] ∧ t.text = name ∧ t.isWord = true := by
  obtain ⟨c, w, hsplit⟩ : ∃ c w, name.toList = c :: w := by
    cases hname : name.toList with
    | nil =>
        rw [hname] at h
        cases h
    | cons c w => exact ⟨c, w, rfl⟩
  have hchars := Text.isWordChar_of_isWord h
  have hbreaks : Text.unifyBreaks name.toList = c :: w := by
    simpa [Text.unifyBreaks, hsplit] using Text.unifyBreaks_append_word hchars []
  rw [hsplit] at h hchars
  simp only [Text.isWord, Bool.and_eq_true, List.all_eq_true] at h
  have hvisible : Text.isBlank c = false :=
    Text.isBlank_of_isWordChar (hchars c List.mem_cons_self)
  have hread : Lexeme.read c w = Lexeme.word c w := if_pos h.1
  have htake : w.takeWhile Text.isWordChar = w := List.takeWhile_eq_self_iff.mpr h.2
  have hrest : (Lexeme.word c w).rest = [] := List.dropWhile_eq_nil_iff.mpr h.2
  have htext : String.ofList (Lexeme.word c w).text = name := by
    simp [Lexeme.word, Lexeme.verbatim, htake, ← hsplit]
  rw [ofText, hbreaks, scan]
  split
  next hnil => simp [hvisible] at hnil
  next d ds hcons =>
    obtain ⟨rfl, rfl⟩ : c = d ∧ w = ds := by simpa [hvisible] using hcons
    rw [hread]
    dsimp only
    rw [hrest, scan_nil]
    have hkind : (Lexeme.word c w).kind = .identifier ∨
        ∃ word, (Lexeme.word c w).kind = .keyword word := by
      simp only [Lexeme.word, Lexeme.verbatim]
      split <;> simp
    refine ⟨_, rfl, htext, ?_⟩
    rcases hkind with hkind | ⟨word, hkind⟩ <;> simp [isWord, hkind]

/-- A word is its own key; with `const` dropped, nothing is left of `const`. -/
theorem Name.normalize_word {name : String} (h : Text.isWord name.toList = true) :
    normalize name false false = name ∧ normalize name false true = name ∧
      normalize name true true = normalize name true false := by
  obtain ⟨t, htokens, htext, hword⟩ := Token.ofText_word h
  have hne : name.isEmpty = false := by
    cases hempty : name.isEmpty with
    | false => rfl
    | true =>
        rw [String.isEmpty_iff] at hempty
        subst hempty
        cases h
  have hcomment : t.isComment = false := by
    unfold Token.isWord at hword
    unfold Token.isComment
    split at hword <;> simp_all
  have hmark : t.is "<" = false := by
    simp only [Token.is, htext, Bool.and_eq_false_iff]
    right
    rw [beq_eq_false_iff_ne]
    rintro rfl
    cases h
  have htokens' : tokens name = [t] := by simp [tokens, htokens, hcomment]
  have hspelling : ∀ untemplate, spelling name (parts (tokens name)) untemplate = name := by
    intro untemplate
    rw [htokens']
    simp only [parts]
    split
    · simp [spelling]
    · split
      · simp [spelling, sortWords, insertWord, Text.joinWith, htext]
      · have hstart : argumentsStart? [t] = none := by
          by_cases hclose : t.is ">" = true <;>
            simp [argumentsStart?, ArgumentSearch.step, hmark, hclose]
        cases untemplate <;> simp [spelling, hstart]
  simp [normalize, hne, hspelling, Text.trim_word h]

/-! ## The rules of one name -/

namespace Layer

theorem place_place (priority : Priority) (entry : Entry) (list : List Entry) :
    place priority entry (place priority entry list) = place priority entry list := by
  have hthere : (place priority entry list).any (·.id == entry.id) = true := by
    by_cases h : list.any (·.id == entry.id) = true
    · unfold place
      rwa [if_pos h]
    · unfold place
      rw [if_neg h]
      cases priority <;> simp
  exact if_pos hthere

/-- Putting an entry under some keys puts it into the list of each of them, and
changes nothing else. -/
theorem lookup_foldl_place (priority : Priority) (entry : Entry) (keys : List String)
    (key : String) (lists : List (String × List Entry)) :
    (keys.foldl (fun lists k => alter lists k (place priority entry)) lists).lookup key =
      if key ∈ keys then some (place priority entry ((lists.lookup key).getD []))
      else lists.lookup key := by
  induction keys generalizing lists with
  | nil => simp
  | cons k keys ih =>
      rw [List.foldl_cons, ih, lookup_alter]
      by_cases hk : key = k
      · subst hk
        by_cases hmem : key ∈ keys <;> simp [hmem, place_place]
      · simp [hk]

theorem find?_putAt (layer : Layer) (priority : Priority) (rule : Rule) (key : String) :
    (layer.putAt priority rule).find? key =
      if key ∈ (namesOf rule).flatMap keysOf then
        some (place priority ⟨layer.fresh, rule⟩ ((layer.find? key).getD []))
      else layer.find? key :=
  lookup_foldl_place priority _ _ key layer.lists

end Layer

namespace RuleTable

variable {table : RuleTable} {name : String} {rules : List Rule}

/-- The rules for a name are these, all of them in the top layer: the list is
the same under each key of the name. -/
structure Stacks (table : RuleTable) (name : String) (rules : List Rule) : Prop where
  under : ∀ layer ∈ table.under, ∀ key ∈ Layer.keysOf name, layer.find? key = none
  top : ∃ entries : List Entry, entries.map (·.rule) = rules ∧
    (∀ entry ∈ entries, entry.id < table.top.fresh) ∧
    ∀ key ∈ Layer.keysOf name,
      table.top.find? key = if entries.isEmpty then none else some entries

/-- A word without rules, in a table in good order. -/
theorem stacks_nil (hsound : ∀ layer ∈ table.layers, layer.Sound)
    (hname : Text.isWord name.toList = true) (hnone : table.rules name = []) :
    table.Stacks name [] := by
  obtain ⟨hexact, hpart, hrest⟩ := Name.normalize_word hname
  have hlayer : ∀ layer ∈ table.layers, ∀ key ∈ Layer.keysOf name, layer.find? key = none := by
    intro layer hlayer
    have hget : layer.get name true = [] := by
      have hentries : table.layers.flatMap (·.get name true) = [] := by
        simpa [RuleTable.rules, rulesWith, entriesWith] using hnone
      exact List.flatMap_eq_nil_iff.mp hentries layer hlayer
    have hfilled : ∀ key, layer.find? key ≠ some [] := by
      intro key hkey
      obtain ⟨before, behind, hlists, -⟩ := List.lookup_eq_some_iff.mp hkey
      exact (hsound layer hlayer).filled key [] (by simp [hlists]) rfl
    have hname' : layer.find? name = none := by
      cases hfind : layer.find? name with
      | none => rfl
      | some list =>
          have hlist : list = [] := by simpa [Layer.get, hexact, hfind] using hget
          exact absurd (hlist ▸ hfind) (hfilled name)
    have hplain : layer.find? (Name.normalize name true false) = none := by
      cases hfind : layer.find? (Name.normalize name true false) with
      | none => rfl
      | some list =>
          have hlist : list = [] := by simpa [Layer.get, hexact, hname', hfind] using hget
          exact absurd (hlist ▸ hfind) (hfilled _)
    simp [Layer.keysOf, hexact, hpart, hname', hplain]
  refine ⟨fun layer h => hlayer layer (List.mem_cons_of_mem _ h), [], rfl, by simp, ?_⟩
  simpa using hlayer table.top List.mem_cons_self

namespace Stacks

/-- What is put for the name alone goes into its list. -/
theorem putAt (h : table.Stacks name rules) (priority : Priority) {rule : Rule}
    (hrule : rule.nativeNames = [name]) {rules' : List Rule}
    (hplace : ∀ entries : List Entry, entries.map (·.rule) = rules →
      (∀ entry ∈ entries, entry.id < table.top.fresh) →
      (Layer.place priority ⟨table.top.fresh, rule⟩ entries).map (·.rule) = rules') :
    Stacks { table with top := table.top.putAt priority rule } name rules' := by
  obtain ⟨hunder, entries, hrules, hnumbered, htop⟩ := h
  refine ⟨hunder, Layer.place priority ⟨table.top.fresh, rule⟩ entries,
    hplace entries hrules hnumbered, fun entry hentry => ?_, fun key hkey => ?_⟩
  · have hfresh : (table.top.putAt priority rule).fresh = table.top.fresh + 1 := by
      simp [Layer.putAt, Layer.putEntry]
    rw [hfresh]
    rcases Layer.mem_place hentry with rfl | hold
    · exact Nat.lt_succ_self _
    · exact Nat.lt_succ_of_lt (hnumbered entry hold)
  · have hnamed : key ∈ (Layer.namesOf rule).flatMap Layer.keysOf := by
      simpa [Layer.namesOf, hrule] using hkey
    have hfilled := Layer.place_ne_nil priority ⟨table.top.fresh, rule⟩ entries
    have hold : (table.top.find? key).getD [] = entries := by
      rw [htop key hkey]
      cases entries <;> rfl
    rw [Layer.find?_putAt, if_pos hnamed, hold, if_neg (by simpa [List.isEmpty_iff] using hfilled)]

theorem learnFirst (h : table.Stacks name rules) {rule : Rule}
    (hrule : rule.nativeNames = [name]) : (table.putFirst rule).Stacks name (rule :: rules) := by
  refine h.putAt .first hrule fun entries hrules hnumbered => ?_
  rw [Layer.place_first hnumbered, List.map_cons, hrules]

theorem learn_nil (h : table.Stacks name []) {rule : Rule} (hrule : rule.nativeNames = [name]) :
    (table.put rule).Stacks name [rule] := by
  refine h.putAt .last hrule fun entries hrules _ => ?_
  obtain rfl := List.map_eq_nil_iff.mp hrules
  rfl

theorem rulesWith_eq (h : table.Stacks name rules) (hname : Text.isWord name.toList = true)
    (part : Bool) : table.rulesWith name part = rules := by
  obtain ⟨hunder, entries, hrules, -, htop⟩ := h
  obtain ⟨hexact, -, hrest⟩ := Name.normalize_word hname
  have hkeys : name ∈ Layer.keysOf name ∧ Name.normalize name true false ∈ Layer.keysOf name := by
    simp [Layer.keysOf, hexact]
  have hbelow : table.under.flatMap (·.get name part) = [] := by
    refine List.flatMap_eq_nil_iff.mpr fun layer hlayer => ?_
    simp [Layer.get, hexact, hrest, hunder layer hlayer _ hkeys.1,
      hunder layer hlayer _ hkeys.2]
  have hget : table.top.get name part = entries := by
    simp only [Layer.get, hexact, hrest, htop _ hkeys.1, htop _ hkeys.2]
    cases entries <;> simp
  simp [rulesWith, entriesWith, layers, hget, hbelow, hrules]

theorem rules_eq (h : table.Stacks name rules) (hname : Text.isWord name.toList = true) :
    table.rules name = rules :=
  h.rulesWith_eq hname true

theorem findWith?_eq (h : table.Stacks name rules) (hname : Text.isWord name.toList = true)
    (part : Bool) : table.findWith? name part = rules.head? := by
  rw [← h.rulesWith_eq hname part, findWith?_eq_head?, rulesWith, List.head?_map]

theorem find?_eq (h : table.Stacks name rules) (hname : Text.isWord name.toList = true) :
    table.find? name = rules.head? :=
  h.findWith?_eq hname true

theorem hasKey_eq (h : table.Stacks name rules) (hname : Text.isWord name.toList = true) :
    table.hasKey name = !rules.isEmpty := by
  obtain ⟨hunder, entries, rfl, -, htop⟩ := h
  obtain ⟨hexact, -, -⟩ := Name.normalize_word hname
  have hkey : name ∈ Layer.keysOf name := by simp [Layer.keysOf, hexact]
  have hbelow : table.under.any (fun layer => (layer.find? name).isSome) = false := by
    simp only [List.any_eq_false, Bool.not_eq_true]
    intro layer hlayer
    simp [hunder layer hlayer name hkey]
  simp only [hasKey, layers, List.any_cons, hbelow, htop name hkey]
  cases entries <;> rfl

end Stacks

end RuleTable

end HeaderPeers

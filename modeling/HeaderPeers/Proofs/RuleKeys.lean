import HeaderPeers.Proofs.Lexer
import HeaderPeers.Proofs.RuleGrowth

/-!
# What a rule is found under

A name that starts with a word of its own is a key as it is written, but for the
white space around it. A rule that is put first is found under the keys of its
names, and under no other key does it change what is found.
-/

namespace HeaderPeers

/-! ## Names that start with a word -/

/-- The text starts with the word, after white space. -/
structure Text.Leads (w : List Char) (cs blanks rest : List Char) : Prop where
  split : cs = blanks ++ (w ++ rest)
  blank : ∀ c ∈ blanks, isBlank c = true
  word : isWord w = true
  visible : ∀ c ∈ w.head?, isBlank c = false
  ends : ∀ c ∈ rest.head?, isWordChar c = false

namespace Text

variable {w cs blanks rest : List Char}

theorem Leads.takeWhile (h : Leads w cs blanks rest) : cs.takeWhile isBlank = blanks := by
  obtain ⟨c, w', rfl⟩ : ∃ c w', w = c :: w' := by
    cases w with
    | nil => exact absurd h.word (by decide)
    | cons c w' => exact ⟨c, w', rfl⟩
  rw [h.split, List.takeWhile_append_of_pos h.blank]
  simp [h.visible c (by simp)]

theorem Leads.dropWhile (h : Leads w cs blanks rest) : cs.dropWhile isBlank = w ++ rest := by
  have hboth := List.takeWhile_append_dropWhile (p := isBlank) (l := cs)
  rw [h.takeWhile] at hboth
  exact List.append_cancel_left (hboth.trans h.split)

theorem isWordChar_of_isWord (h : isWord w = true) : ∀ c ∈ w, isWordChar c = true := by
  cases w with
  | nil => cases h
  | cons c w =>
      simp only [isWord, Bool.and_eq_true, List.all_eq_true] at h
      intro d hd
      rcases List.mem_cons.mp hd with rfl | hd
      · have hstart := h.1
        simp only [isWordStart, Bool.or_eq_true] at hstart
        rcases hstart with hletter | hscore
        · simp [isWordChar, hletter]
        · simp [isWordChar, hscore]
      · exact h.2 d hd

theorem unifyBreaks_cons {c : Char} (hc : c ≠ '\r') (cs : List Char) :
    unifyBreaks (c :: cs) = c :: unifyBreaks cs := by
  rw [unifyBreaks]
  · rintro cs' rfl
    exact absurd rfl hc
  · exact hc

theorem unifyBreaks_append_word {w : List Char} (h : ∀ c ∈ w, isWordChar c = true)
    (cs : List Char) : unifyBreaks (w ++ cs) = w ++ unifyBreaks cs := by
  induction w with
  | nil => rfl
  | cons c w ih =>
      have hc : c ≠ '\r' := by
        rintro rfl
        exact absurd (h '\r' List.mem_cons_self) (by decide)
      rw [List.cons_append, unifyBreaks_cons hc,
        ih fun d hd => h d (List.mem_cons_of_mem c hd), List.cons_append]

theorem unifyBreaks_append_star (cs : List Char) :
    unifyBreaks (cs ++ ['*']) = unifyBreaks cs ++ ['*'] := by
  fun_induction unifyBreaks cs with
  | case1 => rfl
  | case2 cs ih => simp [unifyBreaks, ih]
  | case3 cs hcs ih =>
      rw [List.cons_append, unifyBreaks, ih, List.cons_append]
      rintro cs' hcons
      cases cs with
      | nil => cases hcons
      | cons d cs =>
          cases hcons
          exact hcs cs rfl
  | case4 c cs _ hc ih => rw [List.cons_append, unifyBreaks_cons hc, ih, List.cons_append]

/-- A star behind the text does not change the word it starts with. -/
theorem Leads.of_star (h : Leads w (cs ++ ['*']) blanks rest) :
    ∃ rest', Leads w cs blanks rest' := by
  obtain ⟨rest', rfl⟩ : ∃ rest', rest = rest' ++ ['*'] := by
    rcases List.eq_nil_or_concat rest with rfl | ⟨rest', d, rfl⟩
    · rcases List.eq_nil_or_concat w with rfl | ⟨w', d, rfl⟩
      · exact absurd h.word (by decide)
      · have hsplit := h.split
        rw [List.append_nil, List.concat_eq_append, ← List.append_assoc] at hsplit
        have hlast := List.append_inj_right' hsplit rfl
        cases hlast
        exact absurd (isWordChar_of_isWord h.word '*' (by simp)) (by decide)
    · have hsplit := h.split
      rw [List.concat_eq_append, ← List.append_assoc, ← List.append_assoc] at hsplit
      have hlast := List.append_inj_right' hsplit rfl
      cases hlast
      exact ⟨rest', List.concat_eq_append⟩
  refine ⟨rest', ?_, h.blank, h.word, h.visible, fun c hc => h.ends c ?_⟩
  · have hsplit := h.split
    rw [← List.append_assoc, ← List.append_assoc] at hsplit
    rw [List.append_cancel_right hsplit, List.append_assoc]
  · cases rest' with
    | nil => cases hc
    | cons d rest' => exact hc

end Text

theorem Lexeme.isWordStart_of_identifier {c : Char} {cs : List Char}
    (h : (read c cs).kind = .identifier) : Text.isWordStart c = true := by
  by_contra hstart
  have hother : (read c cs).kind ≠ .identifier := by
    unfold read
    rw [if_neg hstart]
    split
    · simp only [number]
      split <;> simp
    · split
      · simp [quoted]
      · simp [quoted]
      · simp [verbatim]
      · simp [verbatim]
      · simp
      · unfold operator
        split
        · simp [verbatim]
        · simp [verbatim]
        · split <;> simp [verbatim]
        · simp [verbatim]
  exact hother h

namespace Token

/-- A text whose first token is an identifier starts with it. -/
theorem leads_of_scan {numbering : Numbering} {file : Option String} {line : Nat}
    {cs : List Char} {t : Token} {ts : List Token} (h : scan numbering file line cs = t :: ts)
    (ht : t.kind = .identifier) :
    (∃ blanks rest, Text.Leads t.text.toList cs blanks rest) ∧ Keyword.ofWord? t.text = none := by
  rw [scan] at h
  split at h
  · split at h
    · cases h
    · cases h
      cases ht
  next c rest hrest =>
    obtain ⟨rfl, -⟩ := List.cons.inj h
    have hstart := Lexeme.isWordStart_of_identifier ht
    have hread : Lexeme.read c rest = Lexeme.word c rest := if_pos hstart
    simp only [hread, Lexeme.word, Lexeme.verbatim] at ht
    simp only [hread, Lexeme.word, Lexeme.verbatim, String.toList_ofList]
    refine ⟨⟨cs.takeWhile Text.isBlank, rest.dropWhile Text.isWordChar, ?_, ?_, ?_, ?_, ?_⟩, ?_⟩
    · rw [List.cons_append, List.takeWhile_append_dropWhile, ← hrest,
        List.takeWhile_append_dropWhile]
    · exact fun d hd => List.mem_takeWhile_imp hd
    · simp only [Text.isWord, hstart, Bool.true_and, List.all_eq_true]
      exact fun d hd => List.mem_takeWhile_imp hd
    · intro d hd
      cases hd
      have hhead := List.head?_dropWhile_not Text.isBlank cs
      rw [hrest] at hhead
      simpa using hhead
    · intro d hd
      have hhead := List.head?_dropWhile_not Text.isWordChar rest
      rw [Option.mem_def.mp hd] at hhead
      simpa using hhead
    · split at ht
      · cases ht
      next hnone => exact hnone

/-- A text that starts with a word has it as its first token. -/
theorem exists_scan_of_leads {numbering : Numbering} {file : Option String} {line : Nat}
    {w cs blanks rest : List Char} (h : Text.Leads w cs blanks rest) :
    ∃ t ts, scan numbering file line cs = t :: ts ∧
      t.kind = (match Keyword.ofWord? (String.ofList w) with
        | some word => .keyword word
        | none => .identifier) ∧
      t.text = String.ofList w := by
  cases w with
  | nil => exact absurd h.word (by decide)
  | cons c w =>
      have hword' := h.word
      simp only [Text.isWord, Bool.and_eq_true, List.all_eq_true] at hword'
      have hread : Lexeme.read c (w ++ rest) = Lexeme.word c (w ++ rest) := if_pos hword'.1
      have htake : (w ++ rest).takeWhile Text.isWordChar = w := by
        rw [List.takeWhile_append_of_pos hword'.2]
        cases rest with
        | nil => simp
        | cons d rest => simp [h.ends d (by simp)]
      rw [scan]
      split
      next hnil =>
        rw [h.dropWhile] at hnil
        cases hnil
      next d ds hcons =>
        rw [h.dropWhile] at hcons
        cases hcons
        refine ⟨_, _, rfl, ?_, ?_⟩
        · change (Lexeme.read c (w ++ rest)).kind = _
          rw [hread]
          cases hkeyword : Keyword.ofWord? (String.ofList (c :: w)) <;>
            simp only [Lexeme.word, Lexeme.verbatim, htake, hkeyword]
        · change String.ofList (Lexeme.read c (w ++ rest)).text = _
          simp [hread, Lexeme.word, Lexeme.verbatim, htake]

/-- A text that starts with a word which is not reserved has it as its first token. -/
theorem scan_of_leads {numbering : Numbering} {file : Option String} {line : Nat}
    {w cs blanks rest : List Char} (h : Text.Leads w cs blanks rest)
    (hword : Keyword.ofWord? (String.ofList w) = none) :
    ∃ t ts, scan numbering file line cs = t :: ts ∧ t.kind = .identifier ∧
      t.text = String.ofList w := by
  obtain ⟨t, ts, hscan, hkind, htext⟩ := @exists_scan_of_leads numbering file line _ _ _ _ h
  rw [hword] at hkind
  exact ⟨t, ts, hscan, hkind, htext⟩

end Token

namespace Name

/-- A name that starts with a word which is neither `const` nor fundamental has
no fundamental words in front. -/
theorem exists_parts_of_leads {name : String} {w blanks rest : List Char}
    (h : Text.Leads w (Text.unifyBreaks name.toList) blanks rest)
    (hword : Keyword.ofWord? (String.ofList w) ≠ some .const_)
    (hnamed : fundamentalWords.contains (String.ofList w) = false) :
    ∃ t ts, parts (tokens name) = ⟨false, [], t :: ts⟩ := by
  obtain ⟨t, ts, hscan, hkind, htext⟩ := @Token.exists_scan_of_leads .counted none 1 _ _ _ _ h
  have hfirst : t.isComment = false ∧ t.isKeyword .const_ = false := by
    rw [Token.isComment, Token.isKeyword, hkind]
    split
    next word heq => simpa [heq] using hword
    · simp
  have htokens : tokens name = t :: ts.filter (!·.isComment) := by
    unfold tokens Token.ofText
    rw [hscan]
    simp [hfirst.1]
  refine ⟨t, ts.filter (!·.isComment), ?_⟩
  rw [htokens, parts, if_neg (by simp [hfirst.2]), if_neg (by simpa [htext] using hnamed)]

theorem normalize_of_parts {name : String} {t : Token} {ts : List Token}
    (h : parts (tokens name) = ⟨false, [], t :: ts⟩) (unconst : Bool) :
    normalize name unconst false = Text.trim name := by
  have hne : name ≠ "" := by
    rintro rfl
    have hempty : tokens "" = [] := by
      simp [tokens, Token.ofText, Text.unifyBreaks, Token.scan_nil]
    rw [hempty] at h
    cases h
  unfold normalize
  rw [if_neg (by simpa using hne)]
  simp [h, spelling]

/-- **Names are keys as they stand.** A name that starts with a word which is
neither reserved nor fundamental is its own key, but for white space around it. -/
theorem normalize_of_leads {name : String} {w blanks rest : List Char}
    (h : Text.Leads w (Text.unifyBreaks name.toList) blanks rest)
    (hword : Keyword.ofWord? (String.ofList w) = none)
    (hnamed : fundamentalWords.contains (String.ofList w) = false) (unconst : Bool) :
    normalize name unconst false = Text.trim name := by
  obtain ⟨t, ts, hparts⟩ := exists_parts_of_leads h (by simp [hword]) hnamed
  exact normalize_of_parts hparts unconst

end Name

/-! ## What a new entry is found under -/

namespace Layer

/-- Identities of entries are smaller than the next one. -/
def Numbered (layer : Layer) : Prop :=
  ∀ key list, layer.find? key = some list → ∀ entry ∈ list, entry.id < layer.fresh

theorem numbered_empty : Numbered {} := by
  intro key list h
  cases h

theorem mem_place {priority : Priority} {entry other : Entry} {list : List Entry}
    (h : other ∈ place priority entry list) : other = entry ∨ other ∈ list := by
  unfold place at h
  split at h
  · exact Or.inr h
  · cases priority with
    | first => exact List.mem_cons.mp h
    | last => simpa [or_comm] using h
    | position i =>
        simp only [List.mem_append, List.mem_cons] at h
        rcases h with h | h | h
        · exact Or.inr (List.mem_of_mem_take h)
        · exact Or.inl h
        · exact Or.inr (List.mem_of_mem_drop h)

/-- What holds of all entries and of a new one holds of all when it is put. -/
theorem forall_mem_putEntry {P : Entry → Prop} {layer : Layer} {priority : Priority}
    {entry : Entry} (h : ∀ key list, layer.find? key = some list → ∀ other ∈ list, P other)
    (hentry : P entry) :
    ∀ key list, (layer.putEntry priority entry).find? key = some list → ∀ other ∈ list, P other := by
  have hfold : ∀ (keys : List String) (lists : List (String × List Entry)),
      (∀ key list, lists.lookup key = some list → ∀ other ∈ list, P other) →
      ∀ key list, (keys.foldl (fun lists k => alter lists k (Layer.place priority entry))
        lists).lookup key = some list → ∀ other ∈ list, P other := by
    intro keys
    induction keys with
    | nil => exact fun lists hlists => hlists
    | cons k keys ih =>
        intro lists hlists
        refine ih _ fun key list hlist other hother => ?_
        rw [lookup_alter] at hlist
        split at hlist
        · obtain rfl := Option.some.inj hlist
          rcases mem_place hother with rfl | hold
          · exact hentry
          · cases hk : lists.lookup k with
            | none => simp [hk] at hold
            | some old => exact hlists k old hk other (by simpa [hk] using hold)
        · exact hlists key list hlist other hother
  exact hfold _ layer.lists h

/-- Putting an entry gives the next one an identity of its own. -/
theorem Numbered.putEntry {layer : Layer} (h : layer.Numbered) (priority : Priority)
    (entry : Entry) : (layer.putEntry priority entry).Numbered := by
  have hbound : ∀ key list, (layer.putEntry priority entry).find? key = some list →
      ∀ other ∈ list, other.id < max layer.fresh (entry.id + 1) :=
    forall_mem_putEntry
      (fun key list hlist other hother =>
        Nat.lt_of_lt_of_le (h key list hlist other hother) (Nat.le_max_left _ _))
      (Nat.lt_of_lt_of_le (Nat.lt_succ_self _) (Nat.le_max_right _ _))
  exact hbound

theorem place_of_mem {entry : Entry} {list : List Entry} (priority : Priority)
    (h : entry ∈ list) : place priority entry list = list :=
  if_pos (List.any_eq_true.mpr ⟨entry, h, by simp⟩)

theorem place_first {entry : Entry} {list : List Entry}
    (h : ∀ other ∈ list, other.id < entry.id) : place .first entry list = entry :: list := by
  have hnew : list.any (·.id == entry.id) = false := by
    simp only [List.any_eq_false, beq_iff_eq]
    intro other hother
    exact Nat.ne_of_lt (h other hother)
  simp [place, hnew]

/-- Under a key where an entry is, putting it again does nothing. -/
theorem lookup_foldl_place_of_mem {priority : Priority} {entry : Entry} {key : String}
    {old : List Entry} (hold : entry ∈ old) (keys : List String)
    (lists : List (String × List Entry)) (h : lists.lookup key = some old) :
    (keys.foldl (fun lists k => alter lists k (place priority entry)) lists).lookup key =
      some old := by
  induction keys generalizing lists with
  | nil => exact h
  | cons k keys ih =>
      refine ih _ ?_
      rw [lookup_alter]
      by_cases hk : key = k
      · subst hk
        simp [h, place_of_mem priority hold]
      · simpa [hk] using h

/-- Putting an entry first under some keys puts it first under each of them, and
changes nothing else. -/
theorem lookup_foldl_place_first {entry : Entry} (keys : List String) (key : String)
    (lists : List (String × List Entry))
    (hnew : ∀ list, lists.lookup key = some list → ∀ other ∈ list, other.id < entry.id) :
    (keys.foldl (fun lists k => alter lists k (place .first entry)) lists).lookup key =
      if key ∈ keys then some (entry :: (lists.lookup key).getD []) else lists.lookup key := by
  induction keys generalizing lists with
  | nil => simp
  | cons k keys ih =>
      rw [List.foldl_cons]
      by_cases hk : key = k
      · subst hk
        have hold : ∀ other ∈ (lists.lookup key).getD [], other.id < entry.id := by
          cases hlist : lists.lookup key with
          | none => simp
          | some list => exact hnew list hlist
        have hput : (alter lists key (place .first entry)).lookup key =
            some (entry :: (lists.lookup key).getD []) := by
          simp [lookup_alter, place_first hold]
        rw [lookup_foldl_place_of_mem List.mem_cons_self keys _ hput]
        simp
      · have hsame : (alter lists k (place .first entry)).lookup key = lists.lookup key := by
          simp [lookup_alter, hk]
        rw [ih _ (by rwa [hsame]), hsame]
        simp [hk]

theorem find?_putAt_first {layer : Layer} (h : layer.Numbered) (rule : Rule) (key : String) :
    (layer.putAt .first rule).find? key =
      if key ∈ (namesOf rule).flatMap keysOf then
        some (⟨layer.fresh, rule⟩ :: (layer.find? key).getD [])
      else layer.find? key :=
  lookup_foldl_place_first _ key layer.lists fun list hlist => h key list hlist

end Layer

/-- **What a rule that is put first is found under.** A name that is its own key
finds the new rule if it is one of the keys of the rule, and whatever it found
before if not. -/
theorem RuleTable.findWith?_putFirst {table : RuleTable} (h : table.top.Numbered) (rule : Rule)
    {name : String} (hname : ∀ unconst, Name.normalize name unconst false = name) :
    (table.putFirst rule).findWith? name false =
      if name ∈ (Layer.namesOf rule).flatMap Layer.keysOf then some rule
      else table.findWith? name false := by
  have hfind := Layer.find?_putAt_first h rule name
  unfold findWith? layers putFirst Layer.get
  simp only [hname, List.findSome?_cons, hfind]
  by_cases hkey : name ∈ (Layer.namesOf rule).flatMap Layer.keysOf
  · simp only [if_pos hkey]
    rfl
  · simp only [if_neg hkey, Bool.false_eq_true, if_false]

/-- A name that no rule matches has no rule of its own. -/
theorem RuleTable.findWith?_eq_none {table : RuleTable} {name : String}
    (h : table.find? name = none) : table.findWith? name false = none := by
  rw [find?, findWith?, List.findSome?_eq_none_iff] at h
  rw [findWith?, List.findSome?_eq_none_iff]
  intro layer hlayer
  have hnone := h layer hlayer
  rw [Option.map_eq_none_iff] at hnone ⊢
  unfold Layer.get at hnone ⊢
  split
  next list hlist => simpa [hlist] using hnone
  next hlist =>
    split
    next list' hlist' => simpa [hlist, hlist'] using hnone
    · rfl

end HeaderPeers

import HeaderPeers.Proofs.VisibleTokens
import Mathlib.Data.List.Sort
import Mathlib.Data.String.Basic

/-!
# Keys of names

A name of a fundamental type has the key that its words have in alphabetical order. So
two such names have one key exactly if they have the same words, each as often, and agree
on `const` where it counts. The key of any name is its own key.

- `Name.IsFundamental` — a name of fundamental words and `const`.
- `Name.key` — the words in order, with `const` in front.
- `Name.normalize_of_isFundamental` — the key of such a name is that.
- `Name.normalize_canonical` — which names have one key, and that keys are their own.
-/

namespace HeaderPeers

/-! ## Trimming -/

namespace Text

theorem trim_ends (s : String) : (∀ c ∈ (trim s).toList.head?, isBlank c = false) ∧
    ∀ c ∈ (trim s).toList.getLast?, isBlank c = false := by
  have hhead := List.head?_dropWhile_not isBlank s.toList
  have hlast := List.head?_dropWhile_not isBlank (s.toList.dropWhile isBlank).reverse
  have hsuffix : (trim s).toList <+: s.toList.dropWhile isBlank := by
    rw [trim, dropEndWhile, String.toList_ofList, ← List.reverse_suffix, List.reverse_reverse]
    exact List.dropWhile_suffix _
  constructor
  · intro c hc
    obtain ⟨more, hmore⟩ := hsuffix
    rw [← hmore, List.head?_append, Option.mem_def.mp hc] at hhead
    simpa using hhead
  · intro c hc
    rw [trim, dropEndWhile, String.toList_ofList, List.getLast?_reverse] at hc
    rw [Option.mem_def.mp hc] at hlast
    simpa using hlast

theorem trim_trim (s : String) : trim (trim s) = trim s :=
  trim_of_ends (trim_ends s).1 (trim_ends s).2

/-- A text without line terminators that white space neither starts nor ends. -/
structure Tidy (cs : List Char) : Prop where
  head : ∀ c ∈ cs.head?, isBlank c = false
  last : ∀ c ∈ cs.getLast?, isBlank c = false
  nonempty : cs ≠ []
  unbroken : '\r' ∉ cs

theorem tidy_of_isWord {w : List Char} (h : isWord w = true) : Tidy w := by
  have hvisible : ∀ c ∈ w, isBlank c = false := fun c hc =>
    isBlank_of_isWordChar (isWordChar_of_isWord h c hc)
  refine ⟨fun c hc => hvisible c (List.mem_of_mem_head? hc),
    fun c hc => hvisible c (List.mem_of_getLast? hc), ?_, fun hmem =>
      absurd (hvisible _ hmem) (by decide)⟩
  rintro rfl
  cases h

theorem Tidy.append_space {cs ds : List Char} (hcs : Tidy cs) (hds : Tidy ds) :
    Tidy (cs ++ ' ' :: ds) := by
  obtain ⟨c, cs, rfl⟩ := List.exists_cons_of_ne_nil hcs.nonempty
  refine ⟨by simpa using hcs.head, fun d hd => ?_, by simp, ?_⟩
  · rw [List.getLast?_append, List.getLast?_cons, List.getLast?_eq_some_getLast hds.nonempty] at hd
    exact hds.last d (by simpa [List.getLast?_eq_some_getLast hds.nonempty] using hd)
  · simpa [hds.unbroken] using hcs.unbroken

theorem Tidy.trim_eq {s : String} (h : Tidy s.toList) : trim s = s :=
  trim_of_ends h.head h.last

theorem unifyBreaks_of_not_mem {cs : List Char} (h : '\r' ∉ cs) : unifyBreaks cs = cs := by
  induction cs with
  | nil => rfl
  | cons c cs ih =>
      rw [List.mem_cons, not_or] at h
      rw [unifyBreaks_cons (Ne.symm h.1), ih h.2]

theorem isBlank_of_mem_unifyBreaks {cs : List Char} (h : ∀ c ∈ cs, isBlank c = true) :
    ∀ c ∈ unifyBreaks cs, isBlank c = true := by
  fun_induction unifyBreaks cs with
  | case1 => exact h
  | case2 cs ih =>
      rintro c (_ | ⟨_, hc⟩)
      · rfl
      · exact ih (fun d hd => h d (by simp [hd])) c hc
  | case3 cs _ ih =>
      rintro c (_ | ⟨_, hc⟩)
      · rfl
      · exact ih (fun d hd => h d (by simp [hd])) c hc
  | case4 c cs _ _ ih =>
      rintro d (_ | ⟨_, hd⟩)
      · exact h c List.mem_cons_self
      · exact ih (fun e he => h e (by simp [he])) d hd

/-- Line terminators are unified piece by piece, unless one stands across the pieces. -/
theorem unifyBreaks_append {cs ds : List Char}
    (h : cs.getLast? = some '\r' → ds.head? ≠ some '\n') :
    unifyBreaks (cs ++ ds) = unifyBreaks cs ++ unifyBreaks ds := by
  fun_induction unifyBreaks cs with
  | case1 => rfl
  | case2 cs ih =>
      rw [List.cons_append, List.cons_append, unifyBreaks, ih, List.cons_append]
      intro hlast
      exact h (by cases cs <;> simp_all)
  | case3 cs hcs ih =>
      rw [List.cons_append, unifyBreaks, ih, List.cons_append]
      · intro hlast
        exact h (by cases cs <;> simp_all)
      · rintro rest hcons
        cases cs with
        | nil =>
            rw [List.nil_append] at hcons
            exact h rfl (by rw [hcons]; rfl)
        | cons d cs =>
            rw [List.cons_append] at hcons
            cases hcons
            exact hcs cs rfl
  | case4 c cs _ hc ih =>
      rw [List.cons_append, unifyBreaks_cons hc, ih, List.cons_append]
      intro hlast
      exact h (by cases cs <;> simp_all)

end Text

/-! ## Names of fundamental types -/

namespace Name

/-- The words of a name besides `const`. -/
def typeWords (name : String) : List String :=
  ((tokens name).filter (!·.isKeyword .const_)).map (·.text)

/-- Whether `const` stands anywhere in a name. -/
def hasConst (name : String) : Bool :=
  (tokens name).any (·.isKeyword .const_)

/-- A name that consists of fundamental words, at least one, and `const`. -/
structure IsFundamental (name : String) : Prop where
  only : ∀ t ∈ tokens name, t.isKeyword .const_ = true ∨ t.text ∈ fundamentalWords
  named : typeWords name ≠ []

/-- The words in alphabetical order, with `const` in front. -/
def key (const : Bool) (words : List String) : String :=
  (if const then "const " else "") ++ Text.joinWith " " (sortWords words)

theorem parts_of_fundamental {ts : List Token}
    (h : ∀ t ∈ ts, t.isKeyword .const_ = true ∨ t.text ∈ fundamentalWords) :
    parts ts = ⟨ts.any (·.isKeyword .const_), ts.filter (!·.isKeyword .const_), []⟩ := by
  induction ts with
  | nil => rfl
  | cons t ts ih =>
      have hmore := ih fun u hu => h u (List.mem_cons_of_mem t hu)
      rw [parts, hmore]
      cases hconst : t.isKeyword .const_ with
      | true => simp [hconst]
      | false =>
          have hword : t.text ∈ fundamentalWords := by simpa [hconst] using h t List.mem_cons_self
          simp [hconst, hword]

/-- Names that are split into words and `const` alone are those. -/
theorem isFundamental_of_parts {name : String} (hrest : (parts (tokens name)).rest = [])
    (hwords : (parts (tokens name)).words ≠ []) : IsFundamental name := by
  have honly : ∀ ts : List Token, (parts ts).rest = [] →
      ∀ t ∈ ts, t.isKeyword .const_ = true ∨ t.text ∈ fundamentalWords := by
    intro ts
    induction ts with
    | nil => exact fun _ t ht => by cases ht
    | cons u ts ih =>
        intro hrest t ht
        unfold parts at hrest
        split at hrest
        next hconst =>
          rcases List.mem_cons.mp ht with rfl | ht
          · exact Or.inl hconst
          · exact ih hrest t ht
        · split at hrest
          next hword =>
            rcases List.mem_cons.mp ht with rfl | ht
            · exact Or.inr (by simpa using hword)
            · exact ih hrest t ht
          · cases hrest
  have hall := honly _ hrest
  rw [parts_of_fundamental hall] at hwords
  exact ⟨hall, by simpa [typeWords] using hwords⟩

/-- What a name is shows in its tokens, wherever they stand. -/
theorem isFundamental_iff {name : String} : IsFundamental name ↔
    (∀ x ∈ (tokens name).map Token.face, x.1 = .keyword .const_ ∨ x.2 ∈ fundamentalWords) ∧
      ∃ x ∈ (tokens name).map Token.face, x.1 ≠ .keyword .const_ := by
  constructor
  · intro h
    refine ⟨by simpa [Token.isKeyword, Token.face] using h.only, ?_⟩
    obtain ⟨w, hw⟩ := List.exists_mem_of_ne_nil _ h.named
    obtain ⟨t, ht, -⟩ := List.mem_map.mp hw
    obtain ⟨hmem, hconst⟩ := List.mem_filter.mp ht
    exact ⟨t.face, List.mem_map_of_mem hmem, by simpa [Token.isKeyword, Token.face] using hconst⟩
  · rintro ⟨honly, x, hx, hconst⟩
    obtain ⟨t, ht, rfl⟩ := List.mem_map.mp hx
    refine ⟨by simpa [Token.isKeyword, Token.face] using honly, List.ne_nil_of_mem (a := t.text) ?_⟩
    exact List.mem_map_of_mem (List.mem_filter.mpr ⟨ht, by
      simpa [Token.isKeyword, Token.face] using hconst⟩)

theorem IsFundamental.mem {name : String} (h : IsFundamental name) :
    ∀ w ∈ typeWords name, w ∈ fundamentalWords := by
  intro w hw
  obtain ⟨t, ht, rfl⟩ := List.mem_map.mp hw
  obtain ⟨hmem, hconst⟩ := List.mem_filter.mp ht
  exact (h.only t hmem).resolve_left (by simpa using hconst)

theorem IsFundamental.ne_empty {name : String} (h : IsFundamental name) : name ≠ "" := by
  rintro rfl
  exact h.named (by simp [typeWords, tokens, Token.ofText, Text.unifyBreaks, Token.scan_nil])

theorem spelling_of_isFundamental {name : String} (h : IsFundamental name) (untemplate : Bool) :
    spelling name (parts (tokens name)) untemplate = key (hasConst name) (typeWords name) := by
  have hwords : (tokens name).filter (!·.isKeyword .const_) ≠ [] := by
    simpa [typeWords] using h.named
  rw [parts_of_fundamental h.only, spelling, if_pos (by simpa using hwords)]
  rfl

/-! ## Alphabetical order -/

theorem sortWords_eq (words : List String) : sortWords words = words.insertionSort (· ≤ ·) := by
  have hinsert (w : String) (ws : List String) :
      insertWord w ws = ws.orderedInsert (· ≤ ·) w := by
    induction ws with
    | nil => rfl
    | cons v ws ih =>
        rw [insertWord, List.orderedInsert, ih]
  induction words with
  | nil => rfl
  | cons w ws ih =>
      rw [List.insertionSort_cons, ← ih, ← hinsert]
      rfl

theorem sortWords_perm (words : List String) : (sortWords words).Perm words := by
  rw [sortWords_eq]
  exact List.perm_insertionSort _ _

/-- The order in which words stand makes no difference to the sorted list. -/
theorem sortWords_eq_of_perm {words words' : List String} (h : words.Perm words') :
    sortWords words = sortWords words' := by
  have hsorted (ws : List String) : (sortWords ws).Pairwise (· ≤ ·) := by
    rw [sortWords_eq]
    exact List.pairwise_insertionSort _ _
  exact ((sortWords_perm words).trans (h.trans (sortWords_perm words').symm)).eq_of_pairwise'
    (hsorted words) (hsorted words')

/-! ## The tokens of a key -/

theorem map_face_tokens (name : String) :
    (tokens name).map Token.face = Token.faces (Text.unifyBreaks name.toList) :=
  Token.faces_scan .counted none 1 _

/-- What a fundamental word is made of. -/
theorem word_of_fundamental {w : String} (h : w ∈ fundamentalWords) :
    Text.isWord w.toList = true ∧ Keyword.ofWord? w = none := by
  have hall : ∀ w ∈ fundamentalWords, Text.isWord w.toList = true ∧ Keyword.ofWord? w = none := by
    decide +kernel
  exact hall w h

theorem joinWith_cons {w : String} {ws : List String} (h : ws ≠ []) :
    Text.joinWith " " (w :: ws) = w ++ " " ++ Text.joinWith " " ws := by
  obtain ⟨v, vs, rfl⟩ := List.exists_cons_of_ne_nil h
  simp [Text.joinWith, String.intercalate_cons_cons]

/-- Words with single spaces between them are read as these words. -/
theorem faces_joinWith {ws : List String} (h : ∀ w ∈ ws, w ∈ fundamentalWords) :
    Token.faces (Text.joinWith " " ws).toList = ws.map fun w => (Kind.identifier, w) := by
  induction ws with
  | nil => exact Token.faces_nil
  | cons w ws ih =>
      obtain ⟨hword, hkeyword⟩ := word_of_fundamental (h w List.mem_cons_self)
      have hkind : Token.wordKind (String.ofList w.toList) = .identifier := by
        simp [Token.wordKind, String.ofList_toList, hkeyword]
      have hmore := ih fun v hv => h v (List.mem_cons_of_mem w hv)
      rw [List.map_cons, ← hmore]
      rcases eq_or_ne ws [] with rfl | hne
      · have hend : ∀ c ∈ ([] : List Char).head?, Text.isWordChar c = false := by simp
        have hfaces := Token.faces_word hword hend
        rw [List.append_nil, hkind, String.ofList_toList] at hfaces
        simpa [Text.joinWith] using hfaces
      · have hend : ∀ c ∈ (' ' :: (Text.joinWith " " ws).toList).head?,
            Text.isWordChar c = false := by
          rintro c hc
          cases hc
          rfl
        have hfaces := Token.faces_word hword hend
        rw [hkind, String.ofList_toList] at hfaces
        rw [joinWith_cons hne, String.toList_append, String.toList_append, List.append_assoc]
        exact hfaces.trans (congrArg _ (Token.faces_blank rfl _))

theorem tidy_of_fundamental {w : String} (h : w ∈ fundamentalWords) : Text.Tidy w.toList :=
  Text.tidy_of_isWord (word_of_fundamental h).1

theorem tidy_joinWith {ws : List String} (h : ∀ w ∈ ws, w ∈ fundamentalWords) (hne : ws ≠ []) :
    Text.Tidy (Text.joinWith " " ws).toList := by
  induction ws with
  | nil => exact absurd rfl hne
  | cons w ws ih =>
      have hword := tidy_of_fundamental (h w List.mem_cons_self)
      rcases eq_or_ne ws [] with rfl | hmore
      · simpa [Text.joinWith] using hword
      · have hwords := ih (fun v hv => h v (List.mem_cons_of_mem w hv)) hmore
        rw [joinWith_cons hmore, String.toList_append, String.toList_append, List.append_assoc]
        exact hword.append_space hwords

/-- Words in order are fundamental words as well. -/
theorem mem_sortWords {ws : List String} (h : ∀ w ∈ ws, w ∈ fundamentalWords) (hne : ws ≠ []) :
    (∀ w ∈ sortWords ws, w ∈ fundamentalWords) ∧ sortWords ws ≠ [] :=
  ⟨fun w hw => h w ((sortWords_perm ws).mem_iff.mp hw),
    fun hnil => hne (List.Perm.nil_eq (hnil ▸ sortWords_perm ws)).symm⟩

theorem tidy_key {ws : List String} (h : ∀ w ∈ ws, w ∈ fundamentalWords) (hne : ws ≠ [])
    (const : Bool) : Text.Tidy (key const ws).toList := by
  obtain ⟨hmem, hsorted⟩ := mem_sortWords h hne
  have hwords := tidy_joinWith hmem hsorted
  cases const with
  | false => simpa [key] using hwords
  | true =>
      have hconst : Text.Tidy "const".toList := Text.tidy_of_isWord (by decide +kernel)
      have hmark : (key true ws).toList =
          "const".toList ++ ' ' :: (Text.joinWith " " (sortWords ws)).toList := by
        rw [key, String.toList_append]
        rfl
      exact hmark ▸ hconst.append_space hwords

/-- The tokens of a key. -/
theorem map_face_tokens_key (const : Bool) {ws : List String} (h : ∀ w ∈ ws, w ∈ fundamentalWords)
    (hne : ws ≠ []) : (tokens (key const ws)).map Token.face =
      (if const then [(Kind.keyword .const_, "const")] else []) ++
        (sortWords ws).map fun w => (Kind.identifier, w) := by
  obtain ⟨hmem, hsorted⟩ := mem_sortWords h hne
  rw [map_face_tokens, Text.unifyBreaks_of_not_mem (tidy_key h hne const).unbroken, key,
    String.toList_append, ← faces_joinWith hmem]
  cases const with
  | false => rfl
  | true =>
      have hend : ∀ c ∈ (' ' :: (Text.joinWith " " (sortWords ws)).toList).head?,
          Text.isWordChar c = false := by
        rintro c hc
        cases hc
        rfl
      have hfaces := Token.faces_word (w := "const".toList) (by decide +kernel) hend
      refine hfaces.trans ?_
      rw [Token.faces_blank rfl]
      rfl

/-- A key is a name of the same words, and with `const` if it has that. -/
theorem isFundamental_key (const : Bool) {ws : List String} (h : ∀ w ∈ ws, w ∈ fundamentalWords)
    (hne : ws ≠ []) : IsFundamental (key const ws) ∧ (typeWords (key const ws)).Perm ws ∧
      hasConst (key const ws) = const := by
  have hfaces := map_face_tokens_key const h hne
  have htypeWords : typeWords (key const ws) = sortWords ws := by
    have hwords : typeWords (key const ws) =
        (((tokens (key const ws)).map Token.face).filter (·.1 != .keyword .const_)).map (·.2) := by
      rw [List.filter_map, List.map_map]
      rfl
    rw [hwords, hfaces]
    cases const <;> simp [List.filter_map, Function.comp_def]
  have hconst : hasConst (key const ws) = const := by
    have hany : hasConst (key const ws) =
        ((tokens (key const ws)).map Token.face).any (·.1 == .keyword .const_) := by
      rw [List.any_map]
      rfl
    rw [hany, hfaces]
    cases const <;> simp
  have hperm := htypeWords ▸ sortWords_perm ws
  refine ⟨⟨fun t ht => ?_, htypeWords ▸ (mem_sortWords h hne).2⟩, hperm, hconst⟩
  have hface : t.face ∈ (tokens (key const ws)).map Token.face := List.mem_map_of_mem ht
  rw [hfaces, List.mem_append] at hface
  rcases hface with hface | hface
  · refine Or.inl ?_
    cases const with
    | false => cases hface
    | true =>
        have hkind : t.kind = .keyword .const_ := congrArg Prod.fst (List.mem_singleton.mp hface)
        simp [Token.isKeyword, hkind]
  · obtain ⟨w, hw, heq⟩ := List.mem_map.mp hface
    have htext : w = t.text := congrArg Prod.snd heq
    exact Or.inr (htext ▸ (mem_sortWords h hne).1 w hw)

/-! ## Keys -/

/-! ## Keys -/

theorem dropConst_key (words : List String) :
    dropConst (key true words) = " " ++ key false words := by
  have hcut : Text.cutChars? "const".toList (key true words).toList =
      some ([], ' ' :: (Text.joinWith " " (sortWords words)).toList) := by
    rw [key, String.toList_append]
    rfl
  have hafter : String.ofList (' ' :: (Text.joinWith " " (sortWords words)).toList) =
      " " ++ key false words := by
    rw [← String.toList_inj]
    simp [key]
  rw [dropConst, Text.cut?, hcut]
  exact hafter

/-- White space in front is trimmed off. -/
theorem trim_space_append (s : String) : Text.trim (" " ++ s) = Text.trim s := by
  have hdrop : (" " ++ s).toList.dropWhile Text.isBlank = s.toList.dropWhile Text.isBlank := by
    rw [String.toList_append]
    rfl
  rw [Text.trim, hdrop, Text.trim]

/-- The key of a name of a fundamental type. -/
theorem normalize_of_isFundamental {name : String} (h : IsFundamental name)
    (unconst untemplate : Bool) : normalize name unconst untemplate =
      key (hasConst name && !unconst) (typeWords name) := by
  have hname : name.isEmpty = false := by
    simpa [Bool.eq_false_iff, String.isEmpty_iff] using h.ne_empty
  have htrim (const : Bool) := (tidy_key h.mem h.named const).trim_eq
  have hconst : (parts (tokens name)).const = hasConst name := by
    rw [parts_of_fundamental h.only]
    rfl
  simp only [normalize, hname, Bool.false_eq_true, if_false, spelling_of_isFundamental h, hconst]
  cases hhas : hasConst name with
  | false => simp [htrim]
  | true =>
      cases unconst with
      | false => simp [htrim]
      | true => simp [dropConst_key, trim_space_append, htrim]

/-- Two keys are one exactly if the words are the same, each as often. -/
theorem key_eq_key_iff {const const' : Bool} {ws vs : List String}
    (hws : ∀ w ∈ ws, w ∈ fundamentalWords) (hws' : ws ≠ [])
    (hvs : ∀ w ∈ vs, w ∈ fundamentalWords) (hvs' : vs ≠ []) :
    key const ws = key const' vs ↔ const = const' ∧ ws.Perm vs := by
  constructor
  · intro heq
    obtain ⟨-, hperm, hconst⟩ := isFundamental_key const hws hws'
    obtain ⟨-, hperm', hconst'⟩ := isFundamental_key const' hvs hvs'
    rw [heq] at hperm hconst
    exact ⟨hconst.symm.trans hconst', hperm.symm.trans hperm'⟩
  · rintro ⟨rfl, hperm⟩
    rw [key, key, sortWords_eq_of_perm hperm]

/-- A key is its own key. -/
theorem normalize_key {ws : List String} (h : ∀ w ∈ ws, w ∈ fundamentalWords) (hne : ws ≠ [])
    {const unconst : Bool} (hconst : unconst = true → const = false) (untemplate : Bool) :
    normalize (key const ws) unconst untemplate = key const ws := by
  obtain ⟨hkey, hperm, hhas⟩ := isFundamental_key const h hne
  rw [normalize_of_isFundamental hkey, hhas, key_eq_key_iff hkey.mem hkey.named h hne]
  refine ⟨?_, hperm⟩
  cases unconst with
  | false => simp
  | true => simp [hconst rfl]

/-! ## Trimmed names -/

/-- A token that is spelled as a fundamental word is a word. -/
theorem word_of_mem_tokens {name : String} {t : Token} (ht : t ∈ tokens name)
    (htext : t.text ∈ fundamentalWords) :
    t.kind = .identifier ∨ ∃ word, t.kind = .keyword word := by
  obtain ⟨hmem, hcomment⟩ := List.mem_filter.mp ht
  refine Token.word_of_mem_scan hmem (by simpa using hcomment) fun c hc => ?_
  have hword := (word_of_fundamental htext).1
  obtain ⟨cs, hcs⟩ := List.head?_eq_some_iff.mp hc
  rw [hcs, Text.isWord, Bool.and_eq_true] at hword
  exact hword.1

/-- White space at the ends makes no difference to the tokens of a name of words. -/
theorem map_face_tokens_trim {name : String} (h : IsFundamental (Text.trim name)) :
    (tokens name).map Token.face = (tokens (Text.trim name)).map Token.face := by
  have hwords : ∀ x ∈ Token.faces (Text.unifyBreaks (Text.trim name).toList),
      x.1 = .identifier ∨ ∃ word, x.1 = .keyword word := by
    rw [← map_face_tokens]
    intro x hx
    obtain ⟨t, ht, rfl⟩ := List.mem_map.mp hx
    rcases h.only t ht with hconst | htext
    · exact Or.inr ⟨.const_, by simpa [Token.isKeyword, Token.face] using hconst⟩
    · exact word_of_mem_tokens ht htext
  obtain ⟨before, after, hname, hbefore, hafter⟩ := Text.exists_trim name
  obtain ⟨hhead, hlast⟩ := Text.trim_ends name
  have hbreaks : Text.unifyBreaks name.toList = Text.unifyBreaks before ++
      (Text.unifyBreaks (Text.trim name).toList ++ Text.unifyBreaks after) := by
    rw [hname, Text.unifyBreaks_append, Text.unifyBreaks_append]
    · intro hreturn
      exact absurd (hlast _ hreturn) (by decide)
    · intro _ hfeed
      obtain ⟨c, cs, htrim⟩ := List.exists_cons_of_ne_nil
        (fun hnil => h.ne_empty (String.toList_eq_nil_iff.mp hnil))
      rw [htrim] at hhead hfeed
      obtain rfl : c = '\n' := by simpa using hfeed
      exact absurd (hhead _ rfl) (by decide)
  rw [map_face_tokens, map_face_tokens, hbreaks,
    Token.faces_blanks (Text.isBlank_of_mem_unifyBreaks hbefore),
    Token.faces_append_blanks hwords (Text.isBlank_of_mem_unifyBreaks hafter)]

/-- A name is one of a fundamental type if that is so without the white space at its ends. -/
theorem isFundamental_of_trim {name : String} (h : IsFundamental (Text.trim name)) :
    IsFundamental name := by
  rw [isFundamental_iff, map_face_tokens_trim h]
  exact isFundamental_iff.mp h

/-- A name that is none of a fundamental type is its own key, trimmed. -/
theorem normalize_of_not_isFundamental {name : String} (h : ¬ IsFundamental name) :
    normalize name false false = Text.trim name := by
  by_cases hname : name.isEmpty = true
  · obtain rfl := String.isEmpty_iff.mp hname
    rfl
  · have hspelling : spelling name (parts (tokens name)) false = name := by
      have hsimple : ((parts (tokens name)).rest.isEmpty &&
          !(parts (tokens name)).words.isEmpty) = false := by
        rw [Bool.eq_false_iff]
        intro hsimple
        simp only [Bool.and_eq_true, List.isEmpty_iff, Bool.not_eq_true',
          List.isEmpty_eq_false_iff] at hsimple
        exact h (isFundamental_of_parts hsimple.1 hsimple.2)
      simp [spelling, hsimple]
    simp [normalize, hname, hspelling]

/-- **Keys of names.** Two names of fundamental types have one key exactly if they have
the same words, each as often, and agree on `const` where it counts. Their keys are their
own keys, and so is the key of any name with `const` and template arguments kept. -/
theorem normalize_canonical :
    (∀ a b, IsFundamental a → IsFundamental b → ∀ unconst untemplate,
      (normalize a unconst untemplate = normalize b unconst untemplate ↔
        (typeWords a).Perm (typeWords b) ∧ (unconst = true ∨ hasConst a = hasConst b)) ∧
      normalize (normalize a unconst untemplate) unconst untemplate =
        normalize a unconst untemplate) ∧
    ∀ name, normalize (normalize name false false) false false = normalize name false false := by
  refine ⟨fun a b ha hb unconst untemplate => ⟨?_, ?_⟩, fun name => ?_⟩
  · rw [normalize_of_isFundamental ha, normalize_of_isFundamental hb,
      key_eq_key_iff ha.mem ha.named hb.mem hb.named, and_comm]
    cases unconst <;> simp
  · rw [normalize_of_isFundamental ha]
    exact normalize_key ha.mem ha.named (by rintro rfl; simp) untemplate
  · by_cases h : IsFundamental name
    · rw [normalize_of_isFundamental h]
      exact normalize_key h.mem h.named (by simp) false
    · rw [normalize_of_not_isFundamental h,
        normalize_of_not_isFundamental (mt isFundamental_of_trim h), Text.trim_trim]

/-- Two spellings of one type, and a third without `const`. -/
theorem unsigned_long_canonical :
    let a := "unsigned long/* wide */const\tint "
    let b := "const long int unsigned"
    let c := "int long unsigned \\\n"
    IsFundamental a ∧ IsFundamental b ∧ IsFundamental c ∧
      normalize a false true = normalize b false true ∧
      normalize a false true ≠ normalize c false true ∧
      normalize a true false = normalize c true false ∧
      normalize (normalize a false true) false true = normalize a false true := by
  intro a b c
  obtain ⟨hall, hperm, hconst, hperm'⟩ :
      (∀ name ∈ [a, b, c], (∀ t ∈ tokens name, t.isKeyword .const_ = true ∨
        t.text ∈ fundamentalWords) ∧ typeWords name ≠ []) ∧
      ((typeWords a).Perm (typeWords b) ∧ (false = true ∨ hasConst a = hasConst b)) ∧
      ¬ (false = true ∨ hasConst a = hasConst c) ∧
      (typeWords a).Perm (typeWords c) := by
    decide +kernel
  have hfundamental (name : String) (hname : name ∈ [a, b, c]) : IsFundamental name :=
    ⟨(hall name hname).1, (hall name hname).2⟩
  have ha := hfundamental a (by simp)
  have hb := hfundamental b (by simp)
  have hc := hfundamental c (by simp)
  obtain ⟨hab, hagain⟩ := normalize_canonical.1 a b ha hb false true
  obtain ⟨hac, -⟩ := normalize_canonical.1 a c ha hc false true
  obtain ⟨hac', -⟩ := normalize_canonical.1 a c ha hc true false
  exact ⟨ha, hb, hc, hab.mpr hperm, fun heq => hconst (hac.mp heq).2,
    hac'.mpr ⟨hperm', .inl rfl⟩, hagain⟩

end Name

end HeaderPeers

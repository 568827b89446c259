import HeaderPeers.Proofs.Enumeration.Counting
import HeaderPeers.Proofs.Enumeration.Members

/-!
# Values inside a class of values

In the class of values that an enumeration is printed as, a value refers to earlier ones: a single
name is copied, and in an expression the field of the name is read. A value that is only known at run
time is read through a getter.

- `Enumeration.Renders` — the printed value of a name is the native one.
- `Enumeration.renders_of_value`, `Enumeration.renders_getter` — what is printed like that.
-/

namespace HeaderPeers

open Arithmetic

namespace Enumeration

variable {names : List Char → Option Int} {seen : List String} {e : Enumerator} {v : Int}
  {ts : List Token} {x : Expression}

/-! ## Texts without dots -/

theorem literal_undotted {t : Token} {n : Nat} (h : t.IsLiteral n) : '.' ∉ t.text.toList := by
  obtain ⟨source, -, hvalue, htext⟩ := h.written
  obtain ⟨body, marks, rfl, hbody, hchars, hmarks⟩ := exists_body hvalue
  have hundotted : '.' ∉ body := fun hmem => absurd (hchars _ hmem) (by decide)
  rw [htext]
  rcases textOf_eq hbody hchars hmarks with heq | ⟨heq, -⟩
  · simpa [heq] using hundotted
  · rwa [heq]

/-- An expression is written without dots. -/
theorem chars_undotted (h : Written ts x) (hblank : ∀ t ∈ ts, t.Blank) :
    '.' ∉ Token.chars ts := by
  have hspacing {t : Token} (ht : t.Blank) : '.' ∉ t.spacing.toList :=
    fun hmem => absurd (ht _ hmem) (by decide)
  have hmark {t : Token} {text : String} (ht : t.IsMark text) (htext : '.' ∉ text.toList) :
      '.' ∉ t.text.toList := by
    rwa [ht.2]
  induction h with
  | @literal t n h =>
      simpa [Token.chars, Token.spaced, literal_undotted h] using hspacing (hblank t (by simp))
  | @name t kind word =>
      have hword : '.' ∉ t.text.toList := fun hmem =>
        absurd (Text.isWordChar_of_isWord word _ hmem) (by decide)
      simpa [Token.chars, Token.spaced, hword] using hspacing (hblank t (by simp))
  | @sign t ts x negative mark apart operand ih =>
      have hsign := hmark mark (by cases negative <;> decide)
      have hrest := ih fun u hu => hblank u (by simp [hu])
      rw [chars_cons, List.mem_append, List.mem_append]
      exact fun hmem => hmem.elim (·.elim (hspacing (hblank t (by simp))) hsign) hrest
  | @group t u ts x opening inside closing ih =>
      have hrest := ih fun v hv => hblank v (by simp [hv])
      have hopening := hmark opening (by decide)
      have hclosing := hmark closing (by decide)
      have hfirst := hspacing (hblank t (by simp))
      have hlast := hspacing (hblank u (by simp))
      simp only [List.cons_append, chars_cons, chars_append, List.mem_append, not_or]
      exact ⟨⟨hfirst, hopening⟩, hrest, ⟨hlast, hclosing⟩, by simp [Token.chars]⟩
  | @binary op ls ms rs l r left marks right apart ihl ihr =>
      have hl := ihl fun v hv => hblank v (by simp [hv])
      have hr := ihr fun v hv => hblank v (by simp [hv])
      have hop : '.' ∉ Token.chars ms := by
        obtain ⟨blanks, hchars, hblanks⟩ := marks.chars_eq fun v hv => hblank v (by simp [hv])
        rw [hchars, List.mem_append, not_or]
        exact ⟨fun hmem => absurd (hblanks _ hmem) (by decide), by cases op <;> decide⟩
      simp only [chars_append, List.mem_append, not_or]
      exact ⟨⟨hl, hop⟩, hr⟩

/-! ## Values inside the class -/

theorem fields_toString (hseen : AreWords seen) (n : Int) :
    fields seen (toString n).toList = (toString n).toList := by
  have hdigits (m : Nat) : fields seen (Nat.toDigits 10 m) = Nat.toDigits 10 m := by
    have hne : Nat.toDigits 10 m ≠ [] := Nat.toDigits_ne_nil
    have hchars : ∀ c ∈ Nat.toDigits 10 m, Text.isWordChar c = true := by
      intro c hc
      have hdigit := isDigit_toDigits c hc
      refine isWordChar_of_isNameChar (isNameChar_of_isDigit hdigit) ?_
      rintro rfl
      cases hdigit
    have hword : Text.isWord (Nat.toDigits 10 m) = false := by
      obtain ⟨c, cs, hcs⟩ := List.exists_cons_of_ne_nil hne
      have hdigit := isDigit_toDigits c (hcs ▸ List.mem_cons_self)
      by_contra hword
      rw [Bool.not_eq_false, hcs] at hword
      simp only [Text.isWord, Bool.and_eq_true] at hword
      rw [isDigit_of_isWordStart hword.1] at hdigit
      cases hdigit
    have hall := fields_of_word seen hchars hne
    rwa [withField_of_not_word hseen hword] at hall
  rw [toList_toString]
  split
  · exact hdigits _
  · rw [List.singleton_append, fields_cons hseen (by decide +kernel), hdigits]

theorem fields_ne_nil (hseen : AreWords seen) {cs : List Char} (hne : cs ≠ []) :
    fields seen cs ≠ [] := by
  obtain ⟨c, cs, rfl⟩ := List.exists_cons_of_ne_nil hne
  cases hc : Text.isWordChar c with
  | false =>
      rw [fields_cons hseen hc]
      exact List.cons_ne_nil _ _
  | true =>
      let word := (c :: cs).takeWhile Text.isWordChar
      have hword : ∀ d ∈ word, Text.isWordChar d = true := fun d hd => List.mem_takeWhile_imp hd
      have hnonempty : word ≠ [] := by simp [word, hc]
      have hrest := List.head?_dropWhile_not Text.isWordChar (c :: cs)
      rw [← List.takeWhile_append_dropWhile (p := Text.isWordChar) (l := c :: cs),
        fields_append hseen hword hnonempty fun d hd => by
          rw [Option.mem_def.mp hd] at hrest
          simpa using hrest]
      refine List.append_ne_nil_of_left_ne_nil ?_ _
      rcases withField_cases seen word with heq | ⟨-, heq⟩
      · rwa [heq]
      · rw [heq]
        exact List.append_ne_nil_of_left_ne_nil hnonempty _

/-- The value of a name that is not read through a getter: a copy, or the value with its fields. -/
theorem value_rebase (hseen : AreWords seen) (hgetter : e.getter = false) :
    (e.base ∈ seen ∧ e.value = e.base ∧ (rebase seen e).value = e.base) ∨
      (rebase seen e).value = String.ofList (fields seen e.value.toList) := by
  unfold rebase
  rw [if_neg (by simp [hgetter])]
  by_cases hcopy : (seen.contains e.base && e.count == 0) = true
  · obtain ⟨hmem, hcount⟩ := Bool.and_eq_true_iff.mp hcopy
    have hbase : e.base.isEmpty = false := by
      by_contra hempty
      rw [Bool.not_eq_false, String.isEmpty_iff] at hempty
      have hword := hseen _ (List.contains_iff_mem.mp hmem)
      rw [hempty] at hword
      cases hword
    have hvalue : e.value = e.base := by
      unfold Enumerator.value
      rw [if_neg (by simp [hbase]), if_pos hcount]
    rw [if_pos hcopy]
    exact Or.inl ⟨List.contains_iff_mem.mp hmem, hvalue, hvalue⟩
  · right
    rw [if_neg hcopy]
    by_cases hempty : e.base.isEmpty = true
    · rw [if_pos hempty]
      have hvalue : e.value = toString e.count := if_pos hempty
      rw [hvalue, fields_toString hseen, String.ofList_toList]
    · have hbase : (valueExpression seen e.base).isEmpty = false := by
        by_contra hbase
        rw [Bool.not_eq_false, String.isEmpty_iff] at hbase
        have hnil := congrArg String.toList hbase
        rw [toList_valueExpression] at hnil
        refine fields_ne_nil hseen (fun hnone => hempty ?_) hnil
        rw [String.toList_eq_nil_iff.mp hnone]
        rfl
      have htext : valueExpression seen e.base = String.ofList (fields seen e.base.toList) := by
        rw [← toList_valueExpression, String.ofList_toList]
      rw [if_neg hempty]
      unfold Enumerator.value
      dsimp only
      rw [if_neg (by simp [hbase]), if_neg hempty, htext]
      split
      · rfl
      · have hsum : (e.base ++ " + " ++ toString e.count).toList =
            e.base.toList ++ ' ' :: '+' :: ' ' :: (toString e.count).toList := by simp
        rw [hsum, fields_append_cons hseen (by decide +kernel), fields_cons hseen (by decide +kernel),
          fields_cons hseen (by decide +kernel), fields_toString hseen]
        refine String.toList_injective ?_
        simp

theorem value_undotted (hdot : '.' ∉ e.base.toList) : '.' ∉ e.value.toList := by
  have hcount : '.' ∉ (toString e.count).toList := by
    have hdigits (m : Nat) : '.' ∉ Nat.toDigits 10 m := fun hmem =>
      absurd (isDigit_toDigits _ hmem) (by decide)
    rw [toList_toString]
    split
    · exact hdigits _
    · simpa using hdigits _
  unfold Enumerator.value
  split
  · exact hcount
  · split
    · exact hdot
    · simpa [String.toList_append, hdot] using hcount

/-- The printed value of a name is the native one. It is an earlier name that is copied, the getter
of the name, or an expression that refers to earlier names by their fields only and calls
nothing. -/
inductive Renders (names : List Char → Option Int) (seen : List String) (e : Enumerator) (v : Int) :
    Prop where
  | copy (earlier : e.value ∈ seen) (native : names e.value.toList = some v)
  | getter (isGetter : e.getter = true) (text : e.value = e.name ++ "_value()")
      (native : names e.name.toList = some v)
  | expression (ws : List Word) (words : words? e.value.toList = some ws)
      (called : ws.IsChain fun w u => (∃ cs, w = .name cs) → u ≠ .opening)
      (fields : ∀ cs, Word.name cs ∈ ws → (∃ name ∈ seen, cs = name.toList ++ ".value".toList) ∨
        '.' ∉ cs ∧ String.ofList cs ∉ seen)
      (native : value? (memberNames names seen) e.value = some v)

/-- Behind a name there is its value. -/
theorem value?_of_name {name : String} (hword : Text.isWord name.toList = true)
    (hvalue : value? names name = some v) : names name.toList = some v := by
  unfold value? at hvalue
  rw [words?_name hword] at hvalue
  obtain ⟨m, hm, hresult⟩ := Option.bind_eq_some_iff.mp (Option.bind_some _ _ ▸ hvalue)
  obtain ⟨w, hw, rfl⟩ : ∃ w, names name.toList = some w ∧ m = { value? := some w } := by
    obtain ⟨m₁, hstep, hnil⟩ := Option.bind_eq_some_iff.mp hm
    obtain ⟨w, hw, rfl⟩ := Option.map_eq_some_iff.mp hstep
    exact ⟨w, hw, (Option.some.inj hnil).symm⟩
  exact hw.trans hresult

/-- A value that has the native one is printed with it. -/
theorem renders_of_value (hseen : AreWords seen) (hgetter : e.getter = false)
    (hdot : '.' ∉ e.base.toList) (hvalue : value? names e.value = some v) :
    Renders names seen (rebase seen e) v := by
  rcases value_rebase hseen hgetter with ⟨hmem, hbase, hrebased⟩ | hrebased
  · rw [hbase] at hvalue
    exact .copy (hrebased ▸ hmem) (hrebased ▸ value?_of_name (hseen _ hmem) hvalue)
  · have hundotted := value_undotted hdot
    have hnative := value?_fields names hseen hundotted
    rw [← hrebased, hvalue] at hnative
    obtain ⟨ws, hws, hrun⟩ := Option.bind_eq_some_iff.mp hvalue
    have hwords : words? (rebase seen e).value.toList = some (ws.map (member seen)) := by
      rw [hrebased, String.toList_ofList, words?_fields hseen hundotted, hws, Option.map_some]
    obtain ⟨ws', hws', hrun'⟩ := Option.bind_eq_some_iff.mp hnative
    obtain rfl := Option.some.inj (hwords.symm.trans hws')
    obtain ⟨m, hm, -⟩ := Option.bind_eq_some_iff.mp hrun'
    refine .expression _ hwords (isChain_of_run hm) (fun cs hcs => ?_) hnative
    obtain ⟨w, hw, hfield⟩ := List.mem_map.mp hcs
    cases w with
    | name p =>
        obtain rfl : withField seen p = cs := Word.name.inj hfield
        rcases withField_cases seen p with heq | ⟨hmem, heq⟩
        · rw [heq]
          refine Or.inr ⟨isUndotted_of_words? hundotted hws p hw, fun hmem => ?_⟩
          rw [withField, if_pos (List.contains_iff_mem.mpr hmem)] at heq
          exact absurd heq (by simp)
        · have hname : (String.ofList p).toList = p := String.toList_ofList
          exact Or.inl ⟨String.ofList p, hmem, hname.symm ▸ heq⟩
    | literal digits => cases hfield
    | operator op => cases hfield
    | opening => cases hfield
    | closing => cases hfield

theorem renders_getter (hgetter : e.getter = true) (hcount : e.count = 0)
    (hvalue : names e.name.toList = some v) : Renders names seen (rebase seen e) v := by
  unfold rebase
  rw [if_pos hgetter]
  refine .getter hgetter ?_ hvalue
  unfold Enumerator.value
  dsimp only
  rw [if_neg (by simp), if_pos (by simp [hcount])]

/-- Counting on behind a getter gives a call of the field, which is no method. -/
theorem value_behind_getter (hseen : AreWords seen) {name : String} (hname : name ∈ seen)
    (hgetter : e.getter = false) (hbase : e.base = name ++ "()") (hcount : e.count ≠ 0) :
    (rebase seen e).value = name ++ ".value()" ++ " + " ++ toString e.count := by
  have hword := hseen name hname
  have hne : name.toList ≠ [] := by
    intro hnil
    rw [hnil] at hword
    cases hword
  have hcall : fields seen "()".toList = "()".toList := by
    have hopening : Text.isWordChar '(' = false := by decide
    have hclosing : Text.isWordChar ')' = false := by decide
    exact (fields_cons hseen hopening [')']).trans
      (congrArg ('(' :: ·) (fields_cons hseen hclosing []))
  have hfield : withField seen name.toList = name.toList ++ ".value".toList :=
    if_pos (List.contains_iff_mem.mpr (by rwa [String.ofList_toList]))
  have hexpression : valueExpression seen e.base = name ++ ".value()" := by
    refine String.toList_injective ?_
    have hhead : ∀ c ∈ "()".toList.head?, Text.isWordChar c = false := by
      intro c hc
      obtain rfl : '(' = c := Option.some.inj hc
      decide
    have hsplit := fields_append hseen (Text.isWordChar_of_isWord hword) hne hhead
    rw [hcall, hfield] at hsplit
    rw [toList_valueExpression, hbase, String.toList_append, hsplit, String.toList_append,
      List.append_assoc]
    rfl
  have hnonempty : e.base.isEmpty = false := by
    rw [hbase]
    simp
  unfold rebase
  rw [if_neg (by simp [hgetter]), if_neg (by simp [hcount]), if_neg (by simp [hnonempty]),
    hexpression]
  unfold Enumerator.value
  dsimp only
  rw [if_neg (by simp), if_neg (by simp [hcount])]

end Enumeration

end HeaderPeers

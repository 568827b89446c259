import HeaderPeers.Proofs.NameRules
import HeaderPeers.Proofs.Window.Thinning

/-!
# The visible tokens of a text

What a text is read as, if neither white space nor comments count.

- `Token.faces` — kinds and texts of the tokens of a text that are no comments.
- `Token.faces_cons` — the first lexeme and what is behind it.
- `Token.faces_word`, `Token.faces_punct`, `Token.faces_symbol` — a word or a mark at the start.
- `Token.faces_append_blanks` — white space behind words changes nothing.
-/

namespace HeaderPeers

/-- What is seen of a lexeme. -/
def Lexeme.faces (x : Lexeme) : List (Kind × String) :=
  if x.kind = .comment then [] else [(x.kind, String.ofList x.text)]

namespace Token

/-- Kinds and texts of the tokens of a text, without comments. -/
def faces (cs : List Char) : List (Kind × String) :=
  ((scan .counted none 1 cs).map face).filter (·.1 != .comment)

/-- Where a text stands makes no difference to what its tokens are. -/
theorem map_face_scan (numbering numbering' : Numbering) (file file' : Option String)
    (line line' : Nat) (cs : List Char) :
    (scan numbering file line cs).map face = (scan numbering' file' line' cs).map face := by
  fun_induction scan numbering file line cs generalizing line' with
  | case1 line cs spacing hrest hspacing =>
      conv_rhs => rw [scan]
      split
      · rw [if_pos hspacing]
      next hcons =>
        rw [hrest] at hcons
        cases hcons
  | case2 line cs spacing line₁ hrest hspacing =>
      conv_rhs => rw [scan]
      split
      · rw [if_neg hspacing]
        rfl
      next hcons =>
        rw [hrest] at hcons
        cases hcons
  | case3 line cs spacing line₁ c rest hrest lexeme ih =>
      conv_rhs => rw [scan]
      split
      next hnil =>
        rw [hrest] at hnil
        cases hnil
      next c' rest' hcons =>
        rw [hrest] at hcons
        cases hcons
        simp only [List.map_cons, ih (numbering'.advance (numbering'.advance line'
          (cs.takeWhile Text.isBlank)) lexeme.source)]
        rfl

theorem faces_scan (numbering : Numbering) (file : Option String) (line : Nat) (cs : List Char) :
    ((scan numbering file line cs).filter (!·.isComment)).map face = faces cs := by
  rw [faces, map_face_scan .counted numbering none file 1 line, List.filter_map]
  rfl

/-- A text of white space alone has no visible tokens. -/
theorem faces_of_blank {cs : List Char} (h : ∀ c ∈ cs, Text.isBlank c = true) : faces cs = [] := by
  have hnil : cs.dropWhile Text.isBlank = [] := List.dropWhile_eq_nil_iff.mpr h
  rw [faces, scan]
  split
  · split <;> rfl
  next hcons =>
    rw [hnil] at hcons
    cases hcons

theorem faces_nil : faces [] = [] :=
  faces_of_blank (by simp)

/-- Behind white space stands the first lexeme, and behind it what else there is. -/
theorem faces_cons {cs rest : List Char} {c : Char} (h : cs.dropWhile Text.isBlank = c :: rest) :
    faces cs = (Lexeme.read c rest).faces ++ faces (Lexeme.read c rest).rest := by
  rw [faces, scan]
  split
  next hnil =>
    rw [h] at hnil
    cases hnil
  next c' rest' hcons =>
    rw [h] at hcons
    cases hcons
    rw [List.map_cons, List.filter_cons, map_face_scan .counted .counted none none _ 1]
    unfold Lexeme.faces
    by_cases hkind : (Lexeme.read c rest).kind = .comment
    · rw [if_neg (by simp [face, hkind]), if_pos hkind]
      rfl
    · rw [if_pos (by simp [face, hkind]), if_neg hkind]
      rfl

/-- White space in front changes nothing. -/
theorem faces_blanks {blanks : List Char} (h : ∀ c ∈ blanks, Text.isBlank c = true)
    (cs : List Char) : faces (blanks ++ cs) = faces cs := by
  have hdrop : (blanks ++ cs).dropWhile Text.isBlank = cs.dropWhile Text.isBlank := by
    rw [List.dropWhile_append_of_pos h]
  cases hcs : cs.dropWhile Text.isBlank with
  | nil =>
      rw [faces_of_blank (List.dropWhile_eq_nil_iff.mp (hdrop.trans hcs)),
        faces_of_blank (List.dropWhile_eq_nil_iff.mp hcs)]
  | cons c rest => rw [faces_cons (hdrop.trans hcs), faces_cons hcs]

theorem faces_blank {c : Char} (h : Text.isBlank c = true) (cs : List Char) :
    faces (c :: cs) = faces cs := by
  have hblanks : ∀ d ∈ [c], Text.isBlank d = true := by simpa using h
  exact faces_blanks hblanks cs

/-- Without white space in front the first lexeme is at the start. -/
theorem faces_read {c : Char} (h : Text.isBlank c = false) (cs : List Char) :
    faces (c :: cs) = (Lexeme.read c cs).faces ++ faces (Lexeme.read c cs).rest :=
  faces_cons (by simp [h])

/-! ## Words and marks -/

/-- The kind of token that a word is. -/
def wordKind (word : String) : Kind :=
  match Keyword.ofWord? word with
  | some word => .keyword word
  | none => .identifier

theorem wordKind_ne_comment (word : String) : wordKind word ≠ .comment := by
  unfold wordKind
  split <;> simp

/-- The lexeme of a word ends before the first other character. -/
theorem read_word {c : Char} {w rest : List Char} (hw : Text.isWord (c :: w) = true)
    (hrest : ∀ c ∈ rest.head?, Text.isWordChar c = false) : Lexeme.read c (w ++ rest) =
      ⟨wordKind (String.ofList (c :: w)), c :: w, c :: w, rest⟩ := by
  simp only [Text.isWord, Bool.and_eq_true, List.all_eq_true] at hw
  have hread : Lexeme.read c (w ++ rest) = Lexeme.word c (w ++ rest) := if_pos hw.1
  have htake : (w ++ rest).takeWhile Text.isWordChar = w := by
    rw [List.takeWhile_append_of_pos hw.2]
    cases rest with
    | nil => simp
    | cons d rest => simp [hrest d (by simp)]
  have hdrop : (w ++ rest).dropWhile Text.isWordChar = rest := by
    have hboth := List.takeWhile_append_dropWhile (p := Text.isWordChar) (l := w ++ rest)
    rw [htake] at hboth
    exact List.append_cancel_left hboth
  rw [hread]
  simp only [Lexeme.word, Lexeme.verbatim, htake, hdrop]
  rfl

/-- A word at the start, up to the first other character. -/
theorem faces_word {w rest : List Char} (hw : Text.isWord w = true)
    (hrest : ∀ c ∈ rest.head?, Text.isWordChar c = false) :
    faces (w ++ rest) = (wordKind (String.ofList w), String.ofList w) :: faces rest := by
  cases w with
  | nil => cases hw
  | cons c w =>
      have hblank : Text.isBlank c = false :=
        Text.isBlank_of_isWordChar (Text.isWordChar_of_isWord hw c List.mem_cons_self)
      rw [List.cons_append, faces_read hblank, read_word hw hrest, Lexeme.faces,
        if_neg (wordKind_ne_comment _)]
      rfl

/-- A mark of one character, which does not join with what follows. -/
theorem faces_punct {c : Char} {rest : List Char} (hc : c = '*' ∨ c = '&')
    (hrest : ∀ d ∈ rest.head?, (c, d) ∉ Lexeme.pairs) :
    faces (c :: rest) = (.punct, String.ofList [c]) :: faces rest := by
  have hread : Lexeme.read c rest = Lexeme.operator c rest := by
    rcases hc with rfl | rfl <;> rfl
  have hblank : Text.isBlank c = false := by rcases hc with rfl | rfl <;> rfl
  have hoperator : Lexeme.operator c rest = ⟨.punct, [c], [c], rest⟩ := by
    cases rest with
    | nil => rcases hc with rfl | rfl <;> rfl
    | cons d rest =>
        have hpair := hrest d rfl
        rcases hc with rfl | rfl <;> simp [Lexeme.operator, Lexeme.verbatim, hpair]
  rw [faces_read hblank, hread, hoperator]
  rfl

/-- A mark of two characters. -/
theorem faces_symbol {c : Char} (hc : c = ':' ∨ c = '&') (rest : List Char) :
    faces (c :: c :: rest) = (.symbol, String.ofList [c, c]) :: faces rest := by
  have hread : Lexeme.read c (c :: rest) = ⟨.symbol, [c, c], [c, c], rest⟩ := by
    rcases hc with rfl | rfl <;> rfl
  have hblank : Text.isBlank c = false := by rcases hc with rfl | rfl <;> rfl
  rw [faces_read hblank, hread]
  rfl

end Token

/-! ## How a text starts -/

/-- A number keeps its first character, which is neither a mark of the width nor the start
of one. -/
theorem Number.head?_textOf {c : Char} {cs : List Char} (hmark : isSuffixMark c = false)
    (hwidth : c ≠ 'i') : (textOf (c :: cs)).head? = some c := by
  obtain ⟨digits, hdigits⟩ : ∃ ds, (c :: cs).filter (!isSuffixMark ·) = c :: ds :=
    ⟨_, List.filter_cons_of_pos (by simp [hmark])⟩
  have hplain : ((dropWidth? (c :: digits)).getD (c :: digits)).head? = some c := by
    unfold dropWidth?
    split
    next hsuffix =>
      obtain ⟨before, hbefore⟩ := List.isSuffixOf_iff_suffix.mp hsuffix
      cases before with
      | nil =>
          cases hbefore
          exact absurd rfl hwidth
      | cons d before =>
          cases hbefore
          simp
    · rfl
  unfold textOf
  simp only [hdigits]
  split
  · rw [List.head?_append, hplain]
    rfl
  · exact hplain

/-- The text of a lexeme that is no comment starts as the lexeme does. -/
theorem Lexeme.head?_text {c : Char} {cs : List Char} (h : (read c cs).kind ≠ .comment) :
    (read c cs).text.head? = some c := by
  unfold read at h ⊢
  split
  · rfl
  split
  next hnumber =>
    have hchar : c.isDigit = true ∨ c = '.' := by
      simp only [Bool.or_eq_true, Bool.and_eq_true, beq_iff_eq] at hnumber
      exact hnumber.imp_right And.left
    have hmarks : ∀ d ∈ ['l', 'L', 'u', 'U', 'i'], d.isDigit = false ∧ d ≠ '.' := by
      simp [Char.isDigit]
    have hnot : ∀ d ∈ ['l', 'L', 'u', 'U', 'i'], c ≠ d := by
      rintro d hd rfl
      obtain ⟨hdigit, hpoint⟩ := hmarks _ hd
      exact hchar.elim (by simp [hdigit]) hpoint
    refine Number.head?_textOf ?_ (hnot 'i' (by simp))
    simp [Number.isSuffixMark, Number.isLongMark, Number.isUnsignedMark, hnot]
  · have hquoted (kind : Kind) (quote : Char) :
        (quoted kind quote cs).text.head? = some quote := by
      simp only [quoted]
      split <;> rfl
    split
    · exact hquoted _ _
    · exact hquoted _ _
    · rfl
    · rfl
    · exact absurd rfl h
    · unfold operator
      split
      · rfl
      · rfl
      · split <;> rfl
      · rfl

/-- A token whose text starts with a letter is a word, if it is no comment. -/
theorem Token.word_of_mem_scan {numbering : Numbering} {file : Option String} {line : Nat}
    {cs : List Char} {t : Token} (ht : t ∈ scan numbering file line cs)
    (hcomment : t.isComment = false)
    (hstart : ∀ c ∈ t.text.toList.head?, Text.isWordStart c = true) :
    t.kind = .identifier ∨ ∃ word, t.kind = .keyword word := by
  fun_induction scan numbering file line cs with
  | case1 => cases ht
  | case2 =>
      obtain rfl := List.mem_singleton.mp ht
      cases hcomment
  | case3 line cs spacing line' c rest hrest lexeme ih =>
      rcases List.mem_cons.mp ht with rfl | ht
      · have hkind : (Lexeme.read c rest).kind ≠ .comment := by
          simpa [isComment] using hcomment
        have hc : Text.isWordStart c = true := hstart c (by simp [lexeme, Lexeme.head?_text hkind])
        have hread : lexeme = Lexeme.word c rest := if_pos hc
        simp only [hread, Lexeme.word, Lexeme.verbatim]
        split <;> simp
      · exact ih ht

/-! ## White space behind a text -/

namespace Lexeme

/-- White space behind a line comment is taken up to some point. -/
theorem lineTail_append_suffix (last : Char) (cs bs : List Char) :
    ∃ bs', bs' <:+ bs ∧ (lineTail last (cs ++ bs)).2 = (lineTail last cs).2 ++ bs' := by
  induction cs generalizing last with
  | nil => exact ⟨(lineTail last bs).2, ⟨_, lineTail_append last bs⟩, rfl⟩
  | cons c cs ih =>
      rw [List.cons_append]
      unfold lineTail
      split
      · exact ⟨bs, List.suffix_refl bs, rfl⟩
      · exact ih c

theorem blockTail_append_suffix (last : Char) (cs bs : List Char) :
    ∃ bs', bs' <:+ bs ∧ (blockTail last (cs ++ bs)).2 = (blockTail last cs).2 ++ bs' := by
  induction cs generalizing last with
  | nil => exact ⟨(blockTail last bs).2, ⟨_, blockTail_append last bs⟩, rfl⟩
  | cons c cs ih =>
      rw [List.cons_append]
      unfold blockTail
      split
      · exact ⟨bs, List.suffix_refl bs, rfl⟩
      · exact ih c

/-- What a comment starts with. -/
theorem comment_cases {c : Char} {cs : List Char} (h : (read c cs).kind = .comment) :
    c = '/' ∧ (∃ rest, cs = '/' :: rest ∨ cs = '*' :: rest) ∨
      c = '\\' ∧ ∃ rest, cs = '\n' :: rest := by
  unfold read at h
  split at h
  · simp only [word, verbatim] at h
    split at h <;> cases h
  split at h
  · simp only [number] at h
    split at h <;> cases h
  split at h
  · cases h
  · cases h
  · exact Or.inl ⟨rfl, _, Or.inl rfl⟩
  · exact Or.inl ⟨rfl, _, Or.inr rfl⟩
  · exact Or.inr ⟨rfl, _, rfl⟩
  · unfold operator at h
    split at h
    · cases h
    · cases h
    · split at h <;> cases h
    · cases h

/-- White space behind a comment is taken up to some point, and what is left of it stands
behind what is left of the text. -/
theorem read_comment_append {c : Char} {cs : List Char} (h : (read c cs).kind = .comment)
    (bs : List Char) : (read c (cs ++ bs)).kind = .comment ∧
      ∃ bs', bs' <:+ bs ∧ (read c (cs ++ bs)).rest = (read c cs).rest ++ bs' := by
  obtain ⟨rfl, rest, rfl | rfl⟩ | ⟨rfl, rest, rfl⟩ := comment_cases h
  · exact ⟨rfl, lineTail_append_suffix '/' ('/' :: rest) bs⟩
  · exact ⟨rfl, blockTail_append_suffix '\x00' rest bs⟩
  · exact ⟨rfl, bs, List.suffix_refl bs, rfl⟩

/-- White space behind a word is left. -/
theorem read_word_append {c : Char} (hc : Text.isWordStart c = true) (cs : List Char)
    {bs : List Char} (hbs : ∀ d ∈ bs, Text.isBlank d = true) :
    (read c (cs ++ bs)).faces = (read c cs).faces ∧
      (read c (cs ++ bs)).rest = (read c cs).rest ++ bs := by
  have hread (cs : List Char) : read c cs = word c cs := if_pos hc
  have hbs' : ∀ d ∈ bs.head?, Text.isWordChar d = false := by
    intro d hd
    rw [Bool.eq_false_iff]
    intro hword
    have hblank := Text.isBlank_of_isWordChar hword
    rw [hbs d (List.mem_of_mem_head? hd)] at hblank
    cases hblank
  have hspan : (cs ++ bs).takeWhile Text.isWordChar = cs.takeWhile Text.isWordChar ∧
      (cs ++ bs).dropWhile Text.isWordChar = cs.dropWhile Text.isWordChar ++ bs := by
    induction cs with
    | nil =>
        cases bs with
        | nil => exact ⟨rfl, rfl⟩
        | cons d bs => simp [hbs' d rfl]
    | cons d cs ih =>
        by_cases hd : Text.isWordChar d = true
        · simp [hd, ih.1, ih.2]
        · simp [hd]
  simp only [hread, word, verbatim, faces, hspan.1, hspan.2, and_self]

end Lexeme

namespace Token

/-- **White space behind words.** Where all that is visible are words, white space behind
the text makes no difference. It may go into a comment. -/
theorem faces_append_blanks {cs blanks : List Char}
    (hwords : ∀ x ∈ faces cs, x.1 = .identifier ∨ ∃ word, x.1 = .keyword word)
    (hblanks : ∀ c ∈ blanks, Text.isBlank c = true) : faces (cs ++ blanks) = faces cs := by
  -- what is left behind the first lexeme is shorter
  induction hn : cs.length using Nat.strong_induction_on generalizing cs blanks with
  | h n ih =>
      cases hcs : cs.dropWhile Text.isBlank with
      | nil =>
          have hall := List.dropWhile_eq_nil_iff.mp hcs
          rw [faces_of_blank hall, faces_of_blank]
          exact fun c hc => (List.mem_append.mp hc).elim (hall c) (hblanks c)
      | cons c rest =>
          have hdrop : (cs ++ blanks).dropWhile Text.isBlank = c :: (rest ++ blanks) := by
            rw [List.dropWhile_append, hcs]
            rfl
          have hshorter : (Lexeme.read c rest).rest.length < n := by
            have hlength := Lexeme.length_read_le c rest
            have hle := (List.dropWhile_sublist Text.isBlank (l := cs)).length_le
            rw [hcs, List.length_cons] at hle
            omega
          rw [faces_cons hcs] at hwords ⊢
          rw [faces_cons hdrop]
          have hmore : ∀ x ∈ faces (Lexeme.read c rest).rest,
              x.1 = .identifier ∨ ∃ word, x.1 = .keyword word :=
            fun x hx => hwords x (List.mem_append_right _ hx)
          by_cases hc : Text.isWordStart c = true
          · obtain ⟨hfaces, hrest⟩ := Lexeme.read_word_append hc rest hblanks
            rw [hfaces, hrest, ih _ hshorter hmore hblanks rfl]
          · obtain ⟨hidentifier, hkeyword⟩ := Lexeme.kind_of_not_isWordStart hc rest
            have hkind : (Lexeme.read c rest).kind = .comment := by
              by_contra hother
              have hmem := hwords (_, _) (List.mem_append_left _
                (by rw [Lexeme.faces, if_neg hother]; exact List.mem_singleton_self _))
              exact hmem.elim hidentifier fun ⟨word, hword⟩ => hkeyword word hword
            obtain ⟨hkind', bs', hsuffix, hrest⟩ := Lexeme.read_comment_append hkind blanks
            rw [Lexeme.faces, if_pos hkind', Lexeme.faces, if_pos hkind, hrest,
              ih _ hshorter hmore (fun d hd => hblanks d (hsuffix.subset hd)) rfl]

end Token

end HeaderPeers

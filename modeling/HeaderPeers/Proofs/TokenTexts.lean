import HeaderPeers.Proofs.Lexer
import Mathlib.Data.List.TakeWhile

/-!
# Tokens of texts that are put together

A text behind another one leaves its tokens as they are if the last of them is a word or a closing
bracket and the text goes on with something else.

- `Token.texts` — the texts of the tokens of a line.
- `Lexeme.read_append_of_closed` — one lexeme in front of more text.
- `Token.texts_append` — all tokens in front of more text.
-/

namespace HeaderPeers

/-! ## One lexeme -/

/-- A token that goes on with word characters at most: a word or a closing bracket. -/
def Kind.Closes (kind : Kind) (text : List Char) : Prop :=
  kind = .identifier ∨ (∃ word, kind = .keyword word) ∨
    kind = .punct ∧ text ∈ [['>'], [')'], [']']]

namespace Lexeme

variable {c d : Char} {cs ds : List Char}

/-- The lexeme with more text behind it. -/
def followedBy (l : Lexeme) (ds : List Char) : Lexeme :=
  { l with rest := l.rest ++ ds }

theorem word_append (h : Text.isWordChar d = false) :
    word c (cs ++ d :: ds) = (word c cs).followedBy (d :: ds) := by
  have htake : (cs ++ d :: ds).takeWhile Text.isWordChar = cs.takeWhile Text.isWordChar := by
    induction cs with
    | nil => simp [h]
    | cons x cs ih => by_cases hx : Text.isWordChar x = true <;> simp [hx, ih]
  have hdrop : (cs ++ d :: ds).dropWhile Text.isWordChar =
      cs.dropWhile Text.isWordChar ++ d :: ds := by
    clear htake
    induction cs with
    | nil => simp [h]
    | cons x cs ih => by_cases hx : Text.isWordChar x = true <;> simp [hx, ih]
  unfold word
  rw [htake, hdrop]
  rfl

theorem tail_append_of_rest {hex : Bool} (h : (Number.tail hex c cs).2 ≠ []) :
    Number.tail hex c (cs ++ ds) = ((Number.tail hex c cs).1, (Number.tail hex c cs).2 ++ ds) := by
  induction cs generalizing hex c with
  | nil => exact absurd rfl h
  | cons x cs ih =>
      rw [List.cons_append]
      unfold Number.tail at h ⊢
      by_cases hx : Number.continues hex c x = true
      · rw [if_pos hx] at h ⊢
        rw [if_pos hx, ih h]
      · rw [if_neg hx, if_neg hx]
        rfl

theorem quotedTail_append_of_rest {quote : Char} (h : (quotedTail quote cs).2.1 ≠ []) :
    quotedTail quote (cs ++ ds) =
      ((quotedTail quote cs).1, (quotedTail quote cs).2.1 ++ ds, (quotedTail quote cs).2.2) := by
  fun_induction quotedTail quote cs with
  | case1 => exact absurd rfl h
  | case2 x cs hx =>
      rw [List.cons_append, quotedTail.eq_def]
      dsimp only
      rw [if_pos hx]
  | case3 => exact absurd rfl h
  | case4 x hx hescape y cs tail ih =>
      rw [List.cons_append, quotedTail.eq_def]
      dsimp only [List.cons_append]
      rw [if_neg hx, if_pos hescape, ih h]
  | case5 x cs hx hescape tail ih =>
      rw [List.cons_append, quotedTail.eq_def]
      dsimp only
      rw [if_neg hx, if_neg hescape, ih h]

theorem lineTail_append_of_rest (h : (lineTail c cs).2 ≠ []) :
    lineTail c (cs ++ ds) = ((lineTail c cs).1, (lineTail c cs).2 ++ ds) := by
  induction cs generalizing c with
  | nil => exact absurd rfl h
  | cons x cs ih =>
      rw [List.cons_append]
      unfold lineTail at h ⊢
      by_cases hx : (x == '\n' && c != '\\') = true
      · rw [if_pos hx, if_pos hx]
        rfl
      · rw [if_neg hx] at h ⊢
        rw [if_neg hx, ih h]

theorem blockTail_append_of_rest (h : (blockTail c cs).2 ≠ []) :
    blockTail c (cs ++ ds) = ((blockTail c cs).1, (blockTail c cs).2 ++ ds) := by
  induction cs generalizing c with
  | nil => exact absurd rfl h
  | cons x cs ih =>
      rw [List.cons_append]
      unfold blockTail at h ⊢
      by_cases hx : (c == '*' && x == '/') = true
      · rw [if_pos hx, if_pos hx]
      · rw [if_neg hx] at h ⊢
        rw [if_neg hx, ih h]

/-- Nothing joins with a closing bracket. -/
theorem operator_of_closes (hc : c ∈ ['>', ')', ']']) (cs : List Char) :
    operator c cs = verbatim .punct [c] cs := by
  simp only [List.mem_cons, List.not_mem_nil, or_false] at hc
  cases cs with
  | nil => rcases hc with rfl | rfl | rfl <;> rfl
  | cons d cs => rcases hc with rfl | rfl | rfl <;> simp [operator, pairs]

/-- An operator of three characters starts as one of two, or is `...`. -/
theorem operator_append_of_rest (h : (operator c cs).rest ≠ []) (hd : d ≠ '.') :
    operator c (cs ++ d :: ds) = (operator c cs).followedBy (d :: ds) := by
  fun_cases operator c cs with
  | case1 => rfl
  | case2 => rfl
  | case3 _ x cs hdots hshift hpair =>
      have hrest : cs ≠ [] := by
        rwa [operator.eq_3 c x cs hdots hshift, if_pos hpair] at h
      obtain ⟨y, cs, rfl⟩ := List.exists_cons_of_ne_nil hrest
      have hdots' : ∀ rest, c = '.' → x = '.' → y :: (cs ++ d :: ds) = '.' :: rest → False :=
        fun rest hc hx hcs => hdots cs hc hx (by rw [(List.cons.inj hcs).1])
      have hshift' : ∀ rest, c = '<' → x = '<' → y :: (cs ++ d :: ds) = '=' :: rest → False :=
        fun rest hc hx hcs => hshift cs hc hx (by rw [(List.cons.inj hcs).1])
      rw [List.cons_append, List.cons_append, operator.eq_3 c x _ hdots' hshift', if_pos hpair]
      rfl
  | case4 _ x cs hdots hshift hpair =>
      have hshift' : ∀ rest, c = '<' → x = '<' → cs ++ d :: ds = '=' :: rest → False := by
        rintro rest rfl rfl
        exact absurd (by decide) hpair
      have hdots' : ∀ rest, c = '.' → x = '.' → cs ++ d :: ds = '.' :: rest → False := by
        intro rest hc hx hcs
        cases cs with
        | nil => exact hd (List.cons.inj hcs).1
        | cons y cs => exact hdots cs hc hx (by rw [(List.cons.inj hcs).1])
      rw [List.cons_append, operator.eq_3 c x _ hdots' hshift', if_neg hpair]
      rfl
  | case5 => exact absurd (congrArg Lexeme.rest (operator.eq_4 c)) h

/-- A closing bracket is a lexeme of its own. -/
theorem read_of_closes (hc : c ∈ ['>', ')', ']']) (cs : List Char) :
    read c cs = verbatim .punct [c] cs := by
  rw [← operator_of_closes hc cs]
  simp only [List.mem_cons, List.not_mem_nil, or_false] at hc
  rcases hc with rfl | rfl | rfl <;> rfl

theorem operator_closes (h : (operator c cs).kind.Closes (operator c cs).text) :
    c ∈ ['>', ')', ']'] := by
  revert h
  fun_cases operator c cs <;> simp [Kind.Closes, verbatim]

/-- **A lexeme in front of more text** is what it was, if more of the text followed it already or
it closes, and what is added starts with no word character. -/
theorem read_append_of_closes (hd : Text.isWordChar d = false ∧ d ≠ '.')
    (h : (read c cs).rest ≠ [] ∨ (read c cs).kind.Closes (read c cs).text) :
    read c (cs ++ d :: ds) = (read c cs).followedBy (d :: ds) := by
  revert h
  fun_cases read c cs with
  | case1 _ _ hword =>
      intro _
      unfold read
      rw [if_pos hword]
      exact word_append hd.1
  | case2 _ _ hword hnumber =>
      intro h
      have hrest : (Number.tail false c cs).2 ≠ [] := by
        refine h.resolve_right fun hclose => ?_
        unfold number at hclose
        dsimp only at hclose
        split at hclose <;> simp [Kind.Closes] at hclose
      have hnumber' : (c.isDigit || c == '.' && (cs ++ d :: ds).head?.any Char.isDigit) = true := by
        cases cs with
        | nil => exact absurd rfl hrest
        | cons x cs => exact hnumber
      unfold read
      rw [if_neg hword, if_pos hnumber']
      unfold number
      rw [tail_append_of_rest hrest]
      rfl
  | case3 _ hword hnumber =>
      intro h
      have hrest : (quotedTail '"' cs).2.1 ≠ [] := h.resolve_right (by simp [Kind.Closes, quoted])
      change quoted .string '"' (cs ++ d :: ds) = _
      unfold quoted
      rw [quotedTail_append_of_rest hrest]
      rfl
  | case4 _ hword hnumber =>
      intro h
      have hrest : (quotedTail '\'' cs).2.1 ≠ [] := h.resolve_right (by simp [Kind.Closes, quoted])
      change quoted .char '\'' (cs ++ d :: ds) = _
      unfold quoted
      rw [quotedTail_append_of_rest hrest]
      rfl
  | case5 cs _ hword hnumber =>
      intro h
      have hrest : (lineTail '/' ('/' :: cs)).2 ≠ [] :=
        h.resolve_right (by simp [Kind.Closes, verbatim])
      have hmore : lineTail '/' ('/' :: (cs ++ d :: ds)) = _ := lineTail_append_of_rest hrest
      change verbatim .comment ('/' :: (lineTail '/' ('/' :: (cs ++ d :: ds))).1)
        (lineTail '/' ('/' :: (cs ++ d :: ds))).2 = _
      rw [hmore]
      rfl
  | case6 cs _ hword hnumber =>
      intro h
      have hrest : (blockTail '\x00' cs).2 ≠ [] := h.resolve_right (by simp [Kind.Closes, verbatim])
      change verbatim .comment ('/' :: '*' :: (blockTail '\x00' (cs ++ d :: ds)).1)
        (blockTail '\x00' (cs ++ d :: ds)).2 = _
      rw [blockTail_append_of_rest hrest]
      rfl
  | case7 => exact fun _ => rfl
  | case8 _ _ hstring hchar hline hblock hbreak hword hnumber =>
      intro h
      rcases h with hrest | hcloses
      · have hne : cs ≠ [] := by
          rintro rfl
          exact hrest (congrArg Lexeme.rest (operator.eq_4 c))
        obtain ⟨x, cs, rfl⟩ := List.exists_cons_of_ne_nil hne
        have hhead (y : Char) (rest : List Char) (h : x :: (cs ++ d :: ds) = y :: rest) :
            x :: cs = y :: cs := by
          rw [(List.cons.inj h).1]
        have hnumber' : ¬ (c.isDigit ||
            c == '.' && (x :: (cs ++ d :: ds)).head?.any Char.isDigit) = true := hnumber
        rw [List.cons_append, read.eq_6 c _ hstring hchar
          (fun rest hc h => hline cs hc (hhead _ rest h))
          (fun rest hc h => hblock cs hc (hhead _ rest h))
          (fun rest hc h => hbreak cs hc (hhead _ rest h)), if_neg hword, if_neg hnumber',
          ← List.cons_append]
        exact operator_append_of_rest hrest hd.2
      · have hc := operator_closes hcloses
        rw [read_of_closes hc, operator_of_closes hc]
        rfl

end Lexeme

/-! ## All tokens -/

namespace Token

variable {c d : Char} {cs ds : List Char}

/-- The texts of the tokens of a line. -/
def texts (cs : List Char) : List String :=
  (scan .fixed none 0 cs).map (·.text)

@[simp] theorem texts_nil : texts [] = [] := by
  unfold texts
  rw [scan_nil]
  rfl

/-- Behind white space stands the first lexeme. -/
theorem scan_of_blanks {blanks : List Char} (hblanks : ∀ x ∈ blanks, Text.isBlank x = true)
    (hc : Text.isBlank c = false) (cs : List Char) :
    scan .fixed none 0 (blanks ++ c :: cs) =
      { kind := (Lexeme.read c cs).kind, text := String.ofList (Lexeme.read c cs).text
        spacing := String.ofList blanks, location := { file := none, line := 0 } } ::
        scan .fixed none 0 (Lexeme.read c cs).rest := by
  have hdrop : (blanks ++ c :: cs).dropWhile Text.isBlank = c :: cs := by
    rw [List.dropWhile_append_of_pos hblanks]
    simp [hc]
  have htake : (blanks ++ c :: cs).takeWhile Text.isBlank = blanks := by
    rw [List.takeWhile_append_of_pos hblanks]
    simp [hc]
  rw [scan]
  split
  next h => rw [hdrop] at h; cases h
  next x rest h =>
    rw [hdrop] at h
    obtain ⟨rfl, rfl⟩ := List.cons.inj h
    rw [htake]
    rfl

theorem texts_of_blanks {blanks : List Char} (hblanks : ∀ x ∈ blanks, Text.isBlank x = true)
    (hc : Text.isBlank c = false) (cs : List Char) :
    texts (blanks ++ c :: cs) =
      String.ofList (Lexeme.read c cs).text :: texts (Lexeme.read c cs).rest := by
  unfold texts
  rw [scan_of_blanks hblanks hc]
  rfl

theorem texts_cons (hc : Text.isBlank c = false) (cs : List Char) :
    texts (c :: cs) = String.ofList (Lexeme.read c cs).text :: texts (Lexeme.read c cs).rest :=
  texts_of_blanks (List.forall_mem_nil _) hc cs

/-- A text is blank, or starts with a lexeme behind white space. -/
theorem blank_or_lexeme (cs : List Char) : (∀ x ∈ cs, Text.isBlank x = true) ∨
    ∃ blanks c rest, cs = blanks ++ c :: rest ∧ (∀ x ∈ blanks, Text.isBlank x = true) ∧
      Text.isBlank c = false := by
  induction cs with
  | nil => exact .inl (List.forall_mem_nil _)
  | cons x cs ih =>
      cases hx : Text.isBlank x with
      | false => exact .inr ⟨[], x, cs, rfl, List.forall_mem_nil _, hx⟩
      | true =>
          rcases ih with hblank | ⟨blanks, c, rest, rfl, hblanks, hc⟩
          · exact .inl (List.forall_mem_cons.mpr ⟨hx, hblank⟩)
          · exact .inr ⟨x :: blanks, c, rest, rfl, List.forall_mem_cons.mpr ⟨hx, hblanks⟩, hc⟩

/-- A text whose last token is a word or a closing bracket. -/
def Closed (cs : List Char) : Prop :=
  ∃ t, (scan .fixed none 0 cs).getLast? = some t ∧ t.kind.Closes t.text.toList

theorem not_closed_of_blank (h : ∀ x ∈ cs, Text.isBlank x = true) : ¬ Closed cs := by
  have hdrop : cs.dropWhile Text.isBlank = [] := List.dropWhile_eq_nil_iff.mpr h
  rintro ⟨t, hlast, hcloses⟩
  rw [scan] at hlast
  split at hlast
  next =>
    split at hlast
    · cases hlast
    · obtain rfl := Option.some.inj hlast
      simp [Kind.Closes] at hcloses
  next x rest hrest => rw [hdrop] at hrest; cases hrest

/-- White space in front of a token changes no text. -/
theorem texts_blank_cons (hd : Text.isBlank d = true) (h : ¬ ∀ x ∈ cs, Text.isBlank x = true) :
    texts (d :: cs) = texts cs := by
  rcases blank_or_lexeme cs with hblank | ⟨blanks, c, rest, rfl, hblanks, hc⟩
  · exact absurd hblank h
  · have hmore : ∀ x ∈ d :: blanks, Text.isBlank x = true := List.forall_mem_cons.mpr ⟨hd, hblanks⟩
    rw [texts_of_blanks hblanks hc, ← List.cons_append, texts_of_blanks hmore hc]

/-- Only the empty text has no tokens. -/
theorem eq_nil_of_scan (h : scan .fixed none 0 cs = []) : cs = [] := by
  obtain ⟨pieces, hpieces⟩ := exists_pieces .fixed none 0 cs
  have hnone : pieces = [] := List.map_eq_nil_iff.mp (hpieces.tokens_eq.trans h)
  rw [← hpieces.text_eq, hnone]
  rfl

/-- **Tokens of a closed text in front of more text** stay as they are, by induction on its
length. -/
theorem texts_append (h : Closed cs) (hd : Text.isWordChar d = false ∧ d ≠ '.') :
    texts (cs ++ d :: ds) = texts cs ++ texts (d :: ds) := by
  induction hn : cs.length using Nat.strongRecOn generalizing cs with
  | _ n ih =>
    subst hn
    rcases blank_or_lexeme cs with hblank | ⟨blanks, c, rest, rfl, hblanks, hc⟩
    · exact absurd h (not_closed_of_blank hblank)
    · have hshorter : (Lexeme.read c rest).rest.length < (blanks ++ c :: rest).length := by
        have hle := Lexeme.length_read_le c rest
        simp only [List.length_append, List.length_cons]
        omega
      obtain ⟨t, hlast, hcloses⟩ := h
      rw [scan_of_blanks hblanks hc, List.getLast?_cons] at hlast
      have hread : Lexeme.read c (rest ++ d :: ds) = (Lexeme.read c rest).followedBy (d :: ds) := by
        refine Lexeme.read_append_of_closes hd ?_
        by_cases hrest : (Lexeme.read c rest).rest = []
        · rw [hrest, scan_nil] at hlast
          obtain rfl := Option.some.inj hlast
          exact .inr (by simpa using hcloses)
        · exact .inl hrest
      rw [List.append_assoc, List.cons_append, texts_of_blanks hblanks hc, hread,
        texts_of_blanks hblanks hc, List.cons_append]
      congr 1
      change texts ((Lexeme.read c rest).rest ++ d :: ds) = _
      cases hmore : (scan .fixed none 0 (Lexeme.read c rest).rest).getLast? with
      | none =>
          rw [eq_nil_of_scan (List.getLast?_eq_none_iff.mp hmore), List.nil_append, texts_nil]
          rfl
      | some u =>
          rw [hmore] at hlast
          obtain rfl := Option.some.inj hlast
          exact ih _ hshorter ⟨u, hmore, hcloses⟩ rfl

end Token

end HeaderPeers

import HeaderPeers.Token.Lexer
import Mathlib.Data.List.Basic

/-!
# Tokens and the text they were read from

Each token comes from a stretch of the text, its source, and the white space
and sources of all tokens are the whole text. For most tokens the text is the
source itself. The others are numbers, which lose the marks of their width, a
backslash at the end of a line, and a literal that the text leaves open.
-/

namespace HeaderPeers

/-! ## What the text of a token may be -/

/-- The inside of a literal that goes on to the end without a closing quote: a
quote counts unless a backslash stands before it. -/
inductive Unclosed (quote : Char) : List Char → Prop
  | done : Unclosed quote []
  | plain {c : Char} {cs : List Char} (notQuote : c ≠ quote) (notEscape : c ≠ '\\')
      (more : Unclosed quote cs) : Unclosed quote (c :: cs)
  | escaped {c : Char} {cs : List Char} (more : Unclosed quote cs) :
      Unclosed quote ('\\' :: c :: cs)
  | escape : Unclosed quote ['\\']

namespace Number

/-- The characters of a number without `l`, `L`, `u` and `U`. -/
def withoutMarks (source : List Char) : List Char :=
  source.filter fun c => !(['l', 'L', 'u', 'U'].contains c)

/-- The texts that a number of some kind may have: its source without marks and
maybe without a final `i64`, and maybe with one `L` behind it if it is an
integer. -/
def Rewritten (kind : Kind) (source text : List Char) : Prop :=
  ∃ plain, (plain = withoutMarks source ∨ plain ++ ['i', '6', '4'] = withoutMarks source) ∧
    (text = plain ∨ kind = .integer ∧ text = plain ++ ['L'])

end Number

/-- How a token of some kind and text may be read from a source. Only the last
token of a text may be left open. -/
inductive Spells (isLast : Prop) (kind : Kind) (text source : List Char) : Prop
  | verbatim (same : text = source)
  | number (numeric : kind = .integer ∨ kind = .float)
      (rewritten : Number.Rewritten kind source text)
  | continuation (isComment : kind = .comment) (broken : source = ['\\', '\n'])
      (shown : text = ['\n'])
  | leftOpen (quote : Char) (inside : List Char) (atEnd : isLast)
      (literal : kind = .string ∧ quote = '"' ∨ kind = .char ∧ quote = '\'')
      (opens : source = quote :: inside) (unclosed : Unclosed quote inside)
      (closed : text = source ++ [quote])

theorem Spells.imp {isLast isLast' : Prop} {kind : Kind} {text source : List Char}
    (h : Spells isLast kind text source) (hlast : isLast → isLast') :
    Spells isLast' kind text source := by
  cases h with
  | verbatim same => exact .verbatim same
  | number numeric rewritten => exact .number numeric rewritten
  | continuation isComment broken shown => exact .continuation isComment broken shown
  | leftOpen quote inside atEnd literal opens unclosed closed =>
      exact .leftOpen quote inside (hlast atEnd) literal opens unclosed closed

/-! ## Line terminators -/

namespace Text

/-- One character in place of another. -/
theorem replaceChars_singleton (a b : Char) {n : Nat} {cs : List Char} (h : cs.length ≤ n) :
    replaceChars [a] [b] n cs = cs.map fun c => if c = a then b else c := by
  induction n generalizing cs with
  | zero =>
      obtain rfl := List.length_eq_zero_iff.mp (Nat.le_zero.mp h)
      rfl
  | succ n ih =>
      cases cs with
      | nil => rfl
      | cons c cs =>
          have hcs : cs.length ≤ n := Nat.le_of_succ_le_succ h
          by_cases hc : c = a
          · simp [replaceChars, hc, ih hcs]
          · simp [replaceChars, hc, Ne.symm hc, ih hcs]

/-- A line feed in place of each carriage return with its line feed, and then of
each one that is left. -/
theorem unifyBreaks_eq {n : Nat} {cs : List Char} (h : cs.length ≤ n) :
    unifyBreaks cs =
      (replaceChars ['\r', '\n'] ['\n'] n cs).map fun c => if c = '\r' then '\n' else c := by
  fun_induction unifyBreaks cs generalizing n with
  | case1 => cases n <;> rfl
  | case2 cs ih =>
      obtain ⟨n, rfl⟩ : ∃ m, n = m + 1 := ⟨n - 1, by simp at h; omega⟩
      have hcs : cs.length ≤ n := by simp at h; omega
      simp [replaceChars, ih hcs]
  | case3 cs hnot ih =>
      obtain ⟨n, rfl⟩ : ∃ m, n = m + 1 := ⟨n - 1, by simp at h; omega⟩
      have hcs : cs.length ≤ n := Nat.le_of_succ_le_succ h
      have hlone : ['\r', '\n'].isPrefixOf ('\r' :: cs) = false := by
        cases cs with
        | nil => rfl
        | cons d ds =>
            have hd : '\n' ≠ d := fun hd => hnot ds (congrArg (· :: ds) hd.symm)
            simpa [List.isPrefixOf] using hd
      simp [replaceChars, hlone, ih hcs]
  | case4 c cs _ hnot ih =>
      obtain ⟨n, rfl⟩ : ∃ m, n = m + 1 := ⟨n - 1, by simp at h; omega⟩
      have hcs : cs.length ≤ n := Nat.le_of_succ_le_succ h
      have hc : c ≠ '\r' := hnot
      simp [replaceChars, hc, hc.symm, ih hcs]

theorem toList_replace_breaks (text : String) :
    (replace "\r" "\n" (replace "\r\n" "\n" text)).toList = unifyBreaks text.toList := by
  rw [unifyBreaks_eq (Nat.le_refl _)]
  simp only [replace, String.toList_ofList]
  exact replaceChars_singleton '\r' '\n' (Nat.le_refl _)

end Text

/-! ## One lexeme -/

namespace Number

theorem tail_append (hex : Bool) (last : Char) (cs : List Char) :
    (tail hex last cs).1 ++ (tail hex last cs).2 = cs := by
  induction cs generalizing hex last with
  | nil => rfl
  | cons c cs ih =>
      unfold tail
      split
      · simp only [List.cons_append, ih]
      · rfl

theorem filter_isSuffixMark (source : List Char) :
    source.filter (!isSuffixMark ·) = withoutMarks source := by
  refine List.filter_congr fun c _ => ?_
  simp only [isSuffixMark, isLongMark, isUnsignedMark, List.contains_cons, List.contains_nil,
    Bool.or_false, Bool.or_assoc]

theorem dropWidth_append {digits plain : List Char} (h : dropWidth? digits = some plain) :
    plain ++ ['i', '6', '4'] = digits := by
  unfold dropWidth? at h
  split at h
  next hsuffix =>
    cases h
    obtain ⟨front, rfl⟩ := List.isSuffixOf_iff_suffix.mp hsuffix
    simp
  · cases h

/-- The text of a scanned number is one of those it may have. -/
theorem textOf_rewritten (source : List Char) :
    Rewritten (if isFloat source then .float else .integer) source (textOf source) := by
  refine ⟨(dropWidth? (withoutMarks source)).getD (withoutMarks source), ?_, ?_⟩
  · cases h : dropWidth? (withoutMarks source) with
    | none => exact Or.inl rfl
    | some plain => exact Or.inr (dropWidth_append h)
  · unfold textOf
    simp only [filter_isSuffixMark]
    cases isFloat source with
    | true => exact Or.inl rfl
    | false =>
        split
        · exact Or.inr ⟨rfl, rfl⟩
        · exact Or.inl rfl

end Number

namespace Lexeme

theorem quotedTail_append (quote : Char) (cs : List Char) :
    (quotedTail quote cs).1 ++ (quotedTail quote cs).2.1 = cs := by
  fun_induction quotedTail quote cs with
  | case1 => rfl
  | case2 => rfl
  | case3 => rfl
  | case4 c _ _ d ds tail ih => simp only [List.cons_append, tail, ih]
  | case5 c cs _ _ tail ih => simp only [List.cons_append, tail, ih]

/-- Without a closing quote the literal takes all that is left. -/
theorem quotedTail_unclosed {quote : Char} {cs : List Char}
    (h : (quotedTail quote cs).2.2 = false) :
    Unclosed quote (quotedTail quote cs).1 ∧ (quotedTail quote cs).2.1 = [] := by
  fun_induction quotedTail quote cs with
  | case1 => exact ⟨.done, rfl⟩
  | case2 => cases h
  | case3 c _ hescape =>
      obtain rfl := eq_of_beq hescape
      exact ⟨.escape, rfl⟩
  | case4 c _ hescape d ds tail ih =>
      obtain rfl := eq_of_beq hescape
      obtain ⟨hinside, hrest⟩ := ih h
      exact ⟨.escaped hinside, hrest⟩
  | case5 c cs hquote hescape tail ih =>
      obtain ⟨hinside, hrest⟩ := ih h
      exact ⟨.plain (by simpa using hquote) (by simpa using hescape) hinside, hrest⟩

theorem lineTail_append (last : Char) (cs : List Char) :
    (lineTail last cs).1 ++ (lineTail last cs).2 = cs := by
  induction cs generalizing last with
  | nil => rfl
  | cons c cs ih =>
      unfold lineTail
      split
      · rfl
      · simp only [List.cons_append, ih]

theorem blockTail_append (last : Char) (cs : List Char) :
    (blockTail last cs).1 ++ (blockTail last cs).2 = cs := by
  induction cs generalizing last with
  | nil => rfl
  | cons c cs ih =>
      unfold blockTail
      split
      · rfl
      · simp only [List.cons_append, ih]

theorem operator_append (c : Char) (cs : List Char) :
    (operator c cs).source ++ (operator c cs).rest = c :: cs := by
  unfold operator
  split
  · rfl
  · rfl
  · split
    · rfl
    · rfl
  · rfl

/-- A lexeme and what follows it are all there is. -/
theorem read_append (c : Char) (cs : List Char) :
    (read c cs).source ++ (read c cs).rest = c :: cs := by
  unfold read
  split
  · exact congrArg (c :: ·) List.takeWhile_append_dropWhile
  split
  · exact congrArg (c :: ·) (Number.tail_append false c cs)
  split
  · exact congrArg ('"' :: ·) (quotedTail_append '"' _)
  · exact congrArg ('\'' :: ·) (quotedTail_append '\'' _)
  · exact congrArg ('/' :: ·) (lineTail_append '/' _)
  · exact congrArg ('/' :: '*' :: ·) (blockTail_append '\x00' _)
  · rfl
  · exact operator_append _ _

theorem operator_text (c : Char) (cs : List Char) :
    (operator c cs).text = (operator c cs).source := by
  unfold operator
  split
  · rfl
  · rfl
  · split
    · rfl
    · rfl
  · rfl

theorem quoted_spells {kind : Kind} {quote : Char}
    (hkind : kind = .string ∧ quote = '"' ∨ kind = .char ∧ quote = '\'') (cs : List Char) :
    Spells ((quoted kind quote cs).rest = []) kind (quoted kind quote cs).text
      (quoted kind quote cs).source := by
  cases hclosed : (quotedTail quote cs).2.2 with
  | true => exact .verbatim (by simp [quoted, hclosed])
  | false =>
      obtain ⟨hinside, hrest⟩ := quotedTail_unclosed hclosed
      exact .leftOpen quote _ hrest hkind rfl hinside (by simp [quoted, hclosed])

/-- A lexeme spells its text; one that is left open is the last. -/
theorem read_spells (c : Char) (cs : List Char) :
    Spells ((read c cs).rest = []) (read c cs).kind (read c cs).text (read c cs).source := by
  unfold read
  split
  · exact .verbatim rfl
  split
  · refine .number ?_ (Number.textOf_rewritten _)
    simp only [number]
    split
    · exact Or.inr rfl
    · exact Or.inl rfl
  split
  · exact quoted_spells (Or.inl ⟨rfl, rfl⟩) _
  · exact quoted_spells (Or.inr ⟨rfl, rfl⟩) _
  · exact .verbatim rfl
  · exact .verbatim rfl
  · exact .continuation rfl rfl rfl
  · exact .verbatim (operator_text _ _)

end Lexeme

/-! ## All tokens of a text -/

namespace Token

/-- Tokens with their sources that make up a text. -/
structure Pieces (tokens : List Token) (cs : List Char) (pieces : List (Token × List Char)) :
    Prop where
  tokens_eq : pieces.map (·.1) = tokens
  text_eq : pieces.flatMap (fun p => p.1.spacing.toList ++ p.2) = cs
  spells : ∀ before (t : Token) source after, pieces = before ++ (t, source) :: after →
    Spells (after = []) t.kind t.text.toList source

theorem pieces_nil : Pieces [] [] [] :=
  ⟨rfl, rfl, fun before t source after h => by simp at h⟩

/-- One more token in front. It may be left open only if no other follows. -/
theorem Pieces.cons {t : Token} {tokens : List Token} {source rest cs : List Char}
    {pieces : List (Token × List Char)} (h : Pieces tokens rest pieces)
    (ht : Spells (tokens = []) t.kind t.text.toList source)
    (hcs : t.spacing.toList ++ source ++ rest = cs) :
    Pieces (t :: tokens) cs ((t, source) :: pieces) where
  tokens_eq := by rw [List.map_cons, h.tokens_eq]
  text_eq := by rw [List.flatMap_cons, h.text_eq, hcs]
  spells := by
    intro before t' source' after hsplit
    cases before with
    | nil =>
        obtain ⟨⟨rfl, rfl⟩, rfl⟩ : (t = t' ∧ source = source') ∧ pieces = after := by
          simpa using hsplit
        have hlast : pieces = [] ↔ tokens = [] := by rw [← h.tokens_eq, List.map_eq_nil_iff]
        rwa [hlast]
    | cons _ before =>
        obtain ⟨-, hrest⟩ := List.cons.inj hsplit
        exact h.spells before t' source' after hrest

theorem scan_nil (numbering : Numbering) (file : Option String) (line : Nat) :
    scan numbering file line [] = [] := by
  rw [scan]
  rfl

/-- The lexeme behind some white space as one more token in front. -/
theorem Pieces.cons_read {t : Token} {tokens : List Token} {cs rest : List Char} {c : Char}
    {pieces : List (Token × List Char)} (h : Pieces tokens (Lexeme.read c rest).rest pieces)
    (hrest : cs.dropWhile Text.isBlank = c :: rest)
    (hlast : (Lexeme.read c rest).rest = [] → tokens = [])
    (hkind : t.kind = (Lexeme.read c rest).kind)
    (htext : t.text = String.ofList (Lexeme.read c rest).text)
    (hspacing : t.spacing = String.ofList (cs.takeWhile Text.isBlank)) :
    Pieces (t :: tokens) cs ((t, (Lexeme.read c rest).source) :: pieces) := by
  have hcs : cs.takeWhile Text.isBlank ++ cs.dropWhile Text.isBlank = cs :=
    List.takeWhile_append_dropWhile
  have hlexeme : (Lexeme.read c rest).source ++ (Lexeme.read c rest).rest = c :: rest :=
    Lexeme.read_append c rest
  refine h.cons ?_ ?_
  · rw [hkind, htext, String.toList_ofList]
    exact (Lexeme.read_spells c rest).imp hlast
  · rw [hspacing, String.toList_ofList, List.append_assoc, hlexeme, ← hrest, hcs]

/-- Every text is made up of its tokens. -/
theorem exists_pieces (numbering : Numbering) (file : Option String) (line : Nat)
    (cs : List Char) : ∃ pieces, Pieces (scan numbering file line cs) cs pieces := by
  fun_induction scan numbering file line cs with
  | case1 line cs spacing hrest hspacing =>
      have hcs : spacing ++ cs.dropWhile Text.isBlank = cs := List.takeWhile_append_dropWhile
      rw [hrest, List.isEmpty_iff.mp hspacing] at hcs
      exact ⟨[], hcs ▸ pieces_nil⟩
  | case2 line cs spacing line' hrest hspacing =>
      have hcs : spacing ++ cs.dropWhile Text.isBlank = cs := List.takeWhile_append_dropWhile
      exact ⟨_, pieces_nil.cons (.verbatim rfl) (by simpa [hrest] using hcs)⟩
  | case3 line cs spacing line' c rest hrest lexeme ih =>
      obtain ⟨pieces, hpieces⟩ := ih
      have hlast : lexeme.rest = [] →
          scan numbering file (numbering.advance line' lexeme.source) lexeme.rest = [] := by
        intro hnil
        rw [hnil, scan_nil]
      exact ⟨_, hpieces.cons_read hrest hlast rfl rfl rfl⟩

/-- **Reconstruction.** For every text there are sources, one for each token,
that make up the text with its white space, once every line terminator is a line
feed. The text of a token is its source, but for numbers, a backslash at the end
of a line, and a last literal that is left open. -/
theorem scan_reconstructs (numbering : Numbering) (file : Option String) (line : Nat)
    (text : String) :
    ∃ pieces : List (Token × List Char),
      pieces.map (·.1) = scan numbering file line (Text.unifyBreaks text.toList) ∧
      pieces.flatMap (fun p => p.1.spacing.toList ++ p.2) =
        (Text.replace "\r" "\n" (Text.replace "\r\n" "\n" text)).toList ∧
      ∀ before t source after, pieces = before ++ (t, source) :: after →
        Spells (after = []) t.kind t.text.toList source := by
  obtain ⟨pieces, h⟩ := exists_pieces numbering file line (Text.unifyBreaks text.toList)
  exact ⟨pieces, h.tokens_eq, by rw [h.text_eq, Text.toList_replace_breaks], h.spells⟩

end Token

end HeaderPeers

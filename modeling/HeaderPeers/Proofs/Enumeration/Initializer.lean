import HeaderPeers.Enumeration.Reader
import HeaderPeers.Proofs.Enumeration.Expression
import HeaderPeers.Proofs.Instances
import HeaderPeers.Proofs.Lexer
import HeaderPeers.Proofs.Respelling

/-!
# Initializers

What stands behind `=` is printed as it was read, with the text that literals
have as tokens. So its words on the target side are those of the expression it
spells.

- `Token.IsLiteral` — the token of a literal of C, and its value.
- `Arithmetic.Written` — tokens that spell an expression.
- `Written.words?_eq` — the words of their text are those of the expression.
- `Counter.ofValue_stands` — what counting on from an initializer is worth.
-/

namespace HeaderPeers.Arithmetic

/-! ## Literals -/

/-- The value of an integer literal of C, with marks of its width and sign. -/
def nativeLiteral? (source : List Char) : Option Nat :=
  magnitude? (Text.dropEndWhile Number.isSuffixMark source)

theorem isDigit_of_digitValue? {base : Nat} (hbase : base ≤ 10) {c : Char}
    (h : (Number.digitValue? base c).isSome = true) : c.isDigit = true := by
  obtain ⟨d, hd⟩ := Option.isSome_iff_exists.mp h
  obtain ⟨hvalue, hlt⟩ := Option.filter_eq_some_iff.mp hd
  have hlt : d < base := of_decide_eq_true hlt
  split at hvalue
  next hrange =>
    simp only [Char.isDigit, Bool.and_eq_true, decide_eq_true_eq]
    exact hrange
  · split at hvalue
    · cases hvalue
      omega
    · split at hvalue
      · cases hvalue
        omega
      · cases hvalue

/-- What literals are made of, but for marks of width and sign. -/
def literalChars : List Char :=
  ['0', '1', '2', '3', '4', '5', '6', '7', '8', '9', 'a', 'b', 'c', 'd', 'e', 'f', 'A', 'B', 'C',
    'D', 'E', 'F', 'x', 'X']

theorem mem_literalChars_of_digitValue? {base : Nat} {c : Char}
    (h : (Number.digitValue? base c).isSome = true) : c ∈ literalChars := by
  obtain ⟨d, hd⟩ := Option.isSome_iff_exists.mp h
  obtain ⟨hvalue, -⟩ := Option.filter_eq_some_iff.mp hd
  have hrange : (48 ≤ c.toNat ∧ c.toNat ≤ 57) ∨ (97 ≤ c.toNat ∧ c.toNat ≤ 102) ∨
      (65 ≤ c.toNat ∧ c.toNat ≤ 70) := by
    split at hvalue
    next hdigit => exact Or.inl hdigit
    · split at hvalue
      next hlower => exact Or.inr (Or.inl hlower)
      · split at hvalue
        next hupper => exact Or.inr (Or.inr hupper)
        · cases hvalue
  have hchar : c = Char.ofNat c.toNat := (Char.ofNat_toNat c).symm
  rw [hchar]
  generalize c.toNat = n at hrange
  rcases hrange with ⟨hlow, hhigh⟩ | ⟨hlow, hhigh⟩ | ⟨hlow, hhigh⟩ <;>
    interval_cases n <;> decide

theorem forall_of_digitsValue? {base : Nat} {cs : List Char} : ∀ {acc n : Nat},
    Number.digitsValue? base acc cs = some n →
      ∀ c ∈ cs, (Number.digitValue? base c).isSome = true := by
  induction cs with
  | nil => simp
  | cons c cs ih =>
      intro acc n h d hd
      obtain ⟨v, hv, hrest⟩ := Option.bind_eq_some_iff.mp h
      rcases List.mem_cons.mp hd with rfl | hd
      · rw [hv]
        rfl
      · exact ih hrest d hd

theorem forall_of_natural? {base : Nat} {cs : List Char} {n : Nat}
    (h : Number.natural? base cs = some n) :
    ∀ c ∈ cs, (Number.digitValue? base c).isSome = true := by
  unfold Number.natural? at h
  split at h
  · cases h
  · exact forall_of_digitsValue? h

/-- A literal is hexadecimal, or all of it are decimal digits. -/
theorem magnitude?_cases {cs : List Char} {n : Nat} (h : magnitude? cs = some n) :
    (∃ mark hex, cs = '0' :: mark :: hex ∧ Number.isHexMark mark = true ∧
        Number.natural? 16 hex = some n) ∨ ∀ c ∈ cs, c.isDigit = true := by
  unfold magnitude? at h
  split at h
  next hex => exact Or.inl ⟨'x', hex, rfl, by decide, h⟩
  next hex => exact Or.inl ⟨'X', hex, rfl, by decide, h⟩
  next octal _ _ =>
    refine Or.inr fun c hc => ?_
    rcases List.mem_cons.mp hc with rfl | hc
    · decide
    · exact isDigit_of_digitValue? (by decide) (forall_of_natural? h c hc)
  · exact Or.inr fun c hc => isDigit_of_digitValue? (Nat.le_refl _) (forall_of_natural? h c hc)

theorem mem_literalChars {cs : List Char} {n : Nat} (h : magnitude? cs = some n) :
    ∀ c ∈ cs, c ∈ literalChars := by
  rcases magnitude?_cases h with ⟨mark, hex, rfl, hmark, hhex⟩ | hdigits
  · intro c hc
    rcases List.mem_cons.mp hc with rfl | hc
    · decide
    · rcases List.mem_cons.mp hc with rfl | hc
      · rcases Bool.or_eq_true_iff.mp hmark with hx | hx <;> rw [eq_of_beq hx] <;> decide
      · exact mem_literalChars_of_digitValue? (forall_of_natural? hhex c hc)
  · intro c hc
    have hvalue := digitValue?_of_isDigit (hdigits c hc)
    exact mem_literalChars_of_digitValue? (Option.isSome_of_eq_some hvalue)

theorem dropEndWhile_append (p : Char → Bool) (cs : List Char) :
    ∃ tail, cs = Text.dropEndWhile p cs ++ tail ∧ ∀ c ∈ tail, p c = true := by
  refine ⟨(cs.reverse.takeWhile p).reverse, ?_, fun c hc => ?_⟩
  · unfold Text.dropEndWhile
    rw [← List.reverse_append, List.takeWhile_append_dropWhile, List.reverse_reverse]
  · exact List.mem_takeWhile_imp (List.mem_reverse.mp hc)

theorem dropEndWhile_append_of_forall {p : Char → Bool} {cs tail : List Char}
    (hcs : ∀ c ∈ cs, p c = false) (htail : ∀ c ∈ tail, p c = true) :
    Text.dropEndWhile p (cs ++ tail) = cs := by
  unfold Text.dropEndWhile
  rw [List.reverse_append, List.dropWhile_append_of_pos fun c hc =>
    htail c (List.mem_reverse.mp hc)]
  exact dropEndWhile_of_forall hcs

/-- The characters of a literal: a body of digits and a radix, then marks. -/
theorem exists_body {source : List Char} {n : Nat} (h : nativeLiteral? source = some n) :
    ∃ body marks, source = body ++ marks ∧ magnitude? body = some n ∧
      (∀ c ∈ body, c ∈ literalChars) ∧ ∀ c ∈ marks, Number.isSuffixMark c = true := by
  obtain ⟨marks, hsource, hmarks⟩ := dropEndWhile_append Number.isSuffixMark source
  exact ⟨_, marks, hsource, h, mem_literalChars h, hmarks⟩

/-- What holds of all characters a literal is made of. -/
theorem forall_source {p : Char → Bool} {body marks : List Char}
    (hbody : ∀ c ∈ body, c ∈ literalChars) (hmarks : ∀ c ∈ marks, Number.isSuffixMark c = true)
    (hall : (literalChars ++ ['l', 'L', 'u', 'U']).all p = true) :
    ∀ c ∈ body ++ marks, p c = true := by
  have h := List.all_eq_true.mp hall
  intro c hc
  rcases List.mem_append.mp hc with hc | hc
  · exact h c (List.mem_append_left _ (hbody c hc))
  · refine h c (List.mem_append_right _ ?_)
    have hmark := hmarks c hc
    simpa [Number.isSuffixMark, Number.isLongMark, Number.isUnsignedMark, or_assoc] using hmark

theorem isFloat_eq_false_of_forall {source : List Char}
    (h : ∀ c ∈ source, c ∉ ['.', 'e', 'E', 'p', 'P', 'f', 'F']) :
    Number.isFloat source = false := by
  have hdot : source.contains '.' = false := by
    rw [List.contains_eq_mem, decide_eq_false_iff_not]
    exact fun hmem => h '.' hmem (by decide)
  have hexponent : source.any (fun c => c == 'e' || c == 'E' || c == 'p' || c == 'P') = false := by
    rw [List.any_eq_false]
    intro c hc
    have hne := h c hc
    simp only [List.mem_cons, not_or] at hne
    simp [hne]
  have hlast (mark : Char) (hmark : mark ∈ ['.', 'e', 'E', 'p', 'P', 'f', 'F']) :
      (source.getLast? == some mark) = false := by
    rw [beq_eq_false_iff_ne]
    exact fun heq => h mark (List.mem_of_getLast? heq) hmark
  unfold Number.isFloat
  rw [hdot, hexponent, hlast 'f' (by decide), hlast 'F' (by decide)]
  simp

/-- Behind the digits of an integer nothing makes it a floating-point number but a dot, the mark of
an exponent or an `f`. -/
theorem isFloat_eq_false {body marks : List Char} {n : Nat} (hvalue : magnitude? body = some n)
    (hbody : ∀ c ∈ body, c ∈ literalChars)
    (hmarks : ∀ c ∈ marks, c ∉ ['.', 'e', 'E', 'p', 'P', 'f', 'F']) :
    Number.isFloat (body ++ marks) = false := by
  rcases magnitude?_cases hvalue with ⟨mark, hex, rfl, hmark, -⟩ | hdigits
  · have hdot : ('0' :: mark :: hex ++ marks).contains '.' = false := by
      rw [List.contains_eq_mem, decide_eq_false_iff_not, List.mem_append]
      rintro (hmem | hmem)
      · exact absurd (hbody '.' hmem) (by decide)
      · exact hmarks '.' hmem (by decide)
    unfold Number.isFloat
    rw [hdot]
    simp [hmark]
  · refine isFloat_eq_false_of_forall fun c hc => ?_
    rcases List.mem_append.mp hc with hc | hc
    · have hdigit := hdigits c hc
      intro hmem
      simp only [List.mem_cons, List.not_mem_nil, or_false] at hmem
      rcases hmem with rfl | rfl | rfl | rfl | rfl | rfl | rfl <;> cases hdigit
    · exact hmarks c hc

/-- Marks of width and sign make no floating-point number. -/
theorem not_mem_of_isSuffixMark {c : Char} (h : Number.isSuffixMark c = true) :
    c ∉ ['.', 'e', 'E', 'p', 'P', 'f', 'F'] := by
  intro hmem
  simp only [List.mem_cons, List.not_mem_nil, or_false] at hmem
  rcases hmem with rfl | rfl | rfl | rfl | rfl | rfl | rfl <;> cases h

/-- **What a literal is rewritten to.** The marks go, and a wide one gets `L`. -/
theorem textOf_eq {body marks : List Char} {n : Nat} (hvalue : magnitude? body = some n)
    (hbody : ∀ c ∈ body, c ∈ literalChars) (hmarks : ∀ c ∈ marks, Number.isSuffixMark c = true) :
    Number.textOf (body ++ marks) = body ++ ['L'] ∨
      Number.textOf (body ++ marks) = body ∧ Number.needs64 body = false := by
  have hdigits : (body ++ marks).filter (!Number.isSuffixMark ·) = body := by
    have hplain := List.all_eq_true.mp (show literalChars.all (!Number.isSuffixMark ·) by decide)
    rw [List.filter_append, List.filter_eq_self.mpr fun c hc => hplain c (hbody c hc),
      List.filter_eq_nil_iff.mpr fun c hc => by simp [hmarks c hc], List.append_nil]
  have hwidth : Number.dropWidth? body = none := by
    unfold Number.dropWidth?
    rw [if_neg]
    intro hsuffix
    have hmem : 'i' ∈ body := (List.isSuffixOf_iff_suffix.mp hsuffix).subset (by decide)
    exact absurd (hbody 'i' hmem) (by decide +kernel)
  have hfloat : Number.isFloat (body ++ marks) = false :=
    isFloat_eq_false hvalue hbody fun c hc => not_mem_of_isSuffixMark (hmarks c hc)
  unfold Number.textOf
  simp only [hdigits, hwidth, hfloat, Option.getD_none,
    Option.isSome_none, Bool.not_false, Bool.true_and]
  split
  · exact Or.inl rfl
  next hwide =>
    simp only [Bool.or_eq_true, not_or, Bool.not_eq_true] at hwide
    exact Or.inr ⟨rfl, hwide.1.2⟩

/-- A rewritten literal has the value of the literal. -/
theorem literal?_textOf {source : List Char} {n : Nat} (h : nativeLiteral? source = some n) :
    literal? (Number.textOf source) = some n := by
  obtain ⟨body, marks, rfl, hvalue, hbody, hmarks⟩ := exists_body h
  have hplain := List.all_eq_true.mp (show literalChars.all (!Number.isLongMark ·) by decide)
  have hlong : ∀ c ∈ body, Number.isLongMark c = false := fun c hc => by
    simpa using hplain c (hbody c hc)
  unfold literal?
  rcases textOf_eq hvalue hbody hmarks with htext | ⟨htext, -⟩
  · rw [htext, dropEndWhile_append_of_forall hlong (by simp [Number.isLongMark]), hvalue]
  · rw [htext, dropEndWhile_of_forall hlong, hvalue]

/-- The text of a literal starts with a digit, and words go on in it. -/
theorem textOf_chars {source : List Char} {n : Nat} (hdigit : source.head?.any Char.isDigit = true)
    (h : nativeLiteral? source = some n) : (Number.textOf source).head?.any Char.isDigit = true ∧
      ∀ c ∈ Number.textOf source, isNameChar c = true := by
  obtain ⟨body, marks, rfl, hvalue, hbody, hmarks⟩ := exists_body h
  have hplain := List.all_eq_true.mp (show literalChars.all isNameChar by decide)
  have hne : body ≠ [] := by
    rintro rfl
    cases hvalue
  rw [List.head?_append_of_ne_nil _ hne] at hdigit
  rcases textOf_eq hvalue hbody hmarks with htext | ⟨htext, -⟩
  · rw [htext, List.head?_append_of_ne_nil _ hne]
    refine ⟨hdigit, fun c hc => ?_⟩
    rcases List.mem_append.mp hc with hc | hc
    · exact hplain c (hbody c hc)
    · obtain rfl : c = 'L' := by simpa using hc
      decide
  · rw [htext]
    exact ⟨hdigit, fun c hc => hplain c (hbody c hc)⟩

end HeaderPeers.Arithmetic

namespace HeaderPeers

open Arithmetic

/-- The token of an integer literal of C with this value. -/
structure Token.IsLiteral (t : Token) (n : Nat) : Prop where
  kind : t.kind = .integer
  written : ∃ source, source.head?.any Char.isDigit = true ∧ nativeLiteral? source = some n ∧
    t.text.toList = Number.textOf source

namespace Token.IsLiteral

variable {t : Token} {n : Nat}

theorem isNameChar (h : t.IsLiteral n) : ∀ c ∈ t.text.toList, isNameChar c = true := by
  obtain ⟨source, hdigit, hvalue, htext⟩ := h.written
  rw [htext]
  exact (textOf_chars hdigit hvalue).2

theorem head?_isDigit (h : t.IsLiteral n) : t.text.toList.head?.any Char.isDigit = true := by
  obtain ⟨source, hdigit, hvalue, htext⟩ := h.written
  rw [htext]
  exact (textOf_chars hdigit hvalue).1

theorem literal?_eq (h : t.IsLiteral n) : literal? t.text.toList = some n := by
  obtain ⟨source, hdigit, hvalue, htext⟩ := h.written
  rw [htext]
  exact literal?_textOf hvalue

end Token.IsLiteral

/-- The white space in front of a token is nothing but white space. -/
def Token.Blank (t : Token) : Prop :=
  ∀ c ∈ t.spacing.toList, Text.isBlank c = true

/-- The characters of tokens as they were written. -/
def Token.chars (ts : List Token) : List Char :=
  ts.flatMap (·.spaced.toList)

namespace Arithmetic

/-- The tokens of an operator; a right shift is two tokens, since `>` may close a
list. -/
inductive Operator.Marked : Operator → List Token → Prop where
  | one {op : Operator} {t : Token} (single : op ≠ .shiftRight)
      (mark : t.IsMark (String.ofList op.symbol)) : Marked op [t]
  | two {t u : Token} (first : t.IsMark ">") (second : u.IsMark ">") (adjacent : u.spacing = "") :
      Marked .shiftRight [t, u]

/-- The token does not make another word of the mark it stands behind. -/
def ApartFrom (mark : String) (ts : List Token) : Prop :=
  ∀ u ∈ ts.head?, u.spacing = "" → u.text ≠ mark

/-- Tokens that spell an expression. A sign right behind the same sign is set
apart by white space. -/
inductive Written : List Token → Expression → Prop where
  | literal {t : Token} {n : Nat} (h : t.IsLiteral n) : Written [t] (.literal t.text.toList)
  | name {t : Token} (kind : t.kind = .identifier) (word : Text.isWord t.text.toList = true) :
      Written [t] (.name t.text.toList)
  | sign {t : Token} {ts : List Token} {e : Expression} (negative : Bool)
      (mark : t.IsMark (String.ofList (Expression.signOperator negative).symbol))
      (apart : ApartFrom t.text ts) (operand : Written ts e) : Written (t :: ts) (.sign negative e)
  | group {t u : Token} {ts : List Token} {e : Expression} (opening : t.IsMark "(")
      (inside : Written ts e) (closing : u.IsMark ")") : Written (t :: ts ++ [u]) (.group e)
  | binary {op : Operator} {ls ms rs : List Token} {l r : Expression} (left : Written ls l)
      (marks : op.Marked ms) (right : Written rs r)
      (apart : ApartFrom (String.ofList op.symbol) rs) :
      Written (ls ++ ms ++ rs) (.binary op l r)

/-! ## The text of an expression -/

instance (mark : String) (ts : List Token) : Decidable (ApartFrom mark ts) :=
  inferInstanceAs (Decidable (∀ u ∈ ts.head?, _))

theorem chars_cons (t : Token) (ts : List Token) :
    Token.chars (t :: ts) = t.spacing.toList ++ t.text.toList ++ Token.chars ts := by
  simp [Token.chars, Token.spaced]

theorem chars_append (ts us : List Token) :
    Token.chars (ts ++ us) = Token.chars ts ++ Token.chars us := by
  simp [Token.chars]

theorem apart_of_blank {cs ds : List Char} (h : ∀ c ∈ cs, Text.isBlank c = true) :
    Apart cs ds := by
  intro c hc d _
  rw [joins_comm]
  exact joins_blank (h c (List.mem_of_getLast? hc))

/-- White space in front of a word makes no difference. -/
theorem words?_spaced {t : Token} (ht : t.Blank) {ws : List Word}
    (h : words? t.text.toList = some ws) : words? (t.spacing.toList ++ t.text.toList) = some ws :=
  words?_append (apart_of_blank ht) (words?_of_blank ht) h

theorem isNameChar_of_isWord {cs : List Char} (h : Text.isWord cs = true) :
    ∀ c ∈ cs, isNameChar c = true := fun c hc => by
  rw [isNameChar, Text.isWordChar_of_isWord h c hc]
  rfl

/-- The token may be the first of an expression. -/
def StartsOperand (t : Token) : Prop :=
  t.text.toList ∈ [['('], ['+'], ['-']] ∨ t.text.toList.head?.any isNameChar = true

theorem Written.exists_first {ts : List Token} {e : Expression} (h : Written ts e) :
    ∃ t rest, ts = t :: rest ∧ StartsOperand t := by
  induction h with
  | @literal t n h =>
      refine ⟨t, [], rfl, Or.inr ?_⟩
      obtain ⟨c, hc, hdigit⟩ := (Option.any_eq_true _ _).mp h.head?_isDigit
      rw [hc]
      exact isNameChar_of_isDigit hdigit
  | @name t kind word =>
      refine ⟨t, [], rfl, Or.inr ?_⟩
      cases hchars : t.text.toList with
      | nil =>
          rw [hchars] at word
          cases word
      | cons c cs =>
          rw [hchars] at word
          simpa using isNameChar_of_isWord word c List.mem_cons_self
  | @sign t ts e negative mark apart operand ih =>
      refine ⟨t, ts, rfl, Or.inl ?_⟩
      rw [mark.2]
      cases negative <;> simp [Expression.signOperator, Operator.symbol]
  | @group t u ts e opening inside closing ih =>
      refine ⟨t, ts ++ [u], rfl, Or.inl ?_⟩
      rw [opening.2]
      simp
  | @binary op ls ms rs l r left marks right apart ihl ihr =>
      obtain ⟨t, rest, rfl, ht⟩ := ihl
      exact ⟨t, rest ++ ms ++ rs, by simp, ht⟩

/-- The text of an expression does not go on a mark in front of it. -/
theorem apart_operand {cs : List Char} {z : Char} {t : Token} {rest : List Token}
    (hz : cs.getLast? = some z) (hmark : isNameChar z = false) (ht : StartsOperand t)
    (hblank : t.Blank)
    (hapart : z = '+' ∨ z = '-' → t.spacing = "" → t.text.toList ≠ [z]) :
    Apart cs (Token.chars (t :: rest)) := by
  intro c hc d hd
  rw [hz] at hc
  obtain rfl := Option.some.inj hc
  rw [chars_cons, List.append_assoc] at hd
  cases hspacing : t.spacing.toList with
  | cons b bs =>
      have hb : Text.isBlank b = true := hblank b (by rw [hspacing]; exact List.mem_cons_self)
      rw [hspacing] at hd
      obtain rfl : b = d := by simpa using hd
      exact joins_blank hb
  | nil =>
      have hempty : t.spacing = "" := String.toList_eq_nil_iff.mp hspacing
      rw [hspacing, List.nil_append] at hd
      refine joins_eq_false (Or.inl hmark) ?_
      rcases ht with hsymbol | hname
      · simp only [List.mem_cons, List.not_mem_nil, or_false] at hsymbol
        rcases hsymbol with hparen | hplus | hminus
        · by_cases hc : z = '('
          · subst hc
            exact Or.inr (by decide)
          · rw [hparen] at hd
            obtain rfl : '(' = d := by simpa using hd
            exact Or.inl hc
        · rw [hplus] at hd
          obtain rfl : '+' = d := by simpa using hd
          refine Or.inl ?_
          rintro rfl
          exact hapart (Or.inl rfl) hempty hplus
        · rw [hminus] at hd
          obtain rfl : '-' = d := by simpa using hd
          refine Or.inl ?_
          rintro rfl
          exact hapart (Or.inr rfl) hempty hminus
      · refine Or.inl ?_
        rintro rfl
        cases htext : t.text.toList with
        | nil => simp [htext] at hname
        | cons a as =>
            rw [htext] at hd hname
            obtain rfl : a = z := by simpa using hd
            simp [hmark] at hname

/-- What is known of the text of an expression: its words, and that it ends with a
name, a number or a parenthesis. -/
structure Reads (cs : List Char) (ws : List Word) : Prop where
  words : words? cs = some ws
  last : ∃ z, cs.getLast? = some z ∧ (isNameChar z = true ∨ z = ')')

theorem reads_of_isNameChar {t : Token} {w : Word} (hblank : t.Blank) (hne : t.text.toList ≠ [])
    (hchars : ∀ c ∈ t.text.toList, isNameChar c = true) (hw : words? t.text.toList = some [w]) :
    Reads (Token.chars [t]) [w] := by
  have htext : Token.chars [t] = t.spacing.toList ++ t.text.toList := by
    simp [Token.chars, Token.spaced]
  rw [htext]
  refine ⟨words?_spaced hblank hw, t.text.toList.getLast hne, ?_, Or.inl ?_⟩
  · rw [List.getLast?_append_of_ne_nil _ hne, List.getLast?_eq_some_getLast hne]
  · exact hchars _ (List.getLast_mem hne)

theorem Reads.append {cs ds : List Char} {ws ws' : List Word} (hcs : words? cs = some ws)
    (hds : Reads ds ws') (hapart : Apart cs ds) : Reads (cs ++ ds) (ws ++ ws') := by
  obtain ⟨z, hz, hlast⟩ := hds.last
  have hne : ds ≠ [] := by
    rintro rfl
    cases hz
  refine ⟨words?_append hapart hcs hds.words, z, ?_, hlast⟩
  rw [List.getLast?_append_of_ne_nil _ hne, hz]

/-- A mark behind an expression is a word of its own. -/
theorem Reads.apart {cs : List Char} {ws : List Word} (h : Reads cs ws) {blanks : List Char}
    (hblanks : ∀ c ∈ blanks, Text.isBlank c = true) {d : Char} (ds : List Char)
    (hd : isNameChar d = false) : Apart cs (blanks ++ d :: ds) := by
  obtain ⟨z, hz, hlast⟩ := h.last
  intro c hc e he
  rw [hz] at hc
  obtain rfl := Option.some.inj hc
  cases blanks with
  | cons b bs =>
      obtain rfl : b = e := by simpa using he
      exact joins_blank (hblanks b List.mem_cons_self)
  | nil =>
      obtain rfl : d = e := by simpa using he
      refine joins_eq_false (Or.inr hd) ?_
      rcases hlast with hname | rfl
      · refine Or.inl ?_
        rintro rfl
        rw [hd] at hname
        cases hname
      · exact Or.inr (by decide)

theorem isDigit_of_isWordStart {c : Char} (h : Text.isWordStart c = true) : c.isDigit = false := by
  have hall := List.all_eq_true.mp
    (show literalChars.all (fun c => !(c.isDigit && Text.isWordStart c)) by decide)
  by_contra hdigit
  rw [Bool.not_eq_false] at hdigit
  have hvalue := digitValue?_of_isDigit hdigit
  have hboth := hall c (mem_literalChars_of_digitValue? (Option.isSome_of_eq_some hvalue))
  rw [hdigit, h] at hboth
  cases hboth

theorem words?_name {cs : List Char} (h : Text.isWord cs = true) : words? cs = some [.name cs] := by
  cases cs with
  | nil => cases h
  | cons c cs =>
      have hchars := isNameChar_of_isWord h
      obtain ⟨hstart, -⟩ := Bool.and_eq_true_iff.mp h
      refine words?_of_piece (isChain_of_isNameChar hchars) ?_ ?_
      · simp [isBlank_of_isNameChar (hchars c List.mem_cons_self)]
      · rw [Word.ofPiece?, if_pos (List.all_eq_true.mpr hchars), if_neg]
        simp [isDigit_of_isWordStart hstart]

theorem Operator.words?_symbol (op : Operator) : words? op.symbol = some [.operator op] := by
  cases op <;> decide

theorem Operator.exists_last (op : Operator) : ∃ z, op.symbol.getLast? = some z ∧
    isNameChar z = false ∧ (z = '+' ∨ z = '-' → op.symbol = [z]) := by
  cases op <;> exact ⟨_, rfl, by decide, by decide⟩

theorem Operator.exists_first (op : Operator) :
    ∃ d ds, op.symbol = d :: ds ∧ isNameChar d = false := by
  cases op <;> exact ⟨_, _, rfl, by decide⟩

/-- The text of an operator is its symbol behind white space. -/
theorem Operator.Marked.chars_eq {op : Operator} {ms : List Token} (h : op.Marked ms)
    (hblank : ∀ t ∈ ms, t.Blank) :
    ∃ blanks, Token.chars ms = blanks ++ op.symbol ∧ ∀ c ∈ blanks, Text.isBlank c = true := by
  cases h with
  | @one _ t single mark =>
      refine ⟨t.spacing.toList, ?_, hblank t List.mem_cons_self⟩
      rw [chars_cons, mark.2, String.toList_ofList]
      simp [Token.chars]
  | @two t u first second adjacent =>
      refine ⟨t.spacing.toList, ?_, hblank t List.mem_cons_self⟩
      rw [chars_cons, chars_cons, first.2, second.2, adjacent]
      simp [Token.chars, Operator.symbol]

/-- **The text of an expression.** Its words are those of the expression. -/
theorem Written.reads {ts : List Token} {e : Expression} (h : Written ts e)
    (hblank : ∀ t ∈ ts, t.Blank) : Reads (Token.chars ts) e.words := by
  induction h with
  | @literal t n h =>
      refine reads_of_isNameChar (hblank t List.mem_cons_self) ?_ h.isNameChar
        (words?_literal h.head?_isDigit h.isNameChar)
      intro hnil
      have hdigit := h.head?_isDigit
      rw [hnil] at hdigit
      cases hdigit
  | @name t kind word =>
      refine reads_of_isNameChar (hblank t List.mem_cons_self) ?_ (isNameChar_of_isWord word)
        (words?_name word)
      intro hnil
      rw [hnil] at word
      cases word
  | @sign t ts e negative mark apart operand ih =>
      have htext : t.text.toList = (Expression.signOperator negative).symbol := by
        rw [mark.2, String.toList_ofList]
      obtain ⟨u, rest, rfl, hfirst⟩ := operand.exists_first
      obtain ⟨z, hz, hname, hsymbol⟩ := (Expression.signOperator negative).exists_last
      have hmark : words? (t.spacing.toList ++ t.text.toList) =
          some [.operator (Expression.signOperator negative)] :=
        words?_spaced (hblank t List.mem_cons_self) (htext ▸ Operator.words?_symbol _)
      rw [chars_cons]
      refine Reads.append hmark (ih fun t ht => hblank t (List.mem_cons_of_mem _ ht)) ?_
      refine apart_operand ?_ hname hfirst (hblank u (by simp)) fun hsign hempty htext' => ?_
      · rw [List.getLast?_append, htext, hz]
        rfl
      · exact apart u rfl hempty (String.toList_injective (by rw [htext', htext, hsymbol hsign]))
  | @group t u ts e opening inside closing ih =>
      have hinside := ih fun t ht => hblank t (by simp [ht])
      obtain ⟨v, rest, rfl, hfirst⟩ := inside.exists_first
      have hopening : words? (t.spacing.toList ++ t.text.toList) = some [.opening] :=
        words?_spaced (hblank t (by simp)) (by rw [opening.2]; decide)
      have hclosing : words? (u.spacing.toList ++ [')']) = some [.closing] :=
        words?_append (apart_of_blank (hblank u (by simp))) (words?_of_blank (hblank u (by simp)))
          (by decide)
      have hgroup : Token.chars (t :: (v :: rest) ++ [u]) =
          t.spacing.toList ++ t.text.toList ++ Token.chars (v :: rest) ++
            (u.spacing.toList ++ [')']) := by
        rw [chars_append, chars_cons t, chars_cons u, closing.2]
        simp [Token.chars]
      have hapart : Apart (t.spacing.toList ++ t.text.toList) (Token.chars (v :: rest)) := by
        refine apart_operand (z := '(') ?_ (by decide) hfirst (hblank v (by simp)) fun hsign => ?_
        · rw [opening.2, List.getLast?_append]
          rfl
        · rcases hsign with h | h <;> cases h
      have hfront := Reads.append hopening hinside hapart
      have hbehind := hfront.apart (hblank u (by simp)) (d := ')') [] (by decide)
      rw [hgroup]
      exact ⟨words?_append hbehind hfront.words hclosing, ')', by simp, Or.inr rfl⟩
  | @binary op ls ms rs l r left marks right apart ihl ihr =>
      have hl := ihl fun t ht => hblank t (by simp [ht])
      have hr := ihr fun t ht => hblank t (by simp [ht])
      obtain ⟨u, rest, rfl, hfirst⟩ := right.exists_first
      obtain ⟨blanks, hmarks, hblanks⟩ := marks.chars_eq fun t ht => hblank t (by simp [ht])
      obtain ⟨d, ds, hsymbol, hd⟩ := op.exists_first
      obtain ⟨z, hz, hname, hsign⟩ := op.exists_last
      have hmark : words? (Token.chars ms) = some [.operator op] := by
        rw [hmarks]
        exact words?_append (apart_of_blank hblanks) (words?_of_blank hblanks) op.words?_symbol
      have hbefore : Apart (Token.chars ls) (Token.chars ms) := by
        rw [hmarks, hsymbol]
        exact hl.apart hblanks ds hd
      have hbehind : Apart (Token.chars ls ++ Token.chars ms) (Token.chars (u :: rest)) := by
        refine apart_operand ?_ hname hfirst (hblank u (by simp)) fun hplus hempty htext => ?_
        · rw [hmarks, List.getLast?_append, List.getLast?_append, hz]
          rfl
        · refine apart u rfl hempty (String.toList_injective ?_)
          rw [htext, String.toList_ofList, hsign hplus]
      have hall := Reads.append (words?_append hbefore hl.words hmark) hr hbehind
      rw [List.append_assoc l.words, List.singleton_append] at hall
      rw [chars_append, chars_append]
      exact hall

/-! ## Counting on from a value -/

/-- White space at the ends makes no difference. -/
theorem words?_trim (s : String) : words? (Text.trim s).toList = words? s.toList := by
  obtain ⟨before, after, hall, hbefore, hafter⟩ := Text.exists_trim s
  have hbehind : Apart (Text.trim s).toList after := fun c _ d hd =>
    joins_blank (hafter d (List.mem_of_mem_head? hd))
  unfold words?
  rw [hall, pieces_append (apart_of_blank hbefore), pieces_append hbehind, pieces_of_blank hbefore,
    pieces_of_blank hafter, List.nil_append, List.append_nil]

namespace Expression

/-- The digits of a literal, with a sign or without. -/
def digits? : Expression → Option (List Char)
  | literal digits => some digits
  | sign _ (literal digits) => some digits
  | _ => none

/-- The value that is printed a number of places behind an enumerator that is
initialized with the expression. -/
def after (names : List Char → Option Int) (e : Expression) (i : Nat) : Option Int :=
  if i = 0 then e.value? names else (e.plus (Nat.toDigits 10 i)).value? names

end Expression

/-- An octal literal that is not worth the same in base ten. -/
def Misleads (digits : List Char) : Prop :=
  ∃ c cs n, digits = '0' :: c :: cs ∧ Number.natural? 8 (c :: cs) = some n ∧ 8 ≤ n

theorem misleads_iff {digits : List Char} : Misleads digits ↔
    digits.head? = some '0' ∧ digits.tail ≠ [] ∧
      (Number.natural? 8 digits.tail).any (8 ≤ ·) = true := by
  constructor
  · rintro ⟨c, cs, n, rfl, hn, hge⟩
    exact ⟨rfl, List.cons_ne_nil _ _, by simpa [hn] using hge⟩
  · rintro ⟨hhead, htail, hany⟩
    cases digits with
    | nil => cases hhead
    | cons zero rest =>
        obtain rfl := Option.some.inj hhead
        obtain ⟨c, cs, rfl⟩ := List.exists_cons_of_ne_nil htail
        obtain ⟨n, hn, hge⟩ := (Option.any_eq_true _ _).mp hany
        exact ⟨c, cs, n, rfl, hn, of_decide_eq_true hge⟩

instance (digits : List Char) : Decidable (Misleads digits) :=
  decidable_of_iff _ misleads_iff.symm

end Arithmetic

namespace Enumeration.Counter

/-- The text of the value where counting stands. -/
def text (c : Counter) : String :=
  ({ base := c.base, count := c.count } : Enumerator).value

/-- What is printed from here on has these values. -/
def Stands (c : Counter) (names : List Char → Option Int) (values : Nat → Option Int) : Prop :=
  ∀ i < 2 ^ 62, ∀ v, values i = some v → value? names (next^[i] c).text = some v

theorem iterate_next {c : Counter} (hlow : -2 ^ 63 ≤ c.count) (hhigh : c.count ≤ 2 ^ 62) {i : Nat}
    (hi : i < 2 ^ 62) : next^[i] c = { c with count := c.count + i } := by
  induction i with
  | zero => simp
  | succ i ih =>
      have hsum : (c.count + i + 1).bmod UInt64.size = c.count + (i + 1 : Nat) := by
        have hsize : (UInt64.size : Nat) = 2 ^ 64 := rfl
        rw [hsize, Int.bmod_eq_of_le (by omega) (by omega)]
        omega
      rw [Function.iterate_succ_apply', ih (Nat.lt_of_succ_lt hi)]
      unfold next
      rw [hsum]

/-- A number is counted on as a number. -/
theorem stands_of_number {names : List Char → Option Int} {n : Int} (hlow : -2 ^ 63 ≤ n)
    (hhigh : n ≤ 2 ^ 62) : Stands { count := n } names fun i => some (n + i) := by
  intro i hi v hv
  cases hv
  rw [iterate_next hlow hhigh hi]
  exact value?_toString names (n + i)

/-- Behind an expression, the number of places is added to its text. -/
theorem stands_of_expression {names : List Char → Option Int} {e : Expression} (he : e.Ranked)
    {base : String} (hbase : words? base.toList = some e.words) (hne : base ≠ "") :
    Stands { base } names (e.after names) := by
  intro i hi v hv
  have hempty : base.isEmpty = false := by simpa using hne
  have hlow : -2 ^ 63 ≤ (0 : Int) := by decide
  have hhigh : (0 : Int) ≤ 2 ^ 62 := by decide
  rw [iterate_next hlow hhigh hi]
  unfold text Enumerator.value
  unfold Expression.after at hv
  split at hv
  next hzero =>
    subst hzero
    simp only [hempty]
    simpa [Arithmetic.value?, hbase] using Expression.valueOf?_words he hv
  next hpos =>
    have hcount : ((i : Int) == 0) = false := by simpa using hpos
    simp only [hempty, Int.zero_add, hcount, Bool.false_eq_true, if_false]
    exact value?_append_plus he hbase i hv

end Enumeration.Counter

namespace Arithmetic

theorem Expression.words_ne_nil (e : Expression) : e.words ≠ [] := by
  cases e <;> simp [Expression.words]

theorem Expression.eq_literal_of_words {e : Expression} {digits : List Char}
    (h : e.words = [.literal digits]) : e = .literal digits := by
  cases e with
  | literal cs =>
      obtain rfl : cs = digits := by simpa [words] using h
      rfl
  | name cs => simp [words] at h
  | sign negative e => simp [words] at h
  | group e => simp [words] at h
  | binary op l r =>
      have hl := List.length_pos_iff.mpr l.words_ne_nil
      have hlength := congrArg List.length h
      simp [words] at hlength
      omega

theorem Expression.eq_sign_of_words {e : Expression} {digits : List Char} {negative : Bool}
    (h : e.words = [.operator (signOperator negative), .literal digits]) :
    e = .sign negative (.literal digits) := by
  cases e with
  | literal cs => simp [words] at h
  | name cs => simp [words] at h
  | sign negative' e =>
      obtain ⟨hsign, hrest⟩ := List.cons.inj h
      obtain rfl : negative' = negative := by
        cases negative' <;> cases negative <;> simp [signOperator] at hsign ⊢
      rw [eq_literal_of_words hrest]
  | group e => simp [words] at h
  | binary op l r =>
      have hl := List.length_pos_iff.mpr l.words_ne_nil
      have hr := List.length_pos_iff.mpr r.words_ne_nil
      have hlength := congrArg List.length h
      simp [words] at hlength
      omega

/-- What is taken for a number is one, with a sign or without. -/
theorem exists_digits_of_signed64? {cs : List Char} {n : Int}
    (h : Number.signed64? 10 cs = some n) : -2 ^ 63 ≤ n ∧ n < 2 ^ 63 ∧
      ∃ digits m, Number.natural? 10 digits = some m ∧ ((cs = digits ∧ n = m) ∨
        ∃ negative, cs = (Expression.signOperator negative).symbol ++ digits ∧
          n = signed negative m) := by
  obtain ⟨hvalue, hfits⟩ := Option.filter_eq_some_iff.mp h
  have hbounds : -2 ^ 63 ≤ n ∧ n < 2 ^ 63 := by
    simpa [Number.fits64] using hfits
  refine ⟨hbounds.1, hbounds.2, ?_⟩
  split at hvalue
  next digits =>
    obtain ⟨k, hk, rfl⟩ := Option.map_eq_some_iff.mp hvalue
    obtain ⟨m, hm, hcast⟩ := Option.bind_eq_some_iff.mp hk
    cases hcast
    exact ⟨digits, m, hm, Or.inr ⟨true, rfl, rfl⟩⟩
  next digits =>
    obtain ⟨m, hm, rfl⟩ := Option.map_eq_some_iff.mp hvalue
    exact ⟨digits, m, hm, Or.inr ⟨false, rfl, rfl⟩⟩
  · obtain ⟨m, hm, hn⟩ := Option.map_eq_some_iff.mp hvalue
    exact ⟨cs, m, hm, Or.inl ⟨rfl, hn.symm⟩⟩

theorem le_of_digitsValue? {base : Nat} (hbase : 0 < base) {cs : List Char} : ∀ {acc n : Nat},
    Number.digitsValue? base acc cs = some n → acc ≤ n := by
  induction cs with
  | nil =>
      intro acc n h
      exact Nat.le_of_eq (Option.some.inj h)
  | cons c cs ih =>
      intro acc n h
      obtain ⟨d, -, hrest⟩ := Option.bind_eq_some_iff.mp h
      calc acc ≤ acc * base := Nat.le_mul_of_pos_right acc hbase
        _ ≤ acc * base + d := Nat.le_add_right _ _
        _ ≤ n := ih hrest

/-- Digits that are worth less than eight in base eight are worth the same in base
ten: all but the last are zeros. -/
theorem digitsValue?_of_lt_eight {cs : List Char} : ∀ {acc n : Nat},
    Number.digitsValue? 8 acc cs = some n → n < 8 → Number.digitsValue? 10 acc cs = some n := by
  induction cs with
  | nil =>
      intro acc n h _
      exact h
  | cons c cs ih =>
      intro acc n h hn
      obtain ⟨d, hd, hrest⟩ := Option.bind_eq_some_iff.mp h
      have hle := le_of_digitsValue? (by decide) hrest
      obtain rfl : acc = 0 := by omega
      obtain ⟨hvalue, hlt⟩ := Option.filter_eq_some_iff.mp hd
      have hd' : Number.digitValue? 10 c = some d :=
        Option.filter_eq_some_iff.mpr ⟨hvalue, decide_eq_true (by omega)⟩
      rw [Number.digitsValue?, hd']
      simpa using ih hrest hn

/-- Digits are octal, or both readings of literals take them in base ten. -/
theorem octal_or_decimal {digits : List Char} (hdigits : ∀ c ∈ digits, c.isDigit = true) :
    (∃ c octal, digits = '0' :: c :: octal ∧
        magnitude? digits = Number.natural? 8 (c :: octal)) ∨
      magnitude? digits = Number.natural? 10 digits ∧
        Number.decode? digits = Number.signed64? 10 digits := by
  have hmark (mark : Char) (hmark : mark.isDigit = false) (hmem : mark ∈ digits) : False := by
    rw [hdigits mark hmem] at hmark
    cases hmark
  have hdecode : Number.decode? digits = Number.magnitude? digits := by
    unfold Number.decode?
    split
    · exact (hmark '-' rfl (by simp)).elim
    · exact (hmark '+' rfl (by simp)).elim
    · rfl
  rw [hdecode]
  by_cases hoctal : ∃ c octal, digits = '0' :: c :: octal
  · obtain ⟨c, octal, rfl⟩ := hoctal
    refine Or.inl ⟨c, octal, rfl, ?_⟩
    unfold magnitude?
    split
    next hex heq =>
      obtain ⟨rfl, -⟩ := List.cons.inj (List.cons.inj heq).2
      exact (hmark 'x' rfl (by simp)).elim
    next hex heq =>
      obtain ⟨rfl, -⟩ := List.cons.inj (List.cons.inj heq).2
      exact (hmark 'X' rfl (by simp)).elim
    next c' octal' _ _ heq =>
      obtain ⟨rfl, rfl⟩ := List.cons.inj (List.cons.inj heq).2
      rfl
    next _ _ hnot => exact absurd rfl (hnot c octal)
  · refine Or.inr ⟨?_, ?_⟩
    · unfold magnitude?
      split
      next hex => exact absurd ⟨'x', hex, rfl⟩ hoctal
      next hex => exact absurd ⟨'X', hex, rfl⟩ hoctal
      next c octal _ _ => exact absurd ⟨c, octal, rfl⟩ hoctal
      · rfl
    · unfold Number.magnitude?
      split
      next hex => exact absurd ⟨'x', hex, rfl⟩ hoctal
      next hex => exact absurd ⟨'X', hex, rfl⟩ hoctal
      next c octal _ _ => exact absurd ⟨c, octal, rfl⟩ hoctal
      · rfl

/-- Decimal digits have the value that they have as a literal, unless they mislead. -/
theorem natural?_of_literal? {digits : List Char} (hdigits : ∀ c ∈ digits, c.isDigit = true)
    {m n : Nat} (hm : Number.natural? 10 digits = some m) (hn : literal? digits = some n)
    (hleads : ¬ Misleads digits) : m = n := by
  rw [literal?, dropEndWhile_of_forall fun c hc => isLongMark_of_isDigit (hdigits c hc)] at hn
  rcases octal_or_decimal hdigits with ⟨c, octal, rfl, hoctal⟩ | ⟨hdecimal, -⟩
  · rw [hoctal] at hn
    have hlt : n < 8 := by
      by_contra hge
      exact hleads ⟨c, octal, n, rfl, hn, Nat.le_of_not_lt hge⟩
    have hten : Number.digitsValue? 10 0 (c :: octal) = some n := by
      refine digitsValue?_of_lt_eight ?_ hlt
      simpa [Number.natural?] using hn
    have hzero : Number.digitValue? 10 '0' = some 0 := by decide
    rw [Number.natural?, if_neg (by simp), Number.digitsValue?, hzero] at hm
    have hsame : Number.digitsValue? 10 0 (c :: octal) = some m := by simpa using hm
    rw [hten] at hsame
    exact (Option.some.inj hsame).symm
  · rw [hdecimal, hm] at hn
    exact Option.some.inj hn

/-- A literal that is printed without `L` does not need 64 bits. -/
theorem lt_of_isLiteral {t : Token} {m n : Nat} (h : t.IsLiteral n)
    (hdigits : ∀ c ∈ t.text.toList, c.isDigit = true) (hleads : ¬ Misleads t.text.toList)
    (hm : Number.natural? 10 t.text.toList = some m) (hfits : m < 2 ^ 63) : m < 2 ^ 32 := by
  obtain rfl : m = n := natural?_of_literal? hdigits hm h.literal?_eq hleads
  obtain ⟨source, -, hnative, htext⟩ := h.written
  obtain ⟨body, marks, rfl, hvalue, hbody, hmarks⟩ := exists_body hnative
  rcases textOf_eq hvalue hbody hmarks with hlong | ⟨hplain, hneeds⟩
  · have hL := hdigits 'L' (by rw [htext, hlong]; simp)
    cases hL
  · rw [htext, hplain] at hm hleads hdigits
    rcases octal_or_decimal hdigits with ⟨c, octal, rfl, hoctal⟩ | ⟨-, hdecode⟩
    · by_contra hge
      exact hleads ⟨c, octal, m, rfl, hoctal ▸ hvalue, by omega⟩
    · have hsigned : Number.signed64? 10 body = some (m : Int) := by
        have hfit : Number.fits64 (Int.ofNat m) = true := by
          simp only [Number.fits64, Bool.and_eq_true, decide_eq_true_eq, Int.ofNat_eq_natCast]
          omega
        unfold Number.signed64?
        split
        next ds =>
          have hminus := hdigits '-' (by simp)
          cases hminus
        next ds =>
          have hplus := hdigits '+' (by simp)
          cases hplus
        · rw [hm]
          exact Option.filter_eq_some_iff.mpr ⟨rfl, hfit⟩
      have hhigh : ((m : Int).fdiv UInt32.size != 0 && (m : Int).fdiv UInt32.size != -1) = false := by
        rw [Number.needs64, hdecode, hsigned] at hneeds
        exact hneeds
      have hdiv : (m : Int).fdiv UInt32.size = ((m / 2 ^ 32 : Nat) : Int) := by
        rw [Int.fdiv_eq_ediv_of_nonneg _ (by decide)]
        rfl
      rw [hdiv] at hhigh
      rcases Bool.and_eq_false_iff.mp hhigh with hzero | hminus
      · have hnone : ((m / 2 ^ 32 : Nat) : Int) = 0 := by simpa using hzero
        omega
      · have hnone : ((m / 2 ^ 32 : Nat) : Int) = -1 := by simpa using hminus
        omega

theorem words?_of_natural? {digits : List Char} {m : Nat}
    (hm : Number.natural? 10 digits = some m) : words? digits = some [.literal digits] := by
  have hdecimal : ∀ c ∈ digits, c.isDigit = true := fun c hc =>
    isDigit_of_digitValue? (Nat.le_refl 10) (forall_of_natural? hm c hc)
  refine words?_literal ?_ fun c hc => isNameChar_of_isDigit (hdecimal c hc)
  cases digits with
  | nil => cases hm
  | cons c cs => exact hdecimal c List.mem_cons_self

/-- The digits of a literal are those of a token. -/
theorem Written.exists_literal {ts : List Token} {e : Expression} (h : Written ts e)
    {digits : List Char} (hdigits : e.digits? = some digits) :
    ∃ (t : Token) (n : Nat), t.IsLiteral n ∧ t.text.toList = digits := by
  cases h with
  | @literal t n h => exact ⟨t, n, h, Option.some.inj hdigits⟩
  | @sign t ts e negative mark apart operand =>
      cases operand with
      | @literal u n h => exact ⟨u, n, h, Option.some.inj hdigits⟩
      | name kind word => cases hdigits
      | sign negative mark apart operand => cases hdigits
      | group opening inside closing => cases hdigits
      | binary left marks right apart => cases hdigits
  | name kind word => cases hdigits
  | group opening inside closing => cases hdigits
  | binary left marks right apart => cases hdigits

namespace Expression

variable {names : List Char → Option Int}

theorem after_zero (e : Expression) : e.after names 0 = e.value? names :=
  rfl

/-- Behind a tight expression the values count on. -/
theorem after_of_tight {e : Expression} (h : e.Tight) {v : Int} (hv : e.value? names = some v)
    (i : Nat) : e.after names i = some (v + i) := by
  unfold after
  split
  next hzero => simp [hzero, hv]
  · rw [value?_plus_of_tight h (literal?_toDigits i), hv, Option.map_some]

/-- Behind an expression that has a value, there is always a value. -/
theorem exists_after {e : Expression} {v : Int} (hv : e.value? names = some v) (i : Nat) :
    ∃ w, e.after names i = some w := by
  unfold after
  split
  · exact ⟨v, hv⟩
  next hi =>
    clear hi
    have htight {e : Expression} (h : e.Tight) {v : Int} (hv : e.value? names = some v) :
        ∃ w, (e.plus (Nat.toDigits 10 i)).value? names = some w :=
      ⟨v + i, by rw [value?_plus_of_tight h (literal?_toDigits i), hv, Option.map_some]⟩
    induction e generalizing v with
    | binary op l r ihl ihr =>
        by_cases h : (binary op l r).Tight
        · exact htight h hv
        · obtain ⟨a, ha, hright⟩ := Option.bind_eq_some_iff.mp hv
          obtain ⟨b, hb, -⟩ := Option.map_eq_some_iff.mp hright
          obtain ⟨w, hw⟩ := ihr hb
          have hloose : op.level < Operator.add.level := Nat.lt_of_not_le h
          refine ⟨op.apply a w, ?_⟩
          rw [plus, if_pos hloose, value?, ha, Option.bind_some, hw, Option.map_some]
    | _ => exact htight (show 4 ≤ 6 from by decide) hv

theorem digits?_tight {e : Expression} {digits : List Char} (h : e.digits? = some digits) :
    e.Tight := by
  cases e with
  | binary op l r => cases h
  | _ => exact show 4 ≤ 6 from by decide

end Expression

end Arithmetic

open Arithmetic

namespace Enumeration.Counter

variable {names : List Char → Option Int} {ts : List Token} {e : Expression}

/-- Counting on from a literal that is taken for a number. -/
theorem stands_of_digits (h : Written ts e) {digits : List Char} (hdigits : e.digits? = some digits)
    (hleads : ¬ Misleads digits) {m : Nat} (hm : Number.natural? 10 digits = some m) {n : Int}
    (hlow : -2 ^ 63 ≤ n) (hhigh : n < 2 ^ 63) (hn : n = m ∨ n = -m)
    (hvalue : literal? digits = some m → e.value? names = some n) :
    Stands { count := n } names (e.after names) := by
  obtain ⟨t, k, ht, rfl⟩ := h.exists_literal hdigits
  have hdecimal : ∀ c ∈ t.text.toList, c.isDigit = true := fun c hc =>
    isDigit_of_digitValue? (Nat.le_refl 10) (forall_of_natural? hm c hc)
  have hk := ht.literal?_eq
  obtain rfl : m = k := natural?_of_literal? hdecimal hm hk hleads
  have hbound : n ≤ 2 ^ 62 := by
    by_cases hfits : m < 2 ^ 63
    · have hlt := lt_of_isLiteral ht hdecimal hleads hm hfits
      omega
    · omega
  have hafter : e.after names = fun i : Nat => some (n + (i : Int)) := funext fun i =>
    Expression.after_of_tight (Expression.digits?_tight hdigits) (hvalue hk) i
  rw [hafter]
  exact stands_of_number hlow hbound

/-- **Counting on from an initializer.** -/
theorem ofValue_stands (h : Written ts e) (he : e.Ranked) (hblank : ∀ t ∈ ts, t.Blank)
    (hleads : ∀ digits ∈ e.digits?, ¬ Misleads digits) (name : String) :
    ∃ c, Counter.ofValue name (String.ofList (Token.chars ts)) true = (c, false) ∧
      c.Stands names (e.after names) := by
  have hwords : words? (Text.trim (String.ofList (Token.chars ts))).toList = some e.words := by
    rw [words?_trim, String.toList_ofList]
    exact (h.reads hblank).words
  have hne : Text.trim (String.ofList (Token.chars ts)) ≠ "" := by
    intro hempty
    rw [hempty] at hwords
    exact e.words_ne_nil (Option.some.inj hwords).symm
  unfold ofValue
  cases hnumber : Number.signed64? 10 (Text.trim (String.ofList (Token.chars ts))).toList with
  | none => exact ⟨_, rfl, stands_of_expression he hwords hne⟩
  | some n =>
      refine ⟨_, rfl, ?_⟩
      obtain ⟨hlow, hhigh, digits, m, hm, hwritten⟩ := exists_digits_of_signed64? hnumber
      have hword := words?_of_natural? hm
      rcases hwritten with ⟨htext, rfl⟩ | ⟨negative, htext, rfl⟩
      · rw [htext, hword] at hwords
        obtain rfl := Expression.eq_literal_of_words (Option.some.inj hwords).symm
        refine stands_of_digits h rfl (hleads digits rfl) hm hlow hhigh (Or.inl rfl) fun hliteral => ?_
        rw [Expression.value?, hliteral]
        rfl
      · have hapart : Apart (Expression.signOperator negative).symbol digits := by
          obtain ⟨z, hz, hname, -⟩ := (Expression.signOperator negative).exists_last
          refine apart_of_head (fun c hc => ?_) fun d hd => ?_
          · rw [hz] at hc
            exact Option.some.inj hc ▸ hname
          · exact isNameChar_of_isDigit (isDigit_of_digitValue? (Nat.le_refl 10)
              (forall_of_natural? hm d (List.mem_of_mem_head? hd)))
        rw [htext, words?_append hapart (Operator.words?_symbol _) hword] at hwords
        obtain rfl := Expression.eq_sign_of_words (Option.some.inj hwords).symm
        refine stands_of_digits h rfl (hleads digits rfl) hm hlow hhigh ?_ fun hliteral => ?_
        · cases negative <;> simp [signed]
        · rw [Expression.value?, Expression.value?, hliteral]
          rfl

end Enumeration.Counter

end HeaderPeers

import HeaderPeers.Proofs.Declarator.Front
import HeaderPeers.Proofs.Enumeration.Initializer

/-!
# Dimensions of arrays

Only the first token inside brackets is looked at: a number there is the dimension, whatever stands
behind it. So the dimensions are those of the brackets as long as no expression starts with a number
and no number is binary.

- `Token.size?` — the number that an integer literal stands for.
- `Token.IsLexeme` — tokens with the text that the scanner gives them.
- `DeclaredName.dimension_eq` — the dimension that a token gives.
- `Declarator.read_dims` — the dimensions of a declarator, and when they are those of its brackets.
-/

namespace HeaderPeers

open ReadM

/-! ## Signs in numbers -/

namespace Number

variable {c d : Char} {cs : List Char}

def isSign (c : Char) : Bool :=
  c == '-' || c == '+'

/-- Marks of exponents. -/
def exponents : List Char :=
  ['e', 'E', 'p', 'P']

/-- A sign stands only behind the mark of an exponent. -/
def Signed (c d : Char) : Prop :=
  isSign d = true → c ∈ exponents

theorem signed_of_continues {hex : Bool} (h : continues hex c d = true) : Signed c d := by
  intro hd
  have hsign : d = '-' ∨ d = '+' := by simpa [isSign] using hd
  have hplain : continues hex c d =
      (if hex then c == 'p' || c == 'P' else c == 'e' || c == 'E') := by
    rcases hsign with rfl | rfl <;> simp [continues, isSuffixMark, isHexMark, isLongMark,
      isUnsignedMark, digitValue?]
  rw [hplain] at h
  cases hex <;> simp at h <;> rcases h with rfl | rfl <;> simp [exponents]

/-- Signs in a scanned number stand behind exponents, by induction on its text. -/
theorem isChain_tail {hex : Bool} : (c :: (tail hex c cs).1).IsChain Signed := by
  induction cs generalizing hex c with
  | nil => exact List.isChain_singleton c
  | cons d cs ih =>
      unfold tail
      split
      next hcontinues => exact List.isChain_cons_cons.mpr ⟨signed_of_continues hcontinues, ih⟩
      · exact List.isChain_singleton c

/-- They still do without characters that are no marks of exponents. -/
theorem isChain_filter {p : Char → Bool} (hp : ∀ c ∈ exponents, p c = true)
    (h : (c :: cs).IsChain Signed) : (c :: cs.filter p).IsChain Signed := by
  induction cs generalizing c with
  | nil => exact h
  | cons d cs ih =>
      obtain ⟨hcd, hrest⟩ := List.isChain_cons_cons.mp h
      by_cases hd : p d = true
      · rw [List.filter_cons_of_pos hd]
        exact List.isChain_cons_cons.mpr ⟨hcd, ih hrest⟩
      · rw [List.filter_cons_of_neg hd]
        have hskip := ih hrest
        cases hfilter : cs.filter p with
        | nil => exact List.isChain_singleton c
        | cons x xs =>
            rw [hfilter] at hskip
            obtain ⟨hdx, hxs⟩ := List.isChain_cons_cons.mp hskip
            exact List.isChain_cons_cons.mpr ⟨fun hx => absurd (hp d (hdx hx)) hd, hxs⟩

/-- The first digit is no mark of the width or the sign. -/
theorem isSuffixMark_of_isDigit (hc : c.isDigit = true) : isSuffixMark c = false := by
  by_contra hmark
  simp only [isSuffixMark, isLongMark, isUnsignedMark, Bool.not_eq_false, Bool.or_eq_true,
    beq_iff_eq] at hmark
  rcases hmark with (rfl | rfl) | (rfl | rfl) <;> cases hc

/-- Without a mark of its width, a number still has its first digit. -/
theorem dropWidth?_prefix (digits : List Char) (hc : c.isDigit = true) :
    ∃ rest, (dropWidth? (c :: digits)).getD (c :: digits) = c :: rest ∧ rest <+: digits := by
  unfold dropWidth?
  by_cases hsuffix : "i64".toList.isSuffixOf (c :: digits) = true
  · rw [if_pos hsuffix]
    obtain ⟨front, hfront⟩ := List.isSuffixOf_iff_suffix.mp hsuffix
    cases front with
    | nil =>
        obtain ⟨rfl, -⟩ := List.cons.inj hfront
        cases hc
    | cons d front =>
        obtain ⟨rfl, rfl⟩ := List.cons.inj hfront
        exact ⟨front, by simp, List.prefix_append _ _⟩
  · rw [if_neg hsuffix]
    exact ⟨digits, rfl, List.prefix_rfl⟩

/-- A scanned number starts with its first digit, and signs in it stand behind exponents. -/
theorem exists_text (cs : List Char) (hc : c.isDigit = true) : ∃ rest,
    (Lexeme.number c cs).text = c :: rest ∧ (c :: rest).IsChain Signed := by
  obtain ⟨digits, hdigits⟩ : ∃ digits, (tail false c cs).1.filter (!isSuffixMark ·) = digits :=
    ⟨_, rfl⟩
  have hexponents : ∀ c ∈ exponents, (!isSuffixMark c) = true := by
    simp [exponents, isSuffixMark, isLongMark, isUnsignedMark]
  have hchain : (c :: digits).IsChain Signed := by
    rw [← hdigits]
    exact isChain_filter hexponents isChain_tail
  have hfilter : (c :: (tail false c cs).1).filter (!isSuffixMark ·) = c :: digits := by
    rw [List.filter_cons_of_pos (by simp [isSuffixMark_of_isDigit hc]), hdigits]
  obtain ⟨rest, hrest, hprefix⟩ := dropWidth?_prefix digits hc
  have hplain : (c :: rest).IsChain Signed :=
    hchain.prefix ((List.prefix_cons_inj c).mpr hprefix)
  unfold Lexeme.number textOf
  dsimp only
  rw [hfilter, hrest]
  split
  · have hlast : ((c :: rest) ++ ['L']).IsChain Signed := by
      refine List.isChain_append.mpr ⟨hplain, List.isChain_singleton _, fun d _ x hx => ?_⟩
      obtain rfl := Option.some.inj hx
      simp [Signed, isSign]
    exact ⟨rest ++ ['L'], List.cons_append, hlast⟩
  · exact ⟨rest, rfl, hplain⟩

/-- So do its digits without marks of the width and the sign. -/
theorem exists_digits (cs : List Char) (hc : c.isDigit = true) : ∃ rest,
    Text.dropEndWhile isSuffixMark (Lexeme.number c cs).text = c :: rest ∧
      (c :: rest).IsChain Signed := by
  obtain ⟨rest, htext, hchain⟩ := exists_text cs hc
  obtain ⟨marks, hmarks, hall⟩ :=
    Arithmetic.dropEndWhile_append isSuffixMark (Lexeme.number c cs).text
  generalize Text.dropEndWhile isSuffixMark (Lexeme.number c cs).text = body at *
  rw [htext] at hmarks
  cases body with
  | nil =>
      have hmark := hall c (by rw [← List.nil_append marks, ← hmarks]; exact List.mem_cons_self)
      rw [isSuffixMark_of_isDigit hc] at hmark
      cases hmark
  | cons d body =>
      obtain ⟨rfl, rfl⟩ := List.cons.inj hmarks
      exact ⟨body, rfl, hchain.left_of_append⟩

/-! ## Values -/

/-- Digits without a sign are worth what they say if that fits 64 bits. -/
theorem signed64?_of_unsigned {base : Nat} (h : ∀ c ∈ cs.head?, isSign c = false) :
    signed64? base cs = ((natural? base cs).filter (· < 2 ^ 63)).map Int.ofNat := by
  have hplain : signed64? base cs = ((natural? base cs).map Int.ofNat).filter fits64 := by
    unfold signed64?
    split
    · cases h '-' rfl
    · cases h '+' rfl
    · rfl
  rw [hplain]
  cases natural? base cs with
  | none => rfl
  | some n =>
      have hfits : fits64 (Int.ofNat n) = decide (n < 2 ^ 63) := by
        simp only [fits64]
        grind
      simp only [Option.map_some, Option.filter_some, hfits]
      split <;> rfl

/-- **The value of a scanned number**: hexadecimal behind `0x`, octal behind another zero, decimal
otherwise, if it fits 64 bits. -/
theorem decode?_of_signed (hc : c.isDigit = true) (h : (c :: cs).IsChain Signed) :
    decode? (c :: cs) = ((Arithmetic.magnitude? (c :: cs)).filter (· < 2 ^ 63)).map Int.ofNat := by
  have hsign (d : Char) (hd : d ∉ exponents) {e : Char} {es : List Char}
      (hchain : (d :: e :: es).IsChain Signed) : isSign e = false := by
    rw [Bool.eq_false_iff]
    exact fun he => hd ((List.isChain_cons_cons.mp hchain).1 he)
  have hfirst : isSign c = false := by
    rw [Bool.eq_false_iff]
    intro hsign
    have hmark : c = '-' ∨ c = '+' := by simpa [isSign] using hsign
    rcases hmark with rfl | rfl <;> cases hc
  have hdecode : decode? (c :: cs) = magnitude? (c :: cs) := by
    unfold decode?
    split
    next heq =>
      obtain ⟨rfl, -⟩ := List.cons.inj heq
      cases hc
    next heq =>
      obtain ⟨rfl, -⟩ := List.cons.inj heq
      cases hc
    · rfl
  rw [hdecode]
  have hhead : ∀ d ∈ (c :: cs).head?, isSign d = false := by
    intro d hd
    obtain rfl := Option.some.inj hd
    exact hfirst
  generalize c :: cs = digits at h hhead ⊢
  unfold magnitude?
  split
  next hex =>
    refine signed64?_of_unsigned fun d hd => ?_
    obtain ⟨hex, rfl⟩ := List.head?_eq_some_iff.mp hd
    exact hsign 'x' (by decide) h.tail
  next hex =>
    refine signed64?_of_unsigned fun d hd => ?_
    obtain ⟨hex, rfl⟩ := List.head?_eq_some_iff.mp hd
    exact hsign 'X' (by decide) h.tail
  next d octal hx hX =>
    have hoctal : Arithmetic.magnitude? ('0' :: d :: octal) = natural? 8 (d :: octal) := by
      unfold Arithmetic.magnitude?
      split <;> simp_all
    rw [hoctal]
    refine signed64?_of_unsigned fun e he => ?_
    obtain rfl := Option.some.inj he
    exact hsign '0' (by decide) h
  next hx hX hoctal =>
    have hdecimal : Arithmetic.magnitude? digits = natural? 10 digits := by
      unfold Arithmetic.magnitude?
      split <;> simp_all
    rw [hdecimal]
    exact signed64?_of_unsigned hhead

/-- The digits of a binary number. -/
def binary? : List Char → Option (List Char)
  | '0' :: 'b' :: digits => some digits
  | '0' :: 'B' :: digits => some digits
  | _ => none

/-- A binary number is not read. -/
theorem magnitude?_of_binary {digits : List Char} (h : binary? cs = some digits) :
    Arithmetic.magnitude? cs = none := by
  unfold binary? at h
  split at h
  · rfl
  · rfl
  · cases h

end Number

/-! ## Literals -/

namespace Lexeme

theorem word_kind (c : Char) (cs : List Char) :
    (word c cs).kind = .identifier ∨ ∃ w, (word c cs).kind = .keyword w := by
  unfold word verbatim
  dsimp only
  split
  next w _ => exact .inr ⟨w, rfl⟩
  · exact .inl rfl

theorem operator_kind (c : Char) (cs : List Char) :
    (operator c cs).kind = .symbol ∨ (operator c cs).kind = .punct := by
  unfold operator
  split
  · exact .inl rfl
  · exact .inl rfl
  · split
    · exact .inl rfl
    · exact .inr rfl
  · exact .inr rfl

/-- A number is an integer only if it starts with a digit. -/
theorem number_kind (cs : List Char) : (number '.' cs).kind = .float := by
  have hfloat : Number.isFloat ('.' :: (Number.tail false '.' cs).1) = true := by
    simp [Number.isFloat]
  unfold number
  dsimp only
  rw [if_pos hfloat]

/-- Numbers start with a digit, and characters with a quote. -/
theorem read_literal (c : Char) (cs : List Char) :
    ((read c cs).kind = .integer → c.isDigit = true ∧ read c cs = number c cs) ∧
      ((read c cs).kind = .char → ∃ rest, (read c cs).text = '\'' :: rest) := by
  unfold read
  split
  · rcases word_kind c cs with hkind | ⟨w, hkind⟩ <;> simp [hkind]
  split
  next hnumber =>
    refine ⟨fun hkind => ⟨?_, rfl⟩, fun hkind => ?_⟩
    · by_contra hdigit
      obtain rfl : c = '.' := by
        simp only [Bool.or_eq_true, Bool.and_eq_true, beq_iff_eq] at hnumber
        exact (hnumber.resolve_left hdigit).1
      rw [number_kind] at hkind
      cases hkind
    · unfold number at hkind
      dsimp only at hkind
      split at hkind <;> cases hkind
  split
  · exact ⟨nofun, nofun⟩
  · refine ⟨nofun, fun _ => ?_⟩
    unfold quoted
    dsimp only
    split <;> exact ⟨_, rfl⟩
  · exact ⟨nofun, nofun⟩
  · exact ⟨nofun, nofun⟩
  · exact ⟨nofun, nofun⟩
  · have hkind := operator_kind c cs
    rcases hkind with hkind | hkind <;> exact ⟨by simp [hkind], by simp [hkind]⟩

end Lexeme

namespace Token

variable {t : Token}

/-- The digits of a number, without marks of its width and sign. -/
def digits (t : Token) : List Char :=
  Text.dropEndWhile Number.isSuffixMark t.text.toList

/-- Whether the number is binary. -/
def isBinary (t : Token) : Bool :=
  (Number.binary? t.digits).isSome

/-- The number that an integer literal stands for, if it fits 64 bits: binary behind `0b`,
hexadecimal behind `0x`, octal behind another zero, and decimal otherwise. -/
def size? (t : Token) : Option Nat :=
  if t.kind = .integer then
    let value? := match Number.binary? t.digits with
      | some digits => Number.natural? 2 digits
      | none => Arithmetic.magnitude? t.digits
    value?.filter (· < 2 ^ 63)
  else none

/-- The token has the kind and the text that the scanner gives it. -/
def IsLexeme (t : Token) : Prop :=
  ∃ c cs, t.kind = (Lexeme.read c cs).kind ∧ t.text = String.ofList (Lexeme.read c cs).text

/-- What is scanned are such tokens, up to white space at the end. -/
theorem isLexeme_of_mem_scan {numbering : Numbering} {file : Option String} {line : Nat}
    {cs : List Char} (ht : t ∈ scan numbering file line cs) (hcomment : t.isComment = false) :
    t.IsLexeme := by
  fun_induction scan numbering file line cs with
  | case1 => simp at ht
  | case2 =>
      obtain rfl := List.mem_singleton.mp ht
      cases hcomment
  | case3 line cs spacing line' c rest _ lexeme ih =>
      rcases List.mem_cons.mp ht with rfl | ht
      · exact ⟨c, rest, rfl, rfl⟩
      · exact ih ht

/-- A number has the text of a scanned one. -/
theorem IsLexeme.number (h : t.IsLexeme) (ht : t.kind = .integer) :
    ∃ c cs, c.isDigit = true ∧ t.text.toList = (Lexeme.number c cs).text := by
  obtain ⟨c, cs, hkind, htext⟩ := h
  obtain ⟨hdigit, hread⟩ := (Lexeme.read_literal c cs).1 (hkind.symm.trans ht)
  rw [htext, String.toList_ofList, hread]
  exact ⟨c, cs, hdigit, rfl⟩

/-- A character stands behind a quote. -/
theorem IsLexeme.quoted (h : t.IsLexeme) (ht : t.kind = .char) :
    ∃ cs, t.text.toList = '\'' :: cs := by
  obtain ⟨c, cs, hkind, htext⟩ := h
  rw [htext, String.toList_ofList]
  exact (Lexeme.read_literal c cs).2 (hkind.symm.trans ht)

end Token

/-! ## The dimension of a token -/

theorem DeclaredName.dimension_of_mark {t : Token} {text : String} (h : t.IsMark text) :
    dimension t = -1 := by
  unfold dimension Token.isInteger
  rcases h.1 with hkind | hkind <;> simp [hkind]

/-- **The dimension that a token gives**: that of a literal which is not binary. -/
theorem DeclaredName.dimension_eq {t : Token} (h : t.IsLexeme) :
    dimension t = if t.isBinary then -1 else (t.size?.map Int.ofNat).getD (-1) := by
  by_cases hinteger : t.kind = .integer
  · obtain ⟨c, cs, hdigit, htext⟩ := h.number hinteger
    obtain ⟨rest, hdigits, hchain⟩ := Number.exists_digits cs hdigit
    have hall : t.digits = c :: rest := by rw [Token.digits, htext, hdigits]
    have hdimension : dimension t = (Number.decode? t.digits).getD (-1) := by
      simp [dimension, Token.isInteger, hinteger, Token.digits]
    have hvalue := Number.decode?_of_signed hdigit hchain
    rw [← hall] at hvalue
    rw [hdimension, hvalue]
    unfold Token.isBinary Token.size?
    rw [if_pos hinteger]
    cases hbinary : Number.binary? t.digits with
    | none => rfl
    | some digits =>
        rw [Number.magnitude?_of_binary hbinary]
        rfl
  · have hsize : t.size? = none := by simp [Token.size?, hinteger]
    rw [hsize, Option.map_none, Option.getD_none, ite_self]
    unfold dimension
    by_cases hchar : t.kind = .char
    · obtain ⟨cs, htext⟩ := h.quoted hchar
      obtain ⟨marks, hmarks, hall⟩ := Arithmetic.dropEndWhile_append Number.isSuffixMark
        t.text.toList
      have hnone : Number.decode? (Text.dropEndWhile Number.isSuffixMark t.text.toList) = none := by
        generalize Text.dropEndWhile Number.isSuffixMark t.text.toList = body at *
        rw [htext] at hmarks
        cases body with
        | nil => rfl
        | cons c body =>
            obtain ⟨rfl, -⟩ := List.cons.inj hmarks
            rfl
      rw [if_pos (by simp [Token.isInteger, hchar]), hnone]
      rfl
    · rw [if_neg (by simp [Token.isInteger, hinteger, hchar])]

/-! ## The dimensions of a declarator -/

namespace Dimension

variable {x : Dimension}

/-- The number that the first token inside gives, which must not be binary. -/
def firstSize (x : Dimension) : Int :=
  match x.size with
  | [] => -1
  | t :: _ => if t.isBinary then -1 else (t.size?.map Int.ofNat).getD (-1)

/-- **The number that the brackets give**: a literal that stands alone, and -1 otherwise. -/
def count (x : Dimension) : Int :=
  match x.size with
  | [t] => (t.size?.map Int.ofNat).getD (-1)
  | _ => -1

/-- A number is taken for the start of an expression, or a binary number is not read. -/
def Misread (x : Dimension) : Prop :=
  match x.size with
  | [] => False
  | [t] => t.isBinary = true ∧ t.size?.isSome = true
  | t :: _ :: _ => t.isBinary = false ∧ t.size?.isSome = true

theorem extent_eq (h : ∀ t ∈ x.size, t.IsLexeme) : x.extent = x.firstSize := by
  unfold extent firstSize
  cases hsize : x.size with
  | nil => exact DeclaredName.dimension_of_mark x.isClosing
  | cons t ts => exact DeclaredName.dimension_eq (h t (by simp [hsize]))

/-- The first token decides unless it misleads. -/
theorem firstSize_eq_count_iff : x.firstSize = x.count ↔ ¬ x.Misread := by
  have hsome (t : Token) : (t.size?.map Int.ofNat).getD (-1) = -1 ↔ ¬ t.size?.isSome = true := by
    cases t.size? with
    | none => simp
    | some n => simp only [Option.map_some, Option.getD_some]; simp
  unfold firstSize count Misread
  match x.size with
  | [] => simp
  | [t] =>
      dsimp only
      by_cases hbinary : t.isBinary = true
      · rw [if_pos hbinary, eq_comm, hsome]
        simp [hbinary]
      · simp [hbinary]
  | t :: _ :: _ =>
      dsimp only
      by_cases hbinary : t.isBinary = true
      · simp [hbinary]
      · rw [if_neg hbinary, hsome]
        simp [hbinary]

instance (x : Dimension) : Decidable x.Misread :=
  decidable_of_iff (¬ x.firstSize = x.count) (by rw [firstSize_eq_count_iff, not_not])

end Dimension

namespace Declarator

variable {request : DeclaratorRequest} {f : Front} {groups : List Dimension} {s s₁ : Reading}
  {u : Token} {ts : List Token}

/-- The dimensions with those that pointers are. -/
def Front.around (f : Front) (view : ArrayView) (sizes : List Int) : List Int :=
  f.name.dims ++ sizes ++ List.replicate f.name.stars (-1) ++
    if f.draft.folds view then [-1] else []

theorem Front.around_injective (f : Front) (view : ArrayView) {sizes sizes' : List Int} :
    f.around view sizes = f.around view sizes' ↔ sizes = sizes' := by
  simp [around]

/-- **The dimensions of a declarator.** Behind whatever front, each pair of brackets gives the
number that its first token gives. That is the number which the brackets give exactly if none of
them is misread. The declarator is read if its rule is found and neither a width nor parameters
follow. -/
theorem read_dims (hfront : readFront request s = .ok (some f) s₁)
    (hsees : s₁.Sees (groups.flatMap Dimension.tokens ++ u :: ts))
    (hbracket : u.is "[" = false) (hstars : groups ≠ [] ∨ f.name.stars = 0)
    (hlexemes : ∀ x ∈ groups, ∀ t ∈ x.size, t.IsLexeme) :
    (∀ d s', Declarator.read request s = .ok (some d) s' →
      d.dims = f.around request.view (groups.map Dimension.firstSize) ∧
        (d.dims = f.around request.view (groups.map Dimension.count) ↔
          ∀ x ∈ groups, ¬ x.Misread)) ∧
    (0 < s.fuel → f.isTypedef = false → f.parens = 0 → u.is ":" = false → u.is "(" = false →
      (∃ found, (f.shaped request (f.name.dims ++ groups.map Dimension.extent)).Finds s₁.table
        s₁.usings request.scope found) →
      ∃ d s', Declarator.read request s = .ok (some d) s') := by
  have hextents : groups.map Dimension.extent = groups.map Dimension.firstSize :=
    List.map_congr_left fun x hx => Dimension.extent_eq (hlexemes x hx)
  refine ⟨fun d s' hread => ?_, fun hfuel hplain hparens hcolon hopening ⟨found, hfinds⟩ => ?_⟩
  · obtain ⟨reader, hrest⟩ := readRest_of_read hfront hread
    have hdims := dims_of_groups hrest hsees hbracket hstars
    rw [hextents] at hdims
    refine ⟨hdims, ?_⟩
    change d.dims = f.around request.view _ at hdims
    rw [hdims, f.around_injective, List.map_inj_left]
    exact forall₂_congr fun x _ => Dimension.firstSize_eq_count_iff
  · have hu : ∀ text ∈ ["[", ":", "("], u.is text = false := by simp [hbracket, hcolon, hopening]
    refine exists_read hfront hfuel fun reader => ?_
    obtain ⟨d, j, hrest, -⟩ := readRest_passes reader hsees hu hplain hparens hfinds
    exact ⟨d, _, hrest⟩

/-! ### Two arrays -/

/-- Brackets on the first line. -/
def sampleGroup (size : List Token) (hsize : ∀ t ∈ size, t.isEof = false ∧ t.is "]" = false) :
    Dimension where
  opening := { kind := .punct, text := "[", location := { line := 1 } }
  size
  closing := { kind := .punct, text := "]", location := { line := 1 } }
  isOpening := ⟨.inl rfl, rfl⟩
  isClosing := ⟨.inl rfl, rfl⟩
  isSize := hsize

/-- The brackets `[4]` and `[n]`. -/
def sampleGroups : List Dimension :=
  [sampleGroup [{ kind := .integer, text := "4", location := { line := 1 } }] (by decide),
    sampleGroup [{ kind := .identifier, text := "n", location := { line := 1 } }] (by decide)]

/-- What is asked for a declarator outside of scopes. -/
def sampleRequest : DeclaratorRequest :=
  { scope := {} }

theorem sampleFront_reads :
    (match readFront sampleRequest (.ofTokens {} (Token.ofText none "int a[4][n];")) with
      | .ok (some f) s₁ =>
        decide (s₁.window.tokens = (Token.ofText none "int a[4][n];").toArray ∧
          s₁.window.index = 2 ∧ 2 ≤ s₁.window.tokens.size ∧ s₁.window.raw = false ∧ 0 < s₁.fuel ∧
          (∀ t ∈ s₁.window.tokens.toList.drop 2,
            t.is "#" = false ∧ (Expansion.ruleFor? s₁.table t).isNone = true)) &&
        decide (f.name.dims = [] ∧ f.name.stars = 0 ∧ f.isTypedef = false ∧ f.parens = 0 ∧
          f.draft.folds .plain = false ∧
          (f.shaped sampleRequest [4, -1]).type.arguments.isNone = true ∧
          (s₁.table.findWith? (f.shaped sampleRequest [4, -1]).lookupName false).isNone = true)
      | _ => false) = true := by
  decide +kernel

/-- The dimensions of `int a[4][n];` are a number and an unknown one. -/
theorem read_dims_sample : ∃ d s',
    Declarator.read sampleRequest (.ofTokens {} (Token.ofText none "int a[4][n];")) =
        .ok (some d) s' ∧
      d.dims = sampleGroups.map Dimension.count ∧
      sampleGroups.map Dimension.count = [4, -1] := by
  let semicolon : Token := { kind := .punct, text := ";", location := { line := 1 } }
  have htokens : ((Token.ofText none "int a[4][n];").drop 2).filter (!·.isComment) =
      sampleGroups.flatMap Dimension.tokens ++ [semicolon] := by
    decide +kernel
  have hsizes : ∀ x ∈ sampleGroups, ∀ t ∈ x.size,
      t ∈ Token.ofText none "int a[4][n];" ∧ t.isComment = false := by
    decide +kernel
  have hlexemes : ∀ x ∈ sampleGroups, ∀ t ∈ x.size, t.IsLexeme := fun x hx t ht =>
    Token.isLexeme_of_mem_scan (hsizes x hx t ht).1 (hsizes x hx t ht).2
  have hfront := sampleFront_reads
  have hextents : sampleGroups.map Dimension.extent = [4, -1] := by decide +kernel
  have hcount : sampleGroups.map Dimension.count = [4, -1] := by decide +kernel
  have hplain : ∀ x ∈ sampleGroups, ¬ x.Misread := by decide +kernel
  generalize Token.ofText none "int a[4][n];" = ts at *
  split at hfront
  next f s₁ hrun =>
    obtain ⟨hwindow, hshape⟩ := Bool.and_eq_true_iff.mp hfront
    obtain ⟨hall, hindex, hinside, hraw, hfuel, hstill⟩ := of_decide_eq_true hwindow
    obtain ⟨hdims, hstars, htypedef, hparens, hfolds, harguments, hrule⟩ := of_decide_eq_true hshape
    have hsees := Reading.sees_of_still hraw hfuel (by rwa [hindex]) (by rwa [hindex])
    rw [hindex, hall, List.toList_toArray, htokens, List.append_assoc] at hsees
    obtain ⟨hread, hexists⟩ := read_dims hrun hsees rfl (.inr hstars) hlexemes
    have hsample : f.name.dims ++ sampleGroups.map Dimension.extent = [4, -1] := by
      rw [hdims, hextents]
      rfl
    have hfinds : (f.shaped sampleRequest (f.name.dims ++ sampleGroups.map Dimension.extent)).Finds
        s₁.table s₁.usings sampleRequest.scope (f.shaped sampleRequest [4, -1], none) := by
      rw [hsample]
      exact Draft.finds_of_plain (Option.isNone_iff_eq_none.mp hrule) (by simp)
        fun _ => Option.isNone_iff_eq_none.mp harguments
    have hstart : 0 < (Reading.ofTokens {} ts).fuel := Nat.lt_of_lt_of_le (by decide)
      (Nat.le_add_right 1000000 (1000 * ts.length))
    obtain ⟨d, s', hd⟩ := hexists hstart htypedef hparens rfl rfl ⟨_, hfinds⟩
    refine ⟨d, s', hd, ?_, hcount⟩
    have hfolds : f.draft.folds sampleRequest.view = false := hfolds
    rw [(hread d s' hd).2.mpr hplain, Front.around, hdims, hstars, hfolds]
    simp
  · cases hfront

/-- The brackets `[4 + 1]`. -/
def sumGroup : Dimension :=
  sampleGroup [{ kind := .integer, text := "4", location := { line := 1 } },
    { kind := .punct, text := "+", spacing := " ", location := { line := 1 } },
    { kind := .integer, text := "1", spacing := " ", location := { line := 1 } }] (by decide)

/-- **A sum is cut off behind its first number.** The brackets of `int a[4 + 1];` hold no literal
alone, but are taken for four elements. -/
theorem sum_is_cut :
    (Token.ofText none "int a[4 + 1];").drop 2 =
        sumGroup.tokens ++ [{ kind := .punct, text := ";", location := { line := 1 } }] ∧
      sumGroup.count = -1 ∧
      (match Declarator.read sampleRequest (.ofTokens {} (Token.ofText none "int a[4 + 1];")) with
        | .ok (some d) _ => d.dims
        | _ => []) = [4] := by
  decide +kernel

end Declarator

end HeaderPeers

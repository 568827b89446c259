import HeaderPeers.Proofs.Declarator.Dimensions
import HeaderPeers.Proofs.Scope.Paths

/-!
# Integer literals

An integer literal of C is decimal, octal or hexadecimal and may be of any length. Read as a token
it loses what says how wide it is; an `L` stands for all of it, and for the width of a value that
needs more than 32 bits. Values past 64 bits are not decoded, but such a literal is long in each
radix.

- `Number.IsLiteral` — the integer literals of C and their values.
- `Number.IsWide` — what makes a literal wide.
- `Number.textOf_literal` — the text of a scanned literal.
- `Token.scan_literal` — the token of a literal with a suffix, wherever it stands.
-/

namespace HeaderPeers

namespace Number

open Arithmetic

/-! ## Literals -/

/-- A digit and what it is worth. -/
def IsDigit (base : Nat) (c : Char) (d : Nat) : Prop :=
  d < base ∧ ("0123456789abcdef".toList[d]? = some c ∨ "0123456789ABCDEF".toList[d]? = some c)

/-- One or more digits and what they are worth. -/
inductive Digits (base : Nat) : List Char → Nat → Prop
  | one {c : Char} {d : Nat} (digit : IsDigit base c d) : Digits base [c] d
  | more {cs : List Char} {n : Nat} {c : Char} {d : Nat} (digits : Digits base cs n)
      (digit : IsDigit base c d) : Digits base (cs ++ [c]) (n * base + d)

inductive Radix where
  | decimal
  | octal
  | hexadecimal
deriving DecidableEq

/-- The integer literals of C, without suffixes, and their values. -/
inductive IsLiteral : Radix → List Char → Nat → Prop
  | zero : IsLiteral .decimal ['0'] 0
  | decimal {cs : List Char} {n : Nat} (digits : Digits 10 cs n) (first : cs.head? ≠ some '0') :
      IsLiteral .decimal cs n
  | octal {cs : List Char} {n : Nat} (digits : Digits 8 cs n) : IsLiteral .octal ('0' :: cs) n
  | hexadecimal {x : Char} {cs : List Char} {n : Nat} (mark : x = 'x' ∨ x = 'X')
      (digits : Digits 16 cs n) : IsLiteral .hexadecimal ('0' :: x :: cs) n

/-- Marks of the width and the sign, in any order, or a width in bits. -/
def IsSuffix (suffix : List Char) : Prop :=
  (∀ c ∈ suffix, c ∈ ['u', 'U', 'l', 'L']) ∨ suffix = ['i', '6', '4']

/-- What makes a literal wide: a value past 32 bits, a suffix that says so, or being unsigned and
not hexadecimal. -/
def IsWide (radix : Radix) (n : Nat) (suffix : List Char) : Prop :=
  2 ^ 32 ≤ n ∨ ('l' ∈ suffix ∨ 'L' ∈ suffix ∨ suffix = ['i', '6', '4']) ∨
    ('u' ∈ suffix ∨ 'U' ∈ suffix) ∧ radix ≠ .hexadecimal

instance (radix : Radix) (n : Nat) (suffix : List Char) : Decidable (IsWide radix n suffix) :=
  inferInstanceAs (Decidable (_ ∨ _ ∨ _))

/-- The characters that a number may go on with. -/
def numberChars : List Char :=
  "0123456789abcdefABCDEF.lLuUxXiIpP".toList

variable {base d n : Nat} {c last : Char} {cs ds body suffix rest : List Char} {radix : Radix}

/-! ## Values -/

theorem IsDigit.digitValue? (h : IsDigit base c d) (hbase : base ≤ 16) :
    digitValue? base c = some d := by
  obtain ⟨hlt, htable⟩ := h
  have hhex : Number.digitValue? 16 c = some d := by
    have hd : d < 16 := Nat.lt_of_lt_of_le hlt hbase
    clear hlt
    rcases htable with hlower | hupper
    · interval_cases d <;> cases hlower <;> rfl
    · interval_cases d <;> cases hupper <;> rfl
  obtain ⟨hvalue, -⟩ := Option.filter_eq_some_iff.mp hhex
  exact Option.filter_eq_some_iff.mpr ⟨hvalue, decide_eq_true hlt⟩

theorem IsDigit.of_digitValue? (h : Number.digitValue? base c = some d) : IsDigit base c d := by
  obtain ⟨hvalue, hlt⟩ := Option.filter_eq_some_iff.mp h
  refine ⟨of_decide_eq_true hlt, ?_⟩
  have hchar : c = Char.ofNat c.toNat := (Char.ofNat_toNat c).symm
  have hrange : (48 ≤ c.toNat ∧ c.toNat ≤ 57 ∧ d = c.toNat - 48) ∨
      (97 ≤ c.toNat ∧ c.toNat ≤ 102 ∧ d = c.toNat - 97 + 10) ∨
      (65 ≤ c.toNat ∧ c.toNat ≤ 70 ∧ d = c.toNat - 65 + 10) := by
    split at hvalue
    next hdigit => exact Or.inl ⟨hdigit.1, hdigit.2, (Option.some.inj hvalue).symm⟩
    · split at hvalue
      next hlower => exact Or.inr (Or.inl ⟨hlower.1, hlower.2, (Option.some.inj hvalue).symm⟩)
      · split at hvalue
        next hupper => exact Or.inr (Or.inr ⟨hupper.1, hupper.2, (Option.some.inj hvalue).symm⟩)
        · cases hvalue
  clear hvalue hlt
  rw [hchar]
  generalize c.toNat = n at hrange
  rcases hrange with ⟨hlow, hhigh, rfl⟩ | ⟨hlow, hhigh, rfl⟩ | ⟨hlow, hhigh, rfl⟩ <;>
    interval_cases n <;> decide

theorem digitsValue?_append (acc : Nat) :
    digitsValue? base acc (cs ++ ds) =
      (digitsValue? base acc cs).bind fun acc => digitsValue? base acc ds := by
  induction cs generalizing acc with
  | nil => rfl
  | cons c cs ih =>
      rw [List.cons_append, digitsValue?, digitsValue?, Option.bind_assoc]
      simp only [ih]

theorem Digits.ne_nil (h : Digits base cs n) : cs ≠ [] := by
  cases h <;> simp

/-- Digits are worth what reading them from the left gives, by induction from the last one. -/
theorem Digits.natural? (h : Digits base cs n) (hbase : base ≤ 16) : natural? base cs = some n := by
  have hvalue : digitsValue? base 0 cs = some n := by
    induction h with
    | one digit => simp [digitsValue?, digit.digitValue? hbase]
    | more digits digit ih => simp [digitsValue?_append, ih, digitsValue?, digit.digitValue? hbase]
  rw [Number.natural?, if_neg (by simpa using h.ne_nil), hvalue]

/-- What is read as digits is made of them, by induction from the last one. -/
theorem Digits.of_natural? (h : Number.natural? base cs = some n) : Digits base cs n := by
  unfold Number.natural? at h
  split at h
  · cases h
  next hne =>
    rw [List.isEmpty_iff] at hne
    induction cs using List.reverseRecOn generalizing n with
    | nil => exact absurd rfl hne
    | append_singleton cs c ih =>
        rw [digitsValue?_append] at h
        obtain ⟨m, hm, hlast⟩ := Option.bind_eq_some_iff.mp h
        obtain ⟨d, hd, hn⟩ := Option.bind_eq_some_iff.mp hlast
        obtain rfl := Option.some.inj hn
        by_cases hcs : cs = []
        · subst hcs
          obtain rfl := Option.some.inj hm
          rw [Nat.zero_mul, Nat.zero_add]
          exact .one (.of_digitValue? hd)
        · exact .more (ih hcs hm) (.of_digitValue? hd)

theorem Digits.lt_pow (h : Digits base cs n) : n < base ^ cs.length := by
  induction h with
  | one digit => simpa using digit.1
  | @more cs n c d digits digit ih =>
      have hdigit := digit.1
      calc n * base + d < n * base + base := by omega
        _ = (n + 1) * base := by rw [Nat.add_mul, Nat.one_mul]
        _ ≤ base ^ cs.length * base := Nat.mul_le_mul_right base ih
        _ = base ^ (cs ++ [c]).length := by rw [List.length_append, List.length_singleton, pow_succ]

/-- What is worth more than 63 bits has sixteen digits at least. -/
theorem Digits.sixteen_le_length (h : Digits base cs n) (hbase : base ≤ 16) (hn : 2 ^ 63 ≤ n) :
    16 ≤ cs.length := by
  by_contra hshort
  have hlt : n < 16 ^ 15 :=
    calc n < base ^ cs.length := h.lt_pow
      _ ≤ 16 ^ cs.length := Nat.pow_le_pow_left hbase _
      _ ≤ 16 ^ 15 := Nat.pow_le_pow_right (by decide) (by omega)
  omega

theorem IsLiteral.magnitude? (h : IsLiteral radix body n) : Arithmetic.magnitude? body = some n := by
  cases h with
  | zero => rfl
  | decimal digits first =>
      rw [magnitude?_of_head (Or.inl first), digits.natural? (by decide)]
  | @octal cs n digits =>
      have hvalue := digits.natural? (by decide)
      obtain ⟨c, cs, rfl⟩ := List.exists_cons_of_ne_nil digits.ne_nil
      have hdigit := isDigit_of_digitValue? (by decide)
        (forall_of_natural? hvalue c List.mem_cons_self)
      unfold Arithmetic.magnitude?
      split
      next heq =>
        cases heq
        cases hdigit
      next heq =>
        cases heq
        cases hdigit
      next heq =>
        cases heq
        exact hvalue
      next hnot => exact absurd rfl (hnot c cs)
  | hexadecimal mark digits =>
      rcases mark with rfl | rfl
      · exact digits.natural? (Nat.le_refl _)
      · exact digits.natural? (Nat.le_refl _)

theorem IsLiteral.sixteen_le_length (h : IsLiteral radix body n) (hn : 2 ^ 63 ≤ n) :
    16 ≤ body.length := by
  cases h with
  | zero => cases hn
  | decimal digits first => exact digits.sixteen_le_length (by decide) hn
  | octal digits =>
      have hlong := digits.sixteen_le_length (by decide) hn
      rw [List.length_cons]
      omega
  | hexadecimal mark digits =>
      have hlong := digits.sixteen_le_length (Nat.le_refl _) hn
      rw [List.length_cons, List.length_cons]
      omega

/-! ## Characters -/

theorem IsLiteral.mem_literalChars (h : IsLiteral radix body n) : ∀ c ∈ body, c ∈ literalChars :=
  Arithmetic.mem_literalChars h.magnitude?

theorem IsLiteral.exists_cons (h : IsLiteral radix body n) :
    ∃ c cs, body = c :: cs ∧ c.isDigit = true := by
  rcases magnitude?_cases h.magnitude? with ⟨mark, hex, rfl, -⟩ | hdigits
  · exact ⟨'0', mark :: hex, rfl, rfl⟩
  · have hne : body ≠ [] := by
      rintro rfl
      cases h.magnitude?
    obtain ⟨c, cs, rfl⟩ := List.exists_cons_of_ne_nil hne
    exact ⟨c, cs, rfl, hdigits c List.mem_cons_self⟩

theorem IsLiteral.any_isHexMark (h : IsLiteral radix body n) :
    body.any isHexMark = decide (radix = .hexadecimal) := by
  have hdigits {cs : List Char} {base m : Nat} (hbase : base ≤ 10) (digits : Digits base cs m) :
      cs.any isHexMark = false := by
    rw [List.any_eq_false]
    intro c hc hmark
    have hdigit := isDigit_of_digitValue? hbase
      (forall_of_natural? (digits.natural? (by omega)) c hc)
    rcases Bool.or_eq_true_iff.mp hmark with hx | hx <;> rw [eq_of_beq hx] at hdigit <;> cases hdigit
  cases h with
  | zero => rfl
  | decimal digits first => exact hdigits (Nat.le_refl _) digits
  | octal digits => exact (Bool.false_or _).trans (hdigits (by decide) digits)
  | hexadecimal mark digits => rcases mark with rfl | rfl <;> rfl

theorem IsSuffix.mem (h : IsSuffix suffix) (hc : c ∈ suffix) :
    c ∈ ['u', 'U', 'l', 'L', 'i', '6', '4'] := by
  rcases h with hmarks | rfl
  · exact List.mem_append_left ['i', '6', '4'] (hmarks c hc)
  · exact List.mem_append_right ['u', 'U', 'l', 'L'] hc

/-- What holds of all characters of literals and suffixes. -/
theorem forall_mem_literal {p : Char → Bool} (h : IsLiteral radix body n) (hsuffix : IsSuffix suffix)
    (hall : (literalChars ++ ['u', 'U', 'l', 'L', 'i', '6', '4']).all p = true) :
    ∀ c ∈ body ++ suffix, p c = true := by
  intro c hc
  rcases List.mem_append.mp hc with hc | hc
  · exact List.all_eq_true.mp hall c (List.mem_append_left _ (h.mem_literalChars c hc))
  · exact List.all_eq_true.mp hall c (List.mem_append_right _ (hsuffix.mem hc))

theorem isFloat_literal (h : IsLiteral radix body n) (hsuffix : IsSuffix suffix) :
    isFloat (body ++ suffix) = false := by
  refine isFloat_eq_false h.magnitude? h.mem_literalChars fun c hc hmem => ?_
  have hall := List.all_eq_true.mp (show ['.', 'e', 'E', 'p', 'P', 'f', 'F'].all
    fun d => !(['u', 'U', 'l', 'L', 'i', '6', '4'] : List Char).contains d by decide) c hmem
  rw [List.contains_iff_mem.mpr (hsuffix.mem hc)] at hall
  cases hall

/-! ## Text -/

theorem isChain_signed (h : ∀ c ∈ cs, isSign c = false) : cs.IsChain Signed := by
  induction cs with
  | nil => exact List.isChain_nil
  | cons c cs ih =>
      refine List.isChain_cons.mpr ⟨fun d hd hsign => ?_, ih fun d hd => h d (by simp [hd])⟩
      rw [h d (List.mem_cons_of_mem c (List.mem_of_mem_head? hd))] at hsign
      cases hsign

/-- Whether a literal needs 64 bits is told from its value, or from its length where that does not
fit them. -/
theorem needs64_literal (h : IsLiteral radix body n) : needs64 body = decide (2 ^ 32 ≤ n) := by
  have hsigned : body.IsChain Signed := by
    have hall := List.all_eq_true.mp (show literalChars.all (!isSign ·) by decide)
    exact isChain_signed fun c hc => by simpa using hall c (h.mem_literalChars c hc)
  obtain ⟨c, cs, rfl, hc⟩ := h.exists_cons
  unfold needs64
  rw [decode?_of_signed hc hsigned, h.magnitude?]
  by_cases hn : n < 2 ^ 63
  · rw [Option.filter_some, if_pos (decide_eq_true hn), Option.map_some]
    have hhigh : (Int.ofNat n).fdiv UInt32.size = ((n / 2 ^ 32 : Nat) : Int) := by
      rw [Int.ofNat_eq_natCast, Int.natCast_ediv]
      exact Int.fdiv_eq_ediv_of_nonneg _ (by decide)
    simp only [hhigh]
    grind
  · have hlong := h.sixteen_le_length (Nat.le_of_not_lt hn)
    rw [Option.filter_some, if_neg (by simpa using hn), Option.map_none]
    have hbig : 2 ^ 32 ≤ n := by omega
    exact (decide_eq_true hlong).trans (decide_eq_true hbig).symm

theorem any_isLongMark (h : IsLiteral radix body n) :
    (body ++ suffix).any isLongMark = decide ('l' ∈ suffix ∨ 'L' ∈ suffix) := by
  have hall := List.all_eq_true.mp (show literalChars.all (!isLongMark ·) by decide)
  have hno : body.any isLongMark = false :=
    List.any_eq_false.mpr fun c hc => by simpa using hall c (h.mem_literalChars c hc)
  rw [List.any_append, hno, Bool.false_or, Bool.eq_iff_iff]
  simp [isLongMark, and_or_left, exists_or]

theorem any_isUnsignedMark (h : IsLiteral radix body n) :
    (body ++ suffix).any isUnsignedMark = decide ('u' ∈ suffix ∨ 'U' ∈ suffix) := by
  have hall := List.all_eq_true.mp (show literalChars.all (!isUnsignedMark ·) by decide)
  have hno : body.any isUnsignedMark = false :=
    List.any_eq_false.mpr fun c hc => by simpa using hall c (h.mem_literalChars c hc)
  rw [List.any_append, hno, Bool.false_or, Bool.eq_iff_iff]
  simp [isUnsignedMark, and_or_left, exists_or]

/-- **The text of a scanned literal** is the literal without its suffix, with an `L` behind it if it
is wide. -/
theorem textOf_literal (h : IsLiteral radix body n) (hsuffix : IsSuffix suffix) :
    textOf (body ++ suffix) = if IsWide radix n suffix then body ++ ['L'] else body := by
  have hplain : body.filter (!isSuffixMark ·) = body := by
    have hall := List.all_eq_true.mp (show literalChars.all (!isSuffixMark ·) by decide)
    exact List.filter_eq_self.mpr fun c hc => hall c (h.mem_literalChars c hc)
  have hfloat := isFloat_literal h hsuffix
  have hhex : (body ++ suffix).any isHexMark = decide (radix = .hexadecimal) := by
    have hsuffixes := List.all_eq_true.mp
      (show ['u', 'U', 'l', 'L', 'i', '6', '4'].all (!isHexMark ·) by decide)
    have hno : suffix.any isHexMark = false :=
      List.any_eq_false.mpr fun c hc => by simpa using hsuffixes c (hsuffix.mem hc)
    rw [List.any_append, h.any_isHexMark, hno, Bool.or_false]
  rcases hsuffix with hmarks | rfl
  · have hsource : (body ++ suffix).filter (!isSuffixMark ·) = body := by
      have hall := List.all_eq_true.mp (show ['u', 'U', 'l', 'L'].all isSuffixMark by decide)
      rw [List.filter_append, hplain, List.filter_eq_nil_iff.mpr fun c hc => by
        simp [hall c (hmarks c hc)], List.append_nil]
    have hwidth : dropWidth? body = none := by
      unfold dropWidth?
      rw [if_neg]
      intro hend
      have hmem : 'i' ∈ body := (List.isSuffixOf_iff_suffix.mp hend).subset (by decide)
      exact absurd (h.mem_literalChars 'i' hmem) (by decide +kernel)
    have hbare : suffix ≠ ['i', '6', '4'] := by
      rintro rfl
      exact absurd (hmarks 'i' List.mem_cons_self) (by decide)
    have hwide : IsWide radix n suffix ↔ ((body ++ suffix).any isLongMark || needs64 body ||
        (body ++ suffix).any isUnsignedMark && !(body ++ suffix).any isHexMark) = true := by
      rw [needs64_literal h, hhex, any_isLongMark h, any_isUnsignedMark h]
      simp only [IsWide, hbare, Bool.or_eq_true, Bool.and_eq_true, Bool.not_eq_true',
        decide_eq_true_eq, decide_eq_false_iff_not]
      tauto
    unfold textOf
    simp only [hsource, hwidth, hfloat, Option.isSome_none, Bool.or_false, Option.getD_none,
      Bool.not_false, Bool.true_and]
    rw [if_congr hwide rfl rfl]
  · have hsource : (body ++ ['i', '6', '4']).filter (!isSuffixMark ·) = body ++ ['i', '6', '4'] := by
      rw [List.filter_append, hplain]
      rfl
    have hwidth : dropWidth? (body ++ ['i', '6', '4']) = some body := by
      have hend : "i64".toList.isSuffixOf (body ++ ['i', '6', '4']) = true :=
        List.isSuffixOf_iff_suffix.mpr (List.suffix_append body ['i', '6', '4'])
      unfold dropWidth?
      rw [if_pos hend]
      simp
    have hwide : IsWide radix n ['i', '6', '4'] := Or.inr (Or.inl (Or.inr (Or.inr rfl)))
    unfold textOf
    simp only [hsource, hwidth, hfloat]
    rw [if_pos hwide]
    simp

/-! ## Scanning -/

/-- Whether a number goes on with the character, whatever stands before it. -/
def isPart (c : Char) : Bool :=
  c.isDigit || c == '.' || (digitValue? 16 c).isSome || isSuffixMark c || isHexMark c || c == 'i' ||
    c == 'I' || c == 'p' || c == 'P'

theorem isPart_iff : isPart c = true ↔ c ∈ numberChars := by
  have hdigits : ∀ d ∈ literalChars, d ∈ numberChars := by
    simpa using List.all_eq_true.mp (show literalChars.all (numberChars.contains ·) by decide)
  constructor
  · simp only [isPart, Bool.or_eq_true, beq_iff_eq, isSuffixMark, isLongMark, isUnsignedMark,
      isHexMark]
    rintro ((((((((hdigit | rfl) | hdigit) | (rfl | rfl) | rfl | rfl) | rfl | rfl) | rfl) | rfl) |
      rfl) | rfl)
    · have hvalue := digitValue?_of_isDigit hdigit
      exact hdigits c (mem_literalChars_of_digitValue? (Option.isSome_of_eq_some hvalue))
    · decide
    · exact hdigits c (mem_literalChars_of_digitValue? hdigit)
    all_goals decide
  · exact List.all_eq_true.mp (show numberChars.all isPart by decide) c

/-- No other character goes on with a number, but for a sign behind an exponent. -/
theorem continues_eq (hex : Bool) (last c : Char) : continues hex last c =
    (isPart c || (c == '+' || c == '-') &&
      if hex then last == 'p' || last == 'P' else last == 'e' || last == 'E') := by
  dsimp only [continues, isPart]
  ac_rfl

/-- A number goes on through such characters, up to another one. -/
theorem tail_append_of_mem {hex : Bool} (hcs : ∀ c ∈ cs, c ∈ numberChars)
    (hrest : ∀ c ∈ rest.head?, c ∉ numberChars) (hp : ∀ c ∈ last :: cs, c ≠ 'p' ∧ c ≠ 'P')
    (he : hex = true ∨ cs.any isHexMark = true ∨ ∀ c ∈ last :: cs, c ≠ 'e' ∧ c ≠ 'E') :
    tail hex last (cs ++ rest) = (cs, rest) := by
  induction cs generalizing hex last with
  | nil =>
      cases rest with
      | nil => rfl
      | cons d rest =>
          have hstop : continues hex last d = false := by
            have hpart : isPart d = false := by
              rw [Bool.eq_false_iff, Ne, isPart_iff]
              exact hrest d rfl
            have hlast := hp last List.mem_cons_self
            rw [continues_eq, hpart]
            cases hex with
            | true => simp [hlast]
            | false =>
                have hlast := (he.resolve_left (by decide)).resolve_left (by decide) last
                  List.mem_cons_self
                simp [hlast]
          rw [List.nil_append, tail, hstop]
          rfl
  | cons c cs ih =>
      have hgoes : continues hex last c = true := by
        rw [continues_eq, isPart_iff.mpr (hcs c List.mem_cons_self), Bool.true_or]
      have hmore : tail (hex || isHexMark c) c (cs ++ rest) = (cs, rest) := by
        refine ih (fun d hd => hcs d (List.mem_cons_of_mem c hd))
          (fun d hd => hp d (List.mem_cons_of_mem last hd)) ?_
        rcases he with rfl | hmark | he
        · exact Or.inl rfl
        · rw [List.any_cons, Bool.or_eq_true] at hmark
          rcases hmark with hc | hcs
          · exact Or.inl (by rw [hc, Bool.or_true])
          · exact Or.inr (Or.inl hcs)
        · exact Or.inr (Or.inr fun d hd => he d (List.mem_cons_of_mem last hd))
      rw [List.cons_append, tail, if_pos hgoes, hmore]

/-- A literal is scanned to the end of its suffix. -/
theorem tail_literal (h : IsLiteral radix (c :: body) n) (hsuffix : IsSuffix suffix)
    (hrest : ∀ c ∈ rest.head?, c ∉ numberChars) :
    tail false c (body ++ suffix ++ rest) = (body ++ suffix, rest) := by
  have hchars := forall_mem_literal (p := fun d => numberChars.contains d && d != 'p' && d != 'P')
    h hsuffix (by decide)
  simp only [Bool.and_eq_true, bne_iff_ne, List.contains_eq_mem, decide_eq_true_eq] at hchars
  refine tail_append_of_mem (fun d hd => (hchars d (List.mem_cons_of_mem c hd)).1.1) hrest
    (fun d hd => ⟨(hchars d hd).1.2, (hchars d hd).2⟩) (Or.inr ?_)
  rcases magnitude?_cases h.magnitude? with ⟨mark, hex, hbody, hmark, -⟩ | hdigits
  · obtain ⟨rfl, rfl⟩ := List.cons.inj hbody
    exact Or.inl (by simp [hmark])
  · refine Or.inr fun d hd => ?_
    rw [← List.cons_append] at hd
    rcases List.mem_append.mp hd with hd | hd
    · have hdigit := hdigits d hd
      constructor
      · rintro rfl
        cases hdigit
      · rintro rfl
        cases hdigit
    · have hall := List.all_eq_true.mp (show ['u', 'U', 'l', 'L', 'i', '6', '4'].all
        (fun d => d != 'e' && d != 'E') by decide) d (hsuffix.mem hd)
      simpa using hall

end Number

namespace Token

open Number

variable {numbering : Numbering} {file : Option String} {line : Nat}

theorem advance_append (numbering : Numbering) (line : Nat) (cs ds : List Char) :
    numbering.advance line (cs ++ ds) = numbering.advance (numbering.advance line cs) ds := by
  cases numbering with
  | counted => simp only [Numbering.advance, List.count_append, Nat.add_assoc]
  | fixed => rfl

/-- White space in front of a token goes to it. -/
theorem scan_blanks_append {blanks cs : List Char} {t : Token} {ts : List Token}
    (hblanks : ∀ c ∈ blanks, Text.isBlank c = true)
    (h : scan numbering file (numbering.advance line blanks) cs = t :: ts) :
    scan numbering file line (blanks ++ cs) =
      { t with spacing := String.ofList blanks ++ t.spacing } :: ts := by
  induction blanks generalizing line with
  | nil =>
      have hline : numbering.advance line [] = line := by cases numbering <;> rfl
      rw [hline] at h
      simp [h]
  | cons c blanks ih =>
      obtain ⟨hc, hblanks⟩ := List.forall_mem_cons.mp hblanks
      have hadvance := advance_append numbering line [c] blanks
      rw [List.singleton_append] at hadvance
      rw [hadvance] at h
      rw [List.cons_append, scan_blank hc (ih hblanks h), ← String.append_assoc,
        ← String.ofList_append]
      rfl

/-- **The token of an integer literal.** A literal of any length and radix, with a suffix, in front
of anything that does not go on with a number, is one integer token. Its text is the literal with an
`L` in place of the suffix if it is wide, and without the suffix if not. -/
theorem scan_literal {radix : Radix} {body suffix rest blanks : List Char} {n : Nat}
    (h : Number.IsLiteral radix body n) (hsuffix : IsSuffix suffix)
    (hrest : ∀ c ∈ rest.head?, c ∉ numberChars)
    (hblanks : ∀ c ∈ blanks, Text.isBlank c = true) :
    scan numbering file line (blanks ++ (body ++ suffix ++ rest)) =
      { kind := .integer
        text := String.ofList (if IsWide radix n suffix then body ++ ['L'] else body)
        spacing := String.ofList blanks
        location := { file, line := numbering.advance line blanks } } ::
        scan numbering file (numbering.advance line blanks) rest := by
  have hbreak : (body ++ suffix).count '\n' = 0 := by
    have hall := forall_mem_literal (p := (· != '\n')) h hsuffix (by decide)
    exact List.count_eq_zero.mpr fun hmem => by simpa using hall _ hmem
  have htext := textOf_literal h hsuffix
  have hfloat := isFloat_literal h hsuffix
  obtain ⟨c, cs, rfl, hc⟩ := h.exists_cons
  have hread : Lexeme.read c (cs ++ suffix ++ rest) =
      { kind := .integer
        text := if IsWide radix n suffix then c :: cs ++ ['L'] else c :: cs
        source := c :: cs ++ suffix, rest } := by
    have hword : Text.isWordStart c = false := by
      rw [Bool.eq_false_iff]
      intro hstart
      rw [Arithmetic.isDigit_of_isWordStart hstart] at hc
      cases hc
    unfold Lexeme.read
    rw [hword, hc]
    simp only [Bool.false_eq_true, if_false, Bool.true_or, if_true, Lexeme.number,
      tail_literal h hsuffix hrest]
    rw [List.cons_append] at htext hfloat
    rw [htext, hfloat]
    rfl
  have hblank : Text.isBlank c = false := by
    simp only [Char.isDigit, Bool.and_eq_true, decide_eq_true_eq] at hc
    have hlow : 48 ≤ c.toNat := hc.1
    have hhigh : c.toNat ≤ 57 := hc.2
    simp only [Text.isBlank]
    grind
  have hscan := @scan_read numbering file (numbering.advance line blanks) c hblank
    (cs ++ suffix ++ rest)
  rw [hread] at hscan
  have hline : numbering.advance (numbering.advance line blanks) (c :: cs ++ suffix) =
      numbering.advance line blanks := by
    cases numbering with
    | counted => simp only [Numbering.advance, hbreak, Nat.add_zero]
    | fixed => rfl
  rw [hline] at hscan
  refine (scan_blanks_append hblanks hscan).trans ?_
  simp

/-- An octal literal of `2 ^ 63`, which is past 64 bits with a sign, between two others. -/
theorem scan_literal_octal :
    Number.IsLiteral .octal "01000000000000000000000".toList (2 ^ 63) ∧ IsSuffix ['u'] ∧
      (∀ c ∈ "+0x1".toList.head?, c ∉ numberChars) ∧ (∀ c ∈ [' '], Text.isBlank c = true) ∧
      ((scan .counted none 1 " 01000000000000000000000u+0x1".toList).head?.map (·.text)) =
        some "01000000000000000000000L" := by
  have hliteral : Number.IsLiteral .octal "01000000000000000000000".toList (2 ^ 63) := by
    have hdigits : "01000000000000000000000".toList = '0' :: "1000000000000000000000".toList := by
      decide +kernel
    rw [hdigits]
    exact .octal (.of_natural? (by decide +kernel))
  have hsuffix : IsSuffix ['u'] := Or.inl (by simp)
  have hrest : ∀ c ∈ "+0x1".toList.head?, c ∉ numberChars := by
    intro c hc
    obtain rfl : '+' = c := Option.some.inj hc
    rw [← isPart_iff]
    decide
  have hblanks : ∀ c ∈ [' '], Text.isBlank c = true := List.forall_mem_singleton.mpr rfl
  have hscan := @scan_literal .counted none 1 _ _ _ _ _ _ hliteral hsuffix hrest hblanks
  have htext : " 01000000000000000000000u+0x1".toList =
      [' '] ++ ("01000000000000000000000".toList ++ ['u'] ++ "+0x1".toList) := by
    decide +kernel
  refine ⟨hliteral, hsuffix, hrest, hblanks, ?_⟩
  rw [htext, hscan]
  decide +kernel

end Token

end HeaderPeers

import HeaderPeers.Proofs.IntegerLiteral
import HeaderPeers.Window.Conditional

/-!
# Decoding integers

A text is decoded as an integer by taking a sign from its front and then reading a literal. The
digits are read by a reader that takes a sign of its own, so that a second sign is read as well,
behind the first one or between the mark of the radix and the digits. Apart from that exactly the
signed literals of C are decoded that fit 64 bits, each to its value.

- `Number.IsInteger` — a literal of C with one sign at most, and its value.
- `Number.IsTwiceSigned` — a number with a second sign, and its value.
- `Number.decode?_eq_some_iff` — the two signs of all that is decoded.
- `Number.decodeText?_eq_some_iff` — the statement: what is decoded, and when the second sign matters.
- `Number.second_sign_is_read` — a condition that is decided by a number with two signs.
-/

namespace HeaderPeers

namespace Number

open Arithmetic

/-! ## Signs -/

/-- What may stand in front of digits. -/
inductive Sign where
  | absent
  | plus
  | minus
deriving DecidableEq

namespace Sign

def chars : Sign → List Char
  | absent => []
  | plus => ['+']
  | minus => ['-']

/-- The number with the sign in front. -/
def apply : Sign → Int → Int
  | minus, n => -n
  | _, n => n

/-- The number with the sign in front, in 64 bits. -/
def apply64 : Sign → Int → Int
  | minus, n => (-n).bmod UInt64.size
  | _, n => n

end Sign

/-- A literal of C behind one sign at most, of a magnitude that fits 63 bits, and its value. -/
def IsInteger (cs : List Char) (v : Int) : Prop :=
  ∃ (sign : Sign) (radix : Radix) (body : List Char) (n : Nat),
    cs = sign.chars ++ body ∧ IsLiteral radix body n ∧ n ≤ 2 ^ 63 - 1 ∧ v = sign.apply n

/-- A literal with a sign in front of its digits, behind what marks the radix, or with none. -/
inductive SignedLiteral : Sign → List Char → Nat → Prop
  | decimal {sign : Sign} {digits : List Char} {n : Nat} (value : Digits 10 digits n)
      (bare : sign = .absent → digits.head? ≠ some '0' ∨ digits = ['0']) :
      SignedLiteral sign (sign.chars ++ digits) n
  | octal {sign : Sign} {digits : List Char} {n : Nat} (value : Digits 8 digits n) :
      SignedLiteral sign ('0' :: (sign.chars ++ digits)) n
  | hexadecimal {sign : Sign} {x : Char} {digits : List Char} {n : Nat} (mark : x = 'x' ∨ x = 'X')
      (value : Digits 16 digits n) : SignedLiteral sign ('0' :: x :: (sign.chars ++ digits)) n

/-- The sign that a text starts with has been taken from its front. -/
def IsFront (first : Sign) (body : List Char) : Prop :=
  first = .absent → ∀ c ∈ body.head?, isSign c = false

/-- A number with a second sign, and its value. The number behind the first sign fits 64 bits, and
so does the value, except for the one that is negated to `2 ^ 63` and stays as it is. -/
def IsTwiceSigned (cs : List Char) (v : Int) : Prop :=
  ∃ (first second : Sign) (body : List Char) (n : Nat), second ≠ .absent ∧
    cs = first.chars ++ body ∧ IsFront first body ∧ SignedLiteral second body n ∧
    -2 ^ 63 ≤ second.apply n ∧ second.apply n < 2 ^ 63 ∧
    v = if first = .minus ∧ second.apply n = -2 ^ 63 then -2 ^ 63
      else first.apply (second.apply n)

variable {base n : Nat} {c : Char} {cs digits body : List Char} {first sign : Sign} {radix : Radix}
  {v w : Int}

/-- Each text is a sign, if it starts with one, and the rest. -/
theorem exists_front (cs : List Char) :
    ∃ (first : Sign) (body : List Char), cs = first.chars ++ body ∧ IsFront first body := by
  by_cases hminus : cs.head? = some '-'
  · obtain ⟨rest, rfl⟩ := List.head?_eq_some_iff.mp hminus
    exact ⟨.minus, rest, rfl, nofun⟩
  · by_cases hplus : cs.head? = some '+'
    · obtain ⟨rest, rfl⟩ := List.head?_eq_some_iff.mp hplus
      exact ⟨.plus, rest, rfl, nofun⟩
    · refine ⟨.absent, cs, rfl, fun _ c hc => ?_⟩
      have hne : c ≠ '-' ∧ c ≠ '+' := by
        rw [Option.mem_def.mp hc] at hminus hplus
        exact ⟨fun h => hminus (congrArg some h), fun h => hplus (congrArg some h)⟩
      simp [isSign, hne]

/-- One turn of 64 bits brings every negated number back but the least one, which has no
counterpart. -/
theorem apply64_of_fits (sign : Sign) (h : fits64 w = true) :
    sign.apply64 w = if sign = .minus ∧ w = -2 ^ 63 then -2 ^ 63 else sign.apply w := by
  have hbounds : -2 ^ 63 ≤ w ∧ w < 2 ^ 63 := by simpa [fits64] using h
  cases sign with
  | absent => rfl
  | plus => rfl
  | minus =>
      simp only [Sign.apply64, Sign.apply, true_and]
      split
      next hleast =>
        subst hleast
        decide
      next hleast =>
        have hsize : ((UInt64.size : Nat) : Int) = 2 ^ 64 := rfl
        rw [Int.bmod_eq_of_le] <;> omega

/-! ## Digits -/

theorem Digits.isSign_eq_false (h : Digits base digits n) (hbase : base ≤ 16) (hc : c ∈ digits) :
    isSign c = false := by
  have hvalue := forall_of_natural? (h.natural? hbase) c hc
  rw [Bool.eq_false_iff]
  intro hsign
  have hmark : c = '-' ∨ c = '+' := by simpa [isSign] using hsign
  rcases hmark with rfl | rfl <;> simp [digitValue?] at hvalue

/-- Digits are read with the sign in front of them. -/
theorem signed64?_front (h : IsFront sign cs) : signed64? base (sign.chars ++ cs) =
    ((natural? base cs).map fun n : Nat => sign.apply n).filter fits64 := by
  cases sign with
  | plus => rfl
  | minus =>
      rw [Sign.chars, List.singleton_append, signed64?]
      cases natural? base cs <;> rfl
  | absent =>
      have hhead := h rfl
      unfold signed64?
      dsimp only [Sign.chars, List.nil_append]
      split
      · cases hhead '-' rfl
      · cases hhead '+' rfl
      · rfl

theorem signed64?_eq_some_iff (hbase : base ≤ 16) : signed64? base cs = some w ↔
    ∃ (sign : Sign) (digits : List Char) (n : Nat),
      cs = sign.chars ++ digits ∧ Digits base digits n ∧ w = sign.apply n ∧ fits64 w = true := by
  constructor
  · intro h
    obtain ⟨sign, digits, rfl, hfront⟩ := exists_front cs
    rw [signed64?_front hfront, Option.filter_eq_some_iff] at h
    obtain ⟨hvalue, hfits⟩ := h
    obtain ⟨n, hn, rfl⟩ := Option.map_eq_some_iff.mp hvalue
    exact ⟨sign, digits, n, rfl, .of_natural? hn, rfl, hfits⟩
  · rintro ⟨sign, digits, n, rfl, hdigits, rfl, hfits⟩
    have hfront : IsFront sign digits := fun _ c hc =>
      hdigits.isSign_eq_false hbase (List.mem_of_mem_head? hc)
    rw [signed64?_front hfront, hdigits.natural? hbase]
    exact Option.filter_eq_some_iff.mpr ⟨rfl, hfits⟩

/-! ## Literals -/

theorem isLiteral_iff : (∃ radix, IsLiteral radix body n) ↔ SignedLiteral .absent body n := by
  constructor
  · rintro ⟨radix, h⟩
    cases h with
    | zero => exact @SignedLiteral.decimal .absent _ _ (.of_natural? rfl) fun _ => Or.inr rfl
    | decimal digits first => exact @SignedLiteral.decimal .absent _ _ digits fun _ => Or.inl first
    | octal digits => exact @SignedLiteral.octal .absent _ _ digits
    | hexadecimal mark digits => exact @SignedLiteral.hexadecimal .absent _ _ _ mark digits
  · intro h
    cases h with
    | decimal value bare =>
        rcases bare rfl with hfirst | rfl
        · exact ⟨.decimal, .decimal value hfirst⟩
        · obtain rfl : 0 = n := Option.some.inj (value.natural? (by decide))
          exact ⟨.decimal, .zero⟩
    | octal value => exact ⟨.octal, .octal value⟩
    | hexadecimal mark value => exact ⟨.hexadecimal, .hexadecimal mark value⟩

theorem magnitude?_hexadecimal {x : Char} (mark : x = 'x' ∨ x = 'X') (cs : List Char) :
    magnitude? ('0' :: x :: cs) = signed64? 16 cs := by
  rcases mark with rfl | rfl <;> rfl

theorem magnitude?_octal (hne : cs ≠ []) (hmark : ∀ c ∈ cs.head?, c ≠ 'x' ∧ c ≠ 'X') :
    magnitude? ('0' :: cs) = signed64? 8 cs := by
  obtain ⟨c, cs, rfl⟩ := List.exists_cons_of_ne_nil hne
  obtain ⟨hx, hX⟩ := hmark c rfl
  unfold Number.magnitude?
  split <;> simp_all

theorem magnitude?_decimal (h : cs.head? ≠ some '0' ∨ cs = ['0']) :
    Number.magnitude? cs = signed64? 10 cs := by
  rcases h with h | rfl
  · unfold Number.magnitude?
    split <;> simp_all
  · rfl

/-- Decimal digits are not taken for octal ones. -/
theorem decimal_head (h : sign = .absent → digits.head? ≠ some '0' ∨ digits = ['0']) :
    (sign.chars ++ digits).head? ≠ some '0' ∨ sign.chars ++ digits = ['0'] := by
  cases sign with
  | absent => exact h rfl
  | plus => exact Or.inl (by simp [Sign.chars])
  | minus => exact Or.inl (by simp [Sign.chars])

/-- Octal digits are not taken for a hexadecimal number. -/
theorem octal_head (value : Digits 8 digits n) :
    ∀ c ∈ (sign.chars ++ digits).head?, c ≠ 'x' ∧ c ≠ 'X' := by
  intro c hc
  cases sign with
  | plus =>
      obtain rfl : '+' = c := Option.some.inj hc
      decide
  | minus =>
      obtain rfl : '-' = c := Option.some.inj hc
      decide
  | absent =>
      have hdigit := isDigit_of_digitValue? (by decide)
        (forall_of_natural? (value.natural? (by decide)) c (List.mem_of_mem_head? hc))
      constructor <;> rintro rfl <;> cases hdigit

/-- **What is read of a literal**: digits with a sign of their own, if the number fits 64 bits. -/
theorem magnitude?_eq_some_iff : Number.magnitude? body = some w ↔
    ∃ (sign : Sign) (n : Nat), SignedLiteral sign body n ∧ w = sign.apply n ∧ fits64 w = true := by
  constructor
  · intro h
    by_cases hdecimal : body.head? ≠ some '0' ∨ body = ['0']
    · rw [magnitude?_decimal hdecimal, signed64?_eq_some_iff (by decide)] at h
      obtain ⟨sign, digits, n, rfl, value, hw, hfits⟩ := h
      refine ⟨sign, n, .decimal value ?_, hw, hfits⟩
      rintro rfl
      exact hdecimal
    · obtain ⟨hzero, hne⟩ := not_or.mp hdecimal
      obtain ⟨rest, rfl⟩ := List.head?_eq_some_iff.mp (not_not.mp hzero)
      have hrest : rest ≠ [] := fun hnil => hne (congrArg ('0' :: ·) hnil)
      obtain ⟨x, cs, rfl⟩ := List.exists_cons_of_ne_nil hrest
      by_cases hmark : x = 'x' ∨ x = 'X'
      · rw [magnitude?_hexadecimal hmark, signed64?_eq_some_iff (Nat.le_refl _)] at h
        obtain ⟨sign, digits, n, rfl, value, hw, hfits⟩ := h
        exact ⟨sign, n, .hexadecimal hmark value, hw, hfits⟩
      · have hhead : ∀ c ∈ (x :: cs).head?, c ≠ 'x' ∧ c ≠ 'X' := by
          intro c hc
          obtain rfl := Option.some.inj hc
          exact not_or.mp hmark
        rw [magnitude?_octal hrest hhead, signed64?_eq_some_iff (by decide)] at h
        obtain ⟨sign, digits, n, hsplit, value, hw, hfits⟩ := h
        rw [hsplit]
        exact ⟨sign, n, .octal value, hw, hfits⟩
  · rintro ⟨sign, n, h, hw, hfits⟩
    cases h with
    | decimal value bare =>
        rw [magnitude?_decimal (decimal_head bare), signed64?_eq_some_iff (by decide)]
        exact ⟨sign, _, n, rfl, value, hw, hfits⟩
    | octal value =>
        have hne := List.append_ne_nil_of_right_ne_nil sign.chars value.ne_nil
        rw [magnitude?_octal hne (octal_head value), signed64?_eq_some_iff (by decide)]
        exact ⟨sign, _, n, rfl, value, hw, hfits⟩
    | hexadecimal mark value =>
        rw [magnitude?_hexadecimal mark, signed64?_eq_some_iff (Nat.le_refl _)]
        exact ⟨sign, _, n, rfl, value, hw, hfits⟩

/-! ## Decoding -/

theorem decode?_front (h : IsFront first body) :
    decode? (first.chars ++ body) = (Number.magnitude? body).map first.apply64 := by
  cases first with
  | plus => exact Option.map_id'.symm
  | minus => rfl
  | absent =>
      have hhead := h rfl
      unfold decode?
      dsimp only [Sign.chars, List.nil_append]
      split
      · cases hhead '-' rfl
      · cases hhead '+' rfl
      · exact Option.map_id'.symm

/-- **All that is decoded**: a literal behind one sign and with another one in it. -/
theorem decode?_eq_some_iff : decode? cs = some v ↔
    ∃ (first second : Sign) (body : List Char) (n : Nat),
      cs = first.chars ++ body ∧ IsFront first body ∧ SignedLiteral second body n ∧
        fits64 (second.apply n) = true ∧ v = first.apply64 (second.apply n) := by
  constructor
  · intro h
    obtain ⟨first, body, rfl, hfront⟩ := exists_front cs
    rw [decode?_front hfront] at h
    obtain ⟨w, hw, rfl⟩ := Option.map_eq_some_iff.mp h
    obtain ⟨second, n, hliteral, rfl, hfits⟩ := magnitude?_eq_some_iff.mp hw
    exact ⟨first, second, body, n, rfl, hfront, hliteral, hfits, rfl⟩
  · rintro ⟨first, second, body, n, rfl, hfront, hliteral, hfits, rfl⟩
    have hw := magnitude?_eq_some_iff.mpr ⟨second, n, hliteral, rfl, hfits⟩
    rw [decode?_front hfront, hw]
    rfl

/-! ## Signs in what is decoded -/

theorem isSign_of_mem_literal (h : IsLiteral radix body n) (hc : c ∈ body) : isSign c = false := by
  have hall := List.all_eq_true.mp (show literalChars.all (!isSign ·) by decide)
  simpa using hall c (h.mem_literalChars c hc)

/-- With one sign, none stands behind the first character. -/
theorem IsInteger.isSign_of_mem_tail (h : IsInteger cs v) (hc : c ∈ cs.tail) : isSign c = false := by
  obtain ⟨sign, radix, body, n, rfl, hliteral, -⟩ := h
  have hmem : c ∈ body := by
    cases sign with
    | absent => exact List.mem_of_mem_tail hc
    | plus => exact hc
    | minus => exact hc
  exact isSign_of_mem_literal hliteral hmem

/-- A second sign stands behind the first character. -/
theorem IsTwiceSigned.exists_sign (h : IsTwiceSigned cs v) : ∃ c ∈ cs.tail, isSign c = true := by
  obtain ⟨first, second, body, n, hsecond, rfl, hfront, hliteral, -⟩ := h
  obtain ⟨c, hc, hsign⟩ : ∃ c ∈ second.chars, isSign c = true := by
    cases second with
    | absent => exact absurd rfl hsecond
    | plus => exact ⟨'+', List.mem_cons_self, rfl⟩
    | minus => exact ⟨'-', List.mem_cons_self, rfl⟩
  have hbehind (front : List Char) (d : Char) {rest : List Char} (hmem : c ∈ rest) :
      c ∈ (front ++ d :: rest).tail := by
    cases front with
    | nil => exact hmem
    | cons e front => exact List.mem_append_right _ (List.mem_cons_of_mem d hmem)
  refine ⟨c, ?_, hsign⟩
  cases hliteral with
  | decimal value bare =>
      cases first with
      | plus =>
          change c ∈ second.chars ++ _
          exact List.mem_append_left _ hc
      | minus =>
          change c ∈ second.chars ++ _
          exact List.mem_append_left _ hc
      | absent =>
          -- in front of the digits there would be nothing that was taken off
          exfalso
          cases second with
          | absent => exact hsecond rfl
          | plus => cases hfront rfl '+' rfl
          | minus => cases hfront rfl '-' rfl
  | octal value => exact hbehind _ '0' (List.mem_append_left _ hc)
  | hexadecimal mark value =>
      exact hbehind _ '0' (List.mem_cons_of_mem _ (List.mem_append_left _ hc))

/-! ## What is decoded -/

theorem isInteger_iff : IsInteger cs v ↔ ∃ (first : Sign) (body : List Char) (n : Nat),
    cs = first.chars ++ body ∧ IsFront first body ∧ SignedLiteral .absent body n ∧
      fits64 n = true ∧ v = first.apply64 n := by
  have hvalue {first : Sign} {n : Nat} (hfits : fits64 n = true) :
      first.apply64 n = first.apply n := by
    rw [apply64_of_fits first hfits, if_neg (by omega)]
  constructor
  · rintro ⟨first, radix, body, n, rfl, hliteral, hn, rfl⟩
    have hfits : fits64 n = true := by
      simp only [fits64, Bool.and_eq_true, decide_eq_true_eq]
      omega
    exact ⟨first, body, n, rfl, fun _ c hc => isSign_of_mem_literal hliteral
      (List.mem_of_mem_head? hc), isLiteral_iff.mp ⟨radix, hliteral⟩, hfits, (hvalue hfits).symm⟩
  · rintro ⟨first, body, n, rfl, -, hliteral, hfits, rfl⟩
    obtain ⟨radix, hliteral⟩ := isLiteral_iff.mpr hliteral
    have hbounds : -2 ^ 63 ≤ (n : Int) ∧ (n : Int) < 2 ^ 63 := by simpa [fits64] using hfits
    exact ⟨first, radix, body, n, rfl, hliteral, by omega, hvalue hfits⟩

theorem isTwiceSigned_iff : IsTwiceSigned cs v ↔
    ∃ (first second : Sign) (body : List Char) (n : Nat), second ≠ .absent ∧
      cs = first.chars ++ body ∧ IsFront first body ∧ SignedLiteral second body n ∧
      fits64 (second.apply n) = true ∧ v = first.apply64 (second.apply n) := by
  have hfits (w : Int) : fits64 w = true ↔ -2 ^ 63 ≤ w ∧ w < 2 ^ 63 := by
    simp [fits64]
  constructor
  · rintro ⟨first, second, body, n, hsecond, hcs, hfront, hliteral, hlow, hhigh, hv⟩
    have hfit := (hfits _).mpr ⟨hlow, hhigh⟩
    exact ⟨first, second, body, n, hsecond, hcs, hfront, hliteral, hfit,
      hv.trans (apply64_of_fits first hfit).symm⟩
  · rintro ⟨first, second, body, n, hsecond, hcs, hfront, hliteral, hfit, hv⟩
    obtain ⟨hlow, hhigh⟩ := (hfits _).mp hfit
    exact ⟨first, second, body, n, hsecond, hcs, hfront, hliteral, hlow, hhigh,
      hv.trans (apply64_of_fits first hfit)⟩

/-- **What is decoded.** A text is decoded to a value exactly if it is an integer literal of C with
one sign at most and a magnitude below `2 ^ 63` and has that value, or has a second sign in front of
its digits. So the texts that are decoded are the first ones alone unless a second sign is read. -/
theorem decodeText?_eq_some_iff (s : String) :
    (∀ v, decodeText? s = some v ↔ IsInteger s.toList v ∨ IsTwiceSigned s.toList v) ∧
      ((∀ v, decodeText? s = some v ↔ IsInteger s.toList v) ↔ ∀ v, ¬ IsTwiceSigned s.toList v) := by
  have hdecoded (v : Int) :
      decodeText? s = some v ↔ IsInteger s.toList v ∨ IsTwiceSigned s.toList v := by
    rw [decodeText?, decode?_eq_some_iff, isInteger_iff, isTwiceSigned_iff]
    constructor
    · rintro ⟨first, second, body, n, hcs, hfront, hliteral, hfits, hv⟩
      by_cases hsecond : second = .absent
      · subst hsecond
        exact Or.inl ⟨first, body, n, hcs, hfront, hliteral, hfits, hv⟩
      · exact Or.inr ⟨first, second, body, n, hsecond, hcs, hfront, hliteral, hfits, hv⟩
    · rintro (⟨first, body, n, hcs, hfront, hliteral, hfits, hv⟩ |
        ⟨first, second, body, n, -, hcs, hfront, hliteral, hfits, hv⟩)
      · exact ⟨first, .absent, body, n, hcs, hfront, hliteral, hfits, hv⟩
      · exact ⟨first, second, body, n, hcs, hfront, hliteral, hfits, hv⟩
  refine ⟨hdecoded, fun hexact v htwice => ?_, fun hnone v => ?_⟩
  · obtain ⟨c, hc, hsign⟩ := htwice.exists_sign
    have hinteger := (hexact v).mp ((hdecoded v).mpr (Or.inr htwice))
    rw [hinteger.isSign_of_mem_tail hc] at hsign
    cases hsign
  · rw [hdecoded v, or_iff_left (hnone v)]

/-- **A second sign is read.** Zero with two signs is no integer and still decides a condition, so
that what stands behind it is lost; and the least number of 64 bits is negated to itself. -/
theorem second_sign_is_read :
    decodeText? "--0" = some 0 ∧ (∀ v, ¬ IsInteger "--0".toList v) ∧
      (Conditional.resolve {} (Token.ofText none "#if --0\nint a;\n#endif")).map (·.text) =
        ["// #if --0", "// #endif"] ∧
      decodeText? "--9223372036854775808" = some (-9223372036854775808) := by
  refine ⟨by decide +kernel, fun v h => ?_, by decide +kernel, by decide +kernel⟩
  have hsign : isSign '-' = false := h.isSign_of_mem_tail (by decide)
  cases hsign

/-- A sign behind the mark of the radix is read in the same way. -/
example : decodeText? "0x-10" = some (-16) ∧ decodeText? "-0-7" = some 7 ∧
    decodeText? "-0x10" = some (-16) ∧ decodeText? "--" = none := by
  decide +kernel

end Number

end HeaderPeers

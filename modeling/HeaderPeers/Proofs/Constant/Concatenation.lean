import HeaderPeers.Proofs.Constant.Translation

/-!
# Strings put together

A value with strings is printed with a sign of addition behind each token but the last. Between
strings and names of strings that puts them together; next to a parenthesis a sign stands where
there is nothing to add.

- `Token.IsConcatenation` — operands with a sign between each two of them, in balanced parentheses.
- `ConstantLine.read_concatenates` — what is printed for strings in parentheses, and that it is a
  concatenation just if there are no parentheses.
-/

namespace HeaderPeers

namespace Token

/-! ## Concatenations -/

/-- The sign that puts strings together. -/
def plus : Kind × String := (.punct, "+")

/-- What may be put together: everything but parentheses and the sign. -/
def isOperand (f : Kind × String) : Bool :=
  f != (.punct, "(") && f != (.punct, ")") && f != plus

/-- Whether all parentheses close, with a number of them open in front. -/
def closes : Nat → List (Kind × String) → Bool
  | depth, [] => depth == 0
  | depth, f :: fs =>
    if f == (.punct, "(") then closes (depth + 1) fs
    else if f == (.punct, ")") then depth != 0 && closes (depth - 1) fs
    else closes depth fs

/-- What may stand side by side, none at the ends: a sign between operands only, and operands not
without one. -/
def Beside (f g : Option (Kind × String)) : Prop :=
  (f = some plus → g.any isOperand = true) ∧ (g = some plus → f.any isOperand = true) ∧
    ¬ (f.any isOperand = true ∧ g.any isOperand = true)

instance (f g : Option (Kind × String)) : Decidable (Beside f g) :=
  inferInstanceAs (Decidable (_ ∧ _))

/-- The parentheses are balanced, and a sign stands exactly between each two operands. -/
structure IsConcatenation (fs : List (Kind × String)) : Prop where
  balanced : closes 0 fs = true
  signs : (none :: fs.map some ++ [none]).IsChain Beside

variable {f : Kind × String} {fs : List (Kind × String)}

theorem closes_cons (depth : Nat) (f : Kind × String) (fs : List (Kind × String)) :
    closes depth (f :: fs) =
      if f == (.punct, "(") then closes (depth + 1) fs
      else if f == (.punct, ")") then depth != 0 && closes (depth - 1) fs
      else closes depth fs := rfl

theorem closes_plus (depth : Nat) (fs : List (Kind × String)) :
    closes depth (plus :: fs) = closes depth fs := by
  rw [closes_cons, if_neg (by decide), if_neg (by decide)]

theorem intersperse_cons (f : Kind × String) (h : fs ≠ []) :
    (f :: fs).intersperse plus = f :: plus :: fs.intersperse plus := by
  cases fs with
  | nil => exact absurd rfl h
  | cons g fs => rfl

/-- Signs make no difference to the parentheses. -/
theorem closes_intersperse (depth : Nat) (fs : List (Kind × String)) :
    closes depth (fs.intersperse plus) = closes depth fs := by
  induction fs generalizing depth with
  | nil => rfl
  | cons f fs ih =>
      by_cases hfs : fs = []
      · rw [hfs]
        rfl
      · rw [intersperse_cons f hfs, closes_cons, closes_cons depth f fs]
        simp only [closes_plus, ih]

theorem closes_opening (depth n : Nat) (fs : List (Kind × String)) :
    closes depth (List.replicate n (Kind.punct, "(") ++ fs) = closes (depth + n) fs := by
  induction n generalizing depth with
  | zero => rfl
  | succ n ih =>
      rw [List.replicate_succ, List.cons_append, closes_cons, if_pos (by decide), ih]
      congr 1
      omega

theorem closes_operands (h : ∀ f ∈ fs, isOperand f = true) (depth : Nat)
    (gs : List (Kind × String)) : closes depth (fs ++ gs) = closes depth gs := by
  induction fs with
  | nil => rfl
  | cons f fs ih =>
      have hf := h f List.mem_cons_self
      simp only [isOperand, Bool.and_eq_true, bne_iff_ne] at hf
      rw [List.cons_append, closes_cons, if_neg (by simpa using hf.1.1), if_neg (by simpa using hf.1.2)]
      exact ih fun g hg => h g (List.mem_cons_of_mem _ hg)

theorem closes_closing (n : Nat) : closes n (List.replicate n (.punct, ")")) = true := by
  induction n with
  | zero => rfl
  | succ n ih =>
      rw [List.replicate_succ, closes_cons, if_neg (by decide), if_pos (by decide)]
      simpa using ih

/-- Behind a sign, every other token is an operand. -/
theorem isOperand_of_chain (hne : fs ≠ [])
    (h : (some plus :: ((fs.intersperse plus).map some ++ [none])).IsChain Beside) :
    ∀ f ∈ fs, isOperand f = true := by
  induction fs with
  | nil => exact absurd rfl hne
  | cons f fs ih =>
      have hfirst : isOperand f = true := by
        by_cases hfs : fs = []
        · subst hfs
          exact (List.isChain_cons_cons.mp h).1.1 rfl
        · rw [intersperse_cons f hfs] at h
          exact (List.isChain_cons_cons.mp h).1.1 rfl
      intro g hg
      rcases List.mem_cons.mp hg with rfl | hg
      · exact hfirst
      · have hfs : fs ≠ [] := List.ne_nil_of_mem hg
        rw [intersperse_cons f hfs] at h
        exact ih hfs (List.isChain_cons_cons.mp h).2.tail g hg

/-- What an operand may stand beside. -/
theorem beside_of_isOperand (h : isOperand f = true) :
    Beside (some plus) (some f) ∧ Beside (some f) (some plus) ∧ Beside none (some f) ∧
      Beside (some f) none := by
  have hplus : isOperand plus = false := by decide
  have hother : f ≠ plus := by
    rintro rfl
    rw [hplus] at h
    cases h
  simp [Beside, h, hplus, hother]

/-- Operands with signs between them stand rightly side by side, behind a sign too. -/
theorem chain_of_isOperand (hne : fs ≠ []) (h : ∀ f ∈ fs, isOperand f = true) :
    (some plus :: ((fs.intersperse plus).map some ++ [none])).IsChain Beside := by
  induction fs with
  | nil => exact absurd rfl hne
  | cons f fs ih =>
      obtain ⟨hbefore, hbehind, -, hlast⟩ := beside_of_isOperand (h f List.mem_cons_self)
      by_cases hfs : fs = []
      · subst hfs
        exact List.isChain_cons_cons.mpr ⟨hbefore, List.isChain_pair.mpr hlast⟩
      · rw [intersperse_cons f hfs]
        exact List.isChain_cons_cons.mpr ⟨hbefore, List.isChain_cons_cons.mpr
          ⟨hbehind, ih hfs fun g hg => h g (List.mem_cons_of_mem _ hg)⟩⟩

/-- With a sign between each two of some tokens there is a concatenation just if they are
operands. -/
theorem isConcatenation_intersperse_iff (hbalanced : closes 0 fs = true) (hne : fs ≠ []) :
    IsConcatenation (fs.intersperse plus) ↔ ∀ f ∈ fs, isOperand f = true := by
  obtain ⟨f, rest, rfl⟩ := List.exists_cons_of_ne_nil hne
  by_cases hrest : rest = []
  · subst hrest
    have hopening : f ≠ (.punct, "(") := by
      rintro rfl
      cases hbalanced
    have hclosing : f ≠ (.punct, ")") := by
      rintro rfl
      cases hbalanced
    constructor
    · intro h
      have hfirst : Beside none (some f) := (List.isChain_cons_cons.mp h.signs).1
      have hother : f ≠ plus := by
        rintro rfl
        cases hfirst.2.1 rfl
      simp [isOperand, hopening, hclosing, hother]
    · intro h
      obtain ⟨-, -, hstart, hlast⟩ := beside_of_isOperand (h f List.mem_cons_self)
      exact ⟨hbalanced, List.isChain_cons_cons.mpr ⟨hstart, List.isChain_pair.mpr hlast⟩⟩
  · constructor
    · intro h
      have hsigns := h.signs
      rw [intersperse_cons f hrest] at hsigns
      have hfirst : isOperand f = true :=
        (List.isChain_cons_cons.mp (List.isChain_cons_cons.mp hsigns).2).1.2.1 rfl
      have hmore := isOperand_of_chain hrest
        (List.isChain_cons_cons.mp (List.isChain_cons_cons.mp hsigns).2).2
      exact List.forall_mem_cons.mpr ⟨hfirst, hmore⟩
    · intro h
      obtain ⟨hfirst, hmore⟩ := List.forall_mem_cons.mp h
      obtain ⟨-, hbehind, hstart, -⟩ := beside_of_isOperand hfirst
      refine ⟨(closes_intersperse 0 _).trans hbalanced, ?_⟩
      rw [intersperse_cons f hrest]
      exact List.isChain_cons_cons.mpr ⟨hstart, List.isChain_cons_cons.mpr
        ⟨hbehind, chain_of_isOperand hrest hmore⟩⟩

/-! ## Reading strings -/

/-- A string literal with its closing quote. -/
def IsString (t : Token) : Prop :=
  t.kind = .string ∧ t.text.toList.head? = some '"' ∧
    Lexeme.quotedTail '"' t.text.toList.tail = (t.text.toList.tail, [], true)

instance (t : Token) : Decidable t.IsString :=
  inferInstanceAs (Decidable (_ ∧ _))

/-- A word as it is read. -/
def IsPlainWord (t : Token) : Prop :=
  t.kind = wordKind t.text ∧ Text.isWord t.text.toList = true

instance (t : Token) : Decidable t.IsPlainWord :=
  inferInstanceAs (Decidable (_ ∧ _))

/-- A parenthesis. -/
def IsParenthesis (t : Token) : Prop :=
  t.face = (.punct, "(") ∨ t.face = (.punct, ")")

/-- What is behind the closing quote does not belong to a literal. -/
theorem quotedTail_append_rest {quote : Char} {cs inside behind : List Char}
    (h : Lexeme.quotedTail quote cs = (inside, behind, true)) (rest : List Char) :
    Lexeme.quotedTail quote (cs ++ rest) = (inside, behind ++ rest, true) := by
  fun_induction Lexeme.quotedTail quote cs generalizing inside with
  | case1 => cases h
  | case2 c cs hquote =>
      cases h
      rw [List.cons_append]
      unfold Lexeme.quotedTail
      rw [if_pos hquote]
  | case3 c hquote hescape => cases h
  | case4 c hquote hescape d ds tail =>
      rename_i ih
      simp only [Prod.mk.injEq] at h
      obtain ⟨rfl, hbehind⟩ := h
      have htail := ih (Prod.ext rfl hbehind)
      rw [List.cons_append, List.cons_append]
      unfold Lexeme.quotedTail
      rw [if_neg hquote, if_pos hescape]
      simp only [htail]
      rfl
  | case5 c cs hquote hescape tail =>
      rename_i ih
      simp only [Prod.mk.injEq] at h
      obtain ⟨rfl, hbehind⟩ := h
      have htail := ih (Prod.ext rfl hbehind)
      rw [List.cons_append]
      unfold Lexeme.quotedTail
      rw [if_neg hquote, if_neg hescape]
      simp only [htail]
      rfl

/-- The token is read by itself, up to white space or the end. -/
theorem faces_stands {t : Token} (h : t.IsString ∨ t.IsPlainWord ∨ t.IsParenthesis)
    (rest : List Char) (hrest : ∀ c ∈ rest.head?, c = ' ') :
    faces (t.text.toList ++ rest) = t.face :: faces rest := by
  rcases h with ⟨hkind, hquote, htail⟩ | ⟨hkind, hword⟩ | hparenthesis
  · obtain ⟨inside, htext⟩ : ∃ inside, t.text.toList = '"' :: inside := by
      cases htext : t.text.toList with
      | nil => simp [htext] at hquote
      | cons c inside =>
          rw [htext] at hquote
          exact ⟨inside, by rw [Option.some.inj hquote]⟩
    rw [htext, List.tail_cons] at htail
    have hread : Lexeme.read '"' (inside ++ rest) =
        ⟨.string, '"' :: inside, '"' :: inside, rest⟩ := by
      have hquoted : Lexeme.read '"' (inside ++ rest) =
        Lexeme.quoted .string '"' (inside ++ rest) := rfl
      rw [hquoted, Lexeme.quoted, quotedTail_append_rest htail]
      rfl
    have hface : t.face = (.string, String.ofList ('"' :: inside)) := by
      rw [face, hkind, ← htext, String.ofList_toList]
    rw [htext, List.cons_append, faces_read rfl, hread, hface]
    rfl
  · have hend : ∀ c ∈ rest.head?, Text.isWordChar c = false := by
      intro c hc
      rw [hrest c hc]
      decide
    rw [faces_word hword hend, face, hkind, String.ofList_toList]
  · have hread (c : Char) (hc : c = '(' ∨ c = ')') :
        faces (c :: rest) = (.punct, String.ofList [c]) :: faces rest := by
      have hlexeme : Lexeme.read c rest = ⟨.punct, [c], [c], rest⟩ := by
        cases rest with
        | nil => rcases hc with rfl | rfl <;> rfl
        | cons d rest =>
            obtain rfl := hrest d rfl
            rcases hc with rfl | rfl <;> rfl
      have hvisible : Text.isBlank c = false := by rcases hc with rfl | rfl <;> rfl
      rw [faces_read hvisible, hlexeme]
      rfl
    rcases hparenthesis with hface | hface
    · rw [hface, (Prod.mk.inj hface).2]
      exact hread '(' (Or.inl rfl)
    · rw [hface, (Prod.mk.inj hface).2]
      exact hread ')' (Or.inr rfl)

theorem faces_plus (rest : List Char) : faces (" + ".toList ++ rest) = plus :: faces rest := by
  have hread : Lexeme.read '+' (' ' :: rest) = ⟨.punct, ['+'], ['+'], ' ' :: rest⟩ := rfl
  have htext : " + ".toList ++ rest = ' ' :: '+' :: ' ' :: rest := rfl
  rw [htext, faces_blank rfl, faces_read rfl, hread, faces_blank rfl]
  rfl

/-- Tokens with signs between them are read as they stand there. -/
theorem faces_written {ts : List Token} (hblank : ∀ t ∈ ts, t.Blank)
    (h : ∀ t ∈ ts, t.IsString ∨ t.IsPlainWord ∨ t.IsParenthesis) :
    faces (ConstantLine.written true ts).toList = (ts.map face).intersperse plus := by
  induction ts with
  | nil => exact faces_nil
  | cons t ts ih =>
      have ht := h t List.mem_cons_self
      by_cases hts : ts = []
      · subst hts
        have hface := faces_stands ht [] (by simp)
        rw [List.append_nil] at hface
        rw [ConstantLine.written, spaced, String.toList_append,
          faces_blanks (hblank t List.mem_cons_self), hface, faces_nil]
        rfl
      · rw [ConstantLine.written_cons _ _ hts, List.map_cons,
          intersperse_cons _ (by simpa using hts), ← ih
            (fun u hu => hblank u (List.mem_cons_of_mem _ hu))
            (fun u hu => h u (List.mem_cons_of_mem _ hu))]
        simp only [if_true, String.toList_append, spaced, List.append_assoc]
        rw [faces_blanks (hblank t List.mem_cons_self), faces_stands ht _, faces_plus]
        intro c hc
        exact (Option.some.inj hc).symm

/-- Their text has no `::` if none of them has. -/
theorem clear_written {ts : List Token} (hblank : ∀ t ∈ ts, t.Blank)
    (h : ∀ t ∈ ts, Text.Clear t.text.toList) :
    Text.Clear (ConstantLine.written true ts).toList := by
  have hspaced : ∀ t ∈ ts, Text.Clear t.spaced.toList := by
    intro t ht
    have hcolon : ':' ∉ t.spacing.toList := fun hmem => by
      have hblank := hblank t ht ':' hmem
      cases hblank
    rw [spaced, String.toList_append]
    refine (Text.clear_of_not_mem hcolon).append (h t ht) fun c hc _ _ hboth => hcolon ?_
    rw [← hboth.1]
    exact List.mem_of_mem_getLast? hc
  induction ts with
  | nil => exact List.isChain_nil
  | cons t ts ih =>
      by_cases hts : ts = []
      · subst hts
        exact hspaced t List.mem_cons_self
      · have hrest := ih (fun u hu => hblank u (List.mem_cons_of_mem _ hu))
          (fun u hu => h u (List.mem_cons_of_mem _ hu))
          (fun u hu => hspaced u (List.mem_cons_of_mem _ hu))
        rw [ConstantLine.written_cons _ _ hts, if_pos rfl, String.toList_append,
          String.toList_append]
        refine ((hspaced t List.mem_cons_self).append (by decide) ?_).append hrest ?_
        · rintro c - d hd ⟨-, rfl⟩
          cases hd
        · rintro c hc d - ⟨rfl, -⟩
          rw [List.getLast?_append] at hc
          cases hc

end Token

/-! ## Constants -/

namespace ConstantLine

open ReadM

variable {line : ConstantLine} {s : Reading} {rest opening operands closing : List Token}
  {scope : Scope} {table : RuleTable}

/-- Strings and names of strings in parentheses, with comments anywhere. -/
structure Strings (line : ConstantLine) (table : RuleTable)
    (opening operands closing : List Token) : Prop where
  visible : line.visible = opening ++ (operands ++ closing)
  opens : ∀ t ∈ opening, t.face = (.punct, "(")
  closes : ∀ t ∈ closing, t.face = (.punct, ")")
  balanced : opening.length = closing.length
  nonempty : operands ≠ []
  typed : ∀ t ∈ operands, Literal.ofToken? table t = some .string
  shaped : ∀ t ∈ operands, t.IsString ∨ t.IsPlainWord
  blank : ∀ t ∈ line.visible, t.Blank
  comments : ∀ t ∈ line.value, t.isComment = true → t.isAny ["(", ">", "\x7b", "\x7d"] = false

/-- A string anywhere makes the constant one. -/
theorem type_foldl_of_string {ts : List Token} {v : ConstantValue}
    (h : v.type = .string ∨ ∃ t ∈ ts, Literal.ofToken? table t = some .string) :
    (ts.foldl (ConstantValue.push table) v).type = .string := by
  have hmax : ∀ a : Literal, a.max .string = .string ∧ Literal.string.max a = .string := by
    intro a
    cases a <;> exact ⟨rfl, rfl⟩
  induction ts generalizing v with
  | nil => simpa using h
  | cons t ts ih =>
      rw [List.foldl_cons]
      refine ih ?_
      unfold ConstantValue.push
      rcases h with hv | ⟨u, hu, hstring⟩
      · left
        split
        · rw [hv]
          exact (hmax _).2
        · exact hv
      · rcases List.mem_cons.mp hu with rfl | hu
        · left
          rw [hstring]
          exact (hmax _).1
        · exact Or.inr ⟨u, hu, hstring⟩

/-- Whether a parenthesis behind this token is a call. -/
def calls (t : Token) : Bool :=
  t.isIdentifier || t.is ">"

theorem isPlain_push (table : RuleTable) (v : ConstantValue) {t : Token}
    (hbraces : t.isAny ["\x7b", "\x7d"] = false)
    (hcall : v.last.any calls = true → t.is "(" = false) :
    (v.push table t).isPlain = v.isPlain ∧ (v.push table t).last = some t := by
  unfold ConstantValue.push
  split
  · exact ⟨rfl, rfl⟩
  · cases hlast : v.last.any calls with
    | false =>
        have hlast' : (v.last.any fun l => l.isIdentifier || l.is ">") = false := hlast
        simp [hlast', hbraces]
    | true => simp [hcall hlast, hbraces]

/-- Without braces, and with parentheses only where there was no word yet, a value is plain. -/
theorem isPlain_foldl {v : ConstantValue} {before behind : List Token} (hv : v.isPlain = true)
    (hlast : v.last.any calls = false)
    (hbefore : ∀ t ∈ before, t.isAny ["\x7b", "\x7d"] = false ∧ calls t = false)
    (hbehind : ∀ t ∈ behind, t.isAny ["\x7b", "\x7d"] = false ∧ t.is "(" = false) :
    ((before ++ behind).foldl (ConstantValue.push table) v).isPlain = true := by
  induction before generalizing v with
  | nil =>
      rw [List.nil_append]
      clear hlast
      induction behind generalizing v with
      | nil => exact hv
      | cons t ts ih =>
          obtain ⟨hbraces, hopening⟩ := hbehind t List.mem_cons_self
          obtain ⟨hplain, -⟩ := isPlain_push table v hbraces fun _ => hopening
          exact ih (fun u hu => hbehind u (List.mem_cons_of_mem _ hu)) (hplain.trans hv)
  | cons t ts ih =>
      obtain ⟨hbraces, hcalls⟩ := hbefore t List.mem_cons_self
      obtain ⟨hplain, hnext⟩ := isPlain_push table v hbraces
        (by rw [hlast]; exact fun h => by cases h)
      refine ih (hplain.trans hv) ?_ fun u hu => hbefore u (List.mem_cons_of_mem _ hu)
      rw [hnext]
      exact hcalls

namespace Strings

theorem type_eq (h : line.Strings table opening operands closing) :
    (line.found table).type = .string := by
  obtain ⟨t, ts, rfl⟩ := List.exists_cons_of_ne_nil h.nonempty
  have hmem : t ∈ line.visible := by
    rw [h.visible]
    simp
  exact type_foldl_of_string (Or.inr ⟨t, (List.mem_filter.mp hmem).1, h.typed t (by simp)⟩)

theorem isPlain_eq (h : line.Strings table opening operands closing) :
    (line.found table).isPlain = true := by
  obtain ⟨before, behind, hvalue, hbefore, hbehind⟩ := List.filter_eq_append_iff.mp h.visible
  have hcomment {t : Token} (ht : t ∈ line.value) (hc : t.isComment = true) :
      t.isAny ["\x7b", "\x7d"] = false ∧ calls t = false ∧ t.is "(" = false := by
    have htexts := h.comments t ht hc
    have hkind : t.kind = .comment := by simpa [Token.isComment] using hc
    simp only [Token.isAny, List.any_cons, List.any_nil, Bool.or_false, Bool.or_eq_false_iff]
      at htexts ⊢
    obtain ⟨hopening, hangle, hbraces⟩ := htexts
    exact ⟨hbraces, by simp [calls, Token.isIdentifier, hkind, hangle], hopening⟩
  unfold found
  rw [hvalue]
  refine isPlain_foldl rfl rfl (fun t ht => ?_) fun t ht => ?_
  · have hmem : t ∈ line.value := hvalue ▸ List.mem_append_left _ ht
    by_cases hc : t.isComment = true
    · exact ⟨(hcomment hmem hc).1, (hcomment hmem hc).2.1⟩
    · have hface := h.opens t (hbefore ▸ List.mem_filter.mpr ⟨ht, by simp [hc]⟩)
      obtain ⟨hkind, htext⟩ := Prod.mk.inj hface
      simp [calls, Token.isAny, Token.is, Token.isIdentifier, hkind, htext]
  · have hmem : t ∈ line.value := hvalue ▸ List.mem_append_right _ ht
    by_cases hc : t.isComment = true
    · exact ⟨(hcomment hmem hc).1, (hcomment hmem hc).2.2⟩
    · have hvisible : t ∈ operands ++ closing :=
        hbehind ▸ List.mem_filter.mpr ⟨ht, by simp [hc]⟩
      suffices htexts : t.text ≠ "\x7b" ∧ t.text ≠ "\x7d" ∧ t.text ≠ "(" by
        simp [Token.isAny, Token.is, htexts]
      rcases List.mem_append.mp hvisible with hoperand | hclosing
      · rcases h.shaped t hoperand with ⟨-, hquote, -⟩ | ⟨-, hword⟩
        · refine ⟨?_, ?_, ?_⟩ <;> (intro htext; rw [htext] at hquote; cases hquote)
        · refine ⟨?_, ?_, ?_⟩ <;> (intro htext; rw [htext] at hword; cases hword)
      · have htext := (Prod.mk.inj (h.closes t hclosing)).2
        simp [htext]

theorem isOperand_of_mem (h : line.Strings table opening operands closing) {t : Token}
    (ht : t ∈ operands) : Token.isOperand t.face = true := by
  have hkind : t.kind ≠ .punct := by
    rcases h.shaped t ht with ⟨hkind, -⟩ | ⟨hkind, -⟩
    · simp [hkind]
    · rw [hkind]
      unfold Token.wordKind
      split <;> simp
  simp [Token.isOperand, Token.plus, Token.face, hkind]

/-- Operands in parentheses are in balanced parentheses. -/
theorem closes_eq (h : line.Strings table opening operands closing) :
    Token.closes 0 (line.visible.map Token.face) = true := by
  have hopening : opening.map Token.face = List.replicate opening.length (.punct, "(") :=
    List.eq_replicate_iff.mpr ⟨by simp, by simpa using h.opens⟩
  have hclosing : closing.map Token.face = List.replicate opening.length (.punct, ")") :=
    List.eq_replicate_iff.mpr ⟨by simp [h.balanced], by simpa using h.closes⟩
  have hoperands : ∀ f ∈ operands.map Token.face, Token.isOperand f = true := by
    simpa using fun t => h.isOperand_of_mem
  rw [h.visible, List.map_append, List.map_append, hopening, hclosing, Token.closes_opening,
    Token.closes_operands hoperands, Nat.zero_add]
  exact Token.closes_closing _

/-- Without parentheses all tokens are operands, and only then. -/
theorem isOperand_iff (h : line.Strings table opening operands closing) :
    (∀ f ∈ line.visible.map Token.face, Token.isOperand f = true) ↔ opening = [] := by
  constructor
  · intro hall
    by_contra hne
    obtain ⟨t, ts, rfl⟩ := List.exists_cons_of_ne_nil hne
    have hoperand := hall t.face (by rw [h.visible]; simp)
    rw [h.opens t List.mem_cons_self] at hoperand
    cases hoperand
  · rintro rfl
    obtain rfl := List.length_eq_zero_iff.mp h.balanced.symm
    rw [h.visible, List.nil_append, List.append_nil]
    simpa using fun t => h.isOperand_of_mem

/-- The value is printed as it is written, with signs. -/
theorem initializer_eq (h : line.Strings table opening operands closing)
    (hcolons : ∀ t ∈ operands, Text.Clear t.text.toList) :
    line.initializer table = written true line.visible := by
  have hclear : ∀ t ∈ line.visible, Text.Clear t.text.toList := by
    intro t ht
    rw [h.visible, List.mem_append, List.mem_append] at ht
    rcases ht with ht | ht | ht
    · rw [(Prod.mk.inj (h.opens t ht)).2]
      decide
    · exact hcolons t ht
    · rw [(Prod.mk.inj (h.closes t ht)).2]
      decide
  have htext : table.translateName _ = _ :=
    RuleTable.translateName_of_clear (Token.clear_written h.blank hclear)
  rw [String.ofList_toList] at htext
  rw [initializer, if_pos h.isPlain_eq, concatenates_found, h.type_eq, beq_self_eq_true, htext]

end Strings

/-- **Strings in a constant** are printed with a sign between each two tokens, parentheses
included. This keeps the parentheses balanced, and it is a concatenation just if there are none. -/
theorem read_concatenates (hfuel : 0 < s.fuel) (h : s.ahead = line.tokens ++ rest)
    (hrest : ∀ t ∈ rest.head?, Conditional.startsLine t = true)
    (hrules : s.table.rules line.name.text = [])
    (hstrings : line.Strings s.table opening operands closing)
    (hcolons : ∀ t ∈ operands, Text.Clear t.text.toList) :
    ∃ value : String,
      Directive.read scope s = .ok true (line.behind rest s) ∧
      line.shown s.table =
        ("public static final String " ++ line.name.text ++ " =" ++ value ++ ";\n",
          line.mark.spacing) ∧
      Token.faces value.toList = (line.visible.map Token.face).intersperse Token.plus ∧
      Token.closes 0 (Token.faces value.toList) = true ∧
      (Token.IsConcatenation (Token.faces value.toList) ↔ opening = []) := by
  have hvalue := hstrings.initializer_eq hcolons
  have hshaped : ∀ t ∈ line.visible, t.IsString ∨ t.IsPlainWord ∨ t.IsParenthesis := by
    intro t ht
    rw [hstrings.visible, List.mem_append, List.mem_append] at ht
    rcases ht with ht | ht | ht
    · exact Or.inr (Or.inr (Or.inl (hstrings.opens t ht)))
    · exact (hstrings.shaped t ht).imp_right Or.inl
    · exact Or.inr (Or.inr (Or.inr (hstrings.closes t ht)))
  have hfaces := Token.faces_written hstrings.blank hshaped
  have hne : line.visible.map Token.face ≠ [] := by simpa using line.visible_ne_nil
  refine ⟨written true line.visible, read_eq hfuel h hrest hrules, ?_, hfaces, ?_, ?_⟩
  · have hnonempty : (written true line.visible).isEmpty = false := by
      cases hempty : (written true line.visible).isEmpty with
      | false => rfl
      | true =>
          rw [String.isEmpty_iff.mp hempty, String.toList_empty, Token.faces_nil] at hfaces
          obtain ⟨f, fs, hcons⟩ := List.exists_cons_of_ne_nil hne
          rw [hcons] at hfaces
          cases fs <;> cases hfaces
    have htext : line.constant s.table = "public static final String " ++ line.name.text ++ " ="
        ++ written true line.visible ++ ";\n" := by
      simp [constant, hstrings.isPlain_eq, hstrings.type_eq, hvalue, hnonempty, Literal.target]
    have hprinted : (line.constant s.table).isEmpty = false := by simp [htext]
    rw [shown, hprinted, if_neg Bool.false_ne_true, htext]
  · rw [hfaces, Token.closes_intersperse]
    exact hstrings.closes_eq
  · rw [hfaces, Token.isConcatenation_intersperse_iff hstrings.closes_eq hne]
    exact hstrings.isOperand_iff

/-- The line `#define S "a" N`. -/
def joined : ConstantLine where
  mark := { kind := .punct, text := "#" }
  word := { kind := .keyword .define_, text := "define" }
  name := { kind := .identifier, text := "S", spacing := " " }
  value := Token.ofText none " \"a\" N"
  isMark := qualified.isMark
  isDefine := qualified.isDefine
  isName := by decide
  named := by decide
  oneLine := by decide +kernel
  ongoing := by decide +kernel
  hidden := qualified.hidden
  closed := by decide +kernel
  apart := by decide +kernel

/-- A string and the name of one. -/
theorem read_concatenates_joined :
    let table : RuleTable :=
      RuleTable.put {} { nativeNames := ["N"], nativeTypes := some ["const char*"] }
    ∃ value : String,
      joined.shown table = ("public static final String S =" ++ value ++ ";\n", "") ∧
      Token.faces value.toList = [(.string, "\"a\""), Token.plus, (.identifier, "N")] ∧
      Token.IsConcatenation (Token.faces value.toList) := by
  intro table
  let s := Reading.ofTokens table joined.tokens
  have hblank : ∀ t ∈ joined.visible, t.Blank := by
    have hall : joined.visible.all (fun t => t.spacing.toList.all Text.isBlank) = true := by
      decide +kernel
    exact fun t ht => List.all_eq_true.mp (List.all_eq_true.mp hall t ht)
  have hstrings : joined.Strings table [] joined.visible [] :=
    ⟨(List.append_nil _).symm, by simp, by simp, rfl, by decide +kernel, by decide +kernel,
      by decide +kernel, hblank, by decide +kernel⟩
  obtain ⟨value, -, hshown, hfaces, -, hiff⟩ := @read_concatenates joined s [] [] joined.visible [] {}
    (by decide +kernel) (List.append_nil _).symm (by simp)
    (by decide +kernel) hstrings (by decide +kernel)
  have htokens : (joined.visible.map Token.face).intersperse Token.plus =
      [(.string, "\"a\""), Token.plus, (.identifier, "N")] := by
    decide +kernel
  exact ⟨value, hshown, hfaces.trans htokens, hiff.mpr rfl⟩

/-- A sign stands next to each parenthesis. -/
theorem signs_beside_parentheses :
    Directive.printed? "#define X (\"a\" \"b\")" =
        some "public static final String X = ( + \"a\" +  \"b\" + );" ∧
      ¬ Token.IsConcatenation (Token.faces " ( + \"a\" +  \"b\" + )".toList) := by
  refine ⟨by decide +kernel, fun h => ?_⟩
  have hsigns : ¬ (none :: (Token.faces " ( + \"a\" +  \"b\" + )".toList).map some
      ++ [none]).IsChain Token.Beside := by
    decide +kernel
  exact hsigns h.signs

end ConstantLine

end HeaderPeers

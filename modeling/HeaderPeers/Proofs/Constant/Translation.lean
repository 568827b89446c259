import HeaderPeers.Proofs.Constant.Line
import HeaderPeers.Proofs.Enumeration.Initializer
import HeaderPeers.Proofs.Scope.Walk
import HeaderPeers.Proofs.VisibleTokens
import Mathlib.Data.List.DropRight
import Mathlib.Data.List.SplitBy

/-!
# Qualified names in constants

The value of a constant is cut behind the last `::` of its text, wherever that is. What is in front
of it is taken for one scope. If it is one, the qualified name is translated and the rest of the
value stays; if it is not, everything in front is lost.

- `Token.names` — the qualified names of a value, every other token by itself.
- `RuleTable.translated` — the tokens of what is printed.
- `RuleTable.namewise` — the tokens with each qualified name translated on its own.
- `ConstantLine.read_translates` — what is printed, and when that is the value name by name.
-/

namespace HeaderPeers

/-! ## Colons in a text -/

/-- No two colons stand side by side. -/
def Text.Clear (cs : List Char) : Prop :=
  cs.IsChain fun c d => ¬ (c = ':' ∧ d = ':')

instance (cs : List Char) : Decidable (Text.Clear cs) :=
  inferInstanceAs (Decidable (cs.IsChain _))

theorem Text.Clear.not_infix {cs : List Char} (h : Clear cs) : ¬ [':', ':'] <:+: cs := by
  intro hinfix
  have hpair := List.IsChain.infix h hinfix
  simp at hpair

theorem Text.Clear.append {cs ds : List Char} (hcs : Clear cs) (hds : Clear ds)
    (h : ∀ c ∈ cs.getLast?, ∀ d ∈ ds.head?, ¬ (c = ':' ∧ d = ':')) : Clear (cs ++ ds) :=
  List.isChain_append.mpr ⟨hcs, hds, h⟩

theorem Text.clear_of_not_mem {cs : List Char} (h : ':' ∉ cs) : Clear cs := by
  induction cs with
  | nil => exact List.isChain_nil
  | cons c cs ih =>
      rw [List.mem_cons, not_or] at h
      exact List.isChain_cons.mpr ⟨fun _ _ hboth => h.1 hboth.1.symm, ih h.2⟩

/-- A text is cut at colons with none side by side behind the first of them. -/
theorem Text.cutLast?_of_clear (before : List Char) {after : List Char} (h : Clear (':' :: after)) :
    cutLast? "::" (String.ofList (before ++ ':' :: ':' :: after)) =
      some (String.ofList before, String.ofList after) := by
  rw [cutLast?_eq_some_iff (by simp)]
  refine ⟨by simp [← String.toList_inj], fun b a hcut => ?_⟩
  by_contra hlt
  have hsame := congrArg String.toList hcut
  simp only [String.toList_ofList, String.toList_append, List.append_assoc] at hsame
  have hlength : ("::".toList ++ a.toList).length ≤ (':' :: after).length := by
    simp only [String.length_ofList, Nat.not_le, String.length_toList, List.length_append,
      List.length_cons] at hlt ⊢
    have htwo : "::".length = 2 := rfl
    omega
  have hsuffix : "::".toList ++ a.toList <:+ ':' :: after :=
    List.suffix_of_suffix_length_le ⟨b.toList, hsame.symm⟩
      ⟨before ++ [':'], by simp⟩ hlength
  exact h.not_infix (((List.prefix_append _ _).isInfix).trans hsuffix.isInfix)

theorem Text.cutLast?_of_clear_all {cs : List Char} (h : Clear cs) :
    cutLast? "::" (String.ofList cs) = none :=
  cutLast?_eq_none (by simp) (by simpa using h.not_infix)

namespace Token

/-! ## Qualified names -/

/-- Whether a token goes on with the qualified name in front of it. -/
def joins (t u : Token) : Bool :=
  (t.is "::" && (u.is "::" || u.isWord)) || (t.isWord && u.is "::")

/-- The longest qualified names among tokens, every other token by itself. -/
def names (ts : List Token) : List (List Token) :=
  ts.splitBy joins

/-- The tokens through the last `::`. -/
def scopePart (ts : List Token) : List Token :=
  ts.rdropWhile (!·.is "::")

/-- The tokens behind the last `::`. -/
def lastPart (ts : List Token) : List Token :=
  ts.rtakeWhile (!·.is "::")

/-- Only the first name is qualified. -/
def Leads (ts : List Token) : Prop :=
  ∀ name ∈ (names ts).tail, ∀ t ∈ name, t.is "::" = false

instance (ts : List Token) : Decidable (Leads ts) :=
  inferInstanceAs (Decidable (∀ name ∈ (names ts).tail, _))

theorem scopePart_append_lastPart (ts : List Token) : scopePart ts ++ lastPart ts = ts :=
  List.rdropWhile_append_rtakeWhile ..

theorem is_eq_false_of_mem_lastPart {ts : List Token} {t : Token} (h : t ∈ lastPart ts) :
    t.is "::" = false := by
  simpa using List.mem_rtakeWhile_imp h

theorem scopePart_of_forall {ts : List Token} (h : ∀ t ∈ ts, t.is "::" = false) :
    scopePart ts = [] ∧ lastPart ts = ts :=
  ⟨List.rdropWhile_eq_nil_iff.mpr (by simpa using h),
    List.rtakeWhile_eq_self_iff.mpr (by simpa using h)⟩

/-- What is in front of the last `::` ends with it. -/
theorem scopePart_eq_concat {ts : List Token} (h : scopePart ts ≠ []) :
    ∃ (front : List Token) (colons : Token),
      scopePart ts = front ++ [colons] ∧ colons.is "::" = true := by
  have hlast : ¬ (!((scopePart ts).getLast h).is "::") = true := List.rdropWhile_last_not _ ts h
  exact ⟨_, _, (List.dropLast_append_getLast h).symm, by simpa using hlast⟩

/-- Tokens without `::` behind others. -/
theorem scopePart_append (ts : List Token) {us : List Token} (h : ∀ u ∈ us, u.is "::" = false) :
    scopePart (ts ++ us) = scopePart ts ∧ lastPart (ts ++ us) = lastPart ts ++ us := by
  induction us using List.reverseRecOn with
  | nil => simp
  | append_singleton us u ih =>
      have hu : (!u.is "::") = true := by simp [h u (by simp)]
      obtain ⟨hscope, hlast⟩ := ih fun v hv => h v (List.mem_append_left _ hv)
      rw [← List.append_assoc, ← hscope, ← List.append_assoc, ← hlast]
      exact ⟨List.rdropWhile_concat_pos _ _ _ hu, List.rtakeWhile_concat_pos _ _ _ hu⟩

/-- Tokens with `::` behind others. -/
theorem lastPart_append {ts us : List Token} (h : scopePart us ≠ []) :
    scopePart (ts ++ us) = ts ++ scopePart us ∧ lastPart (ts ++ us) = lastPart us := by
  obtain ⟨front, colons, hscope, hcolons⟩ := scopePart_eq_concat h
  have hus : us = front ++ [colons] ++ lastPart us := by
    rw [← hscope, scopePart_append_lastPart]
  have hboth (vs : List Token) : scopePart (vs ++ (front ++ [colons]) ++ lastPart us) =
      vs ++ (front ++ [colons]) ∧
        lastPart (vs ++ (front ++ [colons]) ++ lastPart us) = lastPart us := by
    have hnone : ∀ u ∈ lastPart us, u.is "::" = false := fun u => is_eq_false_of_mem_lastPart
    obtain ⟨hfront, hbehind⟩ := scopePart_append (vs ++ (front ++ [colons])) hnone
    have hnot : ¬ (!colons.is "::") = true := by simp [hcolons]
    have hscope : scopePart (vs ++ front ++ [colons]) = vs ++ front ++ [colons] :=
      List.rdropWhile_concat_neg _ _ _ hnot
    have hlast : lastPart (vs ++ front ++ [colons]) = [] := List.rtakeWhile_concat_neg _ _ _ hnot
    rw [hfront, hbehind, ← List.append_assoc, hscope, hlast]
    exact ⟨rfl, List.nil_append _⟩
  have hall : ts ++ us = ts ++ (front ++ [colons]) ++ lastPart us := by
    rw [List.append_assoc, ← hus]
  rw [hall, hscope]
  exact hboth ts

/-- If not only the first name is qualified, there is a last one that is, and one in front of it. -/
theorem exists_last_of_not_leads {ts : List Token} (h : ¬ Leads ts) :
    ∃ before left name after, names ts = before ++ left :: name :: after ∧ scopePart name ≠ [] ∧
      ∀ t ∈ after.flatten, t.is "::" = false := by
  let isPlain (name : List Token) : Bool := name.all (!·.is "::")
  have hne : (names ts).tail.rdropWhile isPlain ≠ [] := by
    rw [Ne, List.rdropWhile_eq_nil_iff]
    exact fun hall => h fun name hname t ht => by
      simpa using List.all_eq_true.mp (hall name hname) t ht
  have hqualified := List.rdropWhile_last_not isPlain _ hne
  have htail : (names ts).tail.rdropWhile isPlain ++ (names ts).tail.rtakeWhile isPlain =
      (names ts).tail := List.rdropWhile_append_rtakeWhile
  have hafter : ∀ name ∈ (names ts).tail.rtakeWhile isPlain, isPlain name = true :=
    fun _ => List.mem_rtakeWhile_imp
  rw [← List.dropLast_append_getLast hne] at htail
  generalize (List.rdropWhile isPlain (names ts).tail).getLast hne = name at htail hqualified
  generalize (List.rdropWhile isPlain (names ts).tail).dropLast = between at htail
  generalize (names ts).tail.rtakeWhile isPlain = after at htail hafter
  obtain ⟨first, hfirst⟩ : ∃ first, names ts = first :: (names ts).tail := by
    cases hnames : names ts with
    | nil =>
        rw [hnames] at htail
        simp at htail
    | cons first more => exact ⟨first, rfl⟩
  obtain ⟨before, left, hleft⟩ : ∃ before left, first :: between = before ++ [left] :=
    ⟨_, _, (List.dropLast_append_getLast (List.cons_ne_nil first between)).symm⟩
  refine ⟨before, left, name, after, ?_, fun hnone => hqualified ?_, fun t ht => ?_⟩
  · rw [hfirst, ← htail, ← List.cons_append, ← List.cons_append, hleft]
    simp
  · exact List.all_eq_true.mpr (List.rdropWhile_eq_nil_iff.mp hnone)
  · obtain ⟨other, hother, ht⟩ := List.mem_flatten.mp ht
    simpa using List.all_eq_true.mp (hafter other hother) t ht

/-- A name in front of a qualified one does not end with `::`. -/
theorem lastPart_ne_nil_of_names {ts left name : List Token} {before after : List (List Token)}
    (h : names ts = before ++ left :: name :: after) (hname : scopePart name ≠ []) :
    lastPart left ≠ [] := by
  have hpair : [left, name].IsChain
      fun a b => ∃ ha hb, joins (a.getLast ha) (b.head hb) = false :=
    List.IsChain.infix (List.isChain_getLast_head_splitBy joins ts) ⟨before, after, by
      rw [← names, h]
      simp⟩
  obtain ⟨hleft, hhead, hapart⟩ := List.isChain_pair.mp hpair
  have hchain : name.IsChain fun t u => joins t u = true :=
    List.isChain_of_mem_splitBy (by rw [← names, h]; simp)
  intro hnil
  have hcolons : (left.getLast hleft).is "::" = true := by
    simpa using List.rtakeWhile_eq_nil_iff.mp hnil hleft
  obtain ⟨t, rest, rfl⟩ := List.exists_cons_of_ne_nil hhead
  simp only [joins, hcolons, List.head_cons, Bool.true_and, Bool.or_eq_false_iff] at hapart
  obtain ⟨⟨hmark, hword⟩, -⟩ := hapart
  cases rest with
  | nil => exact hname (List.rdropWhile_eq_nil_iff.mpr (by simp [hmark]))
  | cons u rest =>
      have hjoins := (List.isChain_cons_cons.mp hchain).1
      simp [joins, hmark, hword] at hjoins

end Token

/-! ## Peer classes -/

/-- Words with dots between them. -/
inductive Text.IsDotted : List Char → Prop where
  | word {w : List Char} (isWord : isWord w = true) : IsDotted w
  | dot {w rest : List Char} (isWord : isWord w = true) (behind : IsDotted rest) :
      IsDotted (w ++ '.' :: rest)

theorem Text.IsDotted.exists_start {cs : List Char} (h : IsDotted cs) :
    ∃ c rest, cs = c :: rest ∧ isWordStart c = true := by
  have hword {w : List Char} (hw : isWord w = true) :
      ∃ c rest, w = c :: rest ∧ isWordStart c = true := by
    cases w with
    | nil => cases hw
    | cons c w =>
        simp only [isWord, Bool.and_eq_true] at hw
        exact ⟨c, w, rfl, hw.1⟩
  cases h with
  | word isWord => exact hword isWord
  | dot isWord behind =>
      obtain ⟨c, rest, rfl, hc⟩ := hword isWord
      exact ⟨c, _, rfl, hc⟩

namespace Token

/-- A dot by itself. -/
theorem faces_dot {cs : List Char} (h : ∀ c ∈ cs.head?, c ≠ '.' ∧ c.isDigit = false) :
    faces ('.' :: cs) = (.punct, ".") :: faces cs := by
  have hread : Lexeme.read '.' cs = ⟨.punct, ['.'], ['.'], cs⟩ := by
    cases cs with
    | nil => rfl
    | cons c cs =>
        obtain ⟨hdot, hdigit⟩ := h c rfl
        have hoperator : Lexeme.read '.' (c :: cs) = Lexeme.operator '.' (c :: cs) := by
          unfold Lexeme.read
          rw [if_neg (by decide), if_neg (by simp [hdigit])]
          rfl
        rw [hoperator]
        unfold Lexeme.operator
        split
        next heq => exact absurd (List.cons.inj heq).1 hdot
        next hangle _ => cases hangle
        next heq _ _ =>
          cases heq
          rw [if_neg (by simp [Lexeme.pairs])]
          rfl
        next heq => cases heq
  rw [faces_read rfl, hread]
  rfl

/-- A peer class and the dot behind it. -/
theorem faces_dotted {peer cs : List Char} (hpeer : Text.IsDotted peer)
    (h : ∀ c ∈ cs.head?, c ≠ '.' ∧ c.isDigit = false) :
    faces (peer ++ '.' :: cs) = faces (peer ++ ['.']) ++ faces cs := by
  have hword {w : List Char} (hw : Text.isWord w = true) (rest : List Char) :
      faces (w ++ '.' :: rest) =
        (wordKind (String.ofList w), String.ofList w) :: faces ('.' :: rest) :=
    faces_word hw (by simp [Text.isWordChar, Text.isLetter, Text.isNumeral])
  induction hpeer with
  | word isWord =>
      rw [hword isWord, hword isWord, faces_dot h, faces_dot (by simp), faces_nil]
      rfl
  | @dot w rest isWord behind ih =>
      have hstart (us : List Char) : ∀ c ∈ (rest ++ us).head?, c ≠ '.' ∧ c.isDigit = false := by
        obtain ⟨d, ds, hrest, hd⟩ := behind.exists_start
        intro c hc
        rw [hrest] at hc
        obtain rfl : d = c := by simpa using hc
        refine ⟨?_, Arithmetic.isDigit_of_isWordStart hd⟩
        rintro rfl
        cases hd
      rw [List.append_assoc, List.append_assoc, List.cons_append, List.cons_append, hword isWord,
        hword isWord, faces_dot (hstart _), faces_dot (hstart _), ih]
      rfl

end Token

/-! ## What is printed -/

namespace RuleTable

variable {table : RuleTable} {ts : List Token}

theorem translateName_of_clear {cs : List Char} (h : Text.Clear cs) :
    table.translateName (String.ofList cs) = String.ofList cs := by
  unfold translateName
  rw [Text.cutLast?_of_clear_all h]

/-- A scope with `::` behind it becomes the peer class with a dot, or nothing. -/
theorem translateName_scope (q : List Char) :
    table.translateName (String.ofList (q ++ [':', ':'])) =
      match (table.find? (Text.trim (String.ofList q))).bind (·.pointerType?) with
      | some peer => Text.leadingBlanks (String.ofList q) ++ peer ++ "."
      | none => "" := by
  unfold translateName
  rw [Text.cutLast?_of_clear q (show Text.Clear [':'] by decide)]
  dsimp only
  cases (table.find? (Text.trim (String.ofList q))).bind (·.pointerType?) <;> simp

/-- The tokens that are printed for others: what is in front of the last `::` as one scope, and
what is behind it. -/
def translated (table : RuleTable) (ts : List Token) : List (Kind × String) :=
  Token.faces (table.translateName (String.ofList (Token.chars (Token.scopePart ts)))).toList
    ++ (Token.lastPart ts).map Token.face

/-- The tokens with each qualified name translated on its own. -/
def namewise (table : RuleTable) (ts : List Token) : List (Kind × String) :=
  (Token.names ts).flatMap table.translated

/-- The peer class of the scope that a text is taken to be in. -/
def peer? (table : RuleTable) (text : String) : Option String :=
  (Text.cutLast? "::" text).bind fun (scope, _) =>
    (table.find? (Text.trim scope)).bind (·.pointerType?)

/-- What is left of the tokens can be told apart. Behind the last `::` of the tokens their text has
none, and they do not run together where a comment is gone; peer classes are dotted words. -/
structure Separates (table : RuleTable) (ts : List Token) : Prop where
  clear : Text.Clear (':' :: Token.chars (Token.lastPart ts))
  apart : Token.faces (Token.chars (Token.lastPart ts)) = (Token.lastPart ts).map Token.face
  starts : Token.scopePart ts ≠ [] →
    ∀ c ∈ (Token.chars (Token.lastPart ts)).head?, c ≠ '.' ∧ c.isDigit = false
  peers : ∀ peer ∈ table.peer? (String.ofList (Token.chars ts)), Text.IsDotted peer.toList

/-- The characters through the last `::`. -/
theorem exists_scope (hscope : Token.scopePart ts ≠ []) :
    ∃ q, Token.chars (Token.scopePart ts) = q ++ [':', ':'] := by
  obtain ⟨front, colons, hfront, hcolons⟩ := Token.scopePart_eq_concat hscope
  have htext : colons.text = "::" := by
    simp only [Token.is, Bool.and_eq_true, beq_iff_eq] at hcolons
    exact hcolons.2
  refine ⟨Token.chars front ++ colons.spacing.toList, ?_⟩
  rw [hfront, Arithmetic.chars_append]
  simp [Token.chars, Token.spaced, htext]

theorem chars_eq (ts : List Token) : Token.chars ts =
    Token.chars (Token.scopePart ts) ++ Token.chars (Token.lastPart ts) := by
  rw [← Arithmetic.chars_append, Token.scopePart_append_lastPart]

/-- A text is cut where the last `::` of its tokens is. -/
theorem translateName_chars (hclear : Text.Clear (':' :: Token.chars (Token.lastPart ts))) :
    table.translateName (String.ofList (Token.chars ts)) =
      table.translateName (String.ofList (Token.chars (Token.scopePart ts)))
        ++ String.ofList (Token.chars (Token.lastPart ts)) := by
  by_cases hscope : Token.scopePart ts = []
  · have hclear' : Text.Clear (Token.chars (Token.lastPart ts)) := List.IsChain.tail hclear
    rw [chars_eq, hscope, translateName_of_clear (show Text.Clear (Token.chars []) by decide)]
    exact (translateName_of_clear hclear').trans (String.empty_append).symm
  · obtain ⟨q, hq⟩ := exists_scope hscope
    have hcut := Text.cutLast?_of_clear q hclear
    rw [chars_eq, hq, translateName_scope, List.append_assoc]
    unfold translateName
    simp only [List.cons_append, List.nil_append, hcut]
    cases (table.find? (Text.trim (String.ofList q))).bind (·.pointerType?) <;>
      simp [String.append_assoc]

/-- What the part through the last `::` becomes. -/
theorem translateName_scopePart (table : RuleTable)
    (hclear : Text.Clear (':' :: Token.chars (Token.lastPart ts))) :
    table.peer? (String.ofList (Token.chars ts)) = none ∧
        table.translateName (String.ofList (Token.chars (Token.scopePart ts))) = "" ∨
      Token.scopePart ts ≠ [] ∧ ∃ peer blanks,
        table.peer? (String.ofList (Token.chars ts)) = some peer ∧
          table.translateName (String.ofList (Token.chars (Token.scopePart ts))) =
            Text.leadingBlanks blanks ++ peer ++ "." := by
  by_cases hscope : Token.scopePart ts = []
  · left
    have hclear' : Text.Clear (Token.chars (Token.lastPart ts)) := List.IsChain.tail hclear
    have hall : Token.chars ts = Token.chars (Token.lastPart ts) := by
      rw [chars_eq, hscope]
      rfl
    rw [peer?, hall, Text.cutLast?_of_clear_all hclear', hscope]
    exact ⟨rfl, translateName_of_clear (show Text.Clear (Token.chars []) by decide)⟩
  · obtain ⟨q, hq⟩ := exists_scope hscope
    have hcut := Text.cutLast?_of_clear q hclear
    rw [chars_eq, hq, translateName_scope, peer?, List.append_assoc]
    simp only [List.cons_append, List.nil_append, hcut, Option.bind_some]
    cases (table.find? (Text.trim (String.ofList q))).bind (·.pointerType?) with
    | none => exact Or.inl ⟨rfl, rfl⟩
    | some peer => exact Or.inr ⟨hscope, peer, _, rfl, rfl⟩

theorem faces_translateName (h : table.Separates ts) :
    Token.faces (table.translateName (String.ofList (Token.chars ts))).toList =
      table.translated ts := by
  rw [translateName_chars h.clear, String.toList_append, String.toList_ofList, translated]
  rcases translateName_scopePart table h.clear with
    ⟨-, hnone⟩ | ⟨hscope, peer, blanks, hpeer, hsome⟩
  · rw [hnone, String.toList_empty, List.nil_append, h.apart, Token.faces_nil, List.nil_append]
  · have hblanks : ∀ c ∈ (Text.leadingBlanks blanks).toList, Text.isBlank c = true := by
      intro c hc
      rw [Text.leadingBlanks, String.toList_ofList] at hc
      exact List.mem_takeWhile_imp hc
    have hdotted := h.peers peer hpeer
    have hdot : ".".toList = ['.'] := rfl
    simp only [hsome, String.toList_append, hdot, List.append_assoc, List.singleton_append,
      Token.faces_blanks hblanks, Token.faces_dotted hdotted (h.starts hscope), h.apart]

/-- Tokens without `::` stay as they are. -/
theorem translated_of_forall (h : ∀ t ∈ ts, t.is "::" = false) :
    table.translated ts = ts.map Token.face := by
  obtain ⟨hscope, hlast⟩ := Token.scopePart_of_forall h
  rw [translated, hscope, hlast, translateName_of_clear (show Text.Clear (Token.chars []) by decide)]
  exact congrArg (· ++ _) Token.faces_nil

/-- If only the first name is qualified, names are translated one by one. -/
theorem translated_eq_namewise (h : Token.Leads ts) : table.translated ts = table.namewise ts := by
  have hflatten := List.flatten_splitBy Token.joins ts
  unfold Token.Leads Token.names at h
  unfold namewise Token.names
  generalize ts.splitBy Token.joins = names at h hflatten
  subst hflatten
  cases names with
  | nil => exact translated_of_forall (by simp)
  | cons name names =>
      rw [List.tail_cons] at h
      have hrest : ∀ t ∈ names.flatten, t.is "::" = false := by
        intro t ht
        obtain ⟨name, hname, ht⟩ := List.mem_flatten.mp ht
        exact h name hname t ht
      have hnames : names.flatMap table.translated = names.flatten.map Token.face := by
        rw [List.map_flatten, List.flatMap_def]
        exact congrArg List.flatten (List.map_congr_left fun name hname =>
          translated_of_forall (h name hname))
      obtain ⟨hscope, hlast⟩ := Token.scopePart_append name hrest
      rw [List.flatten_cons, List.flatMap_cons, hnames, translated, hscope, hlast, List.map_append,
        ← List.append_assoc]
      rfl

/-- If another name is qualified and the text in front of its last `::` is no scope, what is in
front of it is lost. -/
theorem translated_ne_namewise (h : ¬ Token.Leads ts)
    (hclear : Text.Clear (':' :: Token.chars (Token.lastPart ts)))
    (hpeer : table.peer? (String.ofList (Token.chars ts)) = none) :
    table.translated ts ≠ table.namewise ts := by
  obtain ⟨before, left, name, after, hnames, hname, hafter⟩ := Token.exists_last_of_not_leads h
  have hleft := Token.lastPart_ne_nil_of_names hnames hname
  have hts : ts = (before.flatten ++ left) ++ (name ++ after.flatten) := by
    rw [← List.flatten_splitBy Token.joins ts]
    change (Token.names ts).flatten = _
    rw [hnames]
    simp
  -- what is printed are the tokens behind the last `::`
  have hlast : Token.lastPart ts = Token.lastPart name ++ after.flatten := by
    obtain ⟨hscope, hrest⟩ := Token.scopePart_append name hafter
    rw [hts, (Token.lastPart_append (by rwa [hscope])).2, hrest]
  have hnothing : table.translateName (String.ofList (Token.chars (Token.scopePart ts))) = "" := by
    rcases translateName_scopePart table hclear with ⟨-, hnone⟩ | ⟨-, peer, _, hsome, -⟩
    · exact hnone
    · rw [hpeer] at hsome
      cases hsome
  have hprinted : (table.translated ts).length = (Token.lastPart name ++ after.flatten).length := by
    rw [translated, hnothing, String.toList_empty, Token.faces_nil, List.nil_append, hlast,
      List.length_map]
  -- name by name, one token more stays at least
  have hkept (ts : List Token) : (Token.lastPart ts).length ≤ (table.translated ts).length := by
    rw [translated, List.length_append, List.length_map]
    exact Nat.le_add_left _ _
  have hplain : after.flatMap table.translated = after.flatten.map Token.face := by
    rw [List.map_flatten, List.flatMap_def]
    exact congrArg List.flatten (List.map_congr_left fun name hname =>
      translated_of_forall fun t ht => hafter t (List.mem_flatten.mpr ⟨name, hname, ht⟩))
  intro heq
  have hlength := congrArg List.length heq
  rw [hprinted, namewise, hnames] at hlength
  simp only [List.flatMap_append, List.flatMap_cons, hplain, List.length_append,
    List.length_map] at hlength
  have hpos := List.length_pos_iff.mpr hleft
  have hleft := hkept left
  have hname := hkept name
  omega

end RuleTable

/-! ## Constants -/

namespace ConstantLine

open ReadM

variable {line : ConstantLine} {s : Reading} {rest : List Token} {scope : Scope}

theorem written_false (ts : List Token) : written false ts = String.ofList (Token.chars ts) := by
  fun_induction written false ts with
  | case1 => rfl
  | case2 t => simp [Token.chars]
  | case3 t u ts ih =>
      rw [ih]
      simp [Token.chars]

/-- **Names in a constant.** A value that is no string and that means the same on the target side is
printed with what is in front of its last `::` taken for one scope. This is the value name by name
if no name but the first is qualified, and only then, unless the table has a peer class for all the
text in front of the last `::`. -/
theorem read_translates (hfuel : 0 < s.fuel) (h : s.ahead = line.tokens ++ rest)
    (hrest : ∀ t ∈ rest.head?, Conditional.startsLine t = true)
    (hrules : s.table.rules line.name.text = [])
    (hplain : (line.found s.table).isPlain = true) (htype : (line.found s.table).type ≠ .string)
    (hconstant : (line.constant s.table).isEmpty = false)
    (hseparates : s.table.Separates line.visible) :
    ∃ value : String,
      Directive.read scope s = .ok true (line.behind rest s) ∧
      line.shown s.table =
        ("public static final " ++ (line.found s.table).type.target ++ " " ++ line.name.text ++ " ="
          ++ value ++ ";\n", line.mark.spacing) ∧
      Token.faces value.toList = s.table.translated line.visible ∧
      (Token.Leads line.visible → Token.faces value.toList = s.table.namewise line.visible) ∧
      (s.table.peer? (String.ofList (Token.chars line.visible)) = none →
        (Token.faces value.toList = s.table.namewise line.visible ↔ Token.Leads line.visible)) := by
  have hvalue : line.initializer s.table =
      s.table.translateName (String.ofList (Token.chars line.visible)) := by
    rw [initializer, if_pos hplain, concatenates_found, beq_eq_false_iff_ne.mpr htype,
      written_false]
  have hfaces := RuleTable.faces_translateName hseparates
  rw [← hvalue] at hfaces
  refine ⟨line.initializer s.table, read_eq hfuel h hrest hrules, ?_, hfaces, ?_, ?_⟩
  · have htext : line.constant s.table = "public static final " ++ (line.found s.table).type.target
        ++ " " ++ line.name.text ++ " =" ++ line.initializer s.table ++ ";\n" := by
      have hnonempty : (line.initializer s.table).isEmpty = false := by
        cases hempty : (line.initializer s.table).isEmpty with
        | false => rfl
        | true => simp [constant, hplain, hempty] at hconstant
      simp [constant, hplain, hnonempty]
    rw [shown, hconstant, if_neg Bool.false_ne_true, htext]
  · exact fun hleads => hfaces.trans (RuleTable.translated_eq_namewise hleads)
  · refine fun hpeer => ⟨fun heq => ?_, fun hleads =>
      hfaces.trans (RuleTable.translated_eq_namewise hleads)⟩
    by_contra hleads
    exact RuleTable.translated_ne_namewise hleads hseparates.clear hpeer (hfaces.symm.trans heq)

/-- The line `#define X a::b + 1`. -/
def qualified : ConstantLine where
  mark := { kind := .punct, text := "#" }
  word := { kind := .keyword .define_, text := "define" }
  name := { kind := .identifier, text := "X", spacing := " " }
  value := Token.ofText none " a::b + 1"
  isMark := by decide
  isDefine := by decide
  isName := by decide
  named := by decide
  oneLine := by decide +kernel
  ongoing := by decide +kernel
  hidden := by decide
  closed := by decide +kernel
  apart := by decide +kernel

/-- A member of a peer class and what is added to it. -/
theorem read_translates_qualified :
    let table : RuleTable :=
      RuleTable.put {} { nativeNames := ["a"], pointerTypes := some ["ns.Peer"] }
    ∃ value : String,
      qualified.shown table = ("public static final int X =" ++ value ++ ";\n", "") ∧
      Token.faces value.toList = [(.identifier, "ns"), (.punct, "."), (.identifier, "Peer"),
        (.punct, "."), (.identifier, "b"), (.punct, "+"), (.integer, "1")] := by
  intro table
  let s := Reading.ofTokens table qualified.tokens
  obtain ⟨hpeer, hfirst, hclear, hapart, hleads, hnames⟩ :
      table.peer? (String.ofList (Token.chars qualified.visible)) = some "ns.Peer" ∧
        (Token.chars (Token.lastPart qualified.visible)).head? = some 'b' ∧
        Text.Clear (':' :: Token.chars (Token.lastPart qualified.visible)) ∧
        Token.faces (Token.chars (Token.lastPart qualified.visible)) =
          (Token.lastPart qualified.visible).map Token.face ∧
        Token.Leads qualified.visible ∧
        table.namewise qualified.visible = [(.identifier, "ns"), (.punct, "."),
          (.identifier, "Peer"), (.punct, "."), (.identifier, "b"), (.punct, "+"),
          (.integer, "1")] := by
    decide +kernel
  have hseparates : table.Separates qualified.visible := by
    refine ⟨hclear, hapart, fun _ c hc => ?_, fun peer hsome => ?_⟩
    · rw [hfirst] at hc
      cases hc
      decide
    · rw [hpeer] at hsome
      cases hsome
      exact .dot (w := ['n', 's']) (by decide) (.word (by decide))
  obtain ⟨value, -, hshown, -, hvalue, -⟩ := @read_translates qualified s [] {}
    (by decide +kernel) (List.append_nil _).symm (by simp)
    (by decide +kernel) (by decide +kernel) (by decide +kernel) (by decide +kernel) hseparates
  have hstart : "public static final " ++ (qualified.found s.table).type.target ++ " "
      ++ qualified.name.text ++ " =" = "public static final int X =" := by
    decide +kernel
  rw [hstart] at hshown
  exact ⟨value, hshown, (hvalue hleads).trans hnames⟩

/-- What is in front of a qualified name is lost: here a parenthesis, which leaves the other one
open. -/
theorem parenthesis_is_lost :
    Directive.printed? "#define X (a::b)" = some "public static final int X =b);" ∧
      Token.faces "b)".toList ≠ RuleTable.namewise {} (Token.ofText none "(a::b)") := by
  decide +kernel

end ConstantLine

end HeaderPeers

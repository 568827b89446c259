import HeaderPeers.Proofs.Respelling
import HeaderPeers.Proofs.Scope.Walk

/-!
# Paths of scopes

A path is made of names with `::` between them, and behind each name may stand a list of template
arguments, with lists and further paths inside. Read as tokens, the last list is found, so that the
path around is the one of the names before the last, however the arguments are spelled.

- `Scope.Arguments` — the texts between `<` and `>`.
- `Scope.IsSegment` — a name of a path, with arguments or without.
- `Scope.outer?_join` — the path around is that of the segments before the last.
- `Scope.qualify_segments` — what a name in such a scope may refer to.
-/

namespace HeaderPeers

variable {numbering : Token.Numbering} {file : Option String} {line : Nat}

/-! ## Tokens at the start of a text -/

namespace Lexeme

theorem read_comma (rest : List Char) : read ',' rest = verbatim .punct [','] rest := by
  cases rest <;> rfl

/-- What closes a list never joins with what follows. -/
theorem read_closing (rest : List Char) : read '>' rest = verbatim .punct ['>'] rest := by
  cases rest <;> rfl

theorem read_opening {rest : List Char} (hfirst : rest.head? ≠ some '<')
    (hequals : rest.head? ≠ some '=') : read '<' rest = verbatim .punct ['<'] rest := by
  cases rest with
  | nil => rfl
  | cons d rest =>
      have hnot : d ≠ '<' ∧ d ≠ '=' := by simpa using And.intro hfirst hequals
      have hpair : pairs.contains ('<', d) = false := by simp [pairs, hnot]
      have hread : read '<' (d :: rest) = operator '<' (d :: rest) := rfl
      rw [hread, operator, hpair]
      · rfl
      · simp
      · exact fun _ _ hd => absurd hd hnot.1

theorem read_colons (rest : List Char) :
    read ':' (':' :: rest) = verbatim .symbol [':', ':'] rest :=
  rfl

end Lexeme

namespace Token

theorem scan_read {c : Char} (h : Text.isBlank c = false) (cs : List Char) :
    scan numbering file line (c :: cs) =
      { kind := (Lexeme.read c cs).kind, text := String.ofList (Lexeme.read c cs).text
        location := { file, line } } ::
        scan numbering file (numbering.advance line (Lexeme.read c cs).source)
          (Lexeme.read c cs).rest := by
  have hnothing : numbering.advance line [] = line := by cases numbering <;> rfl
  rw [scan]
  split
  next hnil => simp [h] at hnil
  next d rest hcons =>
    obtain ⟨rfl, rfl⟩ : c = d ∧ cs = rest := by simpa [h] using hcons
    simp [h, hnothing]

/-- White space goes to the token behind it. -/
theorem scan_blank {c : Char} (hc : Text.isBlank c = true) {cs : List Char} {t : Token}
    {ts : List Token} (h : scan numbering file (numbering.advance line [c]) cs = t :: ts) :
    scan numbering file line (c :: cs) =
      { t with spacing := String.ofList [c] ++ t.spacing } :: ts := by
  have hadvance (blanks : List Char) :
      numbering.advance (numbering.advance line [c]) blanks =
        numbering.advance line (c :: blanks) := by
    cases numbering with
    | counted =>
        simp only [Numbering.advance, List.count_cons, List.count_nil]
        omega
    | fixed => rfl
  have hspacing (blanks : List Char) :
      String.ofList (c :: blanks) = String.ofList [c] ++ String.ofList blanks := by
    rw [← String.ofList_append]
    rfl
  have htake := List.takeWhile_cons_of_pos (l := cs) hc
  have hdrop := List.dropWhile_cons_of_pos (l := cs) hc
  rw [scan] at h
  split at h
  next hnil =>
    split at h
    · cases h
    · cases h
      rw [scan]
      split
      · rw [if_neg (by simp [htake]), htake, hspacing, hadvance]
      next hcons =>
        rw [hdrop, hnil] at hcons
        cases hcons
  next d rest hcons =>
    cases h
    rw [scan]
    split
    next hnil =>
      rw [hdrop, hcons] at hnil
      cases hnil
    next d' rest' hcons' =>
      rw [hdrop, hcons] at hcons'
      cases hcons'
      rw [htake, hspacing, hadvance]

variable (numbering file) in
/-- A word at the start, up to the first other character. -/
theorem exists_scan_word {w rest : List Char} (hw : Text.isWord w = true)
    (hrest : ∀ c ∈ rest.head?, Text.isWordChar c = false) (line : Nat) :
    ∃ t line', scan numbering file line (w ++ rest) = t :: scan numbering file line' rest ∧
      t.face = (wordKind (String.ofList w), String.ofList w) ∧ t.spacing = "" := by
  cases w with
  | nil => cases hw
  | cons c w =>
      have hblank : Text.isBlank c = false :=
        Text.isBlank_of_isWordChar (Text.isWordChar_of_isWord hw c List.mem_cons_self)
      rw [List.cons_append, scan_read hblank, read_word hw hrest]
      exact ⟨_, _, rfl, rfl, rfl⟩

variable (numbering file) in
/-- A mark at the start. -/
theorem exists_scan_mark {c : Char} (hblank : Text.isBlank c = false) {kind : Kind}
    (hkind : kind = .punct ∨ kind = .symbol) {cs source rest : List Char}
    (hread : Lexeme.read c cs = Lexeme.verbatim kind source rest) (line : Nat) :
    ∃ t line', scan numbering file line (c :: cs) = t :: scan numbering file line' rest ∧
      t.IsMark (String.ofList source) ∧ t.spacing = "" := by
  rw [scan_read hblank, hread]
  exact ⟨_, _, rfl, ⟨hkind, rfl⟩, rfl⟩

end Token

/-! ## Balanced lists -/

namespace Name

variable {t opening closing : Token} {ts us inner : List Token} {count i : Nat}
  {search : ArgumentSearch}

/-- Tokens none of which opens a list that is not closed, or closes one that is not opened. -/
inductive Balanced : List Token → Prop
  | nil : Balanced []
  | cons {t : Token} {ts : List Token} (visible : t.isComment = false) (opens : t.is "<" = false)
      (closes : t.is ">" = false) (more : Balanced ts) : Balanced (t :: ts)
  | list {opening closing : Token} {inner ts : List Token} (ho : opening.IsMark "<")
      (hc : closing.IsMark ">") (inside : Balanced inner) (more : Balanced ts) :
      Balanced (opening :: (inner ++ closing :: ts))

theorem isComment_of_isMark {text : String} (h : t.IsMark text) : t.isComment = false := by
  obtain ⟨hkind | hkind, -⟩ := h <;> simp [Token.isComment, hkind]

theorem Balanced.visible (h : Balanced ts) : ∀ t ∈ ts, t.isComment = false := by
  induction h with
  | nil => simp
  | cons visible opens closes more ih => simpa using ⟨visible, ih⟩
  | list ho hc inside more ihinside ihmore =>
      intro t ht
      rw [List.mem_cons, List.mem_append, List.mem_cons] at ht
      rcases ht with rfl | ht | rfl | ht
      · exact isComment_of_isMark ho
      · exact ihinside t ht
      · exact isComment_of_isMark hc
      · exact ihmore t ht

theorem Balanced.append (hts : Balanced ts) (hus : Balanced us) : Balanced (ts ++ us) := by
  induction hts with
  | nil => exact hus
  | cons visible opens closes more ih => exact .cons visible opens closes ih
  | list ho hc inside more ihinside ihmore =>
      rw [List.cons_append, List.append_assoc, List.cons_append]
      exact .list ho hc inside ihmore

/-- White space in front makes no difference. -/
theorem Balanced.respaced (h : Balanced (t :: ts)) (spacing : String) :
    Balanced ({ t with spacing } :: ts) := by
  cases h with
  | cons visible opens closes more => exact .cons visible opens closes more
  | list ho hc inside more => exact .list ho hc inside more

/-- The search of `count` tokens, from the token in position `i` on. -/
def ArgumentSearch.run (search : ArgumentSearch) (count i : Nat) (ts : List Token) :
    ArgumentSearch :=
  (ts.zipIdx i).foldl (fun s (t, i) => s.step count i t) search

namespace ArgumentSearch

theorem run_cons : search.run count i (t :: ts) = (search.step count i t).run count (i + 1) ts :=
  rfl

theorem run_append :
    search.run count i (ts ++ us) = (search.run count i ts).run count (i + ts.length) us := by
  rw [run, run, run, List.zipIdx_append, List.foldl_append]

theorem step_other (opens : t.is "<" = false) (closes : t.is ">" = false) :
    search.step count i t = search := by
  simp [step, opens, closes]

theorem step_opening (h : opening.IsMark "<") : search.step count i opening =
    ⟨search.depth + 1, if search.depth == 0 then some i else search.start⟩ := by
  simp [step, h.is_eq]

theorem step_closing (h : closing.IsMark ">") : search.step count i closing =
    ⟨search.depth - 1,
      if search.depth - 1 == 0 && i + 1 != count then none else search.start⟩ := by
  have hopening : ((">" : String) == "<") = false := by decide
  simp [step, h.is_eq, hopening]

/-- Inside a list the search stays as it is. -/
theorem run_inside (h : Balanced ts) (hdepth : 1 ≤ search.depth) :
    search.run count i ts = search := by
  induction h generalizing search i with
  | nil => rfl
  | cons visible opens closes more ih => rw [run_cons, step_other opens closes, ih hdepth]
  | list ho hc inside more ihinside ihmore =>
      have hzero : (search.depth == 0) = false := by simp; omega
      have hback : search.depth + 1 - 1 = search.depth := by omega
      rw [run_cons, step_opening ho, run_append, ihinside (by simp; omega), run_cons,
        step_closing hc]
      simp only [hback, hzero, Bool.false_and, Bool.false_eq_true, if_false]
      exact ihmore hdepth

/-- Outside of lists the search finds those only that the last token closes. -/
theorem run_outside (h : Balanced ts) (hcount : i + ts.length < count) :
    run {} count i ts = {} := by
  induction h generalizing i with
  | nil => rfl
  | cons visible opens closes more ih =>
      rw [List.length_cons] at hcount
      rw [run_cons, step_other opens closes, ih (by omega)]
  | @list opening closing inner ts ho hc inside more ihinside ihmore =>
      simp only [List.length_cons, List.length_append] at hcount
      have hlast : i + 1 + inner.length + 1 ≠ count := by omega
      rw [run_cons, step_opening ho, run_append, run_inside inside (by simp), run_cons,
        step_closing hc]
      simp only [bne_iff_ne, ne_eq, hlast, not_false_eq_true, and_true, Bool.and_eq_true,
        beq_iff_eq]
      exact ihmore (by omega)

end ArgumentSearch

/-- A list that the last token closes is found. -/
theorem argumentsStart?_of_list {kept : List Token} (hkept : Balanced kept)
    (ho : opening.IsMark "<") (hc : closing.IsMark ">") (inside : Balanced inner) :
    argumentsStart? (kept ++ opening :: (inner ++ [closing])) = some kept.length := by
  have hlength : (kept ++ opening :: (inner ++ [closing])).length =
      kept.length + 1 + inner.length + 1 := by
    simp only [List.length_append, List.length_cons, List.length_nil]
    omega
  have hrun : ArgumentSearch.run {} (kept ++ opening :: (inner ++ [closing])).length 0
      (kept ++ opening :: (inner ++ [closing])) = ⟨0, some kept.length⟩ := by
    rw [ArgumentSearch.run_append, ArgumentSearch.run_outside hkept (by omega), Nat.zero_add,
      ArgumentSearch.run_cons, ArgumentSearch.step_opening ho, ArgumentSearch.run_append,
      ArgumentSearch.run_inside inside (by simp), ArgumentSearch.run_cons,
      ArgumentSearch.step_closing hc, hlength]
    simp [ArgumentSearch.run]
  unfold argumentsStart?
  rw [show (List.foldl _ _ _ : ArgumentSearch) = _ from hrun]
  rfl

/-- Behind the last list there is none to be found. -/
theorem argumentsStart?_of_word {front : List Token} (hfront : Balanced front)
    (opens : t.is "<" = false) (closes : t.is ">" = false) :
    argumentsStart? (front ++ [t]) = none := by
  have hrun : ArgumentSearch.run {} (front ++ [t]).length 0 (front ++ [t]) = {} := by
    rw [ArgumentSearch.run_append, ArgumentSearch.run_outside hfront (by simp),
      ArgumentSearch.run_cons, ArgumentSearch.step_other opens closes]
    rfl
  unfold argumentsStart?
  rw [show (List.foldl _ _ _ : ArgumentSearch) = _ from hrun]
  rfl

end Name

/-! ## Paths -/

namespace Scope

/-- What may stand between `<` and `>`: words, commas, `::`, white space and lists. Two `<` that
touch are one operator, so no list starts directly behind one. -/
inductive Arguments : List Char → Prop
  | nil : Arguments []
  | blank {c : Char} {cs : List Char} (blank : Text.isBlank c = true) (unbroken : c ≠ '\r')
      (more : Arguments cs) : Arguments (c :: cs)
  | word {w cs : List Char} (word : Text.isWord w = true)
      (ends : ∀ c ∈ cs.head?, Text.isWordChar c = false) (more : Arguments cs) :
      Arguments (w ++ cs)
  | comma {cs : List Char} (more : Arguments cs) : Arguments (',' :: cs)
  | colons {cs : List Char} (more : Arguments cs) : Arguments (':' :: ':' :: cs)
  | list {inner cs : List Char} (apart : inner.head? ≠ some '<') (inside : Arguments inner)
      (more : Arguments cs) : Arguments ('<' :: (inner ++ '>' :: cs))

/-- An identifier that is neither a fundamental word nor `const`. -/
structure IsName (w : String) : Prop where
  word : Text.isWord w.toList = true
  other : w ∉ Name.fundamentalWords
  unconst : w ≠ "const"

/-- A name of a path, with a list of template arguments behind it or without. -/
inductive IsSegment : String → Prop
  | plain {w : String} (name : IsName w) : IsSegment w
  | template {w inner : String} (name : IsName w) (apart : inner.toList.head? ≠ some '<')
      (inside : Arguments inner.toList) : IsSegment (w ++ "<" ++ inner ++ ">")

/-- The text of tokens with the white space in front of each. -/
def spelled (ts : List Token) : List Char :=
  ts.flatMap (·.spaced.toList)

variable {cs rest : List Char} {s w : String} {t : Token} {ts us : List Token}

@[simp] theorem spelled_nil : spelled [] = [] :=
  rfl

@[simp] theorem spelled_cons :
    spelled (t :: ts) = t.spacing.toList ++ (t.text.toList ++ spelled ts) := by
  simp [spelled, Token.spaced]

@[simp] theorem spelled_append : spelled (ts ++ us) = spelled ts ++ spelled us := by
  simp [spelled]

theorem Arguments.head_ne (h : Arguments cs) : cs.head? ≠ some '=' := by
  intro heq
  cases h with
  | nil => cases heq
  | blank blank unbroken more =>
      cases heq
      cases blank
  | @word w cs word ends more =>
      cases w with
      | nil => cases word
      | cons c w =>
          cases heq
          have hstart : Text.isWordStart '=' = false := by decide +kernel
          simp [Text.isWord, hstart] at word
  | comma more => cases heq
  | colons more => cases heq
  | list apart inside more => cases heq

theorem other_of_face (hface : t.face = (Token.wordKind w, w)) (hw : Text.isWord w.toList = true) :
    t.isComment = false ∧ t.is "<" = false ∧ t.is ">" = false := by
  have hkind : t.kind = Token.wordKind w := congrArg Prod.fst hface
  have htext : t.text = w := congrArg Prod.snd hface
  have hne (mark : String) (hmark : Text.isWord mark.toList = false) : t.is mark = false := by
    rw [Token.is, htext, Bool.and_eq_false_iff]
    refine Or.inr (beq_false_of_ne ?_)
    rintro rfl
    rw [hw] at hmark
    cases hmark
  exact ⟨by simp [Token.isComment, hkind, Token.wordKind_ne_comment], hne _ (by decide +kernel),
    hne _ (by decide +kernel)⟩

theorem other_of_isMark {text : String} (h : t.IsMark text) (ho : text ≠ "<") (hc : text ≠ ">") :
    t.isComment = false ∧ t.is "<" = false ∧ t.is ">" = false :=
  ⟨Name.isComment_of_isMark h, by simpa [h.is_eq] using ho, by simpa [h.is_eq] using hc⟩

variable (numbering file) in
/-- Up to the `>` behind the text its tokens are balanced, and spelled as it is. -/
def Closes (cs rest : List Char) : Prop :=
  ∀ line, ∃ ts closing line', Token.scan numbering file line (cs ++ '>' :: rest) =
      ts ++ closing :: Token.scan numbering file line' rest ∧
    Name.Balanced ts ∧ closing.IsMark ">" ∧ spelled (ts ++ [closing]) = cs ++ ['>']

theorem closes_nil (rest : List Char) : Closes numbering file [] rest := by
  intro line
  obtain ⟨t, line', hscan, hmark, hspacing⟩ :=
    Token.exists_scan_mark numbering file rfl (Or.inl rfl) (Lexeme.read_closing rest) line
  exact ⟨[], t, line', hscan, .nil, hmark, by simp [hspacing, hmark.2]⟩

theorem Closes.blank {c : Char} (hc : Text.isBlank c = true)
    (h : Closes numbering file cs rest) : Closes numbering file (c :: cs) rest := by
  intro line
  obtain ⟨ts, closing, line', hscan, hbalanced, hclosing, hspelled⟩ :=
    h (numbering.advance line [c])
  cases ts with
  | nil =>
      exact ⟨[], _, line', Token.scan_blank hc hscan, .nil, hclosing, by simpa using hspelled⟩
  | cons t ts =>
      exact ⟨_ :: ts, closing, line', Token.scan_blank hc hscan, hbalanced.respaced _, hclosing,
        by simpa using hspelled⟩

/-- One more token in front that neither opens nor closes a list. -/
theorem Closes.cons {source : List Char} (hone : ∀ line, ∃ t line',
      Token.scan numbering file line (source ++ (cs ++ '>' :: rest)) =
        t :: Token.scan numbering file line' (cs ++ '>' :: rest) ∧
      (t.isComment = false ∧ t.is "<" = false ∧ t.is ">" = false) ∧ spelled [t] = source)
    (h : Closes numbering file cs rest) : Closes numbering file (source ++ cs) rest := by
  intro line
  obtain ⟨t, line₁, hfirst, ⟨hvisible, hopens, hcloses⟩, hsource⟩ := hone line
  obtain ⟨ts, closing, line', hscan, hbalanced, hclosing, hspelled⟩ := h line₁
  refine ⟨t :: ts, closing, line', ?_, .cons hvisible hopens hcloses hbalanced, hclosing, ?_⟩
  · rw [List.append_assoc, hfirst, hscan, List.cons_append]
  · rw [← hsource, List.cons_append, ← List.singleton_append, spelled_append, hspelled,
      List.append_assoc]

theorem Closes.list {inner : List Char} (apart : inner.head? ≠ some '<')
    (hequals : inner.head? ≠ some '=')
    (hinner : Closes numbering file inner (cs ++ '>' :: rest))
    (h : Closes numbering file cs rest) :
    Closes numbering file ('<' :: (inner ++ '>' :: cs)) rest := by
  intro line
  have hhead (c : Char) (hne : c ≠ '>') (hc : inner.head? ≠ some c) :
      (inner ++ '>' :: (cs ++ '>' :: rest)).head? ≠ some c := by
    cases inner with
    | nil => simpa using hne.symm
    | cons d inner => exact hc
  obtain ⟨opening, line₁, hopening, hmark, hspacing⟩ :=
    Token.exists_scan_mark numbering file rfl (Or.inl rfl)
    (Lexeme.read_opening (hhead '<' (by decide) apart) (hhead '=' (by decide) hequals)) line
  obtain ⟨is, close, line₂, hinside, hbalanced, hclose, hspelled⟩ := hinner line₁
  obtain ⟨ts, closing, line', hscan, hbalanced', hclosing, hspelled'⟩ := h line₂
  refine ⟨opening :: (is ++ close :: ts), closing, line', ?_,
    .list hmark hclose hbalanced hbalanced', hclosing, ?_⟩
  · rw [List.cons_append, List.append_assoc, List.cons_append, hopening, hinside, hscan,
      List.cons_append, List.append_assoc, List.cons_append]
  · have hsplit : opening :: (is ++ close :: ts) ++ [closing] =
        [opening] ++ ((is ++ [close]) ++ (ts ++ [closing])) := by simp
    rw [hsplit, spelled_append, spelled_append, hspelled, hspelled']
    simp [hspacing, hmark.2]

/-- What may stand in a list is read up to the `>` that closes it. -/
theorem Arguments.closes (numbering : Token.Numbering) (file : Option String) (h : Arguments cs)
    (rest : List Char) :
    Closes numbering file cs rest := by
  induction h generalizing rest with
  | nil => exact closes_nil rest
  | blank blank unbroken more ih => exact (ih rest).blank blank
  | @word w cs word ends more ih =>
      refine (ih rest).cons fun line => ?_
      have hends : ∀ c ∈ (cs ++ '>' :: rest).head?, Text.isWordChar c = false := by
        cases cs with
        | nil =>
            intro c hc
            cases hc
            decide +kernel
        | cons d cs => exact ends
      obtain ⟨t, line', hscan, hface, hspacing⟩ :=
        Token.exists_scan_word numbering file word hends line
      have htext : t.text = String.ofList w := congrArg Prod.snd hface
      exact ⟨t, line', hscan, other_of_face hface (by simpa using word), by simp [hspacing, htext]⟩
  | @comma cs more ih =>
      change Closes numbering file ([','] ++ cs) rest
      refine Closes.cons (fun line => ?_) (ih rest)
      obtain ⟨t, line', hscan, hmark, hspacing⟩ :=
        Token.exists_scan_mark numbering file rfl (Or.inl rfl) (Lexeme.read_comma _) line
      exact ⟨t, line', hscan, other_of_isMark hmark (by simp) (by simp),
        by simp [hspacing, hmark.2]⟩
  | @colons cs more ih =>
      change Closes numbering file ([':', ':'] ++ cs) rest
      refine Closes.cons (fun line => ?_) (ih rest)
      obtain ⟨t, line', hscan, hmark, hspacing⟩ :=
        Token.exists_scan_mark numbering file rfl (Or.inr rfl) (Lexeme.read_colons _) line
      exact ⟨t, line', hscan, other_of_isMark hmark (by simp) (by simp),
        by simp [hspacing, hmark.2]⟩
  | list apart inside more ihinside ihmore =>
      exact (ihinside _).list apart inside.head_ne (ihmore rest)

/-! ## Segments -/

/-- The tokens of a segment: the name and the list of its arguments, if there is one. -/
structure Shows (s w : String) (t : Token) (list : List Token) : Prop where
  name : IsName w
  face : t.face = (Token.wordKind w, w)
  spacing : t.spacing = ""
  spelled : spelled (t :: list) = s.toList
  list : list = [] ∨ ∃ (opening : Token) (inner : List Token) (closing : Token),
    list = opening :: (inner ++ [closing]) ∧
      opening.IsMark "<" ∧ closing.IsMark ">" ∧ Name.Balanced inner

/-- A segment is read as its name and the list behind it. -/
theorem IsSegment.exists_scan (numbering : Token.Numbering) (file : Option String)
    (h : IsSegment s) (hrest : ∀ c ∈ rest.head?, Text.isWordChar c = false) (line : Nat) :
    ∃ w t list line', Token.scan numbering file line (s.toList ++ rest) =
      t :: (list ++ Token.scan numbering file line' rest) ∧ Shows s w t list := by
  cases h with
  | plain name =>
      obtain ⟨t, line', hscan, hface, hspacing⟩ :=
        Token.exists_scan_word numbering file name.word hrest line
      rw [String.ofList_toList] at hface
      have htext : t.text = s := congrArg Prod.snd hface
      exact ⟨s, t, [], line', hscan, name, hface, hspacing, by simp [hspacing, htext], Or.inl rfl⟩
  | @template w inner name apart inside =>
      have hsplit : (w ++ "<" ++ inner ++ ">").toList ++ rest =
          w.toList ++ '<' :: (inner.toList ++ '>' :: rest) := by simp
      have hmark : ∀ c ∈ ('<' :: (inner.toList ++ '>' :: rest)).head?,
          Text.isWordChar c = false := by
        intro c hc
        cases hc
        decide +kernel
      have hhead (c : Char) (hne : c ≠ '>') (hc : inner.toList.head? ≠ some c) :
          (inner.toList ++ '>' :: rest).head? ≠ some c := by
        cases hinner : inner.toList with
        | nil => simpa using hne.symm
        | cons d inner => simpa [hinner] using hc
      obtain ⟨t, line₁, hword, hface, hspacing⟩ :=
        Token.exists_scan_word numbering file name.word hmark line
      obtain ⟨opening, line₂, hopens, hopening, hspacing'⟩ :=
        Token.exists_scan_mark numbering file rfl (Or.inl rfl)
        (Lexeme.read_opening (hhead '<' (by decide) apart)
          (hhead '=' (by decide) inside.head_ne)) line₁
      obtain ⟨ts, closing, line', hscan, hbalanced, hclosing, hspelled⟩ :=
        inside.closes numbering file rest line₂
      rw [String.ofList_toList] at hface
      have htext : t.text = w := congrArg Prod.snd hface
      refine ⟨w, t, opening :: (ts ++ [closing]), line', ?_, name, hface, hspacing, ?_,
        Or.inr ⟨opening, ts, closing, rfl, hopening, hclosing, hbalanced⟩⟩
      · rw [hsplit, hword, hopens, hscan]
        simp
      · rw [spelled_cons, spelled_cons, hspelled]
        simp [hspacing, hspacing', htext, hopening.2]

variable {list : List Token}

theorem Shows.text (h : Shows s w t list) : t.text = w :=
  congrArg Prod.snd h.face

theorem Shows.other (h : Shows s w t list) :
    t.isComment = false ∧ t.is "<" = false ∧ t.is ">" = false :=
  other_of_face h.face h.name.word

theorem Shows.balanced (h : Shows s w t list) : Name.Balanced (t :: list) := by
  obtain ⟨hvisible, hopens, hcloses⟩ := h.other
  refine .cons hvisible hopens hcloses ?_
  obtain rfl | ⟨opening, inner, closing, rfl, ho, hc, hbalanced⟩ := h.list
  · exact .nil
  · exact .list ho hc hbalanced .nil

/-- Only `const` is read as such. -/
theorem unconst_of_face (hface : t.face = (Token.wordKind w, w)) (hw : w ≠ "const") :
    t.isKeyword .const_ = false := by
  have hkind : t.kind = Token.wordKind w := congrArg Prod.fst hface
  rw [Token.isKeyword, hkind, Token.wordKind]
  cases hword : Keyword.ofWord? w with
  | none => rfl
  | some word =>
      refine beq_false_of_ne fun heq => hw ?_
      obtain rfl : word = .const_ := by simpa using heq
      obtain ⟨before, behind, hall, -⟩ := List.lookup_eq_some_iff.mp hword
      have hmem : (w, Keyword.const_) ∈ Keyword.spellings := by simp [hall]
      simpa [Keyword.spellings] using hmem

/-- What a path starts with: a word right at the start, no fundamental one and not `const`. -/
structure Starts (t : Token) : Prop where
  spacing : t.spacing = ""
  word : Text.isWord t.text.toList = true
  other : t.text ∉ Name.fundamentalWords
  unconst : t.isKeyword .const_ = false

theorem Shows.starts (h : Shows s w t list) : Starts t where
  spacing := h.spacing
  word := h.text ▸ h.name.word
  other := h.text ▸ h.name.other
  unconst := unconst_of_face h.face h.name.unconst

/-- The text of the segments of a path up to the last. -/
def front (segments : List String) : List Char :=
  segments.flatMap fun s => s.toList ++ [':', ':']

theorem exists_scan_front (numbering : Token.Numbering) (file : Option String) {segments : List String} (h : ∀ s ∈ segments, IsSegment s) (line : Nat)
    (rest : List Char) : ∃ ts line', Token.scan numbering file line (front segments ++ rest) =
      ts ++ Token.scan numbering file line' rest ∧ Name.Balanced ts ∧
      spelled ts = front segments ∧ ∀ t ∈ ts.head?, Starts t := by
  induction segments generalizing line with
  | nil => exact ⟨[], line, rfl, .nil, rfl, by simp⟩
  | cons s segments ih =>
      have hsplit : front (s :: segments) ++ rest =
          s.toList ++ ':' :: ':' :: (front segments ++ rest) := by simp [front]
      have hmark : ∀ c ∈ (':' :: ':' :: (front segments ++ rest)).head?,
          Text.isWordChar c = false := by
        intro c hc
        cases hc
        decide +kernel
      obtain ⟨w, t, list, line₁, hsegment, hshows⟩ :=
        (h s List.mem_cons_self).exists_scan numbering file hmark line
      obtain ⟨colons, line₂, hcolons, hcolon, hspacing⟩ :=
        Token.exists_scan_mark numbering file rfl (Or.inr rfl)
        (Lexeme.read_colons (front segments ++ rest)) line₁
      obtain ⟨ts, line', hscan, hbalanced, hspelled, -⟩ :=
        ih (fun s hs => h s (List.mem_cons_of_mem _ hs)) line₂
      obtain ⟨hvisible, hopens, hcloses⟩ := other_of_isMark hcolon (by simp) (by simp)
      refine ⟨t :: list ++ colons :: ts, line', ?_,
        hshows.balanced.append (.cons hvisible hopens hcloses hbalanced), ?_, ?_⟩
      · rw [hsplit, hsegment, hcolons, hscan]
        simp
      · rw [spelled_append, hshows.spelled, spelled_cons, hspelled, hspacing, hcolon.2]
        simp [front]
      · rintro _ ⟨⟩
        exact hshows.starts

/-! ## The path around -/

theorem parts_of_starts (h : Starts t) : Name.parts (t :: ts) = ⟨false, [], t :: ts⟩ := by
  have hother : Name.fundamentalWords.contains t.text = false := by simpa using h.other
  rw [Name.parts, h.unconst, hother]
  rfl

theorem spell_of_spacing (h : t.spacing = "") :
    (Name.spell (t :: ts)).toList = spelled (t :: ts) := by
  have hjoin : ∀ ts : List Token, (String.join (ts.map Token.spaced)).toList = spelled ts := by
    intro ts
    induction ts with
    | nil => rfl
    | cons u ts ih => simp [String.join_cons, ih, Token.spaced]
  rw [Name.spell, String.toList_append, hjoin, spelled_cons, h]
  rfl

theorem not_mem_segment (h : IsSegment s) : '\r' ∉ s.toList := by
  have hword {w : String} (hw : Text.isWord w.toList = true) : '\r' ∉ w.toList := by
    intro hmem
    have hchar := Text.isWordChar_of_isWord hw _ hmem
    have hbreak : Text.isWordChar '\r' = false := by decide +kernel
    rw [hbreak] at hchar
    cases hchar
  have harguments {cs : List Char} (hcs : Arguments cs) : '\r' ∉ cs := by
    induction hcs with
    | nil => simp
    | blank blank unbroken more ih => simpa using ⟨unbroken.symm, ih⟩
    | @word w cs word ends more ih =>
        have hw := hword (w := String.ofList w) (by simpa using word)
        rw [String.toList_ofList] at hw
        simpa using ⟨hw, ih⟩
    | comma more ih => simpa using ih
    | colons more ih => simpa using ih
    | list apart inside more ihinside ihmore => simpa using ⟨ihinside, ihmore⟩
  cases h with
  | plain name => exact hword name.word
  | @template w inner name apart inside => simpa using ⟨hword name.word, harguments inside⟩

/-- The tokens of a path whose last name is `w`: those up to its last segment, and those of that. -/
structure PathTokens (segments : List String) (s w : String) (fs : List Token) (t : Token)
    (list : List Token) : Prop where
  balanced : Name.Balanced fs
  spelled : spelled fs = front segments
  last : Shows s w t list
  starts : ∀ u ∈ (fs ++ [t]).head?, Starts u

variable {segments : List String} {fs : List Token}

/-- The text of a path. -/
def pathText (segments : List String) (s : String) : String :=
  String.ofList (front segments ++ s.toList)

theorem exists_pathTokens (h : ∀ s ∈ segments, IsSegment s) (hs : IsSegment s) :
    ∃ w fs t list, Name.tokens (pathText segments s) = fs ++ t :: list ∧
      PathTokens segments s w fs t list := by
  have hunbroken : '\r' ∉ front segments ++ s.toList := by
    have hfront : '\r' ∉ front segments := by
      intro hmem
      obtain ⟨s', hs', hmem⟩ := List.mem_flatMap.mp hmem
      exact not_mem_segment (h s' hs') (by simpa using hmem)
    simpa using ⟨hfront, not_mem_segment hs⟩
  have hnothing : ∀ c ∈ ([] : List Char).head?, Text.isWordChar c = false := by simp
  obtain ⟨fs, line', hscan, hbalanced, hspelled, hstarts⟩ :=
    exists_scan_front .counted none h 1 (s.toList ++ [])
  obtain ⟨w, t, list, line'', hscan', hshows⟩ := hs.exists_scan .counted none hnothing line'
  rw [hscan', Token.scan_nil, List.append_nil, List.append_nil] at hscan
  refine ⟨w, fs, t, list, ?_, hbalanced, hspelled, hshows, ?_⟩
  · rw [Name.tokens, Token.ofText, pathText, String.toList_ofList,
      Text.unifyBreaks_of_not_mem hunbroken, hscan]
    exact List.filter_eq_self.mpr fun u hu => by
      simpa using (hbalanced.append hshows.balanced).visible u hu
  · cases fs with
    | nil =>
        rintro _ ⟨⟩
        exact hshows.starts
    | cons u fs => exact hstarts

namespace PathTokens

variable (h : PathTokens segments s w fs t list)
include h

theorem exists_cons : ∃ u us, fs ++ [t] = u :: us ∧ Starts u := by
  cases hkept : fs ++ [t] with
  | nil => simp at hkept
  | cons u us => exact ⟨u, us, rfl, h.starts u (by rw [hkept]; rfl)⟩

theorem spelled_kept : Scope.spelled (fs ++ [t]) = front segments ++ w.toList := by
  rw [spelled_append, h.spelled, spelled_cons, h.last.spacing, h.last.text]
  simp

/-- White space neither starts nor ends a path up to its last name. -/
theorem trim_kept : Text.trim (pathText segments w) = pathText segments w := by
  have hlast := Text.tidy_of_isWord h.last.name.word
  refine Text.trim_of_ends ?_ ?_
  · obtain ⟨u, us, hkept, hu⟩ := h.exists_cons
    have hfirst := Text.tidy_of_isWord hu.word
    have htext := h.spelled_kept
    rw [hkept, spelled_cons, hu.spacing] at htext
    rw [pathText, String.toList_ofList, ← htext]
    obtain ⟨c, cs, hcs⟩ := List.exists_cons_of_ne_nil hfirst.nonempty
    simpa [hcs] using hfirst.head
  · rw [pathText, String.toList_ofList, List.getLast?_append,
      List.getLast?_eq_some_getLast hlast.nonempty]
    simpa [List.getLast?_eq_some_getLast hlast.nonempty] using hlast.last

/-- A list at the end is left out. -/
theorem spelling_eq : Name.spelling (pathText segments s) (Name.parts (fs ++ t :: list)) true =
    pathText segments w := by
  obtain ⟨u, us, hkept, hu⟩ := h.exists_cons
  have htokens : fs ++ t :: list = u :: (us ++ list) := by
    rw [← List.cons_append, ← hkept, List.append_assoc, List.singleton_append]
  have hsplit : u :: (us ++ list) = fs ++ [t] ++ list := by rw [hkept, List.cons_append]
  rw [htokens, parts_of_starts hu, Name.spelling]
  simp only [List.isEmpty_cons, Bool.false_and, Bool.not_false, Bool.and_true,
    Bool.false_eq_true, if_false, if_true, List.nil_append]
  rw [hsplit]
  obtain hnil | ⟨opening, inner, closing, rfl, ho, hc, hbalanced⟩ := h.last.list
  · have hname : s = w := by
      have hspelled := h.last.spelled
      rw [hnil, spelled_cons, h.last.spacing, h.last.text] at hspelled
      exact String.toList_inj.mp (by simpa using hspelled.symm)
    obtain ⟨-, hopens, hcloses⟩ := h.last.other
    rw [hnil, List.append_nil, Name.argumentsStart?_of_word h.balanced hopens hcloses, hname]
  · obtain ⟨hvisible, hopens, hcloses⟩ := h.last.other
    rw [Name.argumentsStart?_of_list (h.balanced.append (.cons hvisible hopens hcloses .nil)) ho hc
      hbalanced]
    refine String.toList_inj.mp ?_
    simp only [List.take_left, String.toList_append]
    rw [hkept, spell_of_spacing hu.spacing, ← hkept, h.spelled_kept, pathText]
    simp

end PathTokens

/-- **The key of a path** leaves the arguments of its last name out. -/
theorem exists_normalize_path (h : ∀ s ∈ segments, IsSegment s) (hs : IsSegment s) :
    ∃ w, IsName w ∧ Name.normalize (pathText segments s) false true = pathText segments w := by
  obtain ⟨w, fs, t, list, htokens, hpath⟩ := exists_pathTokens h hs
  have hne : (pathText segments s).isEmpty = false := by
    rw [Bool.eq_false_iff]
    intro hempty
    rw [String.isEmpty_iff.mp hempty] at htokens
    simp [Name.tokens, Token.ofText, Text.unifyBreaks, Token.scan_nil] at htokens
  refine ⟨w, hpath.last.name, ?_⟩
  rw [Name.normalize, hne, htokens]
  simp only [Bool.false_eq_true, if_false, Bool.false_and]
  rw [hpath.spelling_eq, hpath.trim_kept]

theorem joinWith_append (segments : List String) (s : String) :
    Text.joinWith "::" (segments ++ [s]) = pathText segments s := by
  induction segments with
  | nil => simp [Text.joinWith, pathText, front]
  | cons r segments ih =>
      have hjoin : Text.joinWith "::" (r :: (segments ++ [s])) =
          r ++ "::" ++ Text.joinWith "::" (segments ++ [s]) := by
        obtain ⟨v, vs, hvs⟩ := List.exists_cons_of_ne_nil (l := segments ++ [s]) (by simp)
        simp [hvs, Text.joinWith, String.intercalate_cons_cons]
      rw [List.cons_append, hjoin, ih, ← String.toList_inj]
      simp [pathText, front]

theorem IsName.colon_not_mem (name : IsName w) : ':' ∉ w.toList := by
  intro hmem
  have hchar := Text.isWordChar_of_isWord name.word _ hmem
  have hother : Text.isWordChar ':' = false := by decide +kernel
  rw [hother] at hchar
  cases hchar

/-- Behind the last `::` of a path stands its last name. -/
theorem isLastCut_of_isName (name : IsName w) (around : String) :
    Text.IsLastCut "::" (around ++ "::" ++ w) around w where
  eq := rfl
  last := by
    intro b a h
    have hlists : (around.toList ++ [':', ':']) ++ w.toList =
        (b.toList ++ [':']) ++ ':' :: a.toList := by
      have h' := String.toList_inj.mpr h
      simpa using h'
    rw [← String.length_toList, ← String.length_toList]
    rcases List.append_eq_append_iff.mp hlists with ⟨more, -, hw⟩ | ⟨more, -, ha⟩
    · exact absurd (by simp [hw]) name.colon_not_mem
    · cases more with
      | nil => exact absurd (by rw [List.nil_append] at ha; simp [← ha]) name.colon_not_mem
      | cons d more =>
          obtain ⟨-, ha⟩ := List.cons.inj ha
          rw [ha]
          exact (List.suffix_append more w.toList).length_le

/-- **The path around** a path is that of its segments before the last. -/
theorem outer?_join (h : ∀ s ∈ segments, IsSegment s) (hs : IsSegment s) :
    outer? (Text.joinWith "::" (segments ++ [s])) = some (Text.joinWith "::" segments) := by
  obtain ⟨w, name, hplain⟩ := exists_normalize_path h hs
  rw [joinWith_append, outer?]
  simp only [hplain]
  rcases List.eq_nil_or_concat' segments with rfl | ⟨init, r, rfl⟩
  · have hpath : pathText [] w = w := by simp [pathText, front]
    have hnone : Text.cutLast? "::" w = none :=
      Text.cutLast?_eq_none (by simp) fun hpart => name.colon_not_mem (hpart.subset (by decide))
    have hne : w.isEmpty = false := by
      rw [Bool.eq_false_iff]
      intro hempty
      have hword := name.word
      rw [String.isEmpty_iff.mp hempty] at hword
      cases hword
    rw [hpath, hnone]
    simp [hne, Text.joinWith]
  · have hpath : pathText (init ++ [r]) w = Text.joinWith "::" (init ++ [r]) ++ "::" ++ w := by
      rw [joinWith_append, ← String.toList_inj]
      simp [pathText, front]
    have hcut := (Text.cutLast?_eq_some_iff (by simp)).mpr
      (isLastCut_of_isName name (Text.joinWith "::" (init ++ [r])))
    rw [hpath, hcut]

theorem Walk.eq {path : String} {paths paths' : List String} (h : Walk path paths)
    (h' : Walk path paths') : paths = paths' := by
  induction h generalizing paths' with
  | last hlast =>
      cases h' with
      | last => rfl
      | step hstep more => rw [hlast] at hstep; cases hstep
  | step hstep more ih =>
      cases h' with
      | last hlast => rw [hlast] at hstep; cases hstep
      | step hstep' more' =>
          obtain rfl := Option.some.inj (hstep.symm.trans hstep')
          rw [ih more']

/-- The paths outwards are those of the first segments, fewer and fewer of them. -/
theorem walk_join (h : ∀ s ∈ segments, IsSegment s) :
    Walk (Text.joinWith "::" segments) (segments.inits.reverse.map (Text.joinWith "::")) := by
  induction segments using List.reverseRecOn with
  | nil => exact .last (by decide +kernel)
  | append_singleton segments s ih =>
      have hmore := ih fun r hr => h r (List.mem_append_left _ hr)
      have hstep := outer?_join (fun r hr => h r (List.mem_append_left _ hr)) (h s (by simp))
      have hinits : (segments ++ [s]).inits.reverse =
          (segments ++ [s]) :: segments.inits.reverse := by simp [List.inits_append]
      rw [hinits, List.map_cons]
      exact .step hstep hmore

/-! ## What a name may refer to -/

/-- What a `using` makes of a name, if it could bring it in. -/
def brought? (name used : String) : Option String :=
  match Text.cutLast? "::" used with
  | some (around, last) =>
    if last.isEmpty || last == Name.normalize name false true then some (around ++ "::" ++ name)
    else none
  | none => none

theorem brought?_eq_some_iff {name used full : String} : brought? name used = some full ↔
    ∃ around last, Text.IsLastCut "::" used around last ∧
      (last = "" ∨ last = Name.normalize name false true) ∧ full = around ++ "::" ++ name := by
  have hcut (around last : String) :
      Text.cutLast? "::" used = some (around, last) ↔ Text.IsLastCut "::" used around last :=
    Text.cutLast?_eq_some_iff (by simp)
  simp only [← hcut, brought?]
  constructor
  · intro h
    split at h
    next around last heq =>
      split at h
      next hlast =>
        cases h
        exact ⟨around, last, heq, by simpa using hlast, rfl⟩
      · cases h
    · cases h
  · rintro ⟨around, last, heq, hlast, rfl⟩
    rw [heq]
    exact if_pos (by simpa using hlast)

theorem IsSegment.ne_empty (h : IsSegment s) : s ≠ "" := by
  cases h with
  | plain name =>
      rintro rfl
      cases name.word
  | template name apart inside =>
      intro h
      simpa using String.toList_inj.mpr h

theorem below_join (h : ∀ s ∈ segments, IsSegment s) (name : String) :
    below (Text.joinWith "::" segments) name = Text.joinWith "::" (segments ++ [name]) := by
  rw [joinWith_append]
  rcases List.eq_nil_or_concat' segments with rfl | ⟨init, r, rfl⟩
  · simp [below, Text.joinWith, pathText, front]
  · have hne : Text.joinWith "::" (init ++ [r]) ≠ "" := by
      rw [joinWith_append]
      intro hempty
      have hnil := String.toList_inj.mpr hempty
      exact (h r (by simp)).ne_empty (String.toList_inj.mp (by simp_all [pathText]))
    rw [below, if_neg (by simpa using hne), joinWith_append, ← String.toList_inj]
    simp [pathText, front]

/-- **What a name may refer to.** Every path has a last one around it. In a scope of names with
template arguments, outside of templates, it is the name below each of the scopes outwards, and
then below each `using` that ends in it or in `::`. -/
theorem qualify_segments :
    (∀ path, Walk path (enclosing (2 * path.length + 4) path)) ∧
    ∀ (scope : Scope) (segments : List String) (name : String) (usings : List String),
      (∀ s ∈ segments, IsSegment s) → scope.path.getD "" = Text.joinWith "::" segments →
      scope.template = none → name ≠ "" →
      scope.qualify name usings =
          segments.inits.reverse.map (fun around => Text.joinWith "::" (around ++ [name])) ++
            usings.filterMap (brought? name) ∧
        ∀ used full, brought? name used = some full ↔
          ∃ around last, Text.IsLastCut "::" used around last ∧
            (last = "" ∨ last = Name.normalize name false true) ∧
            full = around ++ "::" ++ name := by
  refine ⟨walk_enclosing, fun scope segments name usings h hpath htemplate hname =>
    ⟨?_, fun used full => brought?_eq_some_iff⟩⟩
  have hpaths := (walk_enclosing (Text.joinWith "::" segments)).eq (walk_join h)
  have hinstance (full : String) : scope.instance? full = none := by
    simp [instance?, htemplate]
  have hbelow : (segments.inits.reverse.map (Text.joinWith "::")).flatMap (fun around =>
      (scope.instance? (below around name)).toList ++ [below around name]) =
        segments.inits.reverse.map fun around => Text.joinWith "::" (around ++ [name]) := by
    simp only [hinstance, Option.toList_none, List.nil_append, ← List.map_eq_flatMap, List.map_map]
    refine List.map_congr_left fun around haround => below_join (fun s hs => h s ?_) name
    exact ((List.mem_inits _ _).mp (List.mem_reverse.mp haround)).subset hs
  have hempty : name.isEmpty = false := by simpa using hname
  rw [qualify, hempty, hpath]
  simp only [Bool.false_eq_true, if_false]
  rw [hpaths, hbelow]
  rfl

/-- `T` in a scope with an argument that is a path itself. -/
theorem qualify_segments_sample :
    (∀ s ∈ ["a", "b<c, d::e<f>>", "g"], IsSegment s) ∧
      ({ path := some "a::b<c, d::e<f>>::g" } : Scope).qualify "T" ["std::", "n::T", "n::U"] =
        ["a::b<c, d::e<f>>::g::T", "a::b<c, d::e<f>>::T", "a::T", "T", "std::T", "n::T"] := by
  have hname : ∀ w ∈ ["a", "b", "g"], IsName w := by
    have hall : ∀ w ∈ ["a", "b", "g"], Text.isWord w.toList = true ∧
        w ∉ Name.fundamentalWords ∧ w ≠ "const" := by decide +kernel
    exact fun w hw => ⟨(hall w hw).1, (hall w hw).2.1, (hall w hw).2.2⟩
  have hword : ∀ w ∈ [['c'], ['d'], ['e'], ['f']], Text.isWord w = true := by decide +kernel
  have hinner : Arguments "c, d::e<f>".toList := by
    have hf : Arguments (['f'] ++ []) := .word (hword _ (by simp)) (by simp) .nil
    have he : Arguments (['e'] ++ '<' :: ((['f'] ++ []) ++ '>' :: [])) :=
      .word (hword _ (by simp)) (by simp; decide +kernel) (.list (by decide) hf .nil)
    have hd : Arguments (['d'] ++ ':' :: ':' :: _) :=
      .word (hword _ (by simp)) (by simp; decide +kernel) (.colons he)
    exact .word (w := ['c']) (hword _ (by simp)) (by simp; decide +kernel)
      (.comma (.blank (by decide +kernel) (by decide) hd))
  have hsegments : ∀ s ∈ ["a", "b<c, d::e<f>>", "g"], IsSegment s := by
    intro s hs
    simp only [List.mem_cons, List.not_mem_nil, or_false] at hs
    rcases hs with rfl | rfl | rfl
    · exact .plain (hname _ (by simp))
    · have htemplate : IsSegment ("b" ++ "<" ++ "c, d::e<f>" ++ ">") :=
        .template (hname _ (by simp)) (by simp) hinner
      exact htemplate
    · exact .plain (hname _ (by simp))
  refine ⟨hsegments, ?_⟩
  have hqualify := (qualify_segments.2 { path := some "a::b<c, d::e<f>>::g" }
    ["a", "b<c, d::e<f>>", "g"] "T" ["std::", "n::T", "n::U"] hsegments (by decide) rfl
    (by decide)).1
  rw [hqualify]
  decide +kernel

/-- Two `<` that touch are one operator, so that a list behind one is not left out but cut at a
`::` inside it; and only the text behind the last `::` of a `using` counts. -/
theorem touching_list_is_cut :
    ({ path := some "a<<b::c>>::d" } : Scope).qualify "T" [] =
        ["a<<b::c>>::d::T", "a<<b::c>>::T", "a<<b::T", "T"] ∧
      ({ path := some "a<<b::c>>::d" } : Scope).qualify "T" [] ≠
        ["a<<b::c>>::d::T", "a<<b::c>>::T", "T"] ∧
      ({} : Scope).qualify "p::q" ["x::p::q"] = ["p::q"] ∧
      ({} : Scope).qualify "p::q" ["x::p::q"] ≠ ["p::q", "x::p::q"] := by
  decide +kernel

end Scope

end HeaderPeers

import HeaderPeers.Proofs.Constant.Types
import HeaderPeers.Proofs.Instances

/-!
# Headers of constants

A header that holds nothing but lines that define constants is read line after
line, and what the table says of the names afterwards is what the values say.

- `ConstantLines` — the tokens of such a header.
- `Statement.readAll_infers` — the main statement.
-/

namespace HeaderPeers

open ReadM

/-! ## Comments in front of a line -/

/-- A comment that does not look like the mark of a directive. -/
def Token.IsRemark (t : Token) : Prop :=
  t.isComment = true ∧ t.is "#" = false

section Gap

variable {s : Reading} {gap us : List Token} {line : ConstantLine} {rest : List Token}

theorem Window.seek_of_remarks {tokens : Array Token} {i : Nat}
    (h : tokens.toList.drop i = gap ++ us) (hgap : ∀ t ∈ gap, t.IsRemark) (table : RuleTable)
    (fuel : Nat) : seek table (gap.length + fuel) tokens i 0 =
      seek table fuel tokens (i + gap.length) 0 := by
  induction gap generalizing i with
  | nil => rw [List.length_nil, Nat.zero_add, Nat.add_zero]
  | cons t gap ih =>
      obtain ⟨hcomment, hmark⟩ := hgap t List.mem_cons_self
      have here : tokens[i]? = some t := by
        rw [← Array.getElem?_toList, ← List.head?_drop, h]
        rfl
      obtain ⟨hlt, -⟩ := Array.getElem?_eq_some_iff.mp here
      have hbehind : tokens.toList.drop (i + 1) = gap ++ us := by
        simpa [List.drop_drop] using congrArg List.tail h
      rw [List.length_cons, Nat.add_right_comm, seek]
      simp only [if_pos hlt, visit_of_comment here hcomment hmark, here, hcomment, if_true]
      rw [ih hbehind fun u hu => hgap u (List.mem_cons_of_mem _ hu), Nat.add_right_comm,
        Nat.add_assoc i]

/-- Looking for a line behind comments finds its mark and changes nothing. -/
theorem ReadM.peek_line (hraw : s.window.raw = false)
    (h : s.ahead = gap ++ (line.tokens ++ rest)) (hgap : ∀ t ∈ gap, t.IsRemark)
    (hrest : ∀ t ∈ rest.head?, Conditional.startsLine t = true) :
    peek s = .ok line.mark s := by
  have hline := Reading.ahead_add h
  have hsize := Reading.length_ahead h (by simp [ConstantLine.tokens])
  have hfuel : s.bound = gap.length + (s.bound - gap.length) ∧ 0 < s.bound - gap.length := by
    simp only [List.length_append, ConstantLine.tokens, List.length_cons] at hsize
    simp only [Reading.bound, Window.size]
    omega
  have hseek := Directive.seek_mark (ConstantLine.lineAt hline hrest) rfl hfuel.2
  have hmark := Reading.tokenAt_of_ahead hline (n := 0) rfl
  have hfound : Window.seek s.table s.bound s.window.tokens s.window.index 0 =
      some (s.window.tokens, s.window.index + gap.length) := by
    rw [hfuel.1, Window.seek_of_remarks h hgap]
    exact hseek
  have hget : s.window.get s.bound s.table 0 = some (line.mark, s.window) := by
    have hthere : Window.tokenAt s.window.tokens (s.window.index + gap.length) = line.mark := hmark
    simp only [Window.get, Window.position, hraw, Bool.false_eq_true, if_false, Int.toNat_zero,
      hfound, Option.map_some, hthere]
    rw [← hraw]
  simp only [peek, peekAt, hget]

/-- The comments around the cursor are taken up to what is no comment. -/
theorem Comment.takeRun_of_ahead (h : s.ahead = gap ++ us)
    (hgap : ∀ t ∈ gap, t.isComment = true) (hus : ∀ t ∈ us.head?, t.isComment = false) :
    ∃ run, takeRun s = .ok run (s.atIndex (s.window.index + gap.length)) := by
  obtain ⟨hstart, hbefore⟩ := comments_runStart s.window.tokens s.window.index
  generalize hfirst : runStart s.window.tokens s.window.index = start at hstart hbefore
  obtain ⟨hrun, hend⟩ := comments_runFrom s.window.tokens start
  generalize hcomments : runFrom s.window.tokens start = run at hrun hend
  have hinside (j : Nat) (hj : s.window.index ≤ j) (hlt : j < s.window.index + gap.length) :
      Window.CommentAt s.window.tokens j := by
    obtain ⟨k, rfl⟩ := Nat.exists_eq_add_of_le hj
    have hk : k < gap.length := by omega
    rw [Window.CommentAt, Reading.getElem?_of_ahead h, List.getElem?_append_left hk,
      List.getElem?_eq_getElem hk]
    exact hgap _ (List.getElem_mem hk)
  have hstop : ¬ Window.CommentAt s.window.tokens (s.window.index + gap.length) := by
    rw [Window.CommentAt, Reading.getElem?_of_ahead h,
      List.getElem?_append_right (Nat.le_refl _), Nat.sub_self, ← List.head?_eq_getElem?]
    cases hhead : us.head? with
    | none => simp
    | some t => simp [hus t hhead]
  have hbehind : start + run.length = s.window.index + gap.length := by
    refine Nat.le_antisymm (Nat.le_of_not_lt fun hlt => hstop ?_) (Nat.le_of_not_lt fun hlt =>
      hend ?_)
    · exact hrun _ (Nat.le_trans hstart (Nat.le_add_right _ _)) hlt
    · by_cases hindex : start + run.length < s.window.index
      · exact hbefore _ (Nat.le_add_right _ _) hindex
      · exact hinside _ (Nat.le_of_not_lt hindex) hlt
  refine ⟨run, ?_⟩
  rw [← hbehind, ← hcomments, ← hfirst]
  rfl

end Gap

namespace ConstantLine

variable {line : ConstantLine} {s : Reading} {rest : List Token}

theorem mark_kind (line : ConstantLine) : line.mark.kind = .punct ∧ line.mark.text = "#" := by
  simpa using line.isMark

/-- Behind the line and the comments that follow it. -/
theorem behind_ahead (h : s.ahead = line.tokens ++ rest) :
    (line.behind rest s).ahead = rest.dropWhile Token.isComment := by
  have hall := List.takeWhile_append_dropWhile (p := Token.isComment) (l := line.remarks ++ rest)
  rw [List.dropWhile_append_of_pos line.hidden] at hall
  have hsplit : line.tokens ++ rest = (line.mark :: line.word :: line.name ::
      (line.value ++ line.comments rest)) ++ rest.dropWhile Token.isComment := by
    simp only [tokens, comments, List.cons_append, List.append_assoc, hall]
  have hahead := Reading.ahead_add (h.trans hsplit)
  have hindex : (line.mark :: line.word :: line.name ::
      (line.value ++ line.comments rest)).length =
        3 + line.value.length + (line.comments rest).length := by
    simp only [List.length_cons, List.length_append]
    omega
  rw [hindex, ← Nat.add_assoc, ← Nat.add_assoc] at hahead
  exact hahead

/-- What the line prints leaves the statement as it is. -/
theorem behind_statement (line : ConstantLine) (rest : List Token) (s : Reading) :
    (line.behind rest s).outline.statement = s.outline.statement :=
  Outline.add_statement_of_not_isTyped _ _ rfl

/-- The line of these tokens, if they are one. -/
def ofTokens? (mark word name : Token) (value remarks : List Token) : Option ConstantLine :=
  if h : ((mark.kind == .punct && mark.text == "#") && word.isKeyword .define_ && name.isWord &&
      Text.isWord name.text.toList) = true ∧
    (∀ t ∈ name :: (value ++ remarks), Conditional.startsLine t = false) ∧
    (∀ t ∈ value, t.isEof = false) ∧ (∀ t ∈ remarks, t.isComment = true) ∧
    value.getLast?.any (!·.isComment) = true ∧
    ∀ t ∈ value.head?, (t.spacing.isEmpty && t.is "(") = false
  then some
    { mark, word, name, value, remarks
      isMark := by simp_all
      isDefine := by simp_all
      isName := by simp_all
      named := by simp_all
      oneLine := h.2.1
      ongoing := h.2.2.1
      hidden := h.2.2.2.1
      closed := h.2.2.2.2.1
      apart := h.2.2.2.2.2 }
  else none

end ConstantLine

/-! ## Headers -/

/-- The tokens of lines that define constants, with comments in front of each and behind the last.
-/
inductive ConstantLines : List Token → List ConstantLine → Prop
  | done {gap : List Token} (remarks : ∀ t ∈ gap, t.IsRemark) : ConstantLines gap []
  | line {gap rest : List Token} {lines : List ConstantLine} (line : ConstantLine)
      (remarks : ∀ t ∈ gap, t.IsRemark)
      (words : ∀ t ∈ line.value, t.isIdentifier = true → Text.isWord t.text.toList = true)
      (starts : ∀ t ∈ rest.head?, Conditional.startsLine t = true)
      (more : ConstantLines rest lines) :
      ConstantLines (gap ++ (line.tokens ++ rest)) (line :: lines)

namespace ConstantLines

variable {ts : List Token} {line : ConstantLine} {lines : List ConstantLine}

theorem dropWhile (h : ConstantLines ts lines) :
    ConstantLines (ts.dropWhile Token.isComment) lines := by
  cases h with
  | @done gap remarks =>
      rw [List.dropWhile_eq_nil_iff.mpr fun t ht => (remarks t ht).1]
      exact .done (by simp)
  | @line gap rest lines line remarks words starts more =>
      have hmark : line.mark.isComment = false := by simp [Token.isComment, line.mark_kind.1]
      rw [List.dropWhile_append_of_pos fun t ht => (remarks t ht).1, ConstantLine.tokens,
        List.cons_append, List.dropWhile_cons_of_neg (by simp [hmark])]
      have hnone : ∀ t ∈ ([] : List Token), t.IsRemark := by simp
      exact .line line hnone words starts more

theorem length_le (h : ConstantLines ts lines) : lines.length ≤ ts.length := by
  induction h with
  | done => exact Nat.zero_le _
  | line line remarks words starts more ih =>
      simp only [ConstantLine.tokens, List.length_append, List.length_cons]
      omega

theorem isWord_of_mem (h : ConstantLines ts lines) (hline : line ∈ lines) :
    ∀ t ∈ line.value, t.isIdentifier = true → Text.isWord t.text.toList = true := by
  induction h with
  | done => cases hline
  | line first remarks words starts more ih =>
      rcases List.mem_cons.mp hline with rfl | hmore
      · exact words
      · exact ih hmore

end ConstantLines

/-- Such lines are in front of the cursor, and comments are not visible. -/
structure Reading.AtLines (lines : List ConstantLine) (s : Reading) : Prop where
  cooked : s.window.raw = false
  fueled : 0 < s.fuel
  inside : s.window.index ≤ s.window.tokens.size
  ahead : ConstantLines s.ahead lines

theorem ConstantLine.behind_atLines {line : ConstantLine} {lines : List ConstantLine} {s : Reading}
    {rest : List Token} (hraw : s.window.raw = false) (hfuel : 0 < s.fuel)
    (h : s.ahead = line.tokens ++ rest) (more : ConstantLines rest lines) :
    (line.behind rest s).AtLines lines := by
  refine ⟨hraw, hfuel, ?_, behind_ahead h ▸ more.dropWhile⟩
  have hsize := Reading.length_ahead h (by simp [tokens])
  have htaken := (List.takeWhile_prefix (p := Token.isComment) (l := line.remarks ++ rest)).length_le
  have hindex : (line.behind rest s).window.index =
      s.window.index + 3 + line.value.length + (line.comments rest).length := rfl
  have hsame : (line.behind rest s).window.tokens = s.window.tokens := rfl
  rw [hindex, hsame, hsize]
  simp only [tokens, comments, List.length_append, List.length_cons] at htaken ⊢
  omega

namespace Statement

variable {readScope : Class.ScopeReader} {scope : Scope} {s : Reading} {line : ConstantLine}
  {lines : List ConstantLine}

/-- In front of such lines a token is seen that ends no statement, and it is the end of the input
exactly behind the last. -/
theorem peek_lines (h : s.AtLines lines) :
    ∃ t, peek s = .ok t s ∧ t.is ";" = false ∧ t.is "\x7d" = false ∧
      t.isAnyKeyword [.private_, .protected_, .public_] = false ∧ t.isEof = lines.isEmpty := by
  obtain ⟨hraw, hfuel, hinside, hahead⟩ := h
  generalize hts : s.ahead = ts at hahead
  cases hahead with
  | @done gap remarks =>
      have hend : (s.window.tokens.toList.drop s.window.index).filter (!·.isComment) = [] := by
        refine List.filter_eq_nil_iff.mpr fun t ht => ?_
        simp [(remarks t (hts ▸ ht)).1]
      have hstill : ∀ t ∈ s.window.tokens.toList.drop s.window.index,
          t.is "#" = false ∧ Expansion.ruleFor? s.table t = none := by
        intro t ht
        obtain ⟨hcomment, hmark⟩ := remarks t (hts ▸ ht)
        have hkind : t.kind = .comment := by simpa [Token.isComment] using hcomment
        exact ⟨hmark, by simp [Expansion.ruleFor?, Token.isWord, hkind]⟩
      have hall := Window.sees_of_still hinside hstill
      rw [hend] at hall
      have hsees : s.Sees [Window.endToken s.window.tokens] := ⟨hraw, hfuel, hinside, hall⟩
      have heof := Window.isEof_endToken s.window.tokens
      have hkind : (Window.endToken s.window.tokens).kind = .eof := by
        simpa [Token.isEof] using heof
      exact ⟨_, peek_of_sees hsees, by simp [Token.is, hkind], by simp [Token.is, hkind],
        by simp [Token.isAnyKeyword, Token.isKeywordWith, hkind], heof⟩
  | @line gap rest lines line remarks words starts more =>
      obtain ⟨hkind, htext⟩ := line.mark_kind
      exact ⟨line.mark, peek_line hraw hts remarks starts, by simp [Token.is, htext],
        by simp [Token.is, htext], by simp [Token.isAnyKeyword, Token.isKeywordWith, hkind],
        by simp [Token.isEof, hkind]⟩

/-- What stands in front of a line is passed, and a statement starts. -/
theorem readOpening_line {gap rest : List Token} (scope : Scope)
    (hraw : s.window.raw = false) (h : s.ahead = gap ++ (line.tokens ++ rest))
    (remarks : ∀ t ∈ gap, t.IsRemark) (hrest : ∀ t ∈ rest.head?, Conditional.startsLine t = true) :
    ∃ outline, readOpening scope s =
      .ok none { s.atIndex (s.window.index + gap.length) with outline } := by
  have hmark : line.mark.isComment = false := by simp [Token.isComment, line.mark_kind.1]
  obtain ⟨run, hrun⟩ := Comment.takeRun_of_ahead h (fun t ht => (remarks t ht).1) fun t ht => by
    obtain rfl := Option.some.inj ht
    exact hmark
  let s₁ := s.atIndex (s.window.index + gap.length)
  have hcomment : Comment.takeBefore s = .ok (Comment.before run) s₁ := by
    unfold Comment.takeBefore
    rw [bind_of_ok hrun]
    rfl
  have hline : s₁.ahead = [] ++ (line.tokens ++ rest) := Reading.ahead_add h
  have hpeek : peek s₁ = .ok line.mark s₁ := peek_line hraw hline (by simp) hrest
  exact readOpening_eq_none scope hcomment hpeek (by simp [Token.isKeyword, line.mark_kind.1])

/-- The only pass over a line. -/
theorem readPass_line {rest : List Token} {start : Nat} {first : Token} (hraw : s.window.raw = false)
    (hfuel : 0 < s.fuel) (h : s.ahead = line.tokens ++ rest)
    (hrest : ∀ t ∈ rest.head?, Conditional.startsLine t = true)
    (more : ConstantLines rest lines) (hrules : s.table.rules line.name.text = [])
    (hstatement : s.outline.statement.instances = none) :
    readPass readScope scope scope none start first s = .ok (.done ()) (line.behind rest s) := by
  have hdirective : attempt (Directive.read scope) s = .ok true (line.behind rest s) := by
    have hcursor : cursor s = .ok s.window.index s := rfl
    unfold attempt
    rw [bind_of_ok hcursor, bind_of_ok (ConstantLine.read_eq hfuel h hrest hrules)]
    rfl
  have hone : readOne readScope scope first s = .ok () (line.behind rest s) := by
    unfold readOne recognizers
    rw [bind_of_ok (tryAll_of_true hdirective)]
    rfl
  have hlines := ConstantLine.behind_atLines hraw hfuel h more
  have hskip : skipSemicolons (line.behind rest s) = .ok () (line.behind rest s) := by
    obtain ⟨t, hpeek, hsemicolon, -⟩ := peek_lines hlines
    exact skipSemicolons_of_not (Nat.lt_of_lt_of_le hfuel (Nat.le_add_right _ _)) hpeek hsemicolon
  have hend : endPass (line.behind rest s) = .ok (.done ()) (line.behind rest s) := by
    have hnone : (line.behind rest s).outline.hasInstances = false := by
      rw [Outline.hasInstances, ConstantLine.behind_statement, hstatement]
      rfl
    have houtline : ReadM.outline (line.behind rest s) =
        .ok (line.behind rest s).outline (line.behind rest s) := rfl
    unfold endPass
    rw [bind_of_ok houtline, hnone]
    rfl
  have hnext : nextPass scope scope none start s = .ok (.read scope) s := rfl
  unfold readPass
  rw [bind_of_ok hnext]
  dsimp only
  rw [bind_of_ok hone, bind_of_ok hskip]
  exact hend

/-- **A statement that is a line.** It is read as far as the next token that is no comment. -/
theorem read_line (readScope : Class.ScopeReader) (scope : Scope) (h : s.AtLines (line :: lines))
    (hrules : s.table.rules line.name.text = []) :
    ∃ s', read readScope scope s = .ok () s' ∧ s'.AtLines lines ∧
      s'.table = s.table.learn line := by
  obtain ⟨hraw, hfuel, -, hahead⟩ := h
  generalize hts : s.ahead = ts at hahead
  obtain _ | @⟨gap, rest, _, _, remarks, words, starts, more⟩ := hahead
  obtain ⟨outline, hopening⟩ := readOpening_line scope hraw hts remarks starts
  have hstatement := readOpening_statement hopening
  let s₁ : Reading := { s.atIndex (s.window.index + gap.length) with outline }
  have hline : s₁.ahead = line.tokens ++ rest := Reading.ahead_add hts
  have hnone : ∀ t ∈ ([] : List Token), t.IsRemark := by simp
  have hpeek : peek s₁ = .ok line.mark s₁ := peek_line hraw hline hnone starts
  have hpass (start : Nat) (first : Token) :
      readPass readScope scope scope none start first s₁ = .ok (.done ()) (line.behind rest s₁) :=
    readPass_line hraw hfuel hline starts more hrules (by rw [hstatement])
  refine ⟨line.behind rest s₁, ?_, ConstantLine.behind_atLines hraw hfuel hline more, rfl⟩
  have hcursor : cursor s₁ = .ok s₁.window.index s₁ := rfl
  rw [read_eq, bind_of_ok hopening]
  unfold readPasses under
  rw [bind_of_ok hcursor, bind_of_ok hpeek]
  dsimp only
  rw [bind_of_ok (hpass _ _)]
  rfl

theorem scopeTurn_line (readScope : Class.ScopeReader) (scope : Scope) (h : s.AtLines (line :: lines))
    (hrules : s.table.rules line.name.text = []) :
    ∃ s', scopeTurn readScope scope s = .ok (.again scope) s' ∧ s'.AtLines lines ∧
      s'.table = s.table.learn line := by
  obtain ⟨t, hpeek, -, hbrace, hlabel, hend⟩ := peek_lines h
  obtain ⟨s', hread, hlines, htable⟩ := read_line readScope scope h hrules
  refine ⟨s', ?_, hlines, htable⟩
  have haccess : readAccess scope t s = .ok scope s :=
    readAccess_of_not_label (Nat.lt_of_lt_of_le h.fueled (Nat.le_add_right _ _)) hlabel
  unfold scopeTurn
  rw [bind_of_ok hpeek, hend, hbrace]
  simp only [List.isEmpty_cons, Bool.or_self, Bool.false_eq_true, if_false]
  rw [bind_of_ok haccess, bind_of_ok hread]
  rfl

theorem scopeTurn_end (scope : Scope) (h : s.AtLines []) :
    scopeTurn readScope scope s = .ok (.done ()) s := by
  obtain ⟨t, hpeek, -, -, -, hend⟩ := peek_lines h
  unfold scopeTurn
  rw [bind_of_ok hpeek, hend]
  rfl

/-- **All lines**, by induction: each of them is learned. -/
theorem scopeTurns_lines (readScope : Class.ScopeReader) (scope : Scope) (h : s.AtLines lines)
    (hnames : (lines.map (·.name.text)).Nodup)
    (hnew : ∀ line ∈ lines, s.table.Stacks line.name.text []) {n : Nat} (hn : lines.length < n) :
    ∃ s', iterateUpTo (scopeTurn readScope) n scope s = .ok () s' ∧
      s'.table = lines.foldl RuleTable.learn s.table := by
  induction lines generalizing s n with
  | nil =>
      obtain ⟨n, rfl⟩ := Nat.exists_eq_add_one.mpr hn
      refine ⟨s, ?_, rfl⟩
      rw [iterateUpTo, bind_of_ok (scopeTurn_end scope h)]
      rfl
  | cons line lines ih =>
      obtain ⟨n, rfl⟩ := Nat.exists_eq_add_one.mpr (Nat.zero_lt_of_lt hn)
      have hrules := (hnew line List.mem_cons_self).rules_eq line.named
      obtain ⟨s₁, hturn, hlines, htable⟩ := scopeTurn_line readScope scope h hrules
      obtain ⟨s', hrest, htable'⟩ := ih hlines (List.nodup_cons.mp hnames).2
        (htable ▸ RuleTable.stacks_learn hnames hnew) (Nat.lt_of_succ_lt_succ hn)
      refine ⟨s', ?_, by rw [htable', htable, List.foldl_cons]⟩
      rw [iterateUpTo, bind_of_ok hturn]
      exact hrest

variable {table : RuleTable} {tokens : List Token}

/-- A header of such lines is read, and the table then says what is inferred. -/
theorem readAll_lines (htable : table.Reachable) (h : ConstantLines tokens lines)
    (hnames : (lines.map (·.name.text)).Nodup)
    (hrules : ∀ line ∈ lines, table.rules line.name.text = []) (scope : Scope)
    (outline : Outline) :
    ∃ s', readAll scope { Reading.ofTokens table tokens with outline } = .ok () s' ∧
      ∀ line ∈ lines, s'.table.literal? line.name.text =
        inferred table.literal? lines line.name.text := by
  let s : Reading := { Reading.ofTokens table tokens with outline }
  have hfuel : 0 < s.fuel := Nat.lt_of_lt_of_le (by decide) (Nat.le_add_right 1000000 _)
  have hnew : ∀ line ∈ lines, table.Stacks line.name.text [] := fun line hline =>
    RuleTable.stacks_nil htable.sound line.named (hrules line hline)
  have hlines : (opened s).AtLines lines := ⟨rfl, hfuel, Nat.zero_le _, h⟩
  have hcount : lines.length < (opened s).bound := by
    have hlength := h.length_le
    have hbound : (opened s).bound = s.fuel + tokens.length := rfl
    omega
  obtain ⟨n, hn⟩ : ∃ n, s.bound = n + 1 :=
    Nat.exists_eq_add_one.mpr (Nat.lt_of_lt_of_le hfuel (Nat.le_add_right _ _))
  obtain ⟨s₁, hturns, hlearned⟩ :=
    scopeTurns_lines (nestUpTo readAllWith n) scope hlines hnames hnew hcount
  obtain ⟨i, last, hread⟩ := readAllWith_eq_ok hturns
  refine ⟨{ s₁.atIndex i with outline := last }, ?_, fun line hline => ?_⟩
  · have hget : (get : ReadM Reading) s = .ok s s := rfl
    unfold readAll nest
    rw [bind_of_ok hget, hn]
    exact hread
  · have hsame : ({ s₁.atIndex i with outline := last } : Reading).table =
        lines.foldl RuleTable.learn table := hlearned
    rw [hsame]
    exact RuleTable.literal?_foldl_learn hnames hnew (fun _ => h.isWord_of_mem) (fun _ _ => rfl)
      line.named

/-- What is known of a name behind these lines: of their own names what the table says in the end,
of any other name what it says from the start. -/
def knownBehind (lines : List ConstantLine) (start final : RuleTable) (name : String) :
    Option Literal :=
  if name ∈ lines.map (·.name.text) then final.literal? name else start.literal? name

/-- **The types of constants.** A header that holds lines that define constants, with names that are
all different and have no rules, is read. Each name then has the widest type that occurs in its
value, or `int` if none does, where identifiers count with what is known of them: they stand for the
constants of earlier lines, or for those that the table has from the start. So a constant is never
narrower than one that its value names, and the order of tokens in the values is of no importance.
-/
theorem readAll_infers (htable : table.Reachable) (h : ConstantLines tokens lines)
    (hnames : (lines.map (·.name.text)).Nodup)
    (hrules : ∀ line ∈ lines, table.rules line.name.text = []) (scope : Scope)
    (outline : Outline) :
    ∃ s', readAll scope { Reading.ofTokens table tokens with outline } = .ok () s' ∧
      (∀ before line after, lines = before ++ line :: after → ∃ type : Literal,
        (s'.table.find? line.name.text).bind (·.nativeType?) = some type.native ∧
        Literal.IsWidest (.int :: line.types (knownBehind before table s'.table)) type ∧
        ∀ earlier ∈ before,
          (∃ t ∈ line.value, t.isIdentifier = true ∧ t.text = earlier.name.text) →
          ∃ narrower : Literal,
            (s'.table.find? earlier.name.text).bind (·.nativeType?) = some narrower.native ∧
            narrower.rank ≤ type.rank) ∧
      ∀ tokens' lines', ConstantLines tokens' lines' →
        List.Forall₂ ConstantLine.Reorders lines lines' →
        ∃ s'', readAll scope { Reading.ofTokens table tokens' with outline } = .ok () s'' ∧
          ∀ line ∈ lines, (s''.table.find? line.name.text).bind (·.nativeType?) =
            (s'.table.find? line.name.text).bind (·.nativeType?) := by
  obtain ⟨s', hread, hrecorded⟩ := readAll_lines htable h hnames hrules scope outline
  refine ⟨s', hread, ?_, fun tokens' lines' h' hreorders => ?_⟩
  · rintro before line after rfl
    -- what is inferred from the lines before is what the table says in the end
    have hknown : ∀ x, inferred table.literal? before x = knownBehind before table s'.table x := by
      intro x
      unfold knownBehind
      by_cases hx : x ∈ before.map (·.name.text)
      · obtain ⟨earlier, hearlier, rfl⟩ := List.mem_map.mp hx
        rw [if_pos hx, hrecorded earlier (List.mem_append_left _ hearlier),
          inferred_prefix hnames hx]
      · rw [if_neg hx, inferred_of_not_mem hx]
    have htype : s'.table.literal? line.name.text =
        some (line.widest (knownBehind before table s'.table)) := by
      rw [hrecorded line (by simp), inferred_line hnames, funext hknown]
    have hwidest : Literal.IsWidest (.int :: line.types (knownBehind before table s'.table))
        (line.widest (knownBehind before table s'.table)) := Literal.isWidest_foldl _ _
    refine ⟨_, RuleTable.literal?_eq_some.mp htype, hwidest, ?_⟩
    rintro earlier hearlier ⟨t, ht, hkind, htext⟩
    obtain ⟨first, second, rfl⟩ := List.append_of_mem hearlier
    have hnarrower : s'.table.literal? earlier.name.text =
        some (earlier.widest (inferred table.literal? first)) := by
      rw [List.append_assoc, List.cons_append] at hnames
      rw [hrecorded earlier (by simp), List.append_assoc, List.cons_append, inferred_line hnames]
    refine ⟨_, RuleTable.literal?_eq_some.mp hnarrower, hwidest.2 _ (List.mem_cons_of_mem _ ?_)⟩
    have hidentifier : t.kind = .identifier := by simpa [Token.isIdentifier] using hkind
    refine List.mem_filterMap.mpr ⟨t, ht, ?_⟩
    rw [Literal.ofTokenIn, hidentifier]
    dsimp only
    rw [htext, knownBehind, if_pos (List.mem_map_of_mem (by simp)), hnarrower]
  · have hsame : lines'.map (·.name.text) = lines.map (·.name.text) := by
      clear hrecorded hread hrules hnames h h'
      induction hreorders with
      | nil => rfl
      | cons hline _ ih => rw [List.map_cons, List.map_cons, hline.name, ih]
    have hrules' : ∀ line ∈ lines', table.rules line.name.text = [] := by
      intro line hline
      obtain ⟨other, hother, hname⟩ := List.mem_map.mp (hsame ▸ List.mem_map_of_mem hline)
      exact hname ▸ hrules other hother
    obtain ⟨s'', hread', hrecorded'⟩ :=
      readAll_lines htable h' (hsame ▸ hnames) hrules' scope outline
    refine ⟨s'', hread', fun line hline => ?_⟩
    obtain ⟨other, hother, hname⟩ : ∃ other ∈ lines', other.name.text = line.name.text :=
      List.mem_map.mp (hsame ▸ List.mem_map_of_mem hline)
    obtain ⟨before, after, rfl⟩ := List.append_of_mem hline
    have htype := hrecorded line (by simp)
    have htype' := hrecorded' other hother
    rw [hname, ← inferred_reorders hreorders, ← htype] at htype'
    rw [inferred_line hnames] at htype
    rw [htype] at htype'
    rw [RuleTable.literal?_eq_some.mp htype, RuleTable.literal?_eq_some.mp htype']

/-- A constant and another one that names it. -/
def sizes : List Token :=
  Token.ofText none "#define A (1L << 3) // wide\n#define B A + 2\n"

/-- The line of `sizes` that starts in a position, with as many tokens in its value and behind it. -/
def sizeLine? (i count behind : Nat) : Option ConstantLine :=
  match sizes.drop i with
  | mark :: word :: name :: rest =>
    ConstantLine.ofTokens? mark word name (rest.take count) ((rest.drop count).take behind)
  | _ => none

def sizeA : ConstantLine := (sizeLine? 0 5 1).get (by decide +kernel)

def sizeB : ConstantLine := (sizeLine? 9 3 0).get (by decide +kernel)

theorem sizes_lines : ConstantLines sizes [sizeA, sizeB] := by
  obtain ⟨hfirst, hsecond, hall, hwords, hstartsA, hstartsB⟩ :
      sizes = [] ++ (sizeA.tokens ++ sizes.drop 9) ∧
        sizes.drop 9 = [] ++ (sizeB.tokens ++ sizes.drop 15) ∧
        (sizes.drop 15).all (fun t => t.isComment && !t.is "#") = true ∧
        (∀ line ∈ [sizeA, sizeB], ∀ t ∈ line.value, t.isIdentifier = true →
          Text.isWord t.text.toList = true) ∧
        (∀ t ∈ (sizes.drop 9).head?, Conditional.startsLine t = true) ∧
        ∀ t ∈ (sizes.drop 15).head?, Conditional.startsLine t = true := by
    decide +kernel
  have hnone : ∀ t ∈ ([] : List Token), t.IsRemark := by simp
  have hblank : ∀ t ∈ sizes.drop 15, t.IsRemark := by
    simpa [Token.IsRemark] using hall
  rw [hfirst]
  refine .line sizeA hnone (hwords sizeA (by simp)) hstartsA ?_
  rw [hsecond]
  exact .line sizeB hnone (hwords sizeB (by simp)) hstartsB (.done hblank)

/-- The second constant is as wide as the first, which it names. -/
theorem readAll_infers_sizes :
    ConstantLines sizes [sizeA, sizeB] ∧
      ∃ s', readAll {} { Reading.ofTokens {} sizes with outline := {} } = .ok () s' ∧
        (s'.table.find? "A").bind (·.nativeType?) = some "long long" ∧
        (s'.table.find? "B").bind (·.nativeType?) = some "long long" := by
  obtain ⟨hnames, hrules, hnameA, hnameB, hnoneA, hlongA, hnameOfB, hlongB⟩ :
      ([sizeA, sizeB].map (·.name.text)).Nodup ∧
        (∀ line ∈ [sizeA, sizeB], RuleTable.rules {} line.name.text = []) ∧
        sizeA.name.text = "A" ∧ sizeB.name.text = "B" ∧
        (∀ t ∈ sizeA.value, t.isIdentifier = false) ∧ sizeA.types (fun _ => none) = [.long] ∧
        (∀ t ∈ sizeB.value, t.isIdentifier = true → t.text = "A") ∧
        sizeB.types (fun _ => some .long) = [.long] := by
    decide +kernel
  obtain ⟨s', hread, hinfers, -⟩ := readAll_infers .empty sizes_lines hnames hrules {} {}
  refine ⟨sizes_lines, s', hread, ?_⟩
  obtain ⟨a, hrecordedA, hwidestA, -⟩ := hinfers [] sizeA [sizeB] rfl
  obtain ⟨b, hrecordedB, hwidestB, -⟩ := hinfers [sizeA] sizeB [] rfl
  rw [hnameA] at hrecordedA
  rw [hnameB] at hrecordedB
  have htypesA (known : String → Option Literal) : sizeA.types known = [.long] :=
    (ConstantLine.types_congr fun t ht hkind => by simp [hnoneA t ht] at hkind).trans hlongA
  rw [htypesA] at hwidestA
  obtain rfl : a = .long := hwidestA.unique (by decide)
  have hknown : knownBehind [sizeA] {} s'.table "A" = some .long := by
    rw [knownBehind, List.map_singleton, if_pos (List.mem_singleton.mpr hnameA.symm)]
    exact RuleTable.literal?_eq_some.mpr hrecordedA
  have htypesB : sizeB.types (knownBehind [sizeA] {} s'.table) = [.long] := by
    refine (ConstantLine.types_congr fun t ht hkind => ?_).trans hlongB
    rw [hnameOfB t ht hkind, hknown]
  rw [htypesB] at hwidestB
  obtain rfl : b = .long := hwidestB.unique (by decide)
  exact ⟨hrecordedA, hrecordedB⟩

/-- The native types that the table has for names when a header has been read; none if it fails. -/
def recorded? (table : RuleTable) (text : String) (names : List String) :
    Option (List (Option String)) :=
  match readAll {} { Reading.ofTokens table (Token.ofText none text) with outline := {} } with
  | .ok () s => some (names.map fun name => (s.table.find? name).bind (·.nativeType?))
  | .error _ _ => none

/-- A reserved word stands for no constant even if an earlier line defines it, and a name that no
line defines stands for the constant that the table has for it. -/
theorem names_of_other_constants :
    recorded? {} "#define final 1L\n#define X final\n" ["final", "X"] =
        some [some "long long", some "int"] ∧
      recorded? (RuleTable.put {} { nativeNames := ["Y"], nativeTypes := some ["double"] })
        "#define X Y\n" ["X"] = some [some "double"] := by
  decide +kernel

end Statement

end HeaderPeers

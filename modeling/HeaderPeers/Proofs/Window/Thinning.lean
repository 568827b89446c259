import HeaderPeers.Proofs.RuleKeys
import HeaderPeers.Proofs.Window.Termination
import HeaderPeers.Proofs.WholeInput

/-!
# Windows without macros

If no rule holds the text of a definition, preprocessing only resolves
conditional groups. It then makes the tokens fewer and never more, and a place
that has been visited stays as it is: what is visible there is visible whenever
the cursor comes back.

- `RuleTable.Plain` — no rule holds the text of a definition.
- `Window.Faces` — the position of the visible token that the cursor faces.
- `Window.Thins` — what preprocessing from a position on leaves.
- `Window.exists_seek` — a search ends, and where it ends.
-/

namespace HeaderPeers

/-! ## Rules without definitions -/

/-- No rule of the layer holds the text of a definition. -/
def Layer.Plain (layer : Layer) : Prop :=
  ∀ key list, layer.find? key = some list → ∀ entry ∈ list, entry.rule.nativeText = none

/-- No rule holds the text of a definition. -/
def RuleTable.Plain (table : RuleTable) : Prop :=
  ∀ layer ∈ table.layers, layer.Plain

theorem Layer.Plain.get {layer : Layer} (h : layer.Plain) {name : String} {part : Bool}
    {entry : Entry} (hentry : entry ∈ layer.get name part) : entry.rule.nativeText = none := by
  have hfound (key : String) (hmem : entry ∈ (layer.find? key).getD []) :
      entry.rule.nativeText = none := by
    cases hlist : layer.find? key with
    | none => simp [hlist] at hmem
    | some list => exact h key list hlist entry (by simpa [hlist] using hmem)
  unfold Layer.get at hentry
  split at hentry
  next list hlist => exact h _ list hlist entry hentry
  · split at hentry
    next list hlist => exact h _ list hlist entry hentry
    · split at hentry
      · exact hfound _ hentry
      · cases hentry

namespace RuleTable

variable {table : RuleTable}

theorem Plain.findWith? (h : table.Plain) {name : String} {part : Bool} {rule : Rule}
    (hrule : table.findWith? name part = some rule) : rule.nativeText = none := by
  obtain ⟨layer, hlayer, hhead⟩ := List.exists_of_findSome?_eq_some hrule
  obtain ⟨entry, hentry, rfl⟩ := Option.map_eq_some_iff.mp hhead
  exact (h layer hlayer).get (List.mem_of_head? hentry)

theorem Plain.putAt (h : table.Plain) {rule : Rule} (hrule : rule.nativeText = none)
    (priority : Priority) : Plain { table with top := table.top.putAt priority rule } := by
  intro layer hlayer
  rcases List.mem_cons.mp hlayer with rfl | hunder
  · exact Layer.forall_mem_putEntry (h table.top List.mem_cons_self) hrule
  · exact h layer (List.mem_cons_of_mem _ hunder)

theorem Plain.ruleFor? (h : table.Plain) (t : Token) : Expansion.ruleFor? table t = none := by
  unfold Expansion.ruleFor?
  split
  · cases hfound : table.find? t.text with
    | none => rfl
    | some rule => simp [h.findWith? hfound]
  · rfl

end RuleTable

/-! ## Texts without definitions -/

/-- A token of an input: it is not the one behind the last, and a word has
letters and is no mark. -/
def Token.Sound (t : Token) : Prop :=
  t.Proper ∧ (t.isWord = true → t.text ≠ "" ∧ t.text ≠ "#")

/-- What a token is, wherever it stands. -/
def Token.face (t : Token) : Kind × String :=
  (t.kind, t.text)

theorem Token.sound_of_face_eq {t u : Token} (h : u.face = t.face) (hu : u.Sound) : t.Sound := by
  obtain ⟨hkind, htext⟩ := Prod.mk.injEq .. ▸ h
  simpa [Sound, Proper, isWord, hkind, htext] using hu

/-- Only a letter starts a word. -/
theorem Lexeme.kind_of_not_isWordStart {c : Char} (h : ¬ Text.isWordStart c = true)
    (cs : List Char) :
    (read c cs).kind ≠ .identifier ∧ ∀ word, (read c cs).kind ≠ .keyword word := by
  unfold read
  rw [if_neg h]
  split
  · simp only [number]
    split <;> simp
  · split
    · simp [quoted]
    · simp [quoted]
    · simp [verbatim]
    · simp [verbatim]
    · simp
    · unfold operator
      split
      · simp [verbatim]
      · simp [verbatim]
      · split <;> simp [verbatim]
      · simp [verbatim]

theorem Lexeme.text_of_isWord {c : Char} {cs : List Char} {t : Token}
    (ht : t.kind = (read c cs).kind) (hword : t.isWord = true) :
    Text.isWordStart c = true ∧ ∃ ds, (read c cs).text = c :: ds := by
  have hstart : Text.isWordStart c = true := by
    by_contra hstart
    obtain ⟨hidentifier, hkeyword⟩ := kind_of_not_isWordStart hstart cs
    unfold Token.isWord at hword
    split at hword
    next heq => exact hidentifier (ht.symm.trans heq)
    next word heq => exact hkeyword word (ht.symm.trans heq)
    · cases hword
  simp [read, hstart, word, verbatim]

theorem Token.sound_scan (numbering : Numbering) (file : Option String) (line : Nat)
    (cs : List Char) : ∀ t ∈ scan numbering file line cs, t.Sound := by
  fun_induction scan numbering file line cs with
  | case1 => simp
  | case2 => simp [Sound, Proper, isWord]
  | case3 line cs spacing line' c rest hrest lexeme ih =>
      intro t ht
      rcases List.mem_cons.mp ht with rfl | ht
      · refine ⟨Lexeme.kind_read c rest, fun hword => ?_⟩
        obtain ⟨hstart, ds, htext⟩ : Text.isWordStart c = true ∧
            ∃ ds, (Lexeme.read c rest).text = c :: ds := Lexeme.text_of_isWord rfl hword
        have hlexeme : lexeme.text = c :: ds := htext
        refine ⟨fun hnone => ?_, fun hmark => ?_⟩
        · simp [hlexeme] at hnone
        · have hchars := congrArg String.toList hmark
          simp only [hlexeme, String.toList_ofList] at hchars
          obtain rfl : c = '#' := (List.cons.inj hchars).1
          exact absurd hstart (by decide)
      · exact ih t ht

/-- No line of the preprocessor defines anything. -/
def Undefining (ts : List Token) : Prop :=
  ts.IsChain fun mark word => ¬ (mark.is "#" = true ∧ word.isKeyword .define_ = true)

theorem undefining_iff_face (ts : List Token) :
    Undefining ts ↔ (ts.map Token.face).IsChain fun mark word =>
      ¬ ((mark.1 != .eof && mark.2 == "#") = true ∧ (word.1 == .keyword .define_) = true) := by
  rw [List.isChain_map]
  rfl

namespace Conditional

variable {table : RuleTable}

theorem isComment_remark (mark word : Token) (condition : List Token) :
    (remark mark word condition).isComment = true := rfl

theorem remark_is_mark (mark word : Token) (condition : List Token) :
    (remark mark word condition).is "#" = false := by
  simp only [remark, Token.is, Bool.and_eq_false_iff]
  refine Or.inr (beq_false_of_ne fun h => ?_)
  have hchars := congrArg String.toList h
  simp [String.toList_append] at hchars

theorem isKeyword_of_isComment {t : Token} (h : t.isComment = true) (word : Keyword) :
    t.isKeyword word = false := by
  simp_all [Token.isComment, Token.isKeyword]

theorem isKeywordWith_of_isComment {t : Token} (h : t.isComment = true) (p : Keyword → Bool) :
    t.isKeywordWith p = false := by
  simp_all [Token.isComment, Token.isKeywordWith]

/-- In a branch that stays, the first token stays or a comment takes its place. -/
theorem head?_resolveFrom (b : Branch) (hb : b.taken = true) (word : Token) (ts : List Token) :
    ∃ t, (resolveFrom table b (word :: ts)).head? = some t ∧ (t = word ∨ t.isComment = true) := by
  cases ts with
  | nil => exact ⟨word, by simp [resolveFrom, hb], Or.inl rfl⟩
  | cons next ts =>
      unfold resolveFrom
      extract_lets inner depth
      split
      · exact ⟨_, rfl, Or.inr (isComment_remark _ _ _)⟩
      · exact ⟨word, rfl, Or.inl rfl⟩

/-- Where a group starts, a comment takes the place of its first two tokens. -/
theorem exists_resolve_eq {ts : List Token} (h : opens ts = true) :
    ∃ mark word condition rest, resolve table ts = remark mark word condition :: rest ∧
      rest.length + 2 ≤ ts.length := by
  match ts, h with
  | mark :: word :: ts, h =>
    rw [opens, Bool.and_eq_true] at h
    obtain ⟨hmark, hword⟩ := h
    have hdivides : word.isKeywordWith Keyword.dividesGroup = true := by
      revert hword
      unfold Token.isKeywordWith
      split
      next keyword _ => cases keyword <;> simp [Keyword.opensGroup, Keyword.dividesGroup]
      · simp
    have hcut := length_splitCondition_le word ts
    have hrest (ends : Bool) (b : Branch) :
        (if ends then (splitCondition word ts).2
          else resolveFrom table b (splitCondition word ts).2).length ≤ ts.length := by
      split
      · exact hcut
      · exact (@Window.resolveFrom_le table (fun _ => 0) b _).2.trans hcut
    refine ⟨mark, word, (splitCondition word ts).1, ?_⟩
    rw [resolve, resolveFrom]
    simp only [hmark, hword, hdivides, Bool.and_self, if_true, beq_self_eq_true]
    exact ⟨_, rfl, Nat.succ_le_succ (Nat.succ_le_succ (hrest _ _))⟩

theorem head?_resolve {ts : List Token} (h : opens ts = true) :
    ∃ mark word condition, (resolve table ts).head? = some (remark mark word condition) := by
  obtain ⟨mark, word, condition, rest, heq, -⟩ := @exists_resolve_eq table ts h
  exact ⟨mark, word, condition, by rw [heq, List.head?_cons]⟩

/-- Tokens that are next to each other in what is left were so before, or one of
them is a comment in place of a directive. -/
theorem undefining_resolveFrom (b : Branch) (ts : List Token) (h : Undefining ts) :
    Undefining (resolveFrom table b ts) := by
  fun_induction resolveFrom table b ts with
  | case1 => exact h
  | case2 => exact h
  | case3 => exact List.isChain_nil
  | case4 b mark word ts inner depth _ split next ih =>
      have hrest : Undefining split.2 := by
        have hbehind : Undefining ts := h.tail.tail
        unfold split splitCondition
        split
        · exact hbehind.suffix (List.dropWhile_suffix _)
        · exact hbehind
      refine List.isChain_cons.mpr ⟨fun _ _ hdefine => ?_, ?_⟩
      · simp [remark_is_mark] at hdefine
      · split
        · exact hrest
        · exact ih hrest
  | case5 b mark word ts inner depth _ rest htaken ih =>
      refine List.isChain_cons.mpr ⟨fun next hnext => ?_, ih h.tail⟩
      obtain ⟨t, ht, hcases⟩ := @head?_resolveFrom table { b with depth }.note
        (by simpa [Branch.note] using htaken) word ts
      obtain rfl : next = t := Option.some.inj (hnext.symm.trans ht)
      rcases hcases with rfl | hcomment
      · exact (List.isChain_cons_cons.mp h).1
      · simp [isKeyword_of_isComment hcomment]
  | case6 b mark word ts inner depth _ rest _ ih => exact ih h.tail

theorem sound_resolveFrom (b : Branch) (ts : List Token) (h : ∀ t ∈ ts, t.Sound) :
    ∀ t ∈ resolveFrom table b ts, t.Sound := by
  have hmem : ∀ t ∈ resolveFrom table b ts, t ∈ ts ∨ t.isComment = true := by
    clear h
    fun_induction resolveFrom table b ts with
    | case1 => simp
    | case2 => simp
    | case3 => simp
    | case4 b mark word ts inner depth _ split next ih =>
        have hsub : ∀ t ∈ split.2, t ∈ mark :: word :: ts := fun t ht =>
          List.mem_cons_of_mem _ (List.mem_cons_of_mem _ (subset_splitCondition word ts ht))
        intro t ht
        rcases List.mem_cons.mp ht with rfl | ht
        · exact Or.inr (isComment_remark _ _ _)
        · split at ht
          · exact Or.inl (hsub t ht)
          · exact (ih t ht).imp_left (hsub t)
    | case5 b mark word ts inner depth _ rest _ ih =>
        intro t ht
        rcases List.mem_cons.mp ht with rfl | ht
        · exact Or.inl List.mem_cons_self
        · exact (ih t ht).imp_left (List.mem_cons_of_mem _)
    | case6 b mark word ts inner depth _ rest _ ih =>
        exact fun t ht => (ih t ht).imp_left (List.mem_cons_of_mem _)
  intro t ht
  rcases hmem t ht with hold | hcomment
  · exact h t hold
  · constructor
    · intro heof
      simp [Token.isComment, heof] at hcomment
    · intro hword
      simp only [Token.isComment, beq_iff_eq] at hcomment
      simp [Token.isWord, hcomment] at hword

end Conditional

/-! ## One position -/

namespace Window

variable {table : RuleTable} {tokens tokens' : Array Token}

theorem visit_of_plain (h : table.Plain) (tokens : Array Token) (i : Nat) :
    visit table tokens i = resolveAt table tokens i := by
  unfold visit expandAt
  split
  · rfl
  · rw [h.ruleFor?]
    rfl

theorem visit_of_not_opensAt (h : table.Plain) {i : Nat} (hi : opensAt tokens i = false) :
    visit table tokens i = tokens := by
  rw [visit_of_plain h, resolveAt, hi]
  rfl

theorem opens_tail_of_opensAt {i : Nat} (hi : opensAt tokens i = true) :
    i < tokens.size ∧ Conditional.opens (tail tokens i) = true := by
  have hlt : i < tokens.size := by
    by_contra hge
    simp [opensAt, Array.getElem?_eq_none (Nat.le_of_not_lt hge)] at hi
  refine ⟨hlt, ?_⟩
  rw [opensAt] at hi
  split at hi
  next mark word hmark hword =>
    obtain ⟨_, rfl⟩ := Array.getElem?_eq_some_iff.mp hmark
    obtain ⟨hnext, rfl⟩ := Array.getElem?_eq_some_iff.mp hword
    rw [tail_eq_drop, List.drop_eq_getElem_cons (by simpa using hlt),
      List.drop_eq_getElem_cons (by simpa using hnext)]
    simpa [Conditional.opens] using hi
  · cases hi

/-- Where a group starts, a comment is put and as many tokens as before or fewer
follow. -/
theorem visit_of_opensAt (h : table.Plain) {i : Nat} (hi : opensAt tokens i = true) :
    i < tokens.size ∧ (visit table tokens i).size ≤ tokens.size ∧
      ∃ mark word condition,
        (visit table tokens i)[i]? = some (Conditional.remark mark word condition) := by
  obtain ⟨hlt, hopens⟩ := opens_tail_of_opensAt hi
  obtain ⟨mark, word, condition, hhead⟩ := @Conditional.head?_resolve table _ hopens
  have hvisit : visit table tokens i =
      replaceTail tokens i (Conditional.resolve table (tail tokens i)) := by
    rw [visit_of_plain h, resolveAt, if_pos hi]
  refine ⟨hlt, ?_, mark, word, condition, ?_⟩
  · have hle := (@resolveFrom_le table (fun _ => 0) {} (tail tokens i)).2
    rw [hvisit, size_replaceTail hlt.le]
    rw [length_tail] at hle
    unfold Conditional.resolve
    omega
  · rw [hvisit, ← Array.getElem?_toList, toList_replaceTail,
      List.getElem?_append_right (by simp), List.length_take, Array.length_toList,
      Nat.min_eq_left hlt.le, Nat.sub_self, ← List.head?_eq_getElem?]
    exact hhead

theorem size_visit_le (h : table.Plain) (tokens : Array Token) (i : Nat) :
    (visit table tokens i).size ≤ tokens.size := by
  cases hi : opensAt tokens i with
  | false => rw [visit_of_not_opensAt h hi]
  | true => exact (visit_of_opensAt h hi).2.1

/-- What stands before or in the position is there afterwards. -/
theorem lt_size_visit (h : table.Plain) {i k : Nat} (hk : k ≤ i) (hlt : k < tokens.size) :
    k < (visit table tokens i).size := by
  cases hi : opensAt tokens i with
  | false => rwa [visit_of_not_opensAt h hi]
  | true =>
      obtain ⟨-, -, mark, word, condition, hremark⟩ := visit_of_opensAt h hi
      exact Nat.lt_of_le_of_lt hk (Array.getElem?_eq_some_iff.mp hremark).1

theorem getElem?_visit (h : k < i) : (visit table tokens i)[k]? = tokens[k]? :=
  getElem?_of_take_eq (take_visit table tokens i) h

theorem opensAt_eq_false_of_isComment {i : Nat} {t : Token} (ht : tokens[i]? = some t)
    (hcomment : t.is "#" = false) : opensAt tokens i = false := by
  unfold opensAt
  split
  next mark word hmark _ =>
    obtain rfl := Option.some.inj (hmark.symm.trans ht)
    simp [Conditional.opens, hcomment]
  · rfl

/-- No group starts in a position that has been visited. -/
theorem opensAt_visit_self (h : table.Plain) (tokens : Array Token) (i : Nat) :
    opensAt (visit table tokens i) i = false := by
  cases hi : opensAt tokens i with
  | false => rwa [visit_of_not_opensAt h hi]
  | true =>
      obtain ⟨-, -, mark, word, condition, hremark⟩ := visit_of_opensAt h hi
      exact opensAt_eq_false_of_isComment hremark (Conditional.remark_is_mark _ _ _)

/-- If no group starts in a position, none does after what follows was visited. -/
theorem opensAt_visit (h : table.Plain) {i k : Nat} (hk : k < i)
    (hopens : opensAt tokens k = false) : opensAt (visit table tokens i) k = false := by
  cases hi : opensAt tokens i with
  | false => rwa [visit_of_not_opensAt h hi]
  | true =>
      rcases Nat.lt_or_eq_of_le (Nat.succ_le_of_lt hk) with hlt | rfl
      · rwa [opensAt, getElem?_visit hk, getElem?_visit hlt]
      · -- the word behind the position is now a comment
        obtain ⟨-, -, mark, word, condition, hremark⟩ := visit_of_opensAt h hi
        unfold opensAt
        rw [hremark]
        split
        next first second _ hsecond =>
          obtain rfl := Option.some.inj hsecond
          simp [Conditional.opens, Conditional.isKeywordWith_of_isComment
            (Conditional.isComment_remark _ _ _)]
        · rfl

/-! ## What the cursor faces -/

theorem opensAt_eq_face (tokens : Array Token) (i : Nat) :
    opensAt tokens i = match tokens[i]?.map Token.face, tokens[i + 1]?.map Token.face with
      | some mark, some (.keyword word, _) =>
        mark.1 != .eof && mark.2 == "#" && Keyword.opensGroup word
      | _, _ => false := by
  unfold opensAt
  cases tokens[i]? with
  | none => rfl
  | some mark =>
      cases tokens[i + 1]? with
      | none => rfl
      | some word =>
          cases hkind : word.kind <;>
            simp [Conditional.opens, Token.isKeywordWith, Token.face, Token.is, hkind]

theorem commentAt_iff_face (tokens : Array Token) (i : Nat) :
    CommentAt tokens i ↔ (tokens[i]?.map Token.face).any (·.1 == .comment) = true := by
  rw [CommentAt, Option.any_map]
  rfl

theorem face_tokenAt (tokens : Array Token) (i : Nat) :
    (tokenAt tokens i).face = (tokens[i]?.map Token.face).getD (.eof, "") := by
  unfold tokenAt
  cases tokens[i]? with
  | some t => rfl
  | none =>
      simp only [Option.getD_none, Option.map_none, endToken]
      split <;> rfl

/-- From position `i` on, the first token that is no comment is in position `j`,
and everything up to there has been visited. -/
structure Faces (tokens : Array Token) (i j : Nat) : Prop where
  le : i ≤ j
  comments : ∀ k, i ≤ k → k < j → CommentAt tokens k
  visited : ∀ k, i ≤ k → k ≤ j → opensAt tokens k = false
  stops : ¬ CommentAt tokens j

theorem Faces.unique {i j j' : Nat} (h : Faces tokens i j) (h' : Faces tokens i j') : j = j' := by
  rcases Nat.lt_trichotomy j j' with hlt | heq | hgt
  · exact absurd (h'.comments j h.le hlt) h.stops
  · exact heq
  · exact absurd (h.comments j' h'.le hgt) h'.stops

/-- Preprocessing from a position on: tokens may go, but none is added, and what
is faced from there or from before is faced still. -/
structure Thins (i : Nat) (tokens tokens' : Array Token) : Prop where
  size_le : tokens'.size ≤ tokens.size
  lt_size : ∀ k ≤ i, k < tokens.size → k < tokens'.size
  visited : ∀ k < i, opensAt tokens k = false → opensAt tokens' k = false
  faces : ∀ k ≤ i, ∀ j, Faces tokens k j → Faces tokens' k j ∧
    (tokenAt tokens' j).kind = (tokenAt tokens j).kind ∧
    (tokenAt tokens' j).text = (tokenAt tokens j).text
  undefining : Undefining tokens.toList → Undefining tokens'.toList
  sound : (∀ t ∈ tokens.toList, t.Sound) → ∀ t ∈ tokens'.toList, t.Sound

namespace Thins

theorem refl (i : Nat) (tokens : Array Token) : Thins i tokens tokens where
  size_le := Nat.le_refl _
  lt_size _ _ := id
  visited _ _ := id
  faces _ _ _ h := ⟨h, rfl, rfl⟩
  undefining := id
  sound := id

theorem trans {i : Nat} {tokens'' : Array Token} (h : Thins i tokens tokens')
    (h' : Thins i tokens' tokens'') : Thins i tokens tokens'' where
  size_le := Nat.le_trans h'.size_le h.size_le
  lt_size k hk hlt := h'.lt_size k hk (h.lt_size k hk hlt)
  visited k hk hopens := h'.visited k hk (h.visited k hk hopens)
  faces k hk j hfaces := by
    obtain ⟨hfaces', hkind, htext⟩ := h.faces k hk j hfaces
    obtain ⟨hfaces'', hkind', htext'⟩ := h'.faces k hk j hfaces'
    exact ⟨hfaces'', hkind'.trans hkind, htext'.trans htext⟩
  undefining hdef := h'.undefining (h.undefining hdef)
  sound hsound := h'.sound (h.sound hsound)

theorem mono {i k : Nat} (h : Thins i tokens tokens') (hk : k ≤ i) : Thins k tokens tokens' where
  size_le := h.size_le
  lt_size m hm := h.lt_size m (Nat.le_trans hm hk)
  visited m hm := h.visited m (Nat.lt_of_lt_of_le hm hk)
  faces m hm := h.faces m (Nat.le_trans hm hk)
  undefining := h.undefining
  sound := h.sound

theorem visit (h : table.Plain) {i k : Nat} (hk : i ≤ k) :
    Thins i tokens (visit table tokens k) := by
  cases hopens : opensAt tokens k with
  | false =>
      rw [visit_of_not_opensAt h hopens]
      exact refl i tokens
  | true =>
      have hvisit : Window.visit table tokens k =
          replaceTail tokens k (Conditional.resolve table (tail tokens k)) := by
        rw [visit_of_plain h, resolveAt, if_pos hopens]
      refine ⟨size_visit_le h tokens k, fun m hm => lt_size_visit h (Nat.le_trans hm hk),
        fun m hm => opensAt_visit h (Nat.lt_of_lt_of_le hm hk), ?_, ?_, ?_⟩
      · intro m hm j hfaces
        have hjk : j < k := by
          by_contra hge
          rw [hfaces.visited k (Nat.le_trans hm hk) (Nat.le_of_not_lt hge)] at hopens
          cases hopens
        have htoken : tokenAt (Window.visit table tokens k) j = tokenAt tokens j := by
          have hlt := (visit_of_opensAt h hopens).1
          have hsome : tokens[j]? = some tokens[j] :=
            Array.getElem?_eq_getElem (Nat.lt_trans hjk hlt)
          simp [tokenAt, getElem?_visit hjk, hsome]
        refine ⟨⟨hfaces.le, fun n hn hlt => ?_, fun n hn hle => ?_, ?_⟩, by rw [htoken],
          by rw [htoken]⟩
        · rw [CommentAt, getElem?_visit (Nat.lt_trans hlt hjk)]
          exact hfaces.comments n hn hlt
        · exact opensAt_visit h (Nat.lt_of_le_of_lt hle hjk) (hfaces.visited n hn hle)
        · rw [CommentAt, getElem?_visit hjk]
          exact hfaces.stops
      · intro hdef
        have hsplit : Undefining (tokens.toList.take k ++ tail tokens k) := by
          rwa [tail_eq_drop, List.take_append_drop]
        rw [hvisit, toList_replaceTail]
        refine List.IsChain.append hsplit.left_of_append
          (Conditional.undefining_resolveFrom {} _ hsplit.right_of_append) ?_
        -- the token behind the cut is a comment
        have hhead : ∃ mark word condition, (Conditional.resolve table (tail tokens k)).head? =
            some (Conditional.remark mark word condition) := by
          obtain ⟨hlt, -, mark, word, condition, hremark⟩ := visit_of_opensAt h hopens
          refine ⟨mark, word, condition, ?_⟩
          rw [hvisit, ← Array.getElem?_toList, toList_replaceTail,
            List.getElem?_append_right (by simp), List.length_take, Array.length_toList,
            Nat.min_eq_left hlt.le, Nat.sub_self, ← List.head?_eq_getElem?] at hremark
          exact hremark
        obtain ⟨mark, word, condition, hhead⟩ := hhead
        intro first _ second hsecond
        obtain rfl := Option.some.inj (hhead.symm.trans hsecond)
        simp [Conditional.isKeyword_of_isComment (Conditional.isComment_remark _ _ _)]
      · intro hsound t ht
        rw [hvisit, toList_replaceTail] at ht
        rcases List.mem_append.mp ht with hbefore | hbehind
        · exact hsound t (List.mem_of_mem_take hbefore)
        · refine Conditional.sound_resolveFrom {} _ (fun u hu => ?_) t hbehind
          rw [tail_eq_drop] at hu
          exact hsound u (List.mem_of_mem_drop hu)

/-- The spacing of tokens and where they stand make no difference. -/
theorem of_face_eq {i : Nat} (h : tokens'.toList.map Token.face = tokens.toList.map Token.face) :
    Thins i tokens tokens' := by
  have hsize : tokens'.size = tokens.size := by simpa using congrArg List.length h
  have hget (k : Nat) : tokens'[k]?.map Token.face = tokens[k]?.map Token.face := by
    simpa using congrArg (fun faces => faces[k]?) h
  have hopens (k : Nat) : opensAt tokens' k = opensAt tokens k := by
    rw [opensAt_eq_face, opensAt_eq_face, hget, hget]
  have hcomment (k : Nat) : CommentAt tokens' k ↔ CommentAt tokens k := by
    rw [commentAt_iff_face, commentAt_iff_face, hget]
  refine ⟨hsize.le, fun k _ hlt => hsize ▸ hlt, fun k _ => (hopens k).trans,
    fun k _ j hfaces => ⟨?_, ?_⟩, fun hdef => ?_, fun hsound t ht => ?_⟩
  · exact ⟨hfaces.le, fun n hn hlt => (hcomment n).mpr (hfaces.comments n hn hlt),
      fun n hn hle => (hopens n).trans (hfaces.visited n hn hle),
      fun hstops => hfaces.stops ((hcomment j).mp hstops)⟩
  · have hface : (tokenAt tokens' j).face = (tokenAt tokens j).face := by
      rw [face_tokenAt, face_tokenAt, hget]
    exact ⟨congrArg Prod.fst hface, congrArg Prod.snd hface⟩
  · rw [undefining_iff_face] at hdef ⊢
    rwa [h]
  · have hmem : t.face ∈ tokens.toList.map Token.face := h ▸ List.mem_map_of_mem ht
    obtain ⟨u, hu, hface⟩ := List.mem_map.mp hmem
    exact Token.sound_of_face_eq hface (hsound u hu)

theorem respace (i k : Nat) (tokens : Array Token) (spacing : String) :
    Thins i tokens (tokens.modify k fun t => { t with spacing }) := by
  apply of_face_eq
  rw [Array.toList_modify]
  apply List.ext_getElem?
  intro m
  rw [List.getElem?_map, List.getElem?_map, List.getElem?_modify]
  cases tokens.toList[m]? with
  | none => rfl
  | some t =>
      simp only [Option.map_eq_map, Option.map_some]
      split <;> rfl

end Thins

/-! ## Searches -/

theorem commentAt_iff {i : Nat} :
    CommentAt tokens i ↔ ∃ t, tokens[i]? = some t ∧ t.isComment = true := by
  rw [CommentAt, Option.any_eq_true]

/-- A search that ends has visited its position, and there is no comment. -/
theorem faces_self_of_advance_eq_none (h : table.Plain) {s : Search}
    (hnone : s.advance table = none) :
    Faces (visit table (visit table s.tokens s.index) s.index) s.index s.index := by
  have hvisited := opensAt_visit_self h s.tokens s.index
  rw [visit_of_not_opensAt h hvisited]
  refine ⟨Nat.le_refl _, fun k hk hlt => absurd hlt (Nat.not_lt.mpr hk), fun k hk hle => ?_,
    fun hcomment => ?_⟩
  · rwa [Nat.le_antisymm hle hk]
  · obtain ⟨t, ht, htcomment⟩ := commentAt_iff.mp hcomment
    have hlt : s.index < s.tokens.size := by
      by_contra hge
      rw [visit_of_size_le table (Nat.le_of_not_lt hge)] at ht
      exact hge (Array.getElem?_eq_some_iff.mp ht).1
    simp [Search.advance, hlt, ht, htcomment] at hnone

theorem faces_self_of_seek (h : table.Plain) {j : Nat} (fuel : Nat) :
    ∀ s : Search, seek table fuel s.tokens s.index s.count = some (tokens', j) →
      Faces tokens' j j := by
  induction fuel with
  | zero =>
      intro s hseek
      cases hseek
  | succ fuel ih =>
      intro s hseek
      rw [Search.seek_succ] at hseek
      cases hadvance : s.advance table with
      | some s' =>
          simp only [hadvance] at hseek
          exact ih s' hseek
      | none =>
          simp only [hadvance] at hseek
          cases hseek
          exact faces_self_of_advance_eq_none h hadvance

theorem thins_of_seek (h : table.Plain) {j : Nat} (fuel : Nat) :
    ∀ s : Search, seek table fuel s.tokens s.index s.count = some (tokens', j) →
      Thins s.index s.tokens tokens' := by
  induction fuel with
  | zero =>
      intro s hseek
      cases hseek
  | succ fuel ih =>
      intro s hseek
      rw [Search.seek_succ] at hseek
      cases hadvance : s.advance table with
      | some s' =>
          simp only [hadvance] at hseek
          obtain ⟨-, htokens, hindex, -⟩ := Search.advance_eq_some hadvance
          have hrest : Thins s.index s'.tokens tokens' := (ih s' hseek).mono (by omega)
          rw [htokens] at hrest
          exact (Thins.visit h (Nat.le_refl _)).trans hrest
      | none =>
          simp only [hadvance] at hseek
          cases hseek
          exact (Thins.visit h (Nat.le_refl _)).trans (Thins.visit h (Nat.le_refl _))

/-- A search for the next visible token ends where the cursor faces. -/
theorem faces_of_seek (h : table.Plain) {j : Nat} (fuel : Nat) :
    ∀ s : Search, s.count = 0 → seek table fuel s.tokens s.index s.count = some (tokens', j) →
      Faces tokens' s.index j := by
  induction fuel with
  | zero =>
      intro s _ hseek
      cases hseek
  | succ fuel ih =>
      intro s hcount hseek
      rw [Search.seek_succ] at hseek
      cases hadvance : s.advance table with
      | none =>
          simp only [hadvance] at hseek
          cases hseek
          exact faces_self_of_advance_eq_none h hadvance
      | some s' =>
          simp only [hadvance] at hseek
          obtain ⟨-, htokens, hindex, -⟩ := Search.advance_eq_some hadvance
          obtain ⟨hcount', hcomment⟩ := Search.advance_of_count_eq_zero hadvance hcount
          have hrest := ih s' hcount' hseek
          rw [hindex] at hrest
          have htake := take_of_seek table fuel s' hseek
          refine ⟨Nat.le_of_succ_le hrest.le, fun k hk hlt => ?_, fun k hk hle => ?_, hrest.stops⟩
          · rcases Nat.eq_or_lt_of_le hk with rfl | hgt
            · rwa [CommentAt, getElem?_of_take_eq htake (by omega)]
            · exact hrest.comments k hgt hlt
          · rcases Nat.eq_or_lt_of_le hk with rfl | hgt
            · have hthins := thins_of_seek h fuel s' hseek
              refine hthins.visited s.index (by omega) ?_
              rw [htokens]
              exact opensAt_visit_self h s.tokens s.index
            · exact hrest.visited k hgt hle

theorem Faces.tail {i j : Nat} (h : Faces tokens i j) (hlt : i < j) : Faces tokens (i + 1) j :=
  ⟨hlt, fun k hk => h.comments k (by omega), fun k hk => h.visited k (by omega), h.stops⟩

/-- A search for the token behind the next visible one passes that. -/
theorem lt_of_seek_next (h : table.Plain) {j k : Nat} (fuel : Nat) :
    ∀ i, Faces tokens i j → j < tokens.size → seek table fuel tokens i 1 = some (tokens', k) →
      j < k := by
  induction fuel with
  | zero =>
      intro i _ _ hseek
      cases hseek
  | succ fuel ih =>
      intro i hfaces hj hseek
      have hi : i < tokens.size := Nat.lt_of_le_of_lt hfaces.le hj
      have hvisit := visit_of_not_opensAt h (hfaces.visited i (Nat.le_refl _) hfaces.le)
      rw [seek, if_pos hi] at hseek
      simp only [hvisit, Array.getElem?_eq_getElem hi] at hseek
      obtain heq | hlt := Nat.eq_or_lt_of_le hfaces.le
      · -- the cursor is at the visible token, which the search passes
        have hstops : tokens[i].isComment = false := by
          have hnone := hfaces.stops
          rw [← heq] at hnone
          simpa [CommentAt, Array.getElem?_eq_getElem hi] using hnone
        rw [hstops] at hseek
        have hle := (index_le_of_seek table fuel ⟨tokens, i + 1, 0⟩ hseek).1
        exact heq ▸ hle
      · have hcomment : tokens[i].isComment = true := by
          simpa [CommentAt, Array.getElem?_eq_getElem hi] using
            hfaces.comments i (Nat.le_refl _) hlt
        rw [hcomment] at hseek
        exact ih (i + 1) (hfaces.tail hlt) hj hseek

/-- **Searches end.** With a step for each token and one besides, a search
finds what it looks for. -/
theorem seek_isSome_of_plain (h : table.Plain) (fuel : Nat) :
    ∀ s : Search, s.tokens.size - s.index < fuel →
      (seek table fuel s.tokens s.index s.count).isSome = true := by
  induction fuel with
  | zero =>
      intro s hfuel
      cases hfuel
  | succ fuel ih =>
      intro s hfuel
      rw [Search.seek_succ]
      cases hadvance : s.advance table with
      | none => rfl
      | some s' =>
          obtain ⟨hlt, htokens, hindex, -⟩ := Search.advance_eq_some hadvance
          refine ih s' ?_
          have hle := size_visit_le h s.tokens s.index
          rw [htokens, hindex]
          omega

end Window

end HeaderPeers

import HeaderPeers.Proofs.Conditional
import HeaderPeers.Proofs.Window.Thinning

/-!
# Conditions that nothing decides

If no rule and no number decides a condition, every branch stays. The lines of
the directives go, one group at a time as the cursor comes to it, and a walk
over the window shows all other tokens in order.

- `Undecided` — the groups of an input are closed, and nothing decides them.
- `shown` — what is left without comments and without directives.
- `Flow` — the same input seen from a depth inside it, token by token.
  Resolving a group takes the directives of its own level out, and what is
  shown stays the same (`resolve_flow`).
- `Window.walk_shows` — what a walk shows.
-/

namespace HeaderPeers

/-- There is no entry in any layer. -/
def RuleTable.Bare (table : RuleTable) : Prop :=
  ∀ layer ∈ table.layers, layer.lists = []

namespace RuleTable.Bare

variable {table : RuleTable}

theorem get (h : table.Bare) {layer : Layer} (hlayer : layer ∈ table.layers) (name : String)
    (part : Bool) : layer.get name part = [] := by
  simp [Layer.get, Layer.find?, h layer hlayer]

theorem find? (h : table.Bare) (name : String) : table.find? name = none := by
  refine List.findSome?_eq_none_iff.mpr fun layer hlayer => ?_
  simp [h.get hlayer]

theorem plain (h : table.Bare) : table.Plain := by
  intro layer hlayer key list hlist
  simp [Layer.find?, h layer hlayer] at hlist

end RuleTable.Bare

/-- A reserved word has the text that it is spelt with. -/
def Token.Spelt (t : Token) : Prop :=
  ∀ word, t.kind = .keyword word → Keyword.ofWord? t.text = some word

instance : DecidablePred Token.Spelt
  | ⟨.keyword word, text, _, _⟩ =>
    decidable_of_iff (Keyword.ofWord? text = some word)
      ⟨fun h _ hkind => Kind.keyword.inj hkind ▸ h, fun h => h word rfl⟩
  | ⟨.integer, _, _, _⟩ | ⟨.float, _, _, _⟩ | ⟨.string, _, _, _⟩ | ⟨.char, _, _, _⟩
  | ⟨.comment, _, _, _⟩ | ⟨.identifier, _, _, _⟩ | ⟨.symbol, _, _, _⟩ | ⟨.punct, _, _, _⟩
  | ⟨.eof, _, _, _⟩ => isTrue nofun

theorem Lexeme.spelt_read (c : Char) (cs : List Char) (word : Keyword)
    (h : (read c cs).kind = .keyword word) :
    Keyword.ofWord? (String.ofList (read c cs).text) = some word := by
  by_cases hstart : Text.isWordStart c = true
  · have hread : read c cs = Lexeme.word c cs := by
      unfold read
      rw [if_pos hstart]
    rw [hread, Lexeme.word, verbatim] at h ⊢
    dsimp only at h
    split at h
    next found hfound =>
      obtain rfl : found = word := by simpa using h
      exact hfound
    · cases h
  · exact absurd h ((kind_of_not_isWordStart hstart cs).2 word)

/-- Whatever is read off a text is spelt right. -/
theorem Token.spelt_scan (numbering : Numbering) (file : Option String) (line : Nat)
    (cs : List Char) : ∀ t ∈ scan numbering file line cs, t.Spelt := by
  fun_induction scan numbering file line cs with
  | case1 => simp
  | case2 => simp [Spelt]
  | case3 line cs spacing line' c rest hrest lexeme ih =>
      intro t ht
      rcases List.mem_cons.mp ht with rfl | ht
      · exact Lexeme.spelt_read c rest
      · exact ih t ht

theorem Token.Spelt.text_ne_mark {t : Token} (h : t.Spelt) {p : Keyword → Bool}
    (hword : t.isKeywordWith p = true) : t.text ≠ "#" := by
  intro htext
  unfold isKeywordWith at hword
  split at hword
  next word hkind =>
    have hspelt := h word hkind
    rw [htext] at hspelt
    cases hspelt
  · cases hword

namespace Conditional

/-! ## Inputs without decisions -/

/-- Whether every group that is opened is closed, with this many open before. -/
def closesAll : Nat → List Token → Bool
  | depth, mark :: word :: ts =>
    if startsDirective [mark, word] then
      if word.isKeywordWith Keyword.opensGroup then closesAll (depth + 1) ts
      else if word.isKeyword .endif_ then depth != 0 && closesAll (depth - 1) ts
      else depth != 0 && closesAll depth ts
    else closesAll depth (word :: ts)
  | depth, _ => depth == 0

/-- Groups are closed, each directive but one at the very start is on a line of
its own, and no condition is a number; reserved words read as they are spelt. -/
structure Undecided (ts : List Token) : Prop where
  closed : closesAll 0 ts = true
  lines : ∀ t mark word behind, (t :: mark :: word :: behind) <:+ ts →
    startsDirective [mark, word] = true → startsLine mark = true
  conditions : ∀ mark word behind, (mark :: word :: behind) <:+ ts →
    mark.is "#" = true → word.isKeywordWith Keyword.hasCondition = true →
    Number.decodeText? (Text.trim (conditionText (behind.takeWhile (!startsLine ·)))) = none
  spelt : ∀ t ∈ ts, t.Spelt

/-- What is asked of a list with a directive behind its first token. -/
def LineAt (ts : List Token) : Prop :=
  match ts with
  | _ :: mark :: word :: _ => startsDirective [mark, word] = true → startsLine mark = true
  | _ => True

/-- What is asked of a list with a condition at its start. -/
def ConditionAt (ts : List Token) : Prop :=
  match ts with
  | mark :: word :: behind =>
    mark.is "#" = true → word.isKeywordWith Keyword.hasCondition = true →
      Number.decodeText? (Text.trim (conditionText (behind.takeWhile (!startsLine ·)))) = none
  | _ => True

instance : DecidablePred LineAt
  | _ :: mark :: word :: _ =>
    inferInstanceAs (Decidable (startsDirective [mark, word] = true → startsLine mark = true))
  | [] | [_] | [_, _] => isTrue trivial

instance : DecidablePred ConditionAt
  | mark :: word :: behind =>
    inferInstanceAs (Decidable (mark.is "#" = true →
      word.isKeywordWith Keyword.hasCondition = true →
      Number.decodeText? (Text.trim (conditionText (behind.takeWhile (!startsLine ·)))) = none))
  | [] | [_] => isTrue trivial

theorem undecided_iff_tails (ts : List Token) :
    Undecided ts ↔ closesAll 0 ts = true ∧ (∀ rest ∈ ts.tails, LineAt rest ∧ ConditionAt rest) ∧
      ∀ t ∈ ts, t.Spelt := by
  simp only [List.mem_tails]
  constructor
  · intro h
    refine ⟨h.closed, fun rest hrest => ⟨?_, ?_⟩, h.spelt⟩
    · unfold LineAt
      split
      · exact h.lines _ _ _ _ hrest
      · trivial
    · unfold ConditionAt
      split
      · exact h.conditions _ _ _ hrest
      · trivial
  · rintro ⟨hclosed, hat, hspelt⟩
    exact ⟨hclosed, fun _ _ _ _ hrest => (hat _ hrest).1, fun _ _ _ hrest => (hat _ hrest).2,
      hspelt⟩

instance (ts : List Token) : Decidable (Undecided ts) :=
  decidable_of_iff' _ (undecided_iff_tails ts)

/-- The tokens without comments and without directives: the mark and the word of
each, and with a condition all that follows up to the next line. -/
def shown : List Token → List Token
  | mark :: word :: ts =>
    if startsDirective [mark, word] then
      if word.isKeywordWith Keyword.hasCondition then shown (ts.dropWhile (!startsLine ·))
      else shown ts
    else if mark.isComment then shown (word :: ts)
    else mark :: shown (word :: ts)
  | ts => ts.filter (!·.isComment)
termination_by ts => ts.length
decreasing_by
  · have hle := (List.dropWhile_sublist (l := ts) (!startsLine ·)).length_le
    simp only [List.length_cons]
    omega
  all_goals simp only [List.length_cons]; omega

/-- If the list starts with a directive, that is on a line of its own. -/
def LeadsLine (ts : List Token) : Prop :=
  startsDirective ts = true → ∀ mark ∈ ts.head?, startsLine mark = true

/-- The depth behind a directive with this word. -/
def depthPast (depth : Nat) (word : Token) : Nat :=
  if word.isKeywordWith Keyword.opensGroup then depth + 1
  else if word.isKeyword .endif_ then depth - 1
  else depth

/-- Nothing decides the condition in front of `behind`, if the word has one. -/
def Open (word : Token) (behind : List Token) : Prop :=
  word.isKeywordWith Keyword.hasCondition = true →
    Number.decodeText? (Text.trim (conditionText (behind.takeWhile (!startsLine ·)))) = none

/-- Tokens from a depth on, of which nothing decides the groups. -/
inductive Flow : Nat → List Token → Prop where
  | nil : Flow 0 []
  | token {depth : Nat} {t : Token} {ts : List Token} (plain : startsDirective (t :: ts) = false)
      (next : LeadsLine ts) (more : Flow depth ts) : Flow depth (t :: ts)
  | directive {depth : Nat} {mark word : Token} {ts : List Token}
      (starts : startsDirective [mark, word] = true) (word_is : word.is "#" = false)
      (inside : word.isKeywordWith Keyword.opensGroup = false → depth ≠ 0)
      (undecided : Open word ts) (next : LeadsLine ts)
      (more : Flow (depthPast depth word) ts) : Flow depth (mark :: word :: ts)

variable {table : RuleTable} {b : Branch} {depth : Nat} {ts : List Token}

theorem startsDirective_cons (mark word : Token) (ts : List Token) :
    startsDirective (mark :: word :: ts) = startsDirective [mark, word] := rfl

theorem closesAll_cons {t : Token} (h : startsDirective (t :: ts) = false) :
    closesAll depth (t :: ts) = closesAll depth ts := by
  cases ts with
  | nil => rfl
  | cons word ts => rw [closesAll, if_neg (by simpa [startsDirective] using h)]

theorem shown_cons {t : Token} (h : startsDirective (t :: ts) = false) :
    shown (t :: ts) = if t.isComment then shown ts else t :: shown ts := by
  cases ts with
  | nil => cases ht : t.isComment <;> simp [shown, ht]
  | cons word ts => rw [shown, if_neg (by simpa [startsDirective] using h)]

theorem shown_directive {mark word : Token} (h : startsDirective [mark, word] = true) :
    shown (mark :: word :: ts) = shown (splitCondition word ts).2 := by
  rw [shown, if_pos h, splitCondition]
  split <;> rfl

theorem exists_of_startsDirective (h : startsDirective ts = true) :
    ∃ mark word behind, ts = mark :: word :: behind := by
  cases ts with
  | nil => cases h
  | cons mark more =>
    cases more with
    | nil => cases h
    | cons word behind => exact ⟨mark, word, behind, rfl⟩

/-- What is said of each suffix of an input, said token by token. -/
theorem flow_of_suffixes (h : Undecided ts) :
    ∀ depth rest, rest <:+ ts → closesAll depth rest = true → Flow depth rest := by
  intro depth rest
  induction hlength : rest.length using Nat.strongRecOn generalizing depth rest with
  | ind n ih =>
      intro hsuffix hclosed
      have hleads : ∀ t more, rest = t :: more → LeadsLine more := by
        rintro t more rfl hstarts mark hmark
        obtain ⟨mark', word, behind, rfl⟩ := exists_of_startsDirective hstarts
        obtain rfl : mark' = mark := by simpa using hmark
        exact h.lines t mark' word behind hsuffix hstarts
      cases hstarts : startsDirective rest with
      | false =>
          cases rest with
          | nil =>
              obtain rfl : depth = 0 := by simpa [closesAll] using hclosed
              exact .nil
          | cons t more =>
              rw [closesAll_cons hstarts] at hclosed
              exact .token hstarts (hleads t more rfl) (ih more.length
                (by simp [← hlength]) depth more rfl ((List.suffix_cons t more).trans hsuffix)
                hclosed)
      | true =>
          obtain ⟨mark, word, behind, rfl⟩ := exists_of_startsDirective hstarts
          have hpair : startsDirective [mark, word] = true := hstarts
          have hmark : mark.is "#" = true ∧
              word.isKeywordWith Keyword.dividesGroup = true := by
            simpa [startsDirective] using hpair
          have hmem : word ∈ ts := hsuffix.subset (by simp)
          have hword : word.is "#" = false := by
            simpa [Token.is] using fun _ => (h.spelt word hmem).text_ne_mark hmark.2
          rw [closesAll, if_pos hpair] at hclosed
          have hbehind : behind <:+ mark :: word :: behind :=
            (List.suffix_cons word behind).trans (List.suffix_cons mark _)
          have hpast : (word.isKeywordWith Keyword.opensGroup = false → depth ≠ 0) ∧
              closesAll (depthPast depth word) behind = true := by
            unfold depthPast
            split at hclosed
            next hopens => simp [hopens, hclosed]
            · split at hclosed <;> simp_all
          refine .directive hpair hword hpast.1 (h.conditions mark word behind hsuffix hmark.1) ?_
            (ih behind.length (by simp [← hlength]) _ behind rfl
              (hbehind.trans hsuffix) hpast.2)
          intro hnext m hm
          obtain ⟨m', w, more, rfl⟩ := exists_of_startsDirective hnext
          obtain rfl : m' = m := by simpa using hm
          exact h.lines word m' w more ((List.suffix_cons mark _).trans hsuffix) hnext

theorem Undecided.flow (h : Undecided ts) : Flow 0 ts :=
  flow_of_suffixes h 0 ts (List.suffix_refl ts) h.closed

/-! ## The line of a condition -/

/-- What is behind the line that a list starts on is a flow as well. -/
theorem Flow.dropWhile (h : Flow depth ts) (hleads : LeadsLine ts) :
    Flow depth (ts.dropWhile (!startsLine ·)) := by
  induction h with
  | nil => exact .nil
  | @token depth t ts plain next more ih =>
      rw [List.dropWhile_cons]
      split
      · exact ih next
      · exact .token plain next more
  | @directive depth mark word ts starts word_is inside undecided next more ih =>
      rw [List.dropWhile_cons, if_neg (by simp [hleads starts mark (by simp)])]
      exact .directive starts word_is inside undecided next more

theorem leadsLine_dropWhile (ts : List Token) : LeadsLine (ts.dropWhile (!startsLine ·)) := by
  intro _ mark hmark
  have hhead := List.head?_dropWhile_not (!startsLine ·) ts
  rw [Option.mem_def.mp hmark] at hhead
  simpa using hhead

theorem Flow.splitCondition (h : Flow depth ts) (hleads : LeadsLine ts) (word : Token) :
    Flow depth (splitCondition word ts).2 ∧ LeadsLine (splitCondition word ts).2 := by
  unfold Conditional.splitCondition
  split
  · exact ⟨h.dropWhile hleads, leadsLine_dropWhile ts⟩
  · exact ⟨h, hleads⟩

/-- A comment in place of a directive is on a line of its own if the directive
was. -/
theorem startsLine_remark (mark word : Token) (condition : List Token) :
    startsLine (remark mark word condition) = startsLine mark := by
  have hmem : ∀ cs : List Char, '\n' ∈ cs.dropWhile (· != '\n') ↔ '\n' ∈ cs := by
    intro cs
    refine ⟨fun h => (List.dropWhile_sublist _).subset h, fun h => ?_⟩
    induction cs with
    | nil => exact h
    | cons c cs ih =>
        rw [List.dropWhile_cons]
        split
        next hc =>
          rcases List.mem_cons.mp h with rfl | h
          · simp at hc
          · exact ih h
        · exact h
  refine Bool.eq_iff_iff.mpr ?_
  simp only [startsLine, remark, Text.throughLastBreak, Text.hasChar, String.toList_ofList,
    List.contains_iff_mem, List.mem_reverse, hmem]

/-! ## Resolving a group -/

/-- All branches stay. -/
structure Branch.Whole (b : Branch) : Prop where
  rule : b.rule = none
  taken : b.taken = true
  served : b.served = true

namespace Branch.Whole

theorem note (h : b.Whole) : b.note = b := by
  obtain ⟨depth, rule, taken, served⟩ := b
  obtain ⟨rfl, rfl, rfl⟩ := h
  rfl

theorem keep (h : b.Whole) (ts : List Token) : b.keep ts = ts := by
  simp [Branch.keep, h.taken]

theorem atDepth (h : b.Whole) (depth : Nat) : Whole { b with depth } :=
  ⟨h.rule, h.taken, h.served⟩

end Branch.Whole

/-- Behind a directive that nothing decides, all branches stay. -/
theorem whole_note_after (htable : table.Bare) (hrule : b.rule = none) (htaken : b.taken = true)
    {word : Token} (hopen : Open word ts) (depth : Nat) :
    ({ b.after table word (splitCondition word ts).1 with depth }).note.Whole := by
  have hafter : (b.after table word (splitCondition word ts).1).rule = none ∧
      (b.after table word (splitCondition word ts).1).taken = true := by
    unfold Branch.after
    split
    next hcondition =>
      have hnumber := hopen hcondition
      simp only [splitCondition, if_pos hcondition, Branch.decide, htable.find?, ite_self, hnumber,
        hrule, Option.isNone_none, Bool.true_or, and_self]
    · split
      · simp [hrule]
      · exact ⟨hrule, htaken⟩
  exact ⟨hafter.1, hafter.2, by simp [Branch.note, hafter.2]⟩

theorem depthBehind_eq (depth : Nat) {mark word : Token}
    (h : startsDirective [mark, word] = true) :
    depthBehind depth mark word = depthPast depth word ∧
      depthAt depth mark word =
        if word.isKeywordWith Keyword.opensGroup then depth + 1 else depth := by
  have hmark : mark.is "#" = true := by
    simp only [startsDirective, Bool.and_eq_true] at h
    exact h.1
  have hboth : word.isKeywordWith Keyword.opensGroup = true → word.isKeyword .endif_ = false := by
    intro hopens
    rw [isKeyword_eq_keywordWith]
    exact keyword_disjoint (by intro k; cases k <;> decide) hopens
  unfold depthBehind depthAt depthPast
  cases hopens : word.isKeywordWith Keyword.opensGroup with
  | true => simp [hmark, hboth hopens]
  | false => simp [hmark]

/-- A directive of the group itself. -/
theorem resolveFrom_directive {mark word : Token} (h : startsDirective [mark, word] = true)
    (hdepth : depthAt b.depth mark word = 1) (ts : List Token) :
    resolveFrom table b (mark :: word :: ts) =
      remark mark word (splitCondition word ts).1 ::
        if word.isKeyword .endif_ && depthPast b.depth word == 0 then (splitCondition word ts).2
        else resolveFrom table
          { b.after table word (splitCondition word ts).1 with
            depth := depthPast b.depth word }.note (splitCondition word ts).2 := by
  obtain ⟨hmark, hword⟩ := Bool.and_eq_true_iff.mp h
  rw [← (depthBehind_eq b.depth h).1, resolveFrom_own table b hmark hword hdepth]

/-- Resolving starts where the tokens start, with the first of them or a comment
in its place. -/
theorem startsLine_head_resolveFrom (table : RuleTable) (hb : b.Whole) (ts : List Token) :
    ((resolveFrom table b ts).head?).map startsLine = ts.head?.map startsLine := by
  match ts with
  | [] => rw [resolveFrom]
  | [t] => rw [resolveFrom, if_pos hb.taken]
  | mark :: word :: ts =>
    unfold resolveFrom
    extract_lets inner depth
    split
    · exact congrArg some (startsLine_remark _ _ _)
    · rw [if_pos hb.taken]
      rfl

/-- Nothing is changed on the line of a condition. -/
theorem Flow.line_resolveFrom (table : RuleTable) (h : Flow depth ts) (hleads : LeadsLine ts)
    (hb : b.Whole) :
    (resolveFrom table b ts).takeWhile (!startsLine ·) = ts.takeWhile (!startsLine ·) ∧
      (resolveFrom table b ts).dropWhile (!startsLine ·) =
        resolveFrom table b (ts.dropWhile (!startsLine ·)) := by
  induction h with
  | nil => simp [resolveFrom]
  | @token depth t ts plain next more ih =>
      obtain ⟨htake, hdrop⟩ := ih next
      rw [resolveFrom_token table hb.note plain, hb.keep, List.singleton_append]
      cases ht : startsLine t with
      | false => simp [ht, htake, hdrop]
      | true => simp [ht, resolveFrom_token table hb.note plain, hb.keep]
  | @directive depth mark word ts starts word_is inside undecided next more ih =>
      have hline := hleads starts mark (by simp)
      have hhead := startsLine_head_resolveFrom table hb (mark :: word :: ts)
      cases hresolved : resolveFrom table b (mark :: word :: ts) with
      | nil => simp [hresolved] at hhead
      | cons t rest =>
          have ht : startsLine t = true := by simpa [hresolved, hline] using hhead
          simp [ht, hline, hresolved]

/-- If resolving gives a directive first, that was there before. -/
theorem startsDirective_resolveFrom (hb : b.Whole) (t : Token)
    (h : startsDirective (t :: resolveFrom table b ts) = true) :
    startsDirective (t :: ts) = true := by
  cases ts with
  | nil => simpa [resolveFrom] using h
  | cons word ts =>
      obtain ⟨u, hu, hcases⟩ := @head?_resolveFrom table b hb.taken word ts
      cases hresolved : resolveFrom table b (word :: ts) with
      | nil => simp [hresolved] at hu
      | cons first rest =>
          obtain rfl : first = u := by simpa [hresolved] using hu
          rw [hresolved] at h
          rcases hcases with rfl | hcomment
          · exact h
          · simp [startsDirective, isKeywordWith_of_isComment hcomment] at h

/-- **One level less.** Resolving the rest of a group takes its own directives
out. What is inside it and behind it stays, and so does what is shown. -/
theorem Flow.resolveFrom (htable : table.Bare) (h : Flow depth ts) (hleads : LeadsLine ts)
    (hb : b.Whole) (hdepth : b.depth = depth) (hpos : depth ≠ 0) :
    Flow (depth - 1) (resolveFrom table b ts) ∧ LeadsLine (resolveFrom table b ts) ∧
      shown (resolveFrom table b ts) = shown ts := by
  induction hlength : ts.length using Nat.strongRecOn generalizing depth ts b with
  | ind n ih =>
      cases h with
      | nil => exact absurd rfl hpos
      | @token _ t ts plain next more =>
          obtain ⟨hflow, hnext, hshown⟩ := ih ts.length (by simp [← hlength]) more next hb hdepth
            hpos rfl
          have hplain : startsDirective (t :: Conditional.resolveFrom table b ts) = false := by
            refine Bool.eq_false_iff.mpr fun hstarts => ?_
            rw [startsDirective_resolveFrom hb t hstarts] at plain
            cases plain
          rw [resolveFrom_token table hb.note plain, hb.keep, List.singleton_append]
          refine ⟨.token hplain hnext hflow, fun hstarts => ?_, ?_⟩
          · rw [hplain] at hstarts
            cases hstarts
          · rw [shown_cons hplain, shown_cons plain, hshown]
      | @directive _ mark word ts starts word_is inside undecided next more =>
          obtain ⟨hbehind, hat⟩ := depthBehind_eq b.depth starts
          have hline := hleads starts mark (by simp)
          obtain ⟨hsplit, hsplitLeads⟩ := more.splitCondition next word
          have hshorter := length_splitCondition_le word ts
          by_cases hown : depthAt b.depth mark word = 1
          · -- the directive belongs to the group and becomes a comment
            have hplain : ∀ rest, startsDirective
                (remark mark word (Conditional.splitCondition word ts).1 :: rest) = false :=
              startsDirective_of_not_is (remark_is_mark _ _ _)
            have hopens : word.isKeywordWith Keyword.opensGroup = false := by
              refine Bool.eq_false_iff.mpr fun hopens => ?_
              rw [hat, if_pos hopens] at hown
              omega
            have hdepthOne : depth = 1 := by
              rw [hat, hopens] at hown
              simpa [hdepth] using hown
            subst hdepthOne
            rw [resolveFrom_directive starts hown, shown_directive starts]
            have hgoal : ∀ rest, Flow 0 rest ∧ LeadsLine rest ∧
                shown rest = shown (Conditional.splitCondition word ts).2 →
                Flow (1 - 1) (remark mark word (Conditional.splitCondition word ts).1 :: rest) ∧
                LeadsLine (remark mark word (Conditional.splitCondition word ts).1 :: rest) ∧
                shown (remark mark word (Conditional.splitCondition word ts).1 :: rest) =
                  shown (Conditional.splitCondition word ts).2 := by
              rintro rest ⟨hflow, hnext, hshown⟩
              refine ⟨.token (hplain rest) hnext hflow, fun hstarts => ?_, ?_⟩
              · rw [hplain rest] at hstarts
                cases hstarts
              · rw [shown_cons (hplain rest), if_pos (isComment_remark _ _ _), hshown]
            refine hgoal _ ?_
            cases hend : word.isKeyword .endif_ with
            | true =>
                have hpast : depthPast b.depth word = 0 := by
                  simp [depthPast, hopens, hend, hdepth]
                have hpast' : depthPast 1 word = 0 := by simp [depthPast, hopens, hend]
                rw [hpast, if_pos (by simp)]
                exact ⟨hpast' ▸ hsplit, hsplitLeads, rfl⟩
            | false =>
                have hpast : depthPast b.depth word = 1 := by
                  simp [depthPast, hopens, hend, hdepth]
                have hpast' : depthPast 1 word = 1 := by simp [depthPast, hopens, hend]
                rw [if_neg (by simp)]
                rw [hpast'] at hsplit
                refine ih _ ?_ hsplit hsplitLeads
                  (whole_note_after htable hb.rule hb.taken undecided _) hpast Nat.one_ne_zero rfl
                simp only [← hlength, List.length_cons]
                omega
          · -- the directive belongs to a group inside and stays
            have hname : isName Keyword.dividesGroup word = true := by
              simp only [startsDirective, Bool.and_eq_true] at starts
              have hkeyword : word.isEof = false := Token.isEof_of_isKeywordWith starts.2
              simp only [isName, starts.2, Bool.true_and, bne_iff_ne, ne_eq]
              intro htext
              simp [Token.is, htext, Token.isEof] at word_is hkeyword
              exact hkeyword word_is
            have hpastPos : depthPast depth word ≠ 0 := by
              rw [hat, hdepth] at hown
              unfold depthPast
              split
              · omega
              next hopens =>
                rw [if_neg hopens] at hown
                split <;> omega
            have hpast : depthPast (depth - 1) word = depthPast depth word - 1 := by
              unfold depthPast
              split
              · omega
              · split <;> rfl
            have hinner : (word.isKeywordWith Keyword.opensGroup = false → depth - 1 ≠ 0) := by
              intro hopens
              rw [hat, hopens, hdepth] at hown
              simp only [Bool.false_eq_true, if_false] at hown
              omega
            rw [resolveFrom_inner table hb.note hname hown, hb.keep, hbehind, hdepth]
            have hb' := hb.atDepth (depthPast depth word)
            obtain ⟨hflow, hnext, -⟩ := ih ts.length (by simp [← hlength]) more next hb'
              rfl hpastPos rfl
            obtain ⟨htake, hdrop⟩ := more.line_resolveFrom table next hb'
            have hopen : Open word
                (Conditional.resolveFrom table { b with depth := depthPast depth word } ts) := by
              intro hcondition
              rw [htake]
              exact undecided hcondition
            refine ⟨.directive starts word_is hinner hopen hnext (hpast ▸ hflow), fun _ m hm => ?_,
              ?_⟩
            · obtain rfl : mark = m := by simpa using hm
              exact hline
            · obtain ⟨-, -, hshown⟩ := ih _ (by simp only [← hlength, List.length_cons]; omega)
                hsplit hsplitLeads hb' rfl hpastPos rfl
              have heq : (Conditional.splitCondition word
                  (Conditional.resolveFrom table { b with depth := depthPast depth word } ts)).2 =
                  Conditional.resolveFrom table { b with depth := depthPast depth word }
                    (Conditional.splitCondition word ts).2 := by
                unfold Conditional.splitCondition
                split
                · exact hdrop
                · rfl
              change shown (mark :: word :: Conditional.resolveFrom table
                { b with depth := depthPast depth word } ts) = _
              rw [shown_directive starts, shown_directive starts, heq, hshown]

/-- **A whole group.** Resolving the group in front takes its own directives out,
and what is shown stays the same. -/
theorem resolve_flow (htable : table.Bare) (h : Flow 0 ts) (hopens : opens ts = true) :
    Flow 0 (resolve table ts) ∧ shown (resolve table ts) = shown ts := by
  cases h with
  | nil => cases hopens
  | @token _ t ts plain next more =>
      match ts, hopens with
      | word :: ts, hopens =>
        simp only [opens, Bool.and_eq_true] at hopens
        simp [startsDirective, hopens.1,
          keyword_imp (q := Keyword.dividesGroup) (by intro k; cases k <;> decide) hopens.2] at plain
  | @directive _ mark word ts starts word_is inside undecided next more =>
      have hword : word.isKeywordWith Keyword.opensGroup = true := by
        simp only [opens, Bool.and_eq_true] at hopens
        exact hopens.2
      obtain ⟨-, hat⟩ := depthBehind_eq ({} : Branch).depth starts
      have hpast : depthPast 0 word = 1 := by simp [depthPast, hword]
      have hend : word.isKeyword .endif_ = false := by
        rw [isKeyword_eq_keywordWith]
        exact keyword_disjoint (by intro k; cases k <;> decide) hword
      rw [hpast] at more
      obtain ⟨hsplit, hsplitLeads⟩ := more.splitCondition next word
      obtain ⟨hflow, hnext, hshown⟩ := hsplit.resolveFrom htable hsplitLeads
        (whole_note_after (b := {}) htable rfl rfl undecided (depthPast 0 word)) hpast
        Nat.one_ne_zero
      have hplain : ∀ rest, startsDirective
          (remark mark word (splitCondition word ts).1 :: rest) = false :=
        startsDirective_of_not_is (remark_is_mark _ _ _)
      rw [resolve, resolveFrom_directive starts (by rw [hat, if_pos hword]), hend,
        if_neg (by simp)]
      refine ⟨.token (hplain _) hnext hflow, ?_⟩
      rw [shown_cons (hplain _), if_pos (isComment_remark _ _ _), shown_directive starts]
      exact hshown

end Conditional

namespace Window

open Conditional

variable {table : RuleTable} {tokens tokens' : Array Token} {i j : Nat}

/-! ## What the cursor shows -/

theorem drop_eq_cons (h : i < tokens.size) :
    tokens.toList.drop i = tokens[i] :: tokens.toList.drop (i + 1) := by
  rw [List.drop_eq_getElem_cons (by simpa using h)]
  rfl

/-- At the outermost level, only a directive that opens a group is in front. -/
theorem startsDirective_of_flow {ts : List Token} (h : Flow 0 ts) (hopens : opens ts = false) :
    startsDirective ts = false := by
  cases h with
  | nil => rfl
  | token plain _ _ => exact plain
  | directive starts _ inside _ _ _ =>
      simp only [startsDirective, Bool.and_eq_true] at starts
      refine absurd rfl (inside ?_)
      simpa [opens, starts.1] using hopens

/-- Preprocessing a position leaves what is shown from there on. -/
theorem visit_flow (htable : table.Bare) (h : Flow 0 (tokens.toList.drop i)) :
    Flow 0 ((visit table tokens i).toList.drop i) ∧
      shown ((visit table tokens i).toList.drop i) = shown (tokens.toList.drop i) := by
  cases hopens : opensAt tokens i with
  | false =>
      rw [visit_of_not_opensAt htable.plain hopens]
      exact ⟨h, rfl⟩
  | true =>
      have hi : i ≤ tokens.size := (visit_of_opensAt htable.plain hopens).1.le
      have hvisit : (visit table tokens i).toList.drop i =
          resolve table (tokens.toList.drop i) := by
        rw [visit_of_plain htable.plain, resolveAt, if_pos hopens, ← tail_eq_drop, ← tail_eq_drop,
          tail_replaceTail hi]
      rw [hvisit]
      exact resolve_flow htable h (by rwa [← opensAt_eq_opens])

/-- A visible token that no group starts with is the first that is shown. -/
theorem shown_of_faces (h : Flow 0 (tokens.toList.drop j)) (hfaces : Faces tokens i j) :
    shown (tokens.toList.drop j) =
      if hj : j < tokens.size then tokens[j] :: shown (tokens.toList.drop (j + 1)) else [] := by
  split
  next hj =>
    have hopens := hfaces.visited j hfaces.le (Nat.le_refl j)
    have hstarts := startsDirective_of_flow h (by rwa [← opensAt_eq_opens])
    have hcomment : tokens[j].isComment = false := by
      simpa [CommentAt, hj] using hfaces.stops
    rw [drop_eq_cons hj] at hstarts ⊢
    simp [shown_cons hstarts, hcomment]
  next hj =>
    rw [List.drop_of_length_le (by simpa using Nat.le_of_not_lt hj), shown]
    · rfl
    · simp

/-- Behind a token that starts no directive there is a flow as well. -/
theorem flow_behind {t : Token} {ts : List Token} (h : Flow 0 (t :: ts))
    (hstarts : startsDirective (t :: ts) = false) : Flow 0 ts := by
  cases h with
  | token _ _ more => exact more
  | directive starts _ _ _ _ _ =>
      rw [startsDirective_cons, starts] at hstarts
      cases hstarts

/-- A search for the next visible token passes over nothing that is shown. -/
theorem shown_of_seek (htable : table.Bare) (fuel : Nat) : ∀ s : Search, s.count = 0 →
    Flow 0 (s.tokens.toList.drop s.index) →
    seek table fuel s.tokens s.index s.count = some (tokens', j) →
    Flow 0 (tokens'.toList.drop j) ∧
      shown (tokens'.toList.drop j) = shown (s.tokens.toList.drop s.index) := by
  induction fuel with
  | zero =>
      intro s _ _ hseek
      cases hseek
  | succ fuel ih =>
      intro s hcount hflow hseek
      obtain ⟨hvisited, hshown⟩ := visit_flow htable hflow
      have hself := opensAt_visit_self htable.plain s.tokens s.index
      rw [Search.seek_succ] at hseek
      cases hadvance : s.advance table with
      | none =>
          simp only [hadvance] at hseek
          rw [visit_of_not_opensAt htable.plain hself] at hseek
          cases hseek
          exact ⟨hvisited, hshown⟩
      | some s' =>
          simp only [hadvance] at hseek
          obtain ⟨-, htokens, hindex, hle⟩ := Search.advance_eq_some hadvance
          obtain ⟨hcount', hcomment⟩ := Search.advance_of_count_eq_zero hadvance hcount
          have hlt : s.index < s'.tokens.size := by omega
          rw [htokens] at hlt hcomment
          have hstarts := startsDirective_of_flow hvisited (by rwa [← opensAt_eq_opens])
          rw [drop_eq_cons hlt] at hvisited hshown hstarts
          have hskip : (visit table s.tokens s.index)[s.index].isComment = true := by
            simpa [CommentAt, hlt] using hcomment
          rw [shown_cons hstarts, if_pos hskip] at hshown
          have hrest := ih s' hcount' (by
            rw [htokens, hindex]
            exact flow_behind hvisited hstarts) hseek
          rw [htokens, hindex, hshown] at hrest
          exact hrest

/-- A search past the visible token that the cursor faces passes over that alone
of what is shown. -/
theorem shown_of_seek_next (htable : table.Bare) (fuel : Nat) : ∀ s : Search, s.count = 1 →
    Faces s.tokens s.index i → Flow 0 (s.tokens.toList.drop i) →
    seek table fuel s.tokens s.index s.count = some (tokens', j) →
    Flow 0 (tokens'.toList.drop j) ∧
      shown (tokens'.toList.drop j) = (shown (s.tokens.toList.drop i)).tail := by
  induction fuel with
  | zero =>
      intro s _ _ _ hseek
      cases hseek
  | succ fuel ih =>
      intro s hcount hfaces hflow hseek
      have hopens := hfaces.visited s.index (Nat.le_refl _) hfaces.le
      have hvisit := visit_of_not_opensAt htable.plain hopens
      rw [Search.seek_succ] at hseek
      by_cases hlt : s.index < s.tokens.size
      · rcases Nat.eq_or_lt_of_le hfaces.le with heq | hbefore
        · -- here is the visible token
          have hvisible : s.tokens[s.index].isComment = false := by
            have hstops := hfaces.stops
            rw [← heq] at hstops
            simpa [CommentAt, hlt] using hstops
          have hadvance : s.advance table = some ⟨s.tokens, s.index + 1, 0⟩ := by
            simp [Search.advance, hlt, hvisit, hvisible, hcount]
          simp only [hadvance] at hseek
          have hstarts := startsDirective_of_flow hflow (by
            rwa [← opensAt_eq_opens, ← heq])
          rw [shown_of_faces hflow hfaces, ← heq, dif_pos hlt, List.tail_cons]
          rw [← heq, drop_eq_cons hlt] at hflow hstarts
          exact shown_of_seek htable fuel ⟨s.tokens, s.index + 1, 0⟩ rfl (flow_behind hflow hstarts) hseek
        · have hcomment : s.tokens[s.index].isComment = true := by
            simpa [CommentAt, hlt] using hfaces.comments s.index (Nat.le_refl _) hbefore
          have hadvance : s.advance table = some ⟨s.tokens, s.index + 1, 1⟩ := by
            simp [Search.advance, hlt, hvisit, hcomment, hcount]
          simp only [hadvance] at hseek
          exact ih ⟨s.tokens, s.index + 1, 1⟩ rfl ⟨hbefore,
            fun k hk => hfaces.comments k (Nat.le_of_succ_le hk),
            fun k hk => hfaces.visited k (Nat.le_of_succ_le hk), hfaces.stops⟩ hflow hseek
      · have hadvance : s.advance table = none := by simp [Search.advance, hlt]
        simp only [hadvance, hvisit] at hseek
        cases hseek
        have hbehind : s.tokens.toList.drop s.index = [] := by simp; omega
        have hle := hfaces.le
        have hnone : s.tokens.toList.drop i = [] := by simp; omega
        rw [hbehind, hnone]
        exact ⟨.nil, by simp [shown]⟩

/-! ## Walks -/

/-- The token that a walk shows after a number of steps, and where it stands. -/
def walk (fuel : Nat) (table : RuleTable) (w : Window) : Nat → Option (Token × Window)
  | 0 => w.get fuel table 0
  | n + 1 => (walk fuel table w n).bind fun r => r.2.next fuel table

/-- The cursor faces the first of these tokens; the others are shown behind it. -/
structure Presents (w : Window) (ts : List Token) : Prop where
  raw : w.raw = false
  faced : ∃ j, Faces w.tokens w.index j ∧ Flow 0 (w.tokens.toList.drop j) ∧
    shown (w.tokens.toList.drop j) = ts

/-- What is shown first is the token at the position that is faced. -/
theorem tokenAt_of_faces (h : Flow 0 (tokens.toList.drop j)) (hfaces : Faces tokens i j) :
    (∀ t, (shown (tokens.toList.drop j)).head? = some t → tokenAt tokens j = t) ∧
      (shown (tokens.toList.drop j) = [] → (tokenAt tokens j).isEof = true) := by
  rw [shown_of_faces h hfaces]
  unfold tokenAt
  split
  next hj => simp [hj]
  next hj =>
    have hface := face_tokenAt tokens j
    rw [tokenAt, Array.getElem?_eq_none (Nat.le_of_not_lt hj)] at hface
    have hkind := congrArg Prod.fst hface
    refine ⟨by simp, fun _ => ?_⟩
    rw [Array.getElem?_eq_none (Nat.le_of_not_lt hj)]
    exact beq_iff_eq.mpr hkind

theorem get_presents (htable : table.Bare) {ts : List Token} (h : Flow 0 ts) {fuel : Nat}
    (hfuel : ts.length < fuel) :
    ∃ t w, (ofTokens ts).get fuel table 0 = some (t, w) ∧ w.size ≤ ts.length ∧
      w.Presents (shown ts) ∧ (∀ u, (shown ts).head? = some u → t = u) ∧
      (shown ts = [] → t.isEof = true) := by
  obtain ⟨⟨tokens', j⟩, hseek⟩ := Option.isSome_iff_exists.mp
    (seek_isSome_of_plain htable.plain fuel ⟨ts.toArray, 0, 0⟩ (by simpa using hfuel))
  have hfaces := faces_of_seek htable.plain fuel ⟨ts.toArray, 0, 0⟩ rfl hseek
  have hsize := (thins_of_seek htable.plain fuel ⟨ts.toArray, 0, 0⟩ hseek).size_le
  obtain ⟨hflow, hshown⟩ := shown_of_seek htable fuel ⟨ts.toArray, 0, 0⟩ rfl h hseek
  obtain ⟨hhead, hend⟩ := tokenAt_of_faces hflow hfaces
  simp only [List.drop_zero] at hshown
  rw [hshown] at hhead hend
  refine ⟨tokenAt tokens' j, ⟨tokens', 0, false⟩, ?_, hsize.trans (by simp),
    ⟨rfl, j, hfaces, hflow, hshown⟩, fun u hu => hhead u hu, hend⟩
  simp only at hseek
  simp [get, position, ofTokens, hseek]

theorem next_presents (htable : table.Bare) {w : Window} {ts : List Token} (h : w.Presents ts)
    {fuel : Nat} (hfuel : w.size < fuel) :
    ∃ t w', w.next fuel table = some (t, w') ∧ w'.size ≤ w.size ∧ w'.Presents ts.tail ∧
      (∀ u, ts.tail.head? = some u → t = u) ∧ (ts.tail = [] → t.isEof = true) := by
  obtain ⟨hraw, i, hfaces, hflow, rfl⟩ := h
  obtain ⟨⟨tokens', j⟩, hseek⟩ := Option.isSome_iff_exists.mp
    (seek_isSome_of_plain htable.plain fuel ⟨w.tokens, w.index, 1⟩
      (Nat.lt_of_le_of_lt (Nat.sub_le _ _) hfuel))
  have hself := faces_self_of_seek htable.plain fuel ⟨w.tokens, w.index, 1⟩ hseek
  have hsize := (thins_of_seek htable.plain fuel ⟨w.tokens, w.index, 1⟩ hseek).size_le
  obtain ⟨hflow', hshown⟩ :=
    shown_of_seek_next htable fuel ⟨w.tokens, w.index, 1⟩ rfl hfaces hflow hseek
  obtain ⟨hhead, hend⟩ := tokenAt_of_faces hflow' hself
  rw [hshown] at hhead hend
  refine ⟨tokenAt tokens' j, ⟨tokens', j, false⟩, ?_, hsize, ⟨rfl, j, hself, hflow', hshown⟩,
    fun u hu => hhead u hu, hend⟩
  simp only at hseek
  simp [next_eq hraw, hseek]

/-- **Undecided groups are transparent.** Without rules, a walk over an input
whose conditions nothing decides shows its tokens without comments and
directives, each once and in order, and then the end again and again. -/
theorem walk_shows (htable : table.Bare) {ts : List Token} (h : Undecided ts) {fuel : Nat}
    (hfuel : ts.length < fuel) (n : Nat) :
    ∃ t w, walk fuel table (ofTokens ts) n = some (t, w) ∧
      match (shown ts)[n]? with
      | some u => t = u
      | none => t.isEof = true := by
  have hwalk : ∃ t w, walk fuel table (ofTokens ts) n = some (t, w) ∧ w.size ≤ ts.length ∧
      w.Presents ((shown ts).drop n) ∧
      (∀ u, ((shown ts).drop n).head? = some u → t = u) ∧
      ((shown ts).drop n = [] → t.isEof = true) := by
    induction n with
    | zero => simpa [walk] using get_presents htable h.flow hfuel
    | succ n ih =>
        obtain ⟨t, w, hw, hsize, hpresents, -⟩ := ih
        obtain ⟨t', w', hw', hsize', hnext⟩ :=
          next_presents htable hpresents (Nat.lt_of_le_of_lt hsize hfuel)
        rw [List.tail_drop] at hnext
        exact ⟨t', w', by rw [walk, hw, Option.bind_some, hw'], hsize'.trans hsize, hnext⟩
  obtain ⟨t, w, hw, -, -, hhead, hend⟩ := hwalk
  refine ⟨t, w, hw, ?_⟩
  rw [List.head?_drop] at hhead
  split
  next u hu => exact hhead u hu
  next hnone => exact hend (List.drop_eq_nil_of_le (List.getElem?_eq_none_iff.mp hnone))

/-- A group in a branch of another, and a walk that steps over both into the
line behind. -/
theorem walk_shows_behind_nested :
    let ts := Token.ofText none
      "#if A > 1\nint a; // first\n#ifdef B\nb\n#else\nc\n#endif\n#endif\nlast"
    Undecided ts ∧ ts.length < 30 ∧
      ∃ t w, walk 30 {} (ofTokens ts) 5 = some (t, w) ∧ t.text = "last" := by
  intro ts
  obtain ⟨hts, hfuel, hlast⟩ : Undecided ts ∧ ts.length < 30 ∧
      ((shown ts)[5]?).map Token.text = some "last" := by
    decide +kernel
  refine ⟨hts, hfuel, ?_⟩
  have hbare : RuleTable.Bare {} := by simp [RuleTable.Bare, RuleTable.layers]
  obtain ⟨t, w, hw, ht⟩ := walk_shows hbare hts hfuel 5
  obtain ⟨u, hu, htext⟩ := Option.map_eq_some_iff.mp hlast
  rw [hu] at ht
  exact ⟨t, w, hw, ht ▸ htext⟩

end Window

end HeaderPeers

import HeaderPeers.Proofs.Window.Basic

/-!
# Which branches of a conditional group stay

A group is a chain of branches with a condition, perhaps one without, and the
`#endif`. The branches may hold groups of their own.

- `Nested` — the bodies of branches: every group that is opened is closed.
  Resolving passes over such a body and keeps it whole or not at all
  (`resolveFrom_nested`).
- `Group` — a group as it is written, with each directive on a line of its
  own.
- `resolve_group` — which bodies stay if every condition is decided: each one
  whose own condition is true, and that of `#else` if the condition before it
  is false or a number.
- `resolveAt_group_iff` — so the first true branch alone stays just if no later
  one can stay too.
-/

namespace HeaderPeers.Conditional

/-! ## Directives -/

/-- The mark of a directive. -/
def isHash (t : Token) : Bool :=
  t.kind == .punct && t.text == "#"

/-- A reserved word that names a directive. -/
def isName (p : Keyword → Bool) (t : Token) : Bool :=
  t.isKeywordWith p && t.text != "#"

/-- Whether a directive of some group stands in front. -/
def startsDirective : List Token → Bool
  | mark :: word :: _ => mark.is "#" && word.isKeywordWith Keyword.dividesGroup
  | _ => false

theorem is_of_isHash {t : Token} (h : isHash t = true) : t.is "#" = true := by
  simp only [isHash, Bool.and_eq_true, beq_iff_eq] at h
  simp [Token.is, h.1, h.2]

theorem not_keyword_of_isHash {t : Token} (h : isHash t = true)
    (p : Keyword → Bool) : t.isKeywordWith p = false := by
  simp only [isHash, Bool.and_eq_true, beq_iff_eq] at h
  simp [Token.isKeywordWith, h.1]

theorem keyword_of_isName {t : Token} {p : Keyword → Bool}
    (h : isName p t = true) : t.isKeywordWith p = true := by
  simp only [isName, Bool.and_eq_true] at h
  exact h.1

theorem not_is_of_isName {t : Token} {p : Keyword → Bool}
    (h : isName p t = true) : t.is "#" = false := by
  simp only [isName, Bool.and_eq_true, bne_iff_ne, ne_eq] at h
  simp [Token.is, h.2]

theorem isKeyword_eq_keywordWith (t : Token) (k : Keyword) :
    t.isKeyword k = t.isKeywordWith (· == k) := by
  obtain ⟨kind, text, spacing, location⟩ := t
  cases kind <;> simp [Token.isKeyword, Token.isKeywordWith]

theorem keyword_imp {t : Token} {p q : Keyword → Bool}
    (hpq : ∀ k, p k = true → q k = true) (h : t.isKeywordWith p = true) :
    t.isKeywordWith q = true := by
  unfold Token.isKeywordWith at h ⊢
  split at h
  · exact hpq _ h
  · exact Bool.noConfusion h

theorem isName_imp {t : Token} {p q : Keyword → Bool}
    (hpq : ∀ k, p k = true → q k = true) (h : isName p t = true) :
    isName q t = true := by
  simp only [isName, Bool.and_eq_true] at h ⊢
  exact ⟨keyword_imp hpq h.1, h.2⟩

/-- A token is one reserved word at most. -/
theorem keyword_disjoint {t : Token} {p q : Keyword → Bool}
    (hpq : ∀ k, p k = true → q k = false) (h : t.isKeywordWith p = true) :
    t.isKeywordWith q = false := by
  unfold Token.isKeywordWith at h ⊢
  split at h
  · exact hpq _ h
  · exact Bool.noConfusion h

theorem startsDirective_of_not_is {t : Token} (h : t.is "#" = false)
    (ts : List Token) : startsDirective (t :: ts) = false := by
  cases ts with
  | nil => rfl
  | cons w ts => simp [startsDirective, h]

/-- What stands in front of a mark starts no directive with it. -/
theorem startsDirective_append_hash {t hash : Token} {ts : List Token}
    (h : startsDirective (t :: ts) = false) (hh : isHash hash = true)
    (rest : List Token) : startsDirective (t :: (ts ++ hash :: rest)) = false := by
  cases ts with
  | nil => simp [startsDirective, not_keyword_of_isHash hh]
  | cons w ts => exact h

/-! ## Steps of resolving -/

namespace Branch

/-- The tokens of this branch that stay. -/
def keep (b : Branch) (ts : List Token) : List Token :=
  if b.taken then ts else []

theorem keep_nil (b : Branch) : b.keep [] = [] := by
  simp [keep]

theorem keep_cons (b : Branch) (t : Token) (ts : List Token) :
    b.keep (t :: ts) = b.keep [t] ++ b.keep ts := by
  cases h : b.taken <;> simp [keep, h]

theorem keep_append (b : Branch) (xs ys : List Token) :
    b.keep (xs ++ ys) = b.keep xs ++ b.keep ys := by
  cases h : b.taken <;> simp [keep, h]

theorem note_note (b : Branch) : b.note.note = b.note := by
  cases h : b.taken <;> simp [note, h]

/-- The depth has nothing to do with what was served. -/
theorem note_depth {b : Branch} (hb : b.note = b) (n : Nat) :
    { b with depth := n }.note = { b with depth := n } := by
  have hs : (b.served || b.taken) = b.served := congrArg Branch.served hb
  simp [note, hs]

end Branch

/-- The depth that a mark and the word behind it stand at. -/
def depthAt (depth : Nat) (mark word : Token) : Nat :=
  if mark.is "#" && word.isKeywordWith Keyword.opensGroup then depth + 1 else depth

/-- The depth behind a mark and the word behind it. -/
def depthBehind (depth : Nat) (mark word : Token) : Nat :=
  if mark.is "#" && word.isKeyword .endif_ then depthAt depth mark word - 1
  else depthAt depth mark word

/-- A mark that is no directive of the group itself is a token like any other;
it only moves the depth. -/
theorem resolveFrom_other (table : RuleTable) (b : Branch) {mark word : Token}
    (ts : List Token)
    (h : startsDirective (mark :: word :: ts) = false ∨ depthAt b.depth mark word ≠ 1) :
    resolveFrom table b (mark :: word :: ts) = b.keep [mark] ++
      resolveFrom table { b with depth := depthBehind b.depth mark word }.note (word :: ts) := by
  have hother : (mark.is "#" && depthAt b.depth mark word == 1
      && word.isKeywordWith Keyword.dividesGroup) = false := by
    rcases h with h | h
    · simp only [startsDirective, Bool.and_eq_false_iff] at h
      rcases h with h | h <;> simp [h]
    · simp [h]
  rw [resolveFrom]
  change (if (mark.is "#" && depthAt b.depth mark word == 1
      && word.isKeywordWith Keyword.dividesGroup) = true then _ else _) = _
  rw [hother, if_neg Bool.false_ne_true]
  change (if b.taken = true then
      mark :: resolveFrom table { b with depth := depthBehind b.depth mark word }.note (word :: ts)
    else resolveFrom table { b with depth := depthBehind b.depth mark word }.note (word :: ts)) = _
  cases ht : b.taken <;> simp [Branch.keep, ht]

theorem resolveFrom_pass (table : RuleTable) {b : Branch} (hb : b.note = b)
    {mark word : Token} (ts : List Token)
    (h : startsDirective (mark :: word :: ts) = false ∨ depthAt b.depth mark word ≠ 1) :
    resolveFrom table b (mark :: word :: ts) =
      b.keep [mark] ++
        resolveFrom table { b with depth := depthBehind b.depth mark word } (word :: ts) := by
  rw [resolveFrom_other table b ts h, Branch.note_depth hb]

theorem depthBehind_of_not_startsDirective {n : Nat} {mark word : Token}
    {ts : List Token} (h : startsDirective (mark :: word :: ts) = false) :
    depthBehind n mark word = n := by
  simp only [startsDirective, Bool.and_eq_false_iff] at h
  rcases h with h | h
  · simp [depthBehind, depthAt, h]
  · have hopen : word.isKeywordWith Keyword.opensGroup = false := by
      refine Bool.eq_false_iff.mpr fun ho => ?_
      rw [keyword_imp (by intro k; cases k <;> decide) ho] at h
      exact Bool.noConfusion h
    have hend : word.isKeyword .endif_ = false := by
      rw [isKeyword_eq_keywordWith]
      refine Bool.eq_false_iff.mpr fun he => ?_
      rw [keyword_imp (by intro k; cases k <;> decide) he] at h
      exact Bool.noConfusion h
    simp [depthBehind, depthAt, hopen, hend]

/-- A token that starts no directive. -/
theorem resolveFrom_plain (table : RuleTable) (b : Branch) {t : Token} {ts : List Token}
    (h : startsDirective (t :: ts) = false) :
    resolveFrom table b (t :: ts) = b.keep [t] ++ resolveFrom table b.note ts := by
  cases ts with
  | nil =>
      rw [resolveFrom, resolveFrom, List.append_nil]
      rfl
  | cons word ts =>
      rw [resolveFrom_other table b ts (Or.inl h), depthBehind_of_not_startsDirective h]

theorem resolveFrom_token (table : RuleTable) {b : Branch} (hb : b.note = b)
    {t : Token} {ts : List Token} (h : startsDirective (t :: ts) = false) :
    resolveFrom table b (t :: ts) = b.keep [t] ++ resolveFrom table b ts := by
  rw [resolveFrom_plain table b h, hb]

/-- A directive of an inner group: both its tokens stay or go with the branch. -/
theorem resolveFrom_inner (table : RuleTable) {b : Branch} (hb : b.note = b)
    {mark word : Token} {p : Keyword → Bool} (hword : isName p word = true)
    (hdepth : depthAt b.depth mark word ≠ 1) (ts : List Token) :
    resolveFrom table b (mark :: word :: ts) =
      b.keep [mark, word] ++
        resolveFrom table { b with depth := depthBehind b.depth mark word } ts := by
  have hplain := startsDirective_of_not_is (not_is_of_isName hword) ts
  rw [resolveFrom_pass table hb ts (Or.inr hdepth),
    resolveFrom_token table (Branch.note_depth hb _) hplain, b.keep_cons mark [word],
    List.append_assoc]
  rfl

/-! ## Bodies -/

/-- A list of tokens in which every group that is opened is closed. Directives
that divide a group stand in an inner group only. -/
inductive Nested : Bool → List Token → Prop
  | nil {inner : Bool} : Nested inner []
  | token {inner : Bool} {t : Token} {ts : List Token}
      (plain : startsDirective (t :: ts) = false) (more : Nested inner ts) :
      Nested inner (t :: ts)
  | divider {mark word : Token} {ts : List Token} (hash : isHash mark = true)
      (name : isName (fun k => k == .elif_ || k == .else_) word = true)
      (more : Nested true ts) : Nested true (mark :: word :: ts)
  | group {inner : Bool} {mark word close last : Token} {body ts : List Token}
      (hash : isHash mark = true) (name : isName Keyword.opensGroup word = true)
      (inside : Nested true body)
      (closeHash : isHash close = true) (closeName : isName (· == .endif_) last = true)
      (more : Nested inner ts) :
      Nested inner (mark :: word :: (body ++ close :: last :: ts))

/-- The depth at an inner directive that divides its group does not change. -/
theorem depth_divider (n : Nat) (mark : Token) {word : Token}
    (h : isName (fun k => k == .elif_ || k == .else_) word = true) :
    depthAt n mark word = n ∧ depthBehind n mark word = n := by
  have hw := keyword_of_isName h
  have hopen : word.isKeywordWith Keyword.opensGroup = false :=
    keyword_disjoint (by intro k; cases k <;> decide) hw
  have hend : word.isKeyword .endif_ = false := by
    rw [isKeyword_eq_keywordWith]
    exact keyword_disjoint (by intro k; cases k <;> decide) hw
  simp [depthBehind, depthAt, hopen, hend]

theorem depth_open (n : Nat) {mark word : Token} (hmark : isHash mark = true)
    (h : isName Keyword.opensGroup word = true) :
    depthAt n mark word = n + 1 ∧ depthBehind n mark word = n + 1 := by
  have hw := keyword_of_isName h
  have hend : word.isKeyword .endif_ = false := by
    rw [isKeyword_eq_keywordWith]
    exact keyword_disjoint (by intro k; cases k <;> decide) hw
  simp [depthBehind, depthAt, hw, hend, is_of_isHash hmark]

theorem depth_close (n : Nat) {mark word : Token} (hmark : isHash mark = true)
    (h : isName (· == .endif_) word = true) :
    depthAt n mark word = n ∧ depthBehind n mark word = n - 1 := by
  have hw := keyword_of_isName h
  have hopen : word.isKeywordWith Keyword.opensGroup = false :=
    keyword_disjoint (by intro k; cases k <;> decide) hw
  rw [← isKeyword_eq_keywordWith] at hw
  simp [depthBehind, depthAt, hopen, hw, is_of_isHash hmark]

/-- **Bodies pass whole.** Resolving goes through a body without leaving the
branch, and keeps it whole or not at all. The mark behind it belongs to the
next directive. -/
theorem resolveFrom_nested (table : RuleTable) {inner : Bool} {body : List Token}
    (h : Nested inner body) : ∀ {b : Branch} {hash : Token} (rest : List Token),
    b.note = b → 1 ≤ b.depth → (inner = true → 2 ≤ b.depth) →
    isHash hash = true →
    resolveFrom table b (body ++ hash :: rest) =
      b.keep body ++ resolveFrom table b (hash :: rest) := by
  induction h with
  | nil =>
      intro b hash rest _ _ _ _
      rw [List.nil_append, b.keep_nil, List.nil_append]
  | @token inner t ts plain more ih =>
      intro b hash rest hb h1 h2 hh
      rw [List.cons_append, resolveFrom_token table hb
        (startsDirective_append_hash plain hh rest), ih rest hb h1 h2 hh,
        b.keep_cons t ts, List.append_assoc]
  | @divider mark word ts hash name more ih =>
      intro b hash' rest hb h1 h2 hh
      obtain ⟨hat, hbehind⟩ := depth_divider b.depth mark name
      have hne : depthAt b.depth mark word ≠ 1 := by
        have := h2 rfl
        omega
      rw [List.cons_append, List.cons_append, resolveFrom_inner table hb name hne,
        hbehind, ih rest hb h1 h2 hh, ← List.append_assoc, ← b.keep_append]
      rfl
  | @group inner mark word close last body ts hash name inside closeHash closeName
      more ihInside ihMore =>
      intro b hash' rest hb h1 h2 hh
      obtain ⟨hat, hbehind⟩ := depth_open b.depth hash name
      obtain ⟨hat', hbehind'⟩ := depth_close (b.depth + 1) closeHash closeName
      have hne : depthAt b.depth mark word ≠ 1 := by omega
      have hne' : depthAt (b.depth + 1) close last ≠ 1 := by omega
      -- one level deeper for the inner group, and back
      have hb' := Branch.note_depth hb (b.depth + 1)
      rw [show mark :: word :: (body ++ close :: last :: ts) ++ hash' :: rest =
          mark :: word :: (body ++ close :: (last :: (ts ++ hash' :: rest))) by simp,
        resolveFrom_inner table hb name hne, hbehind,
        ihInside (b := { b with depth := b.depth + 1 }) _ hb' (by simp) (by simp; omega) closeHash,
        resolveFrom_inner table hb' closeName hne', hbehind']
      simp only [Nat.add_sub_cancel]
      rw [ihMore rest hb h1 h2 hh]
      have hsplit : mark :: word :: (body ++ close :: last :: ts) =
          [mark, word] ++ (body ++ ([close, last] ++ ts)) := by simp
      rw [hsplit, b.keep_append, b.keep_append, b.keep_append]
      simp only [List.append_assoc]
      rfl

/-! ## Groups -/

/-- A branch with a condition. The condition is what stands on the line of the
directive, and the body starts on a new line. -/
structure Arm where
  mark : Token
  word : Token
  condition : List Token
  body : List Token
  hash : isHash mark = true
  name : isName Keyword.hasCondition word = true
  on_line : ∀ t ∈ condition, startsLine t = false
  next_line : ∀ t ∈ body.head?, startsLine t = true
  nested : Nested false body

/-- The branch without a condition. -/
structure Fallback where
  mark : Token
  word : Token
  body : List Token
  hash : isHash mark = true
  name : isName (· == .else_) word = true
  own_line : startsLine mark = true
  nested : Nested false body

/-- A conditional group. -/
structure Group where
  first : Arm
  more : List Arm
  fallback : Option Fallback
  close : Token
  last : Token
  opens : isName Keyword.opensGroup first.word = true
  continues : ∀ a ∈ more, isName (· == .elif_) a.word = true ∧ startsLine a.mark = true
  closeHash : isHash close = true
  closeName : isName (· == .endif_) last = true
  closeLine : startsLine close = true

namespace Arm

def tokens (a : Arm) : List Token :=
  a.mark :: a.word :: (a.condition ++ a.body)

/-- The rule for the condition. -/
def rule? (table : RuleTable) (a : Arm) : Option Rule :=
  if (Text.trim (conditionText a.condition)).isEmpty then none
  else table.find? (conditionText a.condition)

/-- What the condition comes to: a rule says so, or else it is a number. -/
def verdict? (table : RuleTable) (a : Arm) : Option Bool :=
  match a.rule? table with
  | some r => some (if a.word.isKeyword .ifndef_ then !r.define else r.define)
  | none => (Number.decodeText? (Text.trim (conditionText a.condition))).map (· != 0)

/-- Whether the condition is decided and true. -/
def holds (table : RuleTable) (a : Arm) : Bool :=
  a.verdict? table == some true

/-- The directive as a comment, and the body if it is kept. -/
def output (kept : Bool) (a : Arm) : List Token :=
  remark a.mark a.word a.condition :: if kept then a.body else []

/-- What is known inside the branch. -/
def enter (table : RuleTable) (b : Branch) (a : Arm) : Branch :=
  { depth := 1, rule := a.rule? table, taken := a.holds table
    served := b.served || a.holds table }

theorem enter_note (table : RuleTable) (b : Branch) (a : Arm) :
    (a.enter table b).note = a.enter table b := by
  simp [enter, Branch.note]

end Arm

namespace Fallback

def tokens (f : Fallback) : List Token :=
  f.mark :: f.word :: f.body

/-- The directive as a comment, and the body if it is kept. -/
def output (kept : Bool) (f : Fallback) : List Token :=
  remark f.mark f.word [] :: if kept then f.body else []

end Fallback

namespace Group

def arms (g : Group) : List Arm :=
  g.first :: g.more

/-- The branch whose condition comes last. -/
def lastArm (g : Group) : Arm :=
  g.arms.getLast (by simp [arms])

/-- The tokens from the fallback on. -/
def ending (g : Group) : List Token :=
  g.fallback.elim [] Fallback.tokens ++ [g.close, g.last]

def tokens (g : Group) : List Token :=
  g.arms.flatMap Arm.tokens ++ g.ending

/-- Whether rules and numbers decide every condition of the group. -/
def Decided (table : RuleTable) (g : Group) : Prop :=
  ∀ a ∈ g.arms, (a.verdict? table).isSome = true

instance (table : RuleTable) (g : Group) : Decidable (g.Decided table) :=
  inferInstanceAs (Decidable (∀ a ∈ g.arms, (a.verdict? table).isSome = true))

end Group

/-! ## What resolving does to a group -/

/-- A decided condition leaves nothing to what came before. -/
theorem decide_of_verdict {table : RuleTable} {a : Arm} (b : Branch)
    (h : (a.verdict? table).isSome = true) :
    b.decide table a.word (conditionText a.condition) =
      { b with rule := a.rule? table, taken := a.holds table } := by
  have hrule : (if (Text.trim (conditionText a.condition)).isEmpty then none
      else table.find? (conditionText a.condition)) = a.rule? table := rfl
  unfold Branch.decide Arm.holds
  simp only [hrule]
  cases hr : a.rule? table with
  | some r => simp [Arm.verdict?, hr]
  | none =>
      cases hv : Number.decodeText? (Text.trim (conditionText a.condition)) with
      | some value => simp [Arm.verdict?, hr, hv]
      | none => simp [Arm.verdict?, hr, hv] at h

/-- The condition ends where a line starts. -/
theorem splitCondition_arm (a : Arm) {hash : Token} (hline : startsLine hash = true)
    (rest : List Token) :
    splitCondition a.word (a.condition ++ (a.body ++ hash :: rest)) =
      (a.condition, a.body ++ hash :: rest) := by
  have hon : ∀ t ∈ a.condition, (!startsLine t) = true := by
    intro t ht
    rw [a.on_line t ht]
    rfl
  have hstop : ∃ t ts, a.body ++ hash :: rest = t :: ts ∧ startsLine t = true := by
    cases hbody : a.body with
    | nil => exact ⟨hash, rest, rfl, hline⟩
    | cons t ts => exact ⟨t, ts ++ hash :: rest, rfl, a.next_line t (by simp [hbody])⟩
  obtain ⟨t, ts, hts, ht⟩ := hstop
  rw [splitCondition, if_pos (keyword_of_isName a.name), hts,
    List.takeWhile_append_of_pos hon, List.dropWhile_append_of_pos hon]
  simp [ht]

/-- A directive of the group itself. -/
theorem resolveFrom_own (table : RuleTable) (b : Branch) {mark word : Token}
    (hmark : mark.is "#" = true) (hword : word.isKeywordWith Keyword.dividesGroup = true)
    (hdepth : depthAt b.depth mark word = 1) (ts : List Token) :
    resolveFrom table b (mark :: word :: ts) =
      remark mark word (splitCondition word ts).1 ::
        if word.isKeyword .endif_ && depthBehind b.depth mark word == 0 then
          (splitCondition word ts).2
        else resolveFrom table
          { b.after table word (splitCondition word ts).1 with
            depth := depthBehind b.depth mark word }.note (splitCondition word ts).2 := by
  have hown : (mark.is "#" && depthAt b.depth mark word == 1
      && word.isKeywordWith Keyword.dividesGroup) = true := by
    simp [hmark, hword, hdepth]
  rw [resolveFrom]
  change (if (mark.is "#" && depthAt b.depth mark word == 1
      && word.isKeywordWith Keyword.dividesGroup) = true then _ else _) = _
  rw [hown, if_pos rfl]
  rfl

/-- A branch with a condition, up to the mark behind it. -/
theorem resolveFrom_arm {table : RuleTable} {b : Branch} {a : Arm}
    (hv : (a.verdict? table).isSome = true)
    (hat : depthAt b.depth a.mark a.word = 1)
    {hash : Token} (hh : isHash hash = true) (hline : startsLine hash = true)
    (rest : List Token) :
    resolveFrom table b (a.tokens ++ hash :: rest) =
      a.output (a.holds table) ++ resolveFrom table (a.enter table b) (hash :: rest) := by
  have hcond := keyword_of_isName a.name
  have hdiv : a.word.isKeywordWith Keyword.dividesGroup = true :=
    keyword_imp (by intro k; cases k <;> decide) hcond
  have hend : a.word.isKeyword .endif_ = false := by
    rw [isKeyword_eq_keywordWith]
    exact keyword_disjoint (by intro k; cases k <;> decide) hcond
  have hbehind : depthBehind b.depth a.mark a.word = 1 := by
    simp [depthBehind, hend, hat]
  have hsplit := splitCondition_arm a hline rest
  have henter : { b.after table a.word a.condition with depth := 1 }.note =
      a.enter table b := by
    simp [Branch.after, hcond, decide_of_verdict b hv, Branch.note, Arm.enter]
  rw [show a.tokens ++ hash :: rest =
      a.mark :: a.word :: (a.condition ++ (a.body ++ hash :: rest)) by
    simp [Arm.tokens], resolveFrom_own table b (is_of_isHash a.hash) hdiv hat, hsplit, hend,
    hbehind, henter]
  rw [Bool.false_and, if_neg Bool.false_ne_true,
    resolveFrom_nested table a.nested rest (a.enter_note table b) (Nat.le_refl 1)
      (fun h => Bool.noConfusion h) hh]
  rfl

/-- The end of the group; what is behind it is left alone. -/
theorem resolveFrom_close (table : RuleTable) {b : Branch} (hb : b.depth = 1)
    {close last : Token} (hclose : isHash close = true)
    (hlast : isName (· == .endif_) last = true) (rest : List Token) :
    resolveFrom table b (close :: last :: rest) = remark close last [] :: rest := by
  have hw := keyword_of_isName hlast
  have hdiv : last.isKeywordWith Keyword.dividesGroup = true :=
    keyword_imp (by intro k; cases k <;> decide) hw
  have hcond : last.isKeywordWith Keyword.hasCondition = false :=
    keyword_disjoint (by intro k; cases k <;> decide) hw
  have hend : last.isKeyword .endif_ = true := by
    rw [isKeyword_eq_keywordWith]
    exact hw
  obtain ⟨hat, hbehind⟩ := depth_close b.depth hclose hlast
  rw [resolveFrom_own table b (is_of_isHash hclose) hdiv (hat.trans hb), hend, hbehind, hb]
  simp [splitCondition, hcond]

/-- The branch without a condition, up to the mark behind it. It stays unless
the condition before it was true by a rule. -/
theorem resolveFrom_fallback (table : RuleTable) {b : Branch} (hb : b.depth = 1)
    (f : Fallback) {hash : Token} (hh : isHash hash = true) (rest : List Token) :
    ∃ b' : Branch, b'.depth = 1 ∧
      resolveFrom table b (f.tokens ++ hash :: rest) =
        f.output (b.rule.isNone || !b.taken) ++ resolveFrom table b' (hash :: rest) := by
  have hw := keyword_of_isName f.name
  have hdiv : f.word.isKeywordWith Keyword.dividesGroup = true :=
    keyword_imp (by intro k; cases k <;> decide) hw
  have hcond : f.word.isKeywordWith Keyword.hasCondition = false :=
    keyword_disjoint (by intro k; cases k <;> decide) hw
  have hend : f.word.isKeyword .endif_ = false := by
    rw [isKeyword_eq_keywordWith]
    exact keyword_disjoint (by intro k; cases k <;> decide) hw
  have helse : f.word.isKeyword .else_ = true := by
    rw [isKeyword_eq_keywordWith]
    exact hw
  have hname : isName (fun k => k == .elif_ || k == .else_) f.word = true :=
    isName_imp (by intro k; cases k <;> decide) f.name
  obtain ⟨hat, hbehind⟩ := depth_divider b.depth f.mark hname
  have hsplit : splitCondition f.word (f.body ++ hash :: rest) =
      ([], f.body ++ hash :: rest) := by
    simp [splitCondition, hcond]
  have hafter : { b.after table f.word [] with depth := b.depth } =
      { b with taken := b.rule.isNone || !b.taken } := by
    simp [Branch.after, hcond, helse]
  refine ⟨{ b with taken := b.rule.isNone || !b.taken }.note, hb, ?_⟩
  have hbody := resolveFrom_nested table f.nested rest
    (Branch.note_note { b with taken := b.rule.isNone || !b.taken })
    (Nat.le_of_eq hb.symm) (fun h => Bool.noConfusion h) hh
  rw [show f.tokens ++ hash :: rest = f.mark :: f.word :: (f.body ++ hash :: rest) from rfl,
    resolveFrom_own table b (is_of_isHash f.hash) hdiv (hat.trans hb), hsplit, hend, hbehind,
    Bool.false_and, if_neg Bool.false_ne_true, hafter, hbody]
  rfl

/-- What stands behind a chain of branches starts with a mark, on its line. -/
theorem chain_head {as : List Arm} (has : ∀ a ∈ as, startsLine a.mark = true)
    {hash : Token} (hh : isHash hash = true) (hline : startsLine hash = true)
    (rest : List Token) :
    ∃ t ts, as.flatMap Arm.tokens ++ hash :: rest = t :: ts ∧ isHash t = true ∧
      startsLine t = true := by
  cases as with
  | nil => exact ⟨hash, rest, rfl, hh, hline⟩
  | cons a as => exact ⟨a.mark, _, rfl, a.hash, has a List.mem_cons_self⟩

/-- A chain of branches with conditions: each stays if its own condition is
true. -/
theorem resolveFrom_chain {table : RuleTable} {hash : Token}
    (hh : isHash hash = true) (hline : startsLine hash = true) (rest : List Token) :
    ∀ (as : List Arm) {b : Branch}, b.depth = 1 →
      (∀ a ∈ as, (a.verdict? table).isSome = true) →
      (∀ a ∈ as, isName (· == .elif_) a.word = true ∧ startsLine a.mark = true) →
      resolveFrom table b (as.flatMap Arm.tokens ++ hash :: rest) =
        as.flatMap (fun a => a.output (a.holds table)) ++
          resolveFrom table (as.foldl (Arm.enter table) b) (hash :: rest)
  | [], _, _, _, _ => rfl
  | a :: as, b, hb, hv, hc => by
      have hv' := fun x hx => hv x (List.mem_cons_of_mem a hx)
      have hc' := fun x hx => hc x (List.mem_cons_of_mem a hx)
      obtain ⟨t, ts, hts, ht, htl⟩ :=
        chain_head (fun x hx => (hc' x hx).2) hh hline rest
      have hname : isName (fun k => k == .elif_ || k == .else_) a.word = true :=
        isName_imp (by intro k; cases k <;> decide) (hc a List.mem_cons_self).1
      have hat := (depth_divider b.depth a.mark hname).1.trans hb
      rw [List.flatMap_cons, List.append_assoc, hts,
        resolveFrom_arm (hv a List.mem_cons_self) hat ht htl, ← hts,
        resolveFrom_chain hh hline rest as rfl hv' hc', List.flatMap_cons,
        List.append_assoc]
      rfl

namespace Group

/-- Whether the fallback stays: the condition before it is false, or it was
decided as a number. -/
def keepsFallback (table : RuleTable) (g : Group) : Bool :=
  (g.lastArm.rule? table).isNone || !g.lastArm.holds table

/-- What stays of the group: the directives, every body whose condition is
true, and perhaps that of the fallback. -/
def staying (table : RuleTable) (g : Group) : List Token :=
  g.arms.flatMap (fun a => a.output (a.holds table)) ++
    (g.fallback.elim [] (Fallback.output (g.keepsFallback table)) ++
      [remark g.close g.last []])

theorem ending_head (g : Group) (rest : List Token) :
    ∃ t ts, g.ending ++ rest = t :: ts ∧ isHash t = true ∧ startsLine t = true := by
  cases hf : g.fallback with
  | none =>
      exact ⟨g.close, g.last :: rest, by simp [ending, hf], g.closeHash, g.closeLine⟩
  | some f =>
      exact ⟨f.mark, f.word :: (f.body ++ g.close :: g.last :: rest),
        by simp [ending, hf, Fallback.tokens], f.hash, f.own_line⟩

theorem resolveFrom_ending (table : RuleTable) (g : Group) {b : Branch}
    (hb : b.depth = 1) (rest : List Token) :
    resolveFrom table b (g.ending ++ rest) =
      g.fallback.elim [] (Fallback.output (b.rule.isNone || !b.taken)) ++
        remark g.close g.last [] :: rest := by
  cases hf : g.fallback with
  | none =>
      rw [show g.ending ++ rest = g.close :: g.last :: rest by simp [ending, hf],
        resolveFrom_close table hb g.closeHash g.closeName]
      rfl
  | some f =>
      obtain ⟨b', hb', h⟩ :=
        resolveFrom_fallback table hb f g.closeHash (g.last :: rest)
      rw [show g.ending ++ rest = f.tokens ++ g.close :: g.last :: rest by
          simp [ending, hf], h, resolveFrom_close table hb' g.closeHash g.closeName]
      rfl

/-- Behind a chain, only its last condition is remembered. -/
theorem foldl_enter_last (table : RuleTable) (b : Branch) {as : List Arm} (h : as ≠ []) :
    as.foldl (Arm.enter table) b =
      (as.getLast h).enter table (as.dropLast.foldl (Arm.enter table) b) := by
  conv_lhs => rw [← List.dropLast_append_getLast h, List.foldl_append]
  rfl

end Group

/-- **What resolving does to a group** whose conditions are all decided. What
is behind the group is left alone. -/
theorem resolve_group {table : RuleTable} {g : Group} (h : g.Decided table)
    (rest : List Token) :
    resolve table (g.tokens ++ rest) = g.staying table ++ rest := by
  obtain ⟨t, ts, hts, ht, htl⟩ := g.ending_head rest
  obtain ⟨t', ts', hts', ht', htl'⟩ :=
    chain_head (fun a ha => (g.continues a ha).2) ht htl ts
  have hat : depthAt 0 g.first.mark g.first.word = 1 :=
    (depth_open 0 g.first.hash g.opens).1
  have hfirst := h g.first List.mem_cons_self
  have hmore := fun a ha => h a (List.mem_cons_of_mem g.first ha)
  have hchain : resolve table (g.tokens ++ rest) =
      g.arms.flatMap (fun a => a.output (a.holds table)) ++
        resolveFrom table (g.arms.foldl (Arm.enter table) {}) (g.ending ++ rest) := by
    rw [resolve, Group.tokens, List.append_assoc, hts, Group.arms, List.flatMap_cons,
      List.append_assoc, hts', resolveFrom_arm hfirst hat ht' htl', ← hts',
      resolveFrom_chain ht htl ts g.more rfl hmore g.continues, List.flatMap_cons,
      List.append_assoc]
    rfl
  have hlast := Group.foldl_enter_last table {} (List.cons_ne_nil g.first g.more)
  rw [hchain, Group.arms, hlast, Group.resolveFrom_ending table g rfl]
  simp [Group.staying, Group.keepsFallback, Group.lastArm, Group.arms, Arm.enter]

/-! ## The first true branch -/

/-- A chain of which only the first true body is kept; `done` tells whether one
was kept before. -/
def selectFirst (table : RuleTable) : Bool → List Arm → List Token
  | _, [] => []
  | done, a :: as =>
    a.output (!done && a.holds table) ++ selectFirst table (done || a.holds table) as

namespace Group

/-- The group with one branch: the first whose condition is true, or else the
fallback. The directives stay. -/
def selected (table : RuleTable) (g : Group) : List Token :=
  selectFirst table false g.arms ++
    (g.fallback.elim [] (Fallback.output (!g.arms.any (Arm.holds table))) ++
      [remark g.close g.last []])

/-- No branch stays beside the first true one: behind a true condition there
are only false ones, and a fallback only if the last condition before it is
true by a rule. Bodies without tokens do not count. -/
structure Exclusive (table : RuleTable) (g : Group) : Prop where
  arms : g.arms.Pairwise fun a a' =>
    a.holds table = true → a'.holds table = true → a'.body = []
  fallback : ∀ f ∈ g.fallback, (∃ a ∈ g.arms, a.holds table = true) →
    f.body = [] ∨ (g.lastArm.holds table = true ∧ (g.lastArm.rule? table).isSome = true)

end Group

/-- Lists that are cut in two where neither part can be longer on the right. -/
theorem append_eq_append_iff_of_le {α : Type} {xs xs' ys ys' : List α}
    (hx : xs'.length ≤ xs.length) (hy : ys'.length ≤ ys.length) :
    xs ++ ys = xs' ++ ys' ↔ xs = xs' ∧ ys = ys' := by
  constructor
  · intro h
    have hlen := congrArg List.length h
    rw [List.length_append, List.length_append] at hlen
    exact List.append_inj h (by omega)
  · rintro ⟨rfl, rfl⟩
    rfl

section Kept

variable (directive : Token) (body : List Token) {kept kept' : Bool}

theorem length_kept_le (h : kept' = true → kept = true) :
    (directive :: if kept' then body else []).length ≤
      (directive :: if kept then body else []).length := by
  cases kept' <;> cases kept <;> simp_all

theorem kept_eq_kept_iff (h : kept' = true → kept = true) :
    ((directive :: if kept then body else []) = directive :: if kept' then body else []) ↔
      (kept = true → kept' = false → body = []) := by
  cases kept' <;> cases kept <;> simp_all

end Kept

theorem length_selectFirst_le (table : RuleTable) : ∀ (as : List Arm) (done : Bool),
    (selectFirst table done as).length ≤
      (as.flatMap fun a => a.output (a.holds table)).length
  | [], _ => Nat.le_refl _
  | a :: as, done => by
      rw [selectFirst, List.flatMap_cons, List.length_append, List.length_append]
      exact Nat.add_le_add (length_kept_le _ _ (by simp))
        (length_selectFirst_le table as _)

/-- When a chain keeps no more than its first true body. -/
theorem chain_eq_selectFirst_iff (table : RuleTable) (as : List Arm) : ∀ done : Bool,
    as.flatMap (fun a => a.output (a.holds table)) = selectFirst table done as ↔
      (done = true → ∀ a ∈ as, a.holds table = true → a.body = []) ∧
      as.Pairwise fun a a' => a.holds table = true → a'.holds table = true → a'.body = [] := by
  induction as with
  | nil => simp [selectFirst]
  | cons a as ih =>
      intro done
      have hkept : (!done && a.holds table) = true → a.holds table = true := by simp
      have hlength : (a.output (!done && a.holds table)).length ≤
          (a.output (a.holds table)).length := length_kept_le _ _ hkept
      rw [selectFirst, List.flatMap_cons, append_eq_append_iff_of_le hlength
        (length_selectFirst_le table as _), Arm.output, Arm.output,
        kept_eq_kept_iff _ _ hkept, ih, List.pairwise_cons]
      cases done <;> cases ha : a.holds table <;> simp [ha]
      exact fun hall _ _ => hall

namespace Group

/-- A fallback that is due always stays. -/
theorem keepsFallback_of_none (table : RuleTable) (g : Group)
    (h : (!g.arms.any (Arm.holds table)) = true) : g.keepsFallback table = true := by
  have hlast : g.lastArm ∈ g.arms := List.getLast_mem _
  simp only [Bool.not_eq_true', List.any_eq_false] at h
  simp [keepsFallback, h g.lastArm hlast]

theorem fallback_eq_iff (table : RuleTable) (g : Group) :
    g.fallback.elim [] (Fallback.output (g.keepsFallback table)) =
        g.fallback.elim [] (Fallback.output (!g.arms.any (Arm.holds table))) ↔
      ∀ f ∈ g.fallback, (∃ a ∈ g.arms, a.holds table = true) →
        f.body = [] ∨ (g.lastArm.holds table = true ∧
          (g.lastArm.rule? table).isSome = true) := by
  cases g.fallback with
  | none => simp
  | some f =>
      simp only [Option.elim_some, Option.mem_some_iff, forall_eq']
      rw [Fallback.output, Fallback.output,
        kept_eq_kept_iff _ _ (g.keepsFallback_of_none table)]
      simp only [keepsFallback, Bool.not_eq_false', List.any_eq_true]
      cases g.lastArm.holds table <;> cases g.lastArm.rule? table <;> simp

/-- **When the first true branch alone stays.** -/
theorem staying_eq_selected_iff (table : RuleTable) (g : Group) :
    g.staying table = g.selected table ↔ g.Exclusive table := by
  have harms := length_selectFirst_le table g.arms false
  have hfallback : (g.fallback.elim [] (Fallback.output
        (!g.arms.any (Arm.holds table)))).length ≤
      (g.fallback.elim [] (Fallback.output (g.keepsFallback table))).length := by
    cases g.fallback with
    | none => simp
    | some f =>
        simp only [Option.elim_some]
        exact length_kept_le _ _ (g.keepsFallback_of_none table)
  have hending : (g.fallback.elim [] (Fallback.output (!g.arms.any (Arm.holds table))) ++
        [remark g.close g.last []]).length ≤
      (g.fallback.elim [] (Fallback.output (g.keepsFallback table)) ++
        [remark g.close g.last []]).length := by
    simpa using hfallback
  rw [staying, selected, append_eq_append_iff_of_le harms hending, List.append_left_inj,
    chain_eq_selectFirst_iff, fallback_eq_iff]
  constructor
  · rintro ⟨⟨-, hpair⟩, hf⟩
    exact ⟨hpair, hf⟩
  · rintro ⟨hpair, hf⟩
    exact ⟨⟨fun h => Bool.noConfusion h, hpair⟩, hf⟩

end Group

/-- **Selection.** Where a group starts whose conditions are all decided, each
body stays whose own condition is true, and that of the fallback if the
condition before it is false or a number. That is the first true branch alone
just if no other branch with tokens can stay beside it. -/
theorem resolveAt_group_iff {table : RuleTable} {g : Group} (h : g.Decided table)
    (before rest : List Token) :
    let found := Window.resolveAt table (before ++ (g.tokens ++ rest)).toArray before.length
    found = (before ++ (g.staying table ++ rest)).toArray ∧
    (found = (before ++ (g.selected table ++ rest)).toArray ↔ g.Exclusive table) := by
  intro found
  have hopens : Window.opensAt (before ++ (g.tokens ++ rest)).toArray before.length = true := by
    change Window.opensAt (before ++ g.first.mark :: g.first.word :: _).toArray _ = true
    rw [Window.opensAt_append, Conditional.opens, is_of_isHash g.first.hash,
      keyword_of_isName g.opens]
    rfl
  have hfound : found = (before ++ (g.staying table ++ rest)).toArray := by
    change Window.resolveAt _ _ _ = _
    rw [Window.resolveAt, if_pos hopens, Window.tail_append, Window.replaceTail_append,
      resolve_group h]
  refine ⟨hfound, ?_⟩
  rw [hfound, ← g.staying_eq_selected_iff table]
  constructor
  · intro he
    exact List.append_cancel_right (List.append_cancel_left (congrArg Array.toList he))
  · intro he
    rw [he]

/-- The tokens of `#if 1`, `int a;`, `#else`, `int b;`, `#endif`, each on a line
of its own. -/
def numberGroup : Group where
  first :=
    { mark := { kind := .punct, text := "#", location := { line := 1 } }
      word := { kind := .keyword .if_, text := "if", location := { line := 1 } }
      condition := [{ kind := .integer, text := "1", spacing := " ", location := { line := 1 } }]
      body :=
        [{ kind := .identifier, text := "int", spacing := "\n", location := { line := 2 } },
          { kind := .identifier, text := "a", spacing := " ", location := { line := 2 } },
          { kind := .punct, text := ";", location := { line := 2 } }]
      hash := by decide
      name := by decide
      on_line := by decide
      next_line := by decide
      nested := .token rfl (.token rfl (.token rfl .nil)) }
  more := []
  fallback := some
    { mark := { kind := .punct, text := "#", spacing := "\n", location := { line := 3 } }
      word := { kind := .keyword .else_, text := "else", location := { line := 3 } }
      body :=
        [{ kind := .identifier, text := "int", spacing := "\n", location := { line := 4 } },
          { kind := .identifier, text := "b", spacing := " ", location := { line := 4 } },
          { kind := .punct, text := ";", location := { line := 4 } }]
      hash := by decide
      name := by decide
      own_line := by decide
      nested := .token rfl (.token rfl (.token rfl .nil)) }
  close := { kind := .punct, text := "#", spacing := "\n", location := { line := 5 } }
  last := { kind := .keyword .endif_, text := "endif", location := { line := 5 } }
  opens := by decide
  continues := by simp
  closeHash := by decide
  closeName := by decide
  closeLine := by decide

/-- A number decides the condition, so the rule that the fallback asks for is
missing and both bodies stay. -/
theorem resolveAt_number_keeps_both :
    numberGroup.tokens = Token.ofText none "#if 1\nint a;\n#else\nint b;\n#endif" ∧
    numberGroup.Decided {} ∧
    Window.resolveAt {} numberGroup.tokens.toArray 0 ≠ (numberGroup.selected {}).toArray := by
  refine ⟨by decide +kernel, by decide +kernel, ?_⟩
  decide +kernel

theorem resolveAt_group_number :
    numberGroup.Decided {} ∧
    (Window.resolveAt {} numberGroup.tokens.toArray 0 = (numberGroup.selected {}).toArray ↔
      numberGroup.Exclusive {}) := by
  have h : numberGroup.Decided {} := by decide +kernel
  have hiff := (resolveAt_group_iff h [] []).2
  simp only [List.nil_append, List.append_nil, List.length_nil] at hiff
  exact ⟨h, hiff⟩

end HeaderPeers.Conditional

import HeaderPeers.Proofs.Conditional
import HeaderPeers.Proofs.Window.Invocation

/-!
# How far a rewriting reaches

Resolving a conditional group and expanding a macro replace a stretch of tokens.
Where the stretch ends can be told before it is replaced, from the tokens alone:
a group ends with the `#endif` that closes it, whatever its conditions say, and
an invocation with the parenthesis that closes its arguments, whatever they are.
What is not closed goes on to the end.

- `Conditional.extent?` — the length of a group. Directives stand on lines of
  their own (`Conditional.OwnLines`); a directive in the line of another one is
  part of the condition there, and closes nothing.
- `Conditional.resolveFrom_extent` — resolving stops there.
- `Expansion.closing?` — the length of a list of arguments.
- `Expansion.readArguments_closing?` — reading stops there.
-/

namespace HeaderPeers

namespace Conditional

variable {table : RuleTable} {mark word t : Token} {ts line rest : List Token} {depth n : Nat}

/-! ## Directives on lines of their own -/

/-- Every directive has its line for itself: its word stands in the line of its
mark, and the mark starts that line unless it is what the tokens start with. -/
def OwnLines (ts : List Token) : Prop :=
  ∀ i < ts.length, startsDirective (ts.drop i) = true →
    (ts[i + 1]?).any startsLine = false ∧ (0 < i → (ts[i]?).any startsLine = true)

instance (ts : List Token) : Decidable (OwnLines ts) :=
  inferInstanceAs (Decidable (∀ i < ts.length, _))

namespace OwnLines

theorem tail (h : OwnLines (t :: ts)) : OwnLines ts := by
  intro i hi hdirective
  obtain ⟨hword, hmark⟩ := h (i + 1) (Nat.succ_lt_succ hi) hdirective
  exact ⟨hword, fun _ => hmark (Nat.succ_pos i)⟩

theorem append_right (h : OwnLines (line ++ rest)) : OwnLines rest := by
  induction line with
  | nil => exact h
  | cons t line ih => exact ih h.tail

/-- The word of a directive does not start a line. -/
theorem startsLine_word (h : OwnLines (mark :: word :: ts))
    (hdirective : startsDirective [mark, word] = true) : startsLine word = false :=
  (h 0 (Nat.succ_pos _) hdirective).1

/-- Behind another token in its line, no directive starts. -/
theorem behind (h : OwnLines (t :: mark :: ts)) (hmark : startsLine mark = false) :
    startsDirective (mark :: ts) = false := by
  by_contra hdirective
  have hstarts : startsLine mark = true :=
    (h 1 (by simp) (Bool.eq_true_of_not_eq_false hdirective)).2 Nat.one_pos
  rw [hmark] at hstarts
  cases hstarts

end OwnLines

/-! ## The length of a group -/

/-- How many tokens there are up to the `#endif` that closes what is open, with
it; none if nothing closes it. -/
def extent? (depth : Nat) : List Token → Option Nat
  | mark :: word :: ts =>
    if mark.is "#" && word.isKeyword .endif_ && depthBehind depth mark word == 0 then some 2
    else (extent? (depthBehind depth mark word) (word :: ts)).map (· + 1)
  | _ => none

theorem two_le_of_extent (h : extent? depth ts = some n) : 2 ≤ n := by
  fun_induction extent? depth ts generalizing n with
  | case1 => cases h; exact Nat.le_refl 2
  | case2 depth mark word ts hopen ih =>
      obtain ⟨m, hm, rfl⟩ := Option.map_eq_some_iff.mp h
      exact Nat.le_succ_of_le (ih hm)
  | case3 => cases h

/-- The directives are among those that divide a group. -/
theorem startsDirective_of_endif (hmark : mark.is "#" = true)
    (hword : word.isKeyword .endif_ = true) : startsDirective [mark, word] = true := by
  rw [isKeyword_eq_keywordWith] at hword
  rw [startsDirective, hmark, keyword_imp (by intro k; cases k <;> decide) hword]
  rfl

/-- A token that starts no directive is one more of the group. -/
theorem extent_token (h : startsDirective (t :: ts) = false) :
    extent? depth (t :: ts) = (extent? depth ts).map (· + 1) := by
  cases ts with
  | nil => rfl
  | cons word ts =>
      have hopen : ¬ (t.is "#" && word.isKeyword .endif_ && depthBehind depth t word == 0) =
          true := by
        intro hclose
        simp only [Bool.and_eq_true] at hclose
        have hdirective := startsDirective_of_endif hclose.1.1 hclose.1.2
        rw [startsDirective] at h hdirective
        rw [h] at hdirective
        cases hdirective
      rw [extent?, if_neg hopen, depthBehind_of_not_startsDirective h]

/-- So is the rest of a line. -/
theorem extent_line (hline : ∀ u ∈ line, startsLine u = false)
    (h : OwnLines (t :: (line ++ rest))) :
    extent? depth (line ++ rest) = (extent? depth rest).map (· + line.length) := by
  induction line generalizing t with
  | nil => simp
  | cons u line ih =>
      obtain ⟨hu, hline⟩ := List.forall_mem_cons.mp hline
      rw [List.cons_append] at h
      rw [List.cons_append, extent_token (h.behind hu), ih hline h.tail, Option.map_map]
      rfl

/-! ## Resolving stops at the end of the group -/

/-- A condition is the rest of its line. -/
theorem splitCondition_spec (word : Token) (ts : List Token) :
    (splitCondition word ts).1 ++ (splitCondition word ts).2 = ts ∧
      ∀ t ∈ (splitCondition word ts).1, startsLine t = false := by
  unfold splitCondition
  split
  · refine ⟨List.takeWhile_append_dropWhile, fun t ht => ?_⟩
    simpa using List.mem_takeWhile_imp (p := fun u => !startsLine u) ht
  · exact ⟨rfl, List.forall_mem_nil _⟩

/-- It does not depend on how much of the next lines there is. -/
theorem splitCondition_take (word : Token) (ts : List Token) (k : Nat) :
    splitCondition word ((splitCondition word ts).1 ++ (splitCondition word ts).2.take k) =
      ((splitCondition word ts).1, (splitCondition word ts).2.take k) := by
  unfold splitCondition
  by_cases hcondition : word.isKeywordWith Keyword.hasCondition = true
  · simp only [if_pos hcondition]
    have hon : ∀ t ∈ ts.takeWhile (!startsLine ·), (!startsLine t) = true := fun t ht =>
      List.mem_takeWhile_imp (p := fun u => !startsLine u) ht
    rw [List.takeWhile_append_of_pos hon, List.dropWhile_append_of_pos hon]
    cases hrest : ts.dropWhile (!startsLine ·) with
    | nil => simp
    | cons t rest =>
        have ht : ¬ (!startsLine t) = true := by
          have hne : ts.dropWhile (!startsLine ·) ≠ [] := by simp [hrest]
          simpa [hrest] using List.head_dropWhile_not (!startsLine ·) hne
        cases k with
        | zero => simp
        | succ k => simp [ht]
  · simp only [if_neg hcondition, List.nil_append]

theorem depthBehind_endif (hmark : mark.is "#" = true) (hword : word.isKeyword .endif_ = true) :
    depthBehind depth mark word = depthAt depth mark word - 1 := by
  rw [depthBehind, hmark, hword]
  rfl

theorem depthBehind_of_not_endif (h : (mark.is "#" && word.isKeyword .endif_) = false) :
    depthBehind depth mark word = depthAt depth mark word := by
  rw [depthBehind, h, if_neg Bool.false_ne_true]

theorem le_depthAt (depth : Nat) (mark word : Token) : depth ≤ depthAt depth mark word := by
  unfold depthAt
  split
  · exact Nat.le_succ depth
  · exact Nat.le_refl depth

/-- The directive that closes the group has no condition, and leaves all behind it. -/
theorem resolveFrom_last (table : RuleTable) {b : Branch} (hmark : mark.is "#" = true)
    (hword : word.isKeyword .endif_ = true) (hat : depthAt b.depth mark word = 1)
    (ts : List Token) :
    resolveFrom table b (mark :: word :: ts) = resolveFrom table b [mark, word] ++ ts := by
  have hbehind : depthBehind b.depth mark word = 0 := by rw [depthBehind_endif hmark hword, hat]
  have hcondition (us : List Token) : splitCondition word us = ([], us) := by
    have hname := hword
    rw [isKeyword_eq_keywordWith] at hname
    rw [splitCondition, keyword_disjoint (by intro k; cases k <;> decide) hname,
      if_neg Bool.false_ne_true]
  have hdivides : word.isKeywordWith Keyword.dividesGroup = true := by
    have hname := hword
    rw [isKeyword_eq_keywordWith] at hname
    exact keyword_imp (by intro k; cases k <;> decide) hname
  rw [resolveFrom_own table b hmark hdivides hat, resolveFrom_own table b hmark hdivides hat,
    hcondition, hcondition, hword, hbehind]
  rfl

/-- Any other directive of the group leaves what the rest of the group leaves. -/
theorem resolveFrom_line (table : RuleTable) {b : Branch} (hmark : mark.is "#" = true)
    (hdivides : word.isKeywordWith Keyword.dividesGroup = true)
    (hend : word.isKeyword .endif_ = false) (hat : depthAt b.depth mark word = 1) {k : Nat}
    (hmore : ∀ b' : Branch, b'.depth = 1 →
      resolveFrom table b' (splitCondition word ts).2 =
        resolveFrom table b' ((splitCondition word ts).2.take k) ++
          (splitCondition word ts).2.drop k) :
    resolveFrom table b (mark :: word :: ts) =
      resolveFrom table b
          (mark :: word :: ((splitCondition word ts).1 ++ (splitCondition word ts).2.take k)) ++
        (splitCondition word ts).2.drop k := by
  have hbehind : depthBehind b.depth mark word = 1 := by
    rw [depthBehind_of_not_endif (by rw [hend, Bool.and_false]), hat]
  rw [resolveFrom_own table b hmark hdivides hat, resolveFrom_own table b hmark hdivides hat,
    splitCondition_take word ts k, hend, hbehind, Bool.false_and, if_neg Bool.false_ne_true,
    if_neg Bool.false_ne_true, hmore _ rfl]
  rfl

/-- The length of a group whose first directive does not close it: that line, and
the length of the rest. -/
theorem exists_extent_line (hdirective : startsDirective [mark, word] = true)
    (hend : word.isKeyword .endif_ = false) (hat : depthAt depth mark word = 1)
    (hlines : OwnLines (mark :: word :: ts)) (h : extent? depth (mark :: word :: ts) = some n) :
    ∃ k, extent? 1 (splitCondition word ts).2 = some k ∧
      n = (splitCondition word ts).1.length + k + 2 := by
  have hbehind : depthBehind depth mark word = 1 := by
    rw [depthBehind_of_not_endif (by rw [hend, Bool.and_false]), hat]
  obtain ⟨hsplit, hcondition⟩ := splitCondition_spec word ts
  rw [extent?, hend, Bool.and_false, Bool.false_and, if_neg Bool.false_ne_true, hbehind,
    extent_token (hlines.behind (hlines.startsLine_word hdirective))] at h
  rw [← hsplit] at h hlines
  rw [extent_line hcondition hlines.tail] at h
  cases hk : extent? 1 (splitCondition word ts).2 with
  | none =>
      rw [hk] at h
      cases h
  | some k =>
      rw [hk, Option.map_some, Option.map_some, Option.map_some, Option.some.injEq] at h
      exact ⟨k, rfl, by omega⟩

/-- **Resolving stops at the end of the group.** What stands behind the `#endif`
that closes it is left alone, whatever the conditions are. The induction is on
the number of tokens; a directive of the group itself goes on behind its line,
every other token is passed. -/
theorem resolveFrom_extent (table : RuleTable) {b : Branch}
    (hdepth : 1 ≤ b.depth ∨ opens ts = true) (hlines : OwnLines ts)
    (h : extent? b.depth ts = some n) :
    resolveFrom table b ts = resolveFrom table b (ts.take n) ++ ts.drop n := by
  induction hlength : ts.length using Nat.strongRecOn generalizing b ts n with
  | ind length ih =>
    match ts, h with
    | mark :: word :: ts, h =>
      have hat : 1 ≤ depthAt b.depth mark word := by
        rcases hdepth with hdepth | hopens
        · exact hdepth.trans (le_depthAt _ _ _)
        · have hopens : (mark.is "#" && word.isKeywordWith Keyword.opensGroup) = true := hopens
          rw [depthAt, if_pos hopens]
          exact Nat.le_add_left 1 _
      by_cases hown : startsDirective [mark, word] = true ∧ depthAt b.depth mark word = 1
      · obtain ⟨hdirective, hat⟩ := hown
        obtain ⟨hmark, hdivides⟩ := Bool.and_eq_true_iff.mp hdirective
        by_cases hend : word.isKeyword .endif_ = true
        · have hclose : (mark.is "#" && word.isKeyword .endif_ &&
              depthBehind b.depth mark word == 0) = true := by
            rw [hmark, hend, depthBehind_endif hmark hend, hat]
            rfl
          rw [extent?, if_pos hclose] at h
          obtain rfl : 2 = n := Option.some.inj h
          exact resolveFrom_last table hmark hend hat ts
        · rw [Bool.not_eq_true] at hend
          obtain ⟨k, hk, rfl⟩ := exists_extent_line hdirective hend hat hlines h
          have hsplit := (splitCondition_spec word ts).1
          have hrest : OwnLines (splitCondition word ts).2 := by
            rw [← hsplit] at hlines
            exact hlines.tail.tail.append_right
          have hshort : (splitCondition word ts).2.length < length := by
            have := length_splitCondition_le word ts
            rw [← hlength, List.length_cons, List.length_cons]
            omega
          have hline := resolveFrom_line table hmark hdivides hend hat (k := k) fun b' hb' =>
            ih _ hshort (.inl hb'.ge) hrest (hb' ▸ hk) rfl
          have htake := (congrArg (List.take _) hsplit).symm.trans
            (List.take_length_add_append k)
          have hdrop := (congrArg (List.drop _) hsplit).symm.trans
            (List.drop_length_add_append k)
          rw [hline, List.take_succ_cons, List.take_succ_cons, List.drop_succ_cons,
            List.drop_succ_cons, htake, hdrop]
      · -- a token of a branch; only the depth moves
        have hother : startsDirective (mark :: word :: ts) = false ∨
            depthAt b.depth mark word ≠ 1 := by
          by_cases hdirective : startsDirective [mark, word] = true
          · exact .inr fun hat => hown ⟨hdirective, hat⟩
          · exact .inl (Bool.eq_false_iff.mpr hdirective)
        have hbehind : 1 ≤ depthBehind b.depth mark word := by
          by_cases hend : (mark.is "#" && word.isKeyword .endif_) = true
          · obtain ⟨hmark, hend⟩ := Bool.and_eq_true_iff.mp hend
            have hne : depthAt b.depth mark word ≠ 1 := fun hat =>
              hown ⟨startsDirective_of_endif hmark hend, hat⟩
            rw [depthBehind_endif hmark hend]
            omega
          · rwa [depthBehind_of_not_endif (Bool.eq_false_iff.mpr hend)]
        have hopen : ¬ (mark.is "#" && word.isKeyword .endif_ &&
            depthBehind b.depth mark word == 0) = true := by
          intro hclose
          have hzero := (Bool.and_eq_true_iff.mp hclose).2
          rw [beq_iff_eq] at hzero
          omega
        rw [extent?, if_neg hopen] at h
        obtain ⟨m, hm, rfl⟩ := Option.map_eq_some_iff.mp h
        obtain ⟨j, rfl⟩ := Nat.exists_eq_add_of_le' (two_le_of_extent hm)
        have hshort : (word :: ts).length < length := by
          rw [← hlength]
          exact Nat.lt_succ_self _
        have hmore := ih _ hshort (b := { b with depth := depthBehind b.depth mark word }.note)
          (.inl hbehind) hlines.tail hm rfl
        change resolveFrom table b (mark :: word :: ts) =
          resolveFrom table b (mark :: word :: ts.take (j + 1)) ++ ts.drop (j + 1)
        rw [resolveFrom_other table b ts hother, resolveFrom_other table b (ts.take (j + 1)) hother,
          hmore, List.append_assoc]
        rfl

theorem resolve_extent (hopens : opens ts = true) (hlines : OwnLines ts)
    (h : extent? 0 ts = some n) : resolve table ts = resolve table (ts.take n) ++ ts.drop n :=
  resolveFrom_extent table (.inr hopens) hlines h

end Conditional

namespace Expansion

variable {parameters : List String} {i n : Nat} {depth : Int} {inv : Invocation} {t : Token}
  {ts : List Token}

/-! ## The length of a list of arguments -/

/-- The depth behind a token: brackets of every kind count. -/
def depthPast (depth : Int) (t : Token) : Int :=
  if t.isAny ["(", "[", "\x7b"] then depth + 1
  else if t.isAny [")", "]", "\x7d"] then depth - 1 else depth

/-- How many tokens there are up to the parenthesis that closes what is open, with
it; none if nothing closes it. -/
def closing? (depth : Int) : List Token → Option Nat
  | [] => none
  | t :: ts =>
    if depth == 0 && t.is ")" then some 1
    else (closing? (depthPast depth t) ts).map (· + 1)

theorem depthPast_comma (h : t.is "," = true) : depthPast depth t = depth := by
  simp [depthPast, Token.isAny, Token.is_eq_of_is h]

/-- **Reading stops at the closing parenthesis**, or at the end. -/
theorem readArguments_closing? (parameters : List String) (ts : List Token) : ∀ i depth inv,
    (readArguments parameters i depth inv ts).rest =
      match closing? depth ts with
      | some n => ts.drop n
      | none => [] := by
  induction ts with
  | nil => exact fun _ _ _ => rfl
  | cons t ts ih =>
      intro i depth inv
      have hmap (depth : Int) : (match (closing? depth ts).map (· + 1) with
          | some n => (t :: ts).drop n
          | none => []) = match closing? depth ts with
          | some n => ts.drop n
          | none => [] := by
        cases closing? depth ts <;> rfl
      rw [readArguments, closing?]
      dsimp only
      split
      · rfl
      · rw [hmap]
        split
        next hcomma =>
          simp only [Bool.and_eq_true] at hcomma
          rw [ih, depthPast_comma hcomma.1.2]
        · rw [ih]
          rfl

theorem le_length_of_closing? (h : closing? depth ts = some n) : n ≤ ts.length := by
  induction ts generalizing depth n with
  | nil => cases h
  | cons t ts ih =>
      rw [closing?] at h
      split at h
      · cases h
        exact Nat.le_add_left 1 _
      · obtain ⟨m, hm, rfl⟩ := Option.map_eq_some_iff.mp h
        exact Nat.succ_le_succ (ih hm)

/-- What stands behind the closing parenthesis has no part in the arguments. -/
theorem readArguments_take (h : closing? depth ts = some n) :
    readArguments parameters i depth inv (ts.take n) =
      { readArguments parameters i depth inv ts with rest := [] } := by
  induction ts generalizing i depth inv n with
  | nil => cases h
  | cons t ts ih =>
      rw [closing?] at h
      by_cases hclose : (depth == 0 && t.is ")") = true
      · rw [if_pos hclose] at h
        obtain rfl : 1 = n := Option.some.inj h
        simp only [List.take_succ_cons, List.take_zero, readArguments, if_pos hclose]
      · rw [if_neg hclose] at h
        obtain ⟨m, hm, rfl⟩ := Option.map_eq_some_iff.mp h
        rw [List.take_succ_cons, readArguments, readArguments]
        simp only [if_neg hclose]
        split
        next hcomma =>
          simp only [Bool.and_eq_true] at hcomma
          rw [depthPast_comma hcomma.1.2] at hm
          exact ih hm
        · exact ih hm

theorem length_readArguments (parameters : List String) (ts : List Token) : ∀ i depth inv,
    (readArguments parameters i depth inv ts).arguments.length = inv.arguments.length := by
  induction ts with
  | nil => exact fun _ _ _ => rfl
  | cons t ts ih =>
      intro i depth inv
      rw [readArguments]
      dsimp only
      split
      · rfl
      · split
        · rw [ih]
        · rw [ih, pushArgument, List.length_modify]

/-- **What an expansion leaves.** It goes up to the name of a macro without
parameters, and else up to the parenthesis that closes the arguments; behind that
nothing changes but the spacing of the next token, if nothing is put there. -/
theorem exists_of_expand? {table : RuleTable} {ts' : List Token}
    (h : expand? table (t :: ts) = some ts') :
    ∃ rule text definition expansion behind, ruleFor? table t = some (rule, text) ∧
      definition? t.location rule.nativeName text = some definition ∧
      ts' = splice t.spacing expansion behind ∧
      ((definition.parameters = none ∧ behind = ts) ∨
        ∃ parameters opening more, definition.parameters = some parameters ∧
          ts = opening :: more ∧ opening.is "(" = true ∧
          behind = match closing? 0 more with
            | some n => more.drop n
            | none => []) := by
  rw [expand?] at h
  obtain ⟨⟨rule, text⟩, hrule, h⟩ := Option.bind_eq_some_iff.mp h
  obtain ⟨definition, hdefinition, h⟩ := Option.bind_eq_some_iff.mp h
  refine ⟨rule, text, definition, ?_⟩
  cases hparameters : definition.parameters with
  | none =>
      simp only [hparameters] at h
      exact ⟨_, ts, hrule, hdefinition, (Option.some.inj h).symm, .inl ⟨rfl, rfl⟩⟩
  | some parameters =>
      simp only [hparameters] at h
      cases ts with
      | nil => cases h
      | cons opening more =>
          dsimp only at h
          by_cases hopening : opening.is "(" = true
          · rw [if_pos hopening] at h
            exact ⟨_, _, hrule, hdefinition, (Option.some.inj h).symm,
              .inr ⟨parameters, opening, more, rfl, rfl, hopening, readArguments_closing? ..⟩⟩
          · rw [if_neg hopening] at h
            cases h

end Expansion

end HeaderPeers

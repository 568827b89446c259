import HeaderPeers.Proofs.Comment
import HeaderPeers.Proofs.Reading

/-!
# Each comment goes one way

A run of comments stands between what was just read and what comes next. Both
sides ask for it, at different times and from different places of the run. Both
take the whole run and leave the cursor behind it; of its comments, those that
point back go to the one side and all others to the other, so that none is lost
and none is printed twice.

- `runStart_of_append`, `runFrom_of_append` — the run around a place in it.
- `IsPart`, `IsBackPart` — the text that stands for one comment.
- `exists_parts_before`, `exists_parts_after` — what is printed of a run,
  comment by comment.
- `run_claimed_once` — the statement.
-/

namespace HeaderPeers

namespace Comment

variable {tokens : Array Token} {before run after : List Token}

/-! ## The run around a place -/

/-- A maximal run of comments. -/
structure IsMaximal (before run after : List Token) : Prop where
  comments : ∀ t ∈ run, t.isComment = true
  before_ends : ∀ t ∈ before.getLast?, t.isComment = false
  after_starts : ∀ t ∈ after.head?, t.isComment = false

/-- Wherever in the run one starts, the way back ends where it begins. -/
theorem runStart_of_append (htokens : tokens.toList = before ++ run ++ after)
    (h : IsMaximal before run after) :
    ∀ k ≤ run.length, runStart tokens (before.length + k) = before.length := by
  intro k hk
  induction k with
  | zero =>
      rw [Nat.add_zero]
      rcases List.eq_nil_or_concat before with rfl | ⟨front, t, rfl⟩
      · rfl
      · have ht : tokens[front.length]? = some t := by
          rw [← Array.getElem?_toList, htokens]
          simp
        have hstop : t.isComment = false := h.before_ends t (by simp)
        have hlength : (front.concat t).length = front.length + 1 := by simp
        rw [hlength, runStart, ht, Option.any_some, hstop, if_neg Bool.false_ne_true]
  | succ k ih =>
      have ht : tokens[before.length + k]? = some run[k] := by
        rw [← Array.getElem?_toList, htokens, List.append_assoc,
          List.getElem?_append_right (Nat.le_add_right _ _), Nat.add_sub_cancel_left,
          List.getElem?_append_left hk, List.getElem?_eq_getElem hk]
      have hcomment : run[k].isComment = true := h.comments _ (List.getElem_mem hk)
      rw [← Nat.add_assoc, runStart, ht, Option.any_some, if_pos hcomment]
      exact ih (Nat.le_of_succ_le hk)

/-- From its beginning, the whole run is taken. -/
theorem runFrom_of_append (htokens : tokens.toList = before ++ run ++ after)
    (hrun : ∀ t ∈ run, t.isComment = true) (hafter : ∀ t ∈ after.head?, t.isComment = false) :
    runFrom tokens before.length = run := by
  induction run generalizing before with
  | nil =>
      rw [List.append_nil] at htokens
      unfold runFrom
      split
      next hlt =>
        have ht : after.head? = some tokens[before.length] := by
          rw [List.head?_eq_getElem?, ← Array.getElem?_eq_getElem hlt, ← Array.getElem?_toList,
            htokens, List.getElem?_append_right (Nat.le_refl _), Nat.sub_self]
        rw [hafter _ ht, if_neg Bool.false_ne_true]
      · rfl
  | cons t run ih =>
      have hsome : tokens[before.length]? = some t := by
        rw [← Array.getElem?_toList, htokens]
        simp
      obtain ⟨hlt, ht⟩ := Array.getElem?_eq_some_iff.mp hsome
      have hmore : runFrom tokens (before ++ [t]).length = run :=
        ih (by simpa using htokens) fun u hu => hrun u (List.mem_cons_of_mem t hu)
      rw [List.length_append, List.length_singleton] at hmore
      rw [runFrom, dif_pos hlt, ht, if_pos (hrun t List.mem_cons_self), hmore]

theorem takeRun_eq {s : Reading} (htokens : s.window.tokens.toList = before ++ run ++ after)
    (h : IsMaximal before run after) (hlow : before.length ≤ s.window.index)
    (hhigh : s.window.index ≤ before.length + run.length) :
    takeRun s = .ok run (s.atIndex (before.length + run.length)) := by
  have hstart : runStart s.window.tokens s.window.index = before.length := by
    have := runStart_of_append htokens h (s.window.index - before.length)
      (Nat.sub_le_of_le_add (Nat.add_comm _ _ ▸ hhigh))
    rwa [Nat.add_sub_cancel' hlow] at this
  have hrun : runFrom s.window.tokens before.length = run :=
    runFrom_of_append htokens h.comments h.after_starts
  change EStateM.Result.ok (runFrom s.window.tokens (runStart s.window.tokens s.window.index))
    (s.atIndex (runStart s.window.tokens s.window.index +
      (runFrom s.window.tokens (runStart s.window.tokens s.window.index)).length)) = _
  rw [hstart, hrun]

/-! ## What is printed of a comment -/

/-- How documentation starts that belongs to what stands before it. -/
def backMarks : List String :=
  ["/**<", "/*!<", "///<", "//!<"]

/-- Whether a comment starts in one of these ways. -/
def isMarkedBack (t : Token) : Bool :=
  backMarks.any fun mark => Text.startsWith mark t.text

theorem isMarkedBack_eq (t : Token) : isMarkedBack t = pointsBehind t := by
  have hmark (a b c : Char) : List.isPrefixOf [a, b, c, '<'] t.text.toList =
      (List.isPrefixOf [a, b, c] t.text.toList && t.text.toList[3]? == some '<') := by
    rcases t.text.toList with _ | ⟨x, _ | ⟨y, _ | ⟨z, _ | ⟨u, cs⟩⟩⟩⟩ <;>
      simp [List.isPrefixOf, Bool.and_assoc, Bool.beq_comm (a := '<')]
  simp only [isMarkedBack, backMarks, pointsBehind, isDoc, pointsBack, Text.startsWith,
    List.any_cons, List.any_nil, Bool.or_false, Bool.and_or_distrib_right]
  exact congrArg₂ _ (hmark ..) (congrArg₂ _ (hmark ..) (congrArg₂ _ (hmark ..) (hmark ..)))

/-- What a comment says: documentation without what opens it, any other comment
as it is. -/
def said (t : Token) : String :=
  if isDoc t.text then behind 3 t.text else t.text

/-- The text that stands for a comment before a declaration: what it says, with
its spacing, behind the end of a block that was open and the opening of its own
line. -/
def IsPart (t : Token) (part : String) : Prop :=
  ∃ ending opening, part = ending ++ t.spacing ++ opening ++ said t ∧
    ending ∈ ["", " */"] ∧
    opening ∈ if isDoc t.text then ["/**", " * ", "///"] else [""]

/-- The text that stands for a comment that points back. -/
def IsBackPart (t : Token) (part : String) : Prop :=
  ∃ body ending, part = t.spacing ++ "/**" ++ body ++ ending ∧
    body ∈ [behind 4 t.text, Text.trimEnd (behind 4 t.text)] ∧ ending ∈ ["", " */"]

theorem closed_text (c : Collected) : ∃ ending ∈ ["", " */"], c.closed.text = c.text ++ ending := by
  unfold Collected.closed
  split
  · exact ⟨" */", by simp, rfl⟩
  · exact ⟨"", by simp, (String.append_empty).symm⟩

/-- Documentation is printed behind one of three openings. -/
theorem docText_eq (c : Collected) (t : Token) :
    ∃ opening ∈ ["/**", " * ", "///"], docText c t = opening ++ behind 3 t.text := by
  unfold docText
  split
  · unfold blockLine
    dsimp only
    split
    · exact ⟨"/**", by simp, rfl⟩
    · exact ⟨" * ", by simp, rfl⟩
  · split
    next hplain =>
      refine ⟨"///", by simp, String.ext ?_⟩
      obtain ⟨rest, hrest⟩ := Text.startsWith_iff.mp hplain
      rw [String.toList_append, toList_behind, ← hrest]
      rfl
    · exact ⟨"/**", by simp, rfl⟩

/-- **One comment.** What does not point back is put behind the text so far. -/
theorem exists_part_push (c : Collected) {t : Token} (h : pointsBehind t = false) :
    ∃ part, (c.push t).text = c.text ++ part ∧ IsPart t part := by
  by_cases hdoc : isDoc t.text = true
  · have hback : pointsBack t.text = false := by simpa [pointsBehind, hdoc] using h
    obtain ⟨opening, hopening, htext⟩ := docText_eq c t
    refine ⟨t.spacing ++ docText c t, ?_, "", opening, ?_, by simp, ?_⟩
    · rw [push_doc hdoc hback, String.append_assoc]
    · rw [said, if_pos hdoc, htext, String.empty_append, String.append_assoc]
    · rwa [if_pos hdoc]
  · rw [Bool.not_eq_true] at hdoc
    obtain ⟨ending, hending, htext⟩ := closed_text c
    refine ⟨ending ++ t.spaced, ?_, ending, "", ?_, hending, ?_⟩
    · rw [push_other hdoc]
      change c.closed.text ++ t.spaced = _
      rw [htext, String.append_assoc]
    · rw [said, hdoc, if_neg Bool.false_ne_true, String.append_empty, String.append_assoc]
      rfl
    · simp [hdoc]

/-- **A run.** The collected text grows by one part for each comment that does
not point back, in order. -/
theorem exists_parts_foldl (run : List Token) : ∀ c : Collected,
    ∃ parts, (run.foldl Collected.push c).text = c.text ++ String.join parts ∧
      List.Forall₂ IsPart (run.filter fun t => !isMarkedBack t) parts := by
  induction run with
  | nil => exact fun c => ⟨[], (String.append_empty).symm, .nil⟩
  | cons t run ih =>
      intro c
      obtain ⟨parts, htext, hparts⟩ := ih (c.push t)
      rw [List.foldl_cons]
      by_cases hback : isMarkedBack t = true
      · have hskip : (t :: run).filter (fun t => !isMarkedBack t) =
            run.filter fun t => !isMarkedBack t := List.filter_cons_of_neg (by simp [hback])
        rw [push_behind (isMarkedBack_eq t ▸ hback)] at htext ⊢
        exact ⟨parts, htext, hskip ▸ hparts⟩
      · rw [Bool.not_eq_true] at hback
        have hkeep : (t :: run).filter (fun t => !isMarkedBack t) =
            t :: run.filter fun t => !isMarkedBack t := List.filter_cons_of_pos (by simp [hback])
        obtain ⟨part, hpush, hpart⟩ := exists_part_push c (isMarkedBack_eq t ▸ hback)
        refine ⟨part :: parts, ?_, hkeep ▸ .cons hpart hparts⟩
        rw [htext, hpush, String.append_assoc, String.join_cons]

/-- What is printed of a run before a declaration: its comments that do not
point back, and the end of the last block. -/
theorem exists_parts_before (run : List Token) :
    ∃ parts, ∃ ending ∈ ["", " */"], Comment.before run = String.join parts ++ ending ∧
      List.Forall₂ IsPart (run.filter fun t => !isMarkedBack t) parts := by
  obtain ⟨parts, htext, hparts⟩ := exists_parts_foldl run {}
  obtain ⟨ending, hending, hclosed⟩ := closed_text (run.foldl Collected.push {})
  refine ⟨parts, ending, hending, ?_, hparts⟩
  rw [Comment.before, hclosed, htext, String.empty_append]

theorem isBackPart_backText (t : Token) : IsBackPart t (backText t) := by
  unfold backText
  dsimp only
  split
  · exact ⟨_, "", (String.append_empty).symm, by simp, by simp⟩
  · exact ⟨_, " */", rfl, by simp, by simp⟩

/-- What is printed of a run behind a declaration: its comments that point back,
and a line break. -/
theorem exists_parts_after (run : List Token) :
    ∃ parts, ∃ ending ∈ ["", "\n"], Comment.after run = String.join parts ++ ending ∧
      List.Forall₂ IsBackPart (run.filter isMarkedBack) parts := by
  have hfilter : run.filter (fun t => isDoc t.text && pointsBack t.text) =
      run.filter isMarkedBack :=
    List.filter_congr fun t _ => (isMarkedBack_eq t).symm
  have hparts : List.Forall₂ IsBackPart (run.filter isMarkedBack)
      ((run.filter isMarkedBack).map backText) :=
    List.forall₂_map_right_iff.mpr (List.forall₂_same.mpr fun t _ => isBackPart_backText t)
  unfold Comment.after
  rw [hfilter]
  dsimp only
  split
  · exact ⟨_, "", by simp, (String.append_empty).symm, hparts⟩
  · exact ⟨_, "\n", by simp, rfl, hparts⟩

/-! ## Both sides -/

/-- **Comments are claimed once.** From every place in a maximal run of comments
or right behind it, both sides take the whole run and leave the cursor at the
first token behind it. Of the comments, in order, those marked with `<` are what
the one side prints, and all others are what the other prints. -/
theorem run_claimed_once {s : Reading}
    (htokens : s.window.tokens.toList = before ++ run ++ after)
    (h : IsMaximal before run after) (hlow : before.length ≤ s.window.index)
    (hhigh : s.window.index ≤ before.length + run.length) :
    let behind := s.atIndex (before.length + run.length)
    (∃ parts, ∃ ending ∈ ["", " */"],
        takeBefore s = .ok (String.join parts ++ ending) behind ∧
        List.Forall₂ IsPart (run.filter fun t => !isMarkedBack t) parts) ∧
      ∃ parts, ∃ ending ∈ ["", "\n"],
        takeAfter s = .ok (String.join parts ++ ending) behind ∧
        List.Forall₂ IsBackPart (run.filter isMarkedBack) parts := by
  intro behind
  have htake : takeRun s = .ok run behind := takeRun_eq htokens h hlow hhigh
  obtain ⟨parts, ending, hending, htext, hparts⟩ := exists_parts_before run
  obtain ⟨backParts, backEnding, hbackEnding, hbackText, hbackParts⟩ := exists_parts_after run
  refine ⟨⟨parts, ending, hending, ?_, hparts⟩, backParts, backEnding, hbackEnding, ?_, hbackParts⟩
  · rw [takeBefore, ReadM.bind_of_ok htake, htext]
    rfl
  · rw [takeAfter, ReadM.bind_of_ok htake, hbackText]
    rfl

/-- The cursor inside a run of comments between two declarations. -/
def insideSample : Reading :=
  (Reading.ofTokens {} ({ kind := .punct, text := ";" } :: sampleRun ++
    [{ kind := .identifier, text := "f" }])).atIndex 3

theorem run_claimed_once_inside :
    (IsMaximal [{ kind := .punct, text := ";" }] sampleRun [{ kind := .identifier, text := "f" }] ∧
      (sampleRun.filter isMarkedBack).map (·.text) = ["/**< D. */"]) ∧
    (∃ parts, ∃ ending ∈ ["", " */"],
        takeBefore insideSample = .ok (String.join parts ++ ending) (insideSample.atIndex 6) ∧
        List.Forall₂ IsPart (sampleRun.filter fun t => !isMarkedBack t) parts) ∧
      ∃ parts, ∃ ending ∈ ["", "\n"],
        takeAfter insideSample = .ok (String.join parts ++ ending) (insideSample.atIndex 6) ∧
        List.Forall₂ IsBackPart (sampleRun.filter isMarkedBack) parts := by
  have hmaximal : IsMaximal [{ kind := .punct, text := ";" }] sampleRun
      [{ kind := .identifier, text := "f" }] :=
    ⟨by decide, by decide, by decide⟩
  exact ⟨⟨hmaximal, by decide +kernel⟩,
    run_claimed_once rfl hmaximal (by decide) (by decide)⟩

end Comment

end HeaderPeers

import HeaderPeers.Proofs.Progress.Declarators
import HeaderPeers.Proofs.WholeInput

/-!
# Reading directives ends

A directive is read with comments visible. Definitions are left out: no line of the text is one, and
leaving tokens out makes none.

- `Reading.Undefining` — no line of what is read is a definition.
- `Directive.read_ends` — the cursor goes behind the word of a directive.
-/

set_option mvcgen.warning false

namespace HeaderPeers

open Std.Do ReadM Reading

variable {s₀ : Reading}

attribute [local spec high] cursor

attribute [local grind →] Token.isEof_of_is Token.isEof_of_isWord Token.isEof_of_isKeyword

namespace Reading

variable {s s' : Reading} {t : Token}

/-- No line of what is read defines anything. -/
def Undefining (s : Reading) : Prop :=
  HeaderPeers.Undefining s.window.tokens.toList

@[grind →]
theorem To.undefining (h : s.To s') : s.Undefining → s'.Undefining :=
  h.thins.undefining

theorem Undefining.atIndex (h : s.Undefining) (i : Nat) : (s.atIndex i).Undefining := h

grind_pattern Undefining.atIndex => s.Undefining, s.atIndex i

/-- A text without definitions is read, comments left out. -/
structure Ready (s : Reading) : Prop extends Steady s where
  not_raw : s.window.raw = false
  undefining : s.Undefining

attribute [grind →] Ready.toSteady Ready.not_raw Ready.undefining

/-- Only a step with macros makes a state unfit for reading on. -/
theorem To.ready (h : s.To s') (hs : s.Ready) (hs' : s'.Steady) : s'.Ready :=
  ⟨hs', h.not_raw hs.not_raw, h.undefining hs.undefining⟩

grind_pattern To.ready => s.To s', s.Ready, s'.Steady

/-- Behind a mark no word defines anything. Comments in front of the mark do not either. -/
theorem Ready.not_define (h : s.Ready) (hshows : s.Shows t) (hmark : t.is "#" = true) :
    (Window.tokenAt s.window.tokens (s.window.index + 1)).isKeyword .define_ = false := by
  obtain ⟨-, j, hfaces, hface⟩ := hshows
  obtain ⟨hkind, htext⟩ := Prod.mk.injEq .. ▸ hface
  have hat : (Window.tokenAt s.window.tokens j).is "#" = true := by
    simpa only [Token.is, hkind, htext] using hmark
  by_contra hdefine
  rw [Bool.not_eq_false] at hdefine
  have hlt := lt_of_not_isEof_tokenAt (Token.isEof_of_isKeyword hdefine)
  obtain hindex | hindex := Nat.eq_or_lt_of_le hfaces.le
  · have hnext := List.isChain_iff_getElem.mp h.undefining s.window.index (by simpa using hlt)
    have hlt' : s.window.index < s.window.tokens.size := Nat.lt_of_succ_lt hlt
    refine hnext ⟨?_, ?_⟩
    · rw [← hindex] at hat
      simpa [Window.tokenAt, hlt'] using hat
    · simpa [Window.tokenAt, hlt] using hdefine
  · -- what stands there is a comment or the mark
    obtain heq | hbefore := Nat.eq_or_lt_of_le hindex
    · rw [show s.window.index + 1 = j from heq] at hdefine
      have hlast : j < s.window.tokens.size := heq ▸ hlt
      have hsound := h.sound _ (Array.mem_toList_iff.mpr (Array.getElem_mem hlast))
      have htoken : Window.tokenAt s.window.tokens j = s.window.tokens[j] := by
        simp [Window.tokenAt, hlast]
      rw [htoken] at hdefine hat
      exact (hsound.2 (Token.isWord_of_isKeyword hdefine)).2 (by simp_all [Token.is])
    · have hcomment := hfaces.comments _ (Nat.le_succ _) hbefore
      have hword : (Window.tokenAt s.window.tokens (s.window.index + 1)).isComment = true := by
        simpa [Window.CommentAt, Window.tokenAt, hlt] using hcomment
      rw [Conditional.isKeyword_of_isComment hword] at hdefine
      cases hdefine

end Reading

namespace ReadM

/-- A sequence whose first step is known. -/
theorem EndsIn.bind_ok {α β : Type} {b s : Reading} {step : ReadM α} {next : α → ReadM β} {a : α}
    {Q : β → Reading → Prop} (hstep : step s₀ = .ok a s) (h : EndsIn b s (next a) Q) :
    EndsIn b s₀ (step >>= next) Q := by
  have hrun := endsIn_iff.mp h
  rw [endsIn_iff, bind_of_ok hstep]
  exact hrun

/-- A sequence, of which the first part does not go back. -/
theorem EndsIn.bind_ends {α β : Type} {b : Reading} {step : ReadM α} {next : α → ReadM β}
    {Q : α → Reading → Prop} {R : β → Reading → Prop} (hto : b.To s₀) (h : Ends s₀ step Q)
    (hnext : ∀ a s, s.Steady → s₀.To s → Q a s → EndsIn b s (next a) R) :
    EndsIn b s₀ (step >>= next) R := by
  refine EndsIn.bind (b := b) (Q := fun a s => s₀.To s ∧ Q a s) ?_
    fun a s hs _ h => hnext a s hs h.1 h.2
  exact EndsIn.imp h fun a s _ hto' hQ => ⟨hto.trans hto', hto', hQ⟩

/-- What is to be shown of the result of a step can be left open, as for a step that does not go
back. -/
theorem EndsIn.intro {α : Type} {b : Reading} {step : ReadM α} {Q : α → Reading → Prop}
    (h : ∀ P : α → Reading → Prop, (∀ a s, s.Steady → b.To s → Q a s → P a s) →
      ⦃fun s => ⌜s = s₀⌝⦄ step
      ⦃post⟨fun a s => ⌜P a s⌝, fun e _ => ⌜e ≠ .exhausted⌝⟩⦄) : EndsIn b s₀ step Q :=
  h _ fun _ _ hs hto hQ => ⟨hs, hto, hQ⟩

theorem EndsIn.pure {α : Type} {b : Reading} {a : α} {Q : α → Reading → Prop} (hs : s₀.Steady)
    (hto : b.To s₀) (hQ : Q a s₀) : EndsIn b s₀ (Pure.pure a) Q :=
  endsIn_iff.mpr ⟨hs, hto, hQ⟩

theorem EndsIn.pure_bind {α β : Type} {b : Reading} {a : α} {next : α → ReadM β}
    {Q : β → Reading → Prop} (h : EndsIn b s₀ (next a) Q) :
    EndsIn b s₀ (Pure.pure a >>= next) Q :=
  .bind_ok rfl h

theorem EndsIn.cursor_bind {β : Type} {b : Reading} {next : Nat → ReadM β}
    {Q : β → Reading → Prop} (h : EndsIn b s₀ (next s₀.window.index) Q) :
    EndsIn b s₀ (cursor >>= next) Q :=
  .bind_ok rfl h

theorem EndsIn.table_bind {β : Type} {b : Reading} {next : RuleTable → ReadM β}
    {Q : β → Reading → Prop} (h : EndsIn b s₀ (next s₀.table) Q) :
    EndsIn b s₀ (ReadM.table >>= next) Q :=
  .bind_ok rfl h

theorem EndsIn.moveTo_bind {β : Type} {b : Reading} {next : Unit → ReadM β} {i : Nat}
    {Q : β → Reading → Prop} (h : EndsIn b (s₀.atIndex i) (next ()) Q) :
    EndsIn b s₀ (moveTo i >>= next) Q :=
  .bind_ok rfl h

/-- A step that does not go back, where another has not gone back. -/
theorem EndsIn.of_ends {β : Type} {b : Reading} {step : ReadM β} {Q : β → Reading → Prop}
    (hto : b.To s₀) (h : Ends s₀ step Q) : EndsIn b s₀ step Q :=
  EndsIn.imp h fun _ _ _ hto' hQ => ⟨hto.trans hto', hQ⟩

/-- A step that starts further on. -/
theorem Ends.at {β : Type} {i : Nat} {step : ReadM β} {Q : β → Reading → Prop}
    (hi : s₀.window.index ≤ i) (h : Ends (s₀.atIndex i) step Q) : EndsIn s₀ (s₀.atIndex i) step Q :=
  .of_ends (To.atIndex (.refl s₀) hi) h

/-! ## Rules and the outline -/

@[spec high]
theorem rule_ends (hs : s₀.Steady) (name : String) :
    Ends s₀ (rule? name) fun r s => s = s₀ ∧ ∀ rule, r = some rule → rule.nativeText = none :=
  ends_iff.mpr ⟨hs, .refl s₀, rfl, fun _ hrule => hs.plain.findWith? hrule⟩

@[spec high]
theorem learn_ends (hs : s₀.Steady) {rule : Rule} (hrule : rule.nativeText = none) :
    Ends s₀ (learn rule) fun _ s => s.window = s₀.window :=
  ends_iff.mpr ⟨⟨hs.plain.putAt hrule .last, hs.sound, hs.fuel⟩, .of_window_eq rfl, rfl⟩

@[spec high]
theorem learnFirst_ends (hs : s₀.Steady) {rule : Rule} (hrule : rule.nativeText = none) :
    Ends s₀ (learnFirst rule) fun _ s => s.window = s₀.window :=
  ends_iff.mpr ⟨⟨hs.plain.putAt hrule .first, hs.sound, hs.fuel⟩, .of_window_eq rfl, rfl⟩

@[spec high]
theorem modifyOutline_ends (hs : s₀.Steady) (f : Outline → Outline) :
    Ends s₀ (modifyOutline f) fun _ s => s.window = s₀.window :=
  modify_ends hs rfl rfl rfl

@[spec high]
theorem add_ends (hs : s₀.Steady) (d : Declaration) :
    Ends s₀ (add d) fun _ s => s.window = s₀.window :=
  ends_iff.mpr ⟨⟨hs.plain, hs.sound, hs.fuel⟩, .of_window_eq rfl, rfl⟩

@[spec high]
theorem leaveSpacing_ends (hs : s₀.Steady) (spacing : String) :
    Ends s₀ (leaveSpacing spacing) fun b s => b = true ∧ s.window = s₀.window :=
  (add_ends hs _).bind fun _ _ hs₁ _ h₁ => Ends.pure hs₁ ⟨rfl, h₁⟩

@[spec high]
theorem indent_ends (hs : s₀.Steady) (spacing text : String) :
    Ends s₀ (indent spacing text) fun _ s => s.window = s₀.window :=
  (modifyOutline_ends hs _).bind fun _ _ hs₁ _ h₁ => Ends.pure hs₁ h₁

/-- A step for each element of a list, of which none goes back behind `b`. -/
theorem forM_endsIn {α : Type} {b : Reading} {I : Reading → Prop} {f : α → ReadM PUnit}
    (hf : ∀ a s, s.Steady → b.To s → I s → EndsIn b s (f a) fun _ s' => I s') (as : List α) :
    ∀ s, s.Steady → b.To s → I s → EndsIn b s (as.forM f) fun _ s' => I s' := by
  induction as with
  | nil => exact fun s hs hto hI => EndsIn.pure hs hto hI
  | cons a as ih => exact fun s hs hto hI => EndsIn.bind (hf a s hs hto hI) fun _ s' => ih s'

@[spec high]
theorem addSpaced_ends (hs : s₀.Steady) (spacing : String) (ds : List Declaration) :
    Ends s₀ (addSpaced spacing ds) fun _ s => s.window = s₀.window := by
  unfold addSpaced
  refine Ends.bind (modifyOutline_ends hs _) fun _ s₁ hs₁ _ h₁ => ?_
  refine Ends.bind (forM_endsIn (I := fun s => s.window = s₀.window) (fun d s hs hto hI => ?_) ds
    s₁ hs₁ (.refl _) h₁) fun _ s₂ hs₂ _ h₂ => ?_
  · have hadd : EndsIn s₁ s (discard (add d)) fun _ s' => s'.window = s₀.window :=
      EndsIn.bind_ends hto (add_ends hs d) fun _ s' hs' hto' h' =>
        EndsIn.pure hs' (hto.trans hto') (h'.trans hI)
    exact hadd
  · exact (modifyOutline_ends hs₂ _).imp fun _ _ _ _ h => h.trans h₂

/-- An outline of its own changes nothing else. -/
theorem withOutline_ends {α : Type} {step : ReadM α} {Q : α → Window → Prop}
    (h : Ends { s₀ with outline := {} } step fun a s => Q a s.window) :
    Ends s₀ (withOutline {} step) fun r s => Q r.1 s.window := by
  have hrun := ends_iff.mp h
  rw [ends_iff, withOutline_eq]
  cases hstep : step { s₀ with outline := {} } with
  | error e s =>
      rw [hstep] at hrun
      exact hrun
  | ok a s =>
      rw [hstep] at hrun
      obtain ⟨hs, hto, hQ⟩ := hrun
      exact ⟨⟨hs.plain, hs.sound, hs.fuel⟩, ⟨hto.index_le, hto.raw, hto.thins⟩, hQ⟩

end ReadM

/-! ## Comments -/

namespace Comment

/-- The cursor is behind the comments, and not further back. -/
theorem le_behind_run (tokens : Array Token) (i : Nat) :
    i ≤ runStart tokens i + (runFrom tokens (runStart tokens i)).length := by
  by_contra hlt
  rw [Nat.not_le] at hlt
  obtain ⟨-, hbefore⟩ := comments_runStart tokens i
  exact (comments_runFrom tokens (runStart tokens i)).2
    (hbefore _ (Nat.le_add_right _ _) hlt)

/-- Where the run of comments ends. -/
def behindRun (s : Reading) : Nat :=
  let start := runStart s.window.tokens s.window.index
  start + (runFrom s.window.tokens start).length

@[grind! .]
theorem le_behindRun (s : Reading) : s.window.index ≤ behindRun s :=
  le_behind_run _ _

@[spec high]
theorem takeBefore_ends (hs : s₀.Steady) :
    Ends s₀ takeBefore fun _ s => s = s₀.atIndex (behindRun s₀) :=
  ends_iff.mpr ⟨hs.atIndex _, .atIndex (.refl s₀) (le_behindRun _), rfl⟩

@[spec high]
theorem takeAfter_ends (hs : s₀.Steady) :
    Ends s₀ takeAfter fun _ s => s = s₀.atIndex (behindRun s₀) :=
  ends_iff.mpr ⟨hs.atIndex _, .atIndex (.refl s₀) (le_behindRun _), rfl⟩

end Comment

/-! ## Directives -/

namespace Directive

@[spec high]
theorem foldTo_ends {α : Type} (hs : s₀.Steady) (stop : Nat) (start : α)
    (step : α → Nat → Token → α) : Ends s₀ (foldTo stop start step) fun _ _ => True := by
  unfold foldTo
  refine Ends.bind (peek_ends hs) fun first s₁ hs₁ _ hfirst => ?_
  refine iterate_carries hs₁ hfirst.2.1 fun (a, t) s hs hto hI => ?_
  refine EndsIn.cursor_bind ?_
  split
  · refine Ends.bind (advance_ends hs) fun t' s' hs' hto' hadvance => ?_
    exact Ends.pure hs' (by grind -linarith)
  · exact Ends.pure hs trivial

theorem le_lastBehind (tokens : Array Token) (start : Nat) :
    ∀ {stop : Nat}, start ≤ stop → start ≤ lastBehind tokens start stop := by
  intro stop
  induction stop with
  | zero => exact fun h => h
  | succ stop ih =>
      intro h
      unfold lastBehind
      split
      next hmore =>
        simp only [Bool.and_eq_true, decide_eq_true_eq] at hmore
        exact ih (by omega)
      · exact h

theorem le_lineEnd (tokens : Array Token) (i : Nat) : i ≤ lineEnd tokens i := by
  fun_induction lineEnd tokens i with
  | case1 => exact Nat.le_refl _
  | case2 i _ _ ih => omega
  | case3 => exact Nat.le_refl _

/-- What is left of a directive is behind its mark and its word. -/
theorem le_spanAt (tokens : Array Token) (i : Nat) :
    (spanAt tokens i).start = i + 2 ∧ i + 2 ≤ (spanAt tokens i).last :=
  ⟨rfl, le_lastBehind _ _ (le_lineEnd _ _)⟩

theorem readUndefinition_ends (hs : s₀.Steady) (span : Span)
    (hspan : s₀.window.index ≤ span.start) :
    Ends s₀ (readUndefinition span) fun _ s => s.window.index = span.start := by
  unfold readUndefinition
  refine EndsIn.moveTo_bind (Ends.at hspan ?_)
  refine Ends.bind (peek_ends (hs.atIndex _)) fun t s₁ hs₁ _ hpeek => ?_
  refine EndsIn.table_bind ?_
  dsimp only
  split
  · refine Ends.bind (learnFirst_ends hs₁ rfl) fun _ s₂ hs₂ _ hlearn => ?_
    exact Ends.pure hs₂ (by grind -linarith)
  · exact Ends.pure hs₁ hpeek.1

theorem readAsComment_ends (hs : s₀.Steady) (spacing : String) (keyword : Token) (span : Span)
    (hspan : s₀.window.index ≤ span.start) :
    Ends s₀ (readAsComment spacing keyword span) fun _ _ => True := by
  unfold readAsComment
  exact EndsIn.moveTo_bind (Ends.at hspan (foldTo_ends (hs.atIndex _) _ _ _))

/-- With comments visible looking changes nothing. -/
theorem peek_bare (hraw : s₀.window.raw = true) :
    peek s₀ = .ok (Window.tokenAt s₀.window.tokens s₀.window.index) s₀ := by
  have hindex : ((s₀.window.index : Int) + 0).toNat = s₀.window.index := by omega
  simp only [peek, peekAt, Window.get, Window.position, hraw, if_true, Option.map_some, hindex]

/-- With comments visible the cursor goes to the next token. -/
theorem advance_bare (hraw : s₀.window.raw = true) :
    advance s₀ = .ok (Window.tokenAt s₀.window.tokens (s₀.window.index + 1))
      (s₀.atIndex (s₀.window.index + 1)) := by
  have hindex : ((s₀.window.index : Int) + 1).toNat = s₀.window.index + 1 := by omega
  simp only [advance, Window.next, Window.position, hraw, if_true, Option.map_some, hindex]
  rw [← hraw]
  rfl

/-- What is known of a line that is no definition. -/
theorem readLine_ends (hs : s₀.Steady) (scope : Scope) (hraw : s₀.window.raw = true)
    (hword : (Window.tokenAt s₀.window.tokens (s₀.window.index + 1)).isKeyword .define_ = false) :
    Ends s₀ (readLine scope) fun _ s => s₀.window.index < s.window.index := by
  unfold readLine
  refine EndsIn.cursor_bind (EndsIn.bind_ok (peek_bare hraw) ?_)
  refine EndsIn.bind_ok (advance_bare hraw) ?_
  refine EndsIn.bind_ok (advance_bare hraw) ?_
  refine EndsIn.bind_ok rfl ?_
  extract_lets span behind
  obtain ⟨hstart, hlast⟩ : span.start = s₀.window.index + 2 ∧ s₀.window.index + 2 ≤ span.last :=
    le_spanAt _ _
  have hs₁ : (s₀.atIndex (s₀.window.index + 2)).Steady := hs.atIndex _
  have hto₁ : s₀.To (s₀.atIndex (s₀.window.index + 2)) := .atIndex (.refl s₀) (by omega)
  have hprint {text spacing : String} {d : Declaration} {s : Reading} (hs : s.Steady)
      (hto : s₀.To s) : EndsIn s₀ s (do
        moveTo span.last
        let comment ← Comment.takeAfter
        addSpaced spacing [{ d with text := comment ++ text }]
        Pure.pure true) fun _ s => s₀.window.index < s.window.index := by
    have hto' : s₀.To (s.atIndex span.last) := .atIndex hto (by omega)
    refine EndsIn.moveTo_bind ?_
    refine EndsIn.bind_ends hto' (Comment.takeAfter_ends (hs.atIndex _))
      fun comment s' hs' hto₂ hcomment => ?_
    refine EndsIn.bind_ends (hto'.trans hto₂) (addSpaced_ends hs' _ _) fun _ s'' hs'' hto₃ hadd => ?_
    refine EndsIn.pure hs'' ((hto'.trans hto₂).trans hto₃) ?_
    have hle : span.last ≤ Comment.behindRun (s.atIndex span.last) :=
      Comment.le_behindRun (s.atIndex span.last)
    rw [hadd, hcomment]
    exact Nat.lt_of_lt_of_le (by omega) hle
  have hbehind {d : Declaration} {s : Reading} (hs : s.Steady) (hto : s₀.To s)
      (hindex : s.window.index ≤ span.start) :
      EndsIn s₀ s (behind d) fun _ s => s₀.window.index < s.window.index := by
    unfold behind
    extract_lets print
    split
    · refine EndsIn.bind_ends hto (readAsComment_ends hs _ _ _ hindex) fun _ s' hs' hto' _ => ?_
      exact hprint hs' (hto.trans hto')
    · exact hprint hs hto
  simp only [hword, Bool.false_and, Bool.false_eq_true, if_false]
  split
  · refine EndsIn.bind_ends hto₁ (readUndefinition_ends hs₁ span hstart.ge)
      fun d s hs hto hindex => ?_
    exact hbehind hs (hto₁.trans hto) hindex.le
  · exact EndsIn.pure_bind (hbehind hs₁ hto₁ hstart.ge)

@[spec high]
theorem read_ends (hs : s₀.Ready) (scope : Scope) :
    Ends s₀ (read scope) fun matched s =>
      matched = true → s₀.window.index < s.window.index := by
  unfold read
  refine Ends.bind (peek_ends hs.toSteady) fun t s₁ hs₁ hto₁ hpeek => ?_
  split
  · exact Ends.pure hs₁ (by simp)
  next hmark =>
    have hshows := hpeek.2.2 hs.not_raw
    have hword := (hto₁.ready hs hs₁).not_define hshows (by simpa using hmark)
    refine (raw_ends (readLine_ends (Steady.bare hs₁) scope rfl hword)).imp fun _ s _ hto h _ => ?_
    exact hpeek.1 ▸ h

end Directive

end HeaderPeers

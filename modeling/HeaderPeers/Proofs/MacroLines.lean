import HeaderPeers.Proofs.NameRules
import HeaderPeers.Proofs.Reading
import HeaderPeers.Proofs.Reading.Statements
import HeaderPeers.Proofs.Window.Basic

/-!
# What lines leave behind of a macro

A name of which nothing is known is defined and undefined, line after line. The
first definition is written down, and none after it: a later one finds the rule
of the first, or that of an `#undef`, and takes its name for known.

- `RoamInvariant` — what is kept by everything that learns nothing.
- `Directive.define_eq_ok`, `Directive.define_again_eq_ok`,
  `Directive.undef_eq_ok` — what one line does to the rules of its name.
- `MacroLine.run_rules`, `MacroLine.run_defined_iff` — what is known of the name
  after any number of lines.
-/

set_option mvcgen.warning false

namespace HeaderPeers

open Std.Do ReadM

/-! ## Steps that learn nothing -/

/-- What is kept by looking at tokens, putting the cursor anywhere and printing. -/
class RoamInvariant extends LookInvariant where
  anywhere (i : Nat) : place i
  printed {raw : Bool} {s : Reading} {outline : Outline} :
    holds raw s → holds raw { s with outline }

/-- The table is this one. -/
@[reducible]
def RuleTable.unchanged (table : RuleTable) : RoamInvariant where
  holds _ s := s.table = table
  core t _ _ := t = table
  place _ := True
  place_of_le _ _ := trivial
  moved hs _ := hs
  looked hs _ := hs
  warned hs := hs
  bared hs := hs
  covered _ hs' := hs'
  entered hs := hs
  left _ hs' := hs'
  anywhere _ := trivial
  printed hs := hs

theorem ReadM.table_eq_of_roams {α : Type} {step : ReadM α} {s s' : Reading} {a : α}
    (h : ∀ [RoamInvariant], Keeps true step) (hrun : step s = .ok a s') : s'.table = s.table := by
  let := s.table.unchanged
  have hkept := keeps_iff.mp h s rfl
  rwa [hrun] at hkept

theorem cursor_roams [RoamInvariant] {raw : Bool} : Keeps raw cursor :=
  keeps_iff.mpr fun _ hs => hs

theorem moveTo_roams [RoamInvariant] {raw : Bool} (i : Nat) : Keeps raw (moveTo i) :=
  moveTo_keeps (RoamInvariant.anywhere i)

@[local spec high]
theorem modifyOutline_roams [RoamInvariant] {raw : Bool} (f : Outline → Outline) :
    Keeps raw (modifyOutline f) :=
  keeps_iff.mpr fun _ hs => RoamInvariant.printed hs

@[local spec high]
theorem add_roams [RoamInvariant] {raw : Bool} (d : Declaration) : Keeps raw (add d) :=
  keeps_iff.mpr fun _ hs => RoamInvariant.printed hs

@[local spec high]
theorem addSpaced_roams [RoamInvariant] {raw : Bool} (spacing : String) (ds : List Declaration) :
    Keeps raw (addSpaced spacing ds) := by
  unfold addSpaced
  mvcgen

@[local spec high]
theorem Comment.takeAfter_roams [RoamInvariant] {raw : Bool} : Keeps raw takeAfter := by
  unfold takeAfter takeRun
  mvcgen [moveTo_roams]

@[local spec high]
theorem Directive.foldTo_roams [RoamInvariant] {raw : Bool} {α : Type} (stop : Nat) (start : α)
    (step : α → Nat → Token → α) : Keeps raw (foldTo stop start step) := by
  unfold foldTo
  mvcgen [cursor_roams]

@[local spec high]
theorem Directive.readFunctionSource_roams [RoamInvariant] {raw : Bool} (name : String)
    (types : List String) (hasParameters : Bool) (span : Span) :
    Keeps raw (readFunctionSource name types hasParameters span) := by
  unfold readFunctionSource readParameters
  mvcgen [cursor_roams, moveTo_roams]

@[local spec high]
theorem Directive.readFunctions_roams [RoamInvariant] {raw : Bool} (scope : Scope) (name : String)
    (rule : Rule) (types : List String) (hasParameters : Bool) (span : Span) :
    Keeps raw (readFunctions scope name rule types hasParameters span) := by
  unfold readFunctions readAlternative
  mvcgen
  exact Declarator.read_keepsInside _

@[local spec high]
theorem Directive.readConstantType_roams [RoamInvariant] {raw : Bool} (scope : Scope)
    (rule : Option Rule) (type : Literal) : Keeps raw (readConstantType scope rule type) := by
  unfold readConstantType
  mvcgen
  exact Declarator.read_keepsInside _

/-- A constant whose name has a rule is only printed. -/
@[local spec high]
theorem Directive.readConstant_roams [RoamInvariant] {raw : Bool} (scope : Scope) (name : String)
    (rule : Rule) (span : Span) (d : Declaration) :
    Keeps raw (readConstant scope name (some rule) span d) := by
  unfold readConstant
  simp only [Option.isNone_some, Bool.false_eq_true, if_false]
  mvcgen [moveTo_roams]
  intro s hs
  split
  · mvcgen
  · mvcgen

@[local spec high]
theorem Directive.readAsComment_roams [RoamInvariant] {raw : Bool} (spacing : String)
    (keyword : Token) (span : Span) : Keeps raw (readAsComment spacing keyword span) := by
  unfold readAsComment
  mvcgen [moveTo_roams]

/-- A rule that a definition is not kept for expansion for. -/
def Rule.Spent (rule : Rule) : Prop :=
  rule.nativeText.isSome = true ∨ rule.nativeTypes ≠ some []

/-- Rules that a definition is not kept for expansion for are applied without
learning. -/
theorem Directive.applyRules_roams [RoamInvariant] {raw : Bool} (scope : Scope) (mark : Nat)
    (span : Span) (name : String) (hasParameters : Bool) (d : Declaration) {rules : List Rule}
    (h : ∀ rule ∈ rules, rule.Spent) :
    Keeps raw (applyRules scope mark span name hasParameters d (rules.map some)) := by
  induction rules generalizing d with
  | nil =>
    unfold applyRules
    mvcgen
  | cons rule rules ih =>
    have huse : useOf (some rule) hasParameters (span.start + 1 == span.last) ≠ .expand := by
      unfold useOf
      rcases h rule List.mem_cons_self with htext | htypes
      · simp [htext]
      · grind
    have hrest := fun d => ih d fun rule hrule => h rule (List.mem_cons_of_mem _ hrule)
    simp only [List.map_cons]
    unfold applyRules
    mvcgen [hrest, -applyRules_keeps]

/-! ## Reading without preprocessing -/

section Raw

variable {s s' : Reading}

theorem ReadM.peek_raw (h : s.window.raw = true) :
    peek s = .ok (Window.tokenAt s.window.tokens s.window.index) s := by
  simp [peek, peekAt, Window.get, Window.position, h]

theorem ReadM.advance_raw (h : s.window.raw = true) :
    advance s = .ok (Window.tokenAt s.window.tokens (s.window.index + 1))
      { s with window.index := s.window.index + 1 } := by
  simp only [advance, Window.next, Window.position, h, if_true, Option.map_some]
  rfl

theorem ReadM.moveTo_eq (i : Nat) (s : Reading) :
    moveTo i s = .ok () { s with window.index := i } := rfl

theorem ReadM.raw_eq_ok {α : Type} {step : ReadM α} {a : α} (h : raw step s = .ok a s') :
    ∃ s₁, step { s with window.raw := true } = .ok a s₁ ∧ s'.table = s₁.table := by
  unfold raw around at h
  split at h
  next a' s₁ hstep =>
    cases h
    exact ⟨s₁, hstep, rfl⟩
  · cases h

/-- The tokens from a position on, up to another. -/
def Directive.between (tokens : Array Token) (start stop : Nat) : List Token :=
  ((tokens.toList.drop start).take (stop - start)).takeWhile (!·.isEof)

theorem Directive.between_cons {tokens : Array Token} {start stop : Nat} (h : start < stop)
    (hend : (Window.tokenAt tokens start).isEof = false) :
    between tokens start stop =
      Window.tokenAt tokens start :: between tokens (start + 1) stop := by
  have hlt : start < tokens.size := by
    by_contra hge
    rw [Window.tokenAt, Array.getElem?_eq_none (Nat.le_of_not_lt hge), Option.getD_none,
      Window.isEof_endToken] at hend
    cases hend
  have htoken : Window.tokenAt tokens start = tokens[start] := by simp [Window.tokenAt, hlt]
  have hcount : stop - start = (stop - (start + 1)) + 1 := by omega
  have hdrop : tokens.toList.drop start = tokens[start] :: tokens.toList.drop (start + 1) := by
    rw [List.drop_eq_getElem_cons (by simpa using hlt), Array.getElem_toList]
  rw [htoken] at hend ⊢
  rw [between, hdrop, hcount, List.take_succ_cons, List.takeWhile_cons_of_pos (by simp [hend])]
  rfl

theorem Directive.between_nil {tokens : Array Token} {start stop : Nat}
    (h : ¬ (start < stop ∧ (Window.tokenAt tokens start).isEof = false)) :
    between tokens start stop = [] := by
  by_cases hlt : start < stop
  · have hend : (Window.tokenAt tokens start).isEof = true := by simpa [hlt] using h
    by_cases hsize : start < tokens.size
    · have htoken : Window.tokenAt tokens start = tokens[start] := by simp [Window.tokenAt, hsize]
      have hcount : stop - start = (stop - (start + 1)) + 1 := by omega
      rw [htoken] at hend
      rw [between, List.drop_eq_getElem_cons (by simpa using hsize), hcount, List.take_succ_cons,
        Array.getElem_toList, List.takeWhile_cons_of_neg (by simp [hend])]
    · simp [between, List.drop_eq_nil_of_le, Nat.le_of_not_lt hsize]
  · simp [between, Nat.sub_eq_zero_of_le (Nat.le_of_not_lt hlt)]

/-- Stepping through tokens goes from one to the next. -/
theorem Directive.foldTo_raw {α : Type} {step : α → Token → α} {stop : Nat} {a b : α}
    (hraw : s.window.raw = true) (hrun : foldTo stop a (fun a _ t => step a t) s = .ok b s') :
    b = (between s.window.tokens s.window.index stop).foldl step a := by
  obtain ⟨first, s₁, hpeek, hiterate⟩ := bind_eq_ok hrun
  rw [peek_raw hraw] at hpeek
  cases hpeek
  obtain ⟨s₂, s₃, hget, hloop⟩ := bind_eq_ok hiterate
  cases hget
  clear hrun hiterate
  generalize s.bound = n at hloop
  induction n generalizing a s with
  | zero => cases hloop
  | succ n ih =>
      rw [iterateUpTo] at hloop
      obtain ⟨turn, s₁, hturn, hrest⟩ := bind_eq_ok hloop
      obtain ⟨i, s₂, hcursor, hturn⟩ := bind_eq_ok hturn
      cases hcursor
      by_cases hon : s.window.index < stop ∧
          (Window.tokenAt s.window.tokens s.window.index).isEof = false
      · rw [if_pos (by simpa using hon)] at hturn
        obtain ⟨next, s₂, hadvance, hturn⟩ := bind_eq_ok hturn
        rw [advance_raw hraw] at hadvance
        cases hadvance
        cases hturn
        rw [between_cons hon.1 hon.2, List.foldl_cons]
        exact ih (s := { s with window.index := s.window.index + 1 }) hraw hrest
      · rw [if_neg (by simpa using hon)] at hturn
        cases hturn
        cases hrest
        rw [between_nil hon]
        rfl

end Raw

/-! ## Lines -/

namespace Directive

/-- The text of the line from a mark on, as it is expanded. -/
def lineText (tokens : Array Token) (mark stop : Nat) : String :=
  Text.trimStart ((between tokens mark stop).foldl
    (fun text t => text ++ (if t.isContinuation then "\n" else t.spaced)) "")

/-- The text that the definition whose mark is here is kept for expansion with:
there is one if it is empty or has parameters. -/
def expansion? (tokens : Array Token) (mark : Nat) : Option String :=
  let span := spanAt tokens mark
  let first := Window.tokenAt tokens (span.start + 1)
  if first.spacing.isEmpty && first.is "(" || span.start + 1 == span.last then
    some (lineText tokens mark span.stop)
  else none

/-- The cursor is on a line with this word and this name. -/
structure LineAt (word : Keyword) (name : String) (s : Reading) : Prop where
  mark : (s.window.tokens[s.window.index]?).any (fun t => t.kind == .punct && t.text == "#") = true
  word : (Window.tokenAt s.window.tokens (s.window.index + 1)).isKeyword word = true
  name : (Window.tokenAt s.window.tokens (s.window.index + 2)).text = name
  named : (spanAt s.window.tokens s.window.index).start <
    (spanAt s.window.tokens s.window.index).last

variable {s s' : Reading} {name : String} {word : Keyword} {scope : Scope} {b : Bool}

theorem LineAt.exists_mark (h : LineAt word name s) :
    ∃ t, s.window.tokens[s.window.index]? = some t ∧ t.kind = .punct ∧ t.text = "#" := by
  simpa [Option.any_eq_true_iff_get, Option.eq_some_iff_get_eq] using h.mark

/-- The search stops at the mark of a line that opens no group, and changes nothing. -/
theorem seek_mark (h : LineAt word name s) (hword : word.opensGroup = false) {fuel : Nat}
    (hfuel : 0 < fuel) : Window.seek s.table fuel s.window.tokens s.window.index 0 =
      some (s.window.tokens, s.window.index) := by
  obtain ⟨t, ht, hkind, -⟩ := h.exists_mark
  have hopens : Window.opensAt s.window.tokens s.window.index = false := by
    have hnext := h.word
    unfold Window.opensAt
    rw [ht]
    cases htokens : s.window.tokens[s.window.index + 1]? with
    | none => rfl
    | some next =>
        simp only [Window.tokenAt, htokens, Option.getD_some, Token.isKeyword,
          beq_iff_eq] at hnext
        simp [Conditional.opens, Token.isKeywordWith, hnext, hword]
  have hvisit : Window.visit s.table s.window.tokens s.window.index = s.window.tokens := by
    simp [Window.visit, Window.resolveAt, hopens, Window.expandAt, ht, Expansion.ruleFor?,
      Token.isWord, hkind]
  obtain ⟨hlt, -⟩ := Array.getElem?_eq_some_iff.mp ht
  obtain ⟨fuel, rfl⟩ := Nat.exists_eq_add_one.mpr hfuel
  rw [Window.seek, if_pos hlt]
  simp [hvisit, ht, Token.isComment, hkind]

/-- Looking at the mark of a line that opens no group changes nothing. -/
theorem peek_mark (h : LineAt word name s) (hword : word.opensGroup = false) :
    ∃ t, peek s = .ok t s ∧ t.is "#" = true := by
  obtain ⟨t, ht, hkind, htext⟩ := h.exists_mark
  refine ⟨t, ?_, by simp [Token.is, hkind, htext]⟩
  cases hraw : s.window.raw with
  | true => simpa [Window.tokenAt, ht] using peek_raw hraw
  | false =>
      obtain ⟨hlt, -⟩ := Array.getElem?_eq_some_iff.mp ht
      have hbound : 0 < s.bound :=
        Nat.lt_of_lt_of_le (Nat.zero_lt_of_lt hlt) (Nat.le_add_left _ _)
      have hseek := seek_mark h hword hbound
      simp only [peek, peekAt, Window.get, Window.position, hraw, Bool.false_eq_true, if_false,
        Int.toNat_zero, hseek, Option.map_some, Window.tokenAt, ht, Option.getD_some]
      rw [← hraw]

/-- What a line does to the table, its definition or its `#undef` does. -/
theorem read_eq_ok (h : LineAt word name s) (hword : word = .define_ ∨ word = .undef_)
    (hrun : read scope s = .ok b s') :
    ∃ d s₁ s₂, s₁.window.raw = true ∧ s₁.window.tokens = s.window.tokens ∧ s₁.table = s.table ∧
      s'.table = s₂.table ∧
      (if word = .define_ then
        readDefinition scope s.window.index (spanAt s.window.tokens s.window.index)
      else readUndefinition (spanAt s.window.tokens s.window.index)) s₁ = .ok d s₂ := by
  obtain ⟨t, hpeek, hmark⟩ := peek_mark h (by rcases hword with rfl | rfl <;> rfl)
  obtain ⟨t', s₀, hfirst, hrun⟩ := bind_eq_ok hrun
  rw [hpeek] at hfirst
  cases hfirst
  rw [if_neg (by simp [hmark])] at hrun
  obtain ⟨s₁, hline, htable⟩ := raw_eq_ok hrun
  -- the mark, the word and the token behind it
  obtain ⟨mark, s₂, hcursor, hline⟩ := bind_eq_ok hline
  cases hcursor
  obtain ⟨t'', s₂, hspacing, hline⟩ := bind_eq_ok hline
  rw [peek_raw (by rfl)] at hspacing
  cases hspacing
  obtain ⟨keyword, s₂, hkeyword, hline⟩ := bind_eq_ok hline
  rw [advance_raw (by rfl)] at hkeyword
  cases hkeyword
  obtain ⟨next, s₂, hnext, hline⟩ := bind_eq_ok hline
  rw [advance_raw (by rfl)] at hnext
  cases hnext
  obtain ⟨s₂, s₃, hget, hline⟩ := bind_eq_ok hline
  cases hget
  have hkind : (Window.tokenAt s.window.tokens (s.window.index + 1)).kind = .keyword word := by
    simpa [Token.isKeyword] using h.word
  simp only [Token.isKeyword, hkind, h.named, decide_true, Bool.and_true, beq_iff_eq,
    Kind.keyword.injEq] at hline
  -- what is printed behind it changes no rule
  refine hword.elim ?_ ?_
  · rintro rfl
    rw [if_pos rfl] at hline ⊢
    obtain ⟨d, s₂, hd, hline⟩ := bind_eq_ok hline
    refine ⟨d, _, s₂, ?_, ?_, ?_, htable.trans (table_eq_of_roams ?_ hline), hd⟩
    · rfl
    · rfl
    · rfl
    · intro
      mvcgen [moveTo_roams]
  · rintro rfl
    rw [if_neg (by decide), if_pos rfl] at hline
    rw [if_neg (by decide)]
    obtain ⟨d, s₂, hd, hline⟩ := bind_eq_ok hline
    refine ⟨d, _, s₂, ?_, ?_, ?_, htable.trans (table_eq_of_roams ?_ hline), hd⟩
    · rfl
    · rfl
    · rfl
    · intro
      mvcgen [moveTo_roams]

/-- The name and whether there are parameters, and what is done then. -/
theorem readDefinition_eq_ok {i : Nat} {d : Declaration} (h : LineAt .define_ name s)
    (hraw : s'.window.raw = true) (htokens : s'.window.tokens = s.window.tokens) {s₂ : Reading}
    (hrun : readDefinition scope i (spanAt s.window.tokens s.window.index) s' = .ok d s₂) :
    ∃ hasParameters s₁,
      (hasParameters || (spanAt s.window.tokens s.window.index).start + 1 ==
        (spanAt s.window.tokens s.window.index).last) =
          (expansion? s.window.tokens s.window.index).isSome ∧
      s₁.window.raw = true ∧ s₁.window.tokens = s.window.tokens ∧ s₁.table = s'.table ∧
      applyRules scope i (spanAt s.window.tokens s.window.index) name hasParameters {}
        (if (s'.table.rules name).isEmpty then [none] else (s'.table.rules name).map some) s₁ =
          .ok d s₂ := by
  obtain ⟨_, s₁, hmove, hrun⟩ := bind_eq_ok hrun
  rw [moveTo_eq] at hmove
  cases hmove
  obtain ⟨t, s₁, hpeek, hrun⟩ := bind_eq_ok hrun
  rw [peek_raw (by exact hraw)] at hpeek
  cases hpeek
  obtain ⟨first, s₁, hadvance, hrun⟩ := bind_eq_ok hrun
  rw [advance_raw (by exact hraw)] at hadvance
  cases hadvance
  obtain ⟨found, s₁, hrules, hrun⟩ := bind_eq_ok hrun
  cases hrules
  have hname : (Window.tokenAt s'.window.tokens
      (spanAt s.window.tokens s.window.index).start).text = name := by
    rw [htokens]
    exact h.name
  simp only [hname] at hrun
  refine ⟨_, _, ?_, ?_, ?_, ?_, hrun⟩
  · unfold expansion?
    rw [htokens]
    simp only
    split <;> simp_all
  · exact hraw
  · exact htokens
  · rfl

/-- A definition that is kept for expansion is written down with its text. -/
theorem recordExpansion_eq_ok {mark : Nat} {span : Span} {u : Unit}
    (hraw : s.window.raw = true) (hrun : recordExpansion name mark span s = .ok u s') :
    s'.table = s.table.putFirst { nativeNames := [name], define := true
                                  nativeText := some (lineText s.window.tokens mark span.stop) } := by
  obtain ⟨_, s₁, hmove, hrun⟩ := bind_eq_ok hrun
  rw [moveTo_eq] at hmove
  cases hmove
  obtain ⟨text, s₁, hfold, hrun⟩ := bind_eq_ok hrun
  have htext := foldTo_raw (by exact hraw) hfold
  have htable := table_eq_of_roams (by intro; exact foldTo_roams _ _ _) hfold
  cases hrun
  simp only [htable, htext]
  rfl

/-- A constant without rules is written down with its type. -/
theorem readConstant_eq_ok {span : Span} {d d' : Declaration}
    (hrun : readConstant scope name none span d s = .ok d' s') :
    ∃ type translate, s'.table = s.table.put
      { nativeNames := [name], nativeTypes := some [type], translate, define := true } := by
  obtain ⟨_, s₁, hmove, hrun⟩ := bind_eq_ok hrun
  rw [moveTo_eq] at hmove
  cases hmove
  obtain ⟨t, s₁, hget, hrun⟩ := bind_eq_ok hrun
  cases hget
  obtain ⟨found, s₁, hfold, hrun⟩ := bind_eq_ok hrun
  have htable₁ := table_eq_of_roams (by intro; exact foldTo_roams _ _ _) hfold
  obtain ⟨type, s₂, htype, hrun⟩ := bind_eq_ok hrun
  have htable₂ := table_eq_of_roams (by intro; exact readConstantType_roams _ _ _) htype
  obtain ⟨_, s₃, hmove, hrun⟩ := bind_eq_ok hrun
  rw [moveTo_eq] at hmove
  cases hmove
  simp only [Option.isNone_none, if_true] at hrun
  split at hrun
  · obtain ⟨value, s₃, hvalue, hrun⟩ := bind_eq_ok hrun
    have htable₃ := table_eq_of_roams (by intro; exact foldTo_roams _ _ _) hvalue
    cases hrun
    exact ⟨_, _, by simp only [htable₃, htable₂, htable₁]; rfl⟩
  · cases hrun
    exact ⟨_, _, by simp only [htable₂, htable₁]; rfl⟩

/-- **The first definition** of a name is written down. -/
theorem define_eq_ok (h : LineAt .define_ name s) (hname : Text.isWord name.toList = true)
    (hstack : s.table.Stacks name []) (hrun : read scope s = .ok b s') :
    ∃ rule : Rule, rule.define = true ∧ rule.Spent ∧
      rule.nativeText = expansion? s.window.tokens s.window.index ∧
      s'.table.Stacks name [rule] := by
  obtain ⟨d, s₁, s₂, hraw, htokens, htable, htable', hd⟩ := read_eq_ok h (Or.inl rfl) hrun
  rw [if_pos rfl] at hd
  obtain ⟨hasParameters, s₃, hexpands, hraw₃, htokens₃, htable₃, happly⟩ :=
    readDefinition_eq_ok h hraw htokens hd
  rw [htable, hstack.rules_eq hname, List.isEmpty_nil, if_pos rfl] at happly
  have htable₀ : s₃.table = s.table := htable₃.trans htable
  unfold applyRules at happly
  simp only [Option.any_none, Bool.false_eq_true, if_false, useOf, hexpands] at happly
  unfold expansion? at happly ⊢
  extract_lets span first
  by_cases hkept : (first.spacing.isEmpty && first.is "(" || span.start + 1 == span.last) = true
  · rw [if_pos hkept] at happly ⊢
    simp only [Option.isSome_some, if_true] at happly
    obtain ⟨u, s₄, hrecord, happly⟩ := bind_eq_ok happly
    cases happly
    have hlearned := recordExpansion_eq_ok hraw₃ hrecord
    rw [htable₀, htokens₃] at hlearned
    refine ⟨_, ?_, ?_, ?_, by rw [htable', hlearned]; exact hstack.learnFirst rfl⟩
    · rfl
    · exact Or.inl rfl
    · rfl
  · rw [if_neg hkept] at happly ⊢
    simp only [Option.isSome_none, Bool.false_eq_true, if_false] at happly
    obtain ⟨d', s₄, hconstant, happly⟩ := bind_eq_ok happly
    obtain ⟨type, translate, hlearned⟩ := readConstant_eq_ok hconstant
    unfold applyRules at happly
    cases happly
    rw [htable₀] at hlearned
    refine ⟨_, ?_, ?_, ?_, by rw [htable', hlearned]; exact hstack.learn_nil rfl⟩
    · rfl
    · exact Or.inr (by simp)
    · rfl

/-- Any further definition changes nothing. -/
theorem define_again_eq_ok {rules : List Rule} (h : LineAt .define_ name s)
    (hname : Text.isWord name.toList = true) (hstack : s.table.Stacks name rules)
    (hrules : rules ≠ []) (hspent : ∀ rule ∈ rules, rule.Spent)
    (hrun : read scope s = .ok b s') : s'.table = s.table := by
  obtain ⟨d, s₁, s₂, hraw, htokens, htable, htable', hd⟩ := read_eq_ok h (Or.inl rfl) hrun
  rw [if_pos rfl] at hd
  obtain ⟨hasParameters, s₃, -, -, -, htable₃, happly⟩ := readDefinition_eq_ok h hraw htokens hd
  rw [htable, hstack.rules_eq hname, if_neg (by simpa using hrules)] at happly
  rw [htable', ← htable, ← htable₃]
  refine table_eq_of_roams ?_ happly
  intro
  exact applyRules_roams _ _ _ _ _ _ hspent

/-- An `#undef` goes in front of the rules of the name, if there are any. -/
theorem undef_eq_ok {rules : List Rule} (h : LineAt .undef_ name s)
    (hname : Text.isWord name.toList = true) (hstack : s.table.Stacks name rules)
    (hrun : read scope s = .ok b s') :
    s'.table.Stacks name (if rules.isEmpty then [] else .named [name] :: rules) := by
  obtain ⟨d, s₁, s₂, hraw, htokens, htable, htable', hd⟩ := read_eq_ok h (Or.inr rfl) hrun
  rw [if_neg (by decide)] at hd
  obtain ⟨_, s₃, hmove, hd⟩ := bind_eq_ok hd
  rw [moveTo_eq] at hmove
  cases hmove
  obtain ⟨t, s₃, hpeek, hd⟩ := bind_eq_ok hd
  rw [peek_raw (by exact hraw)] at hpeek
  cases hpeek
  obtain ⟨known, s₃, htable₃, hd⟩ := bind_eq_ok hd
  cases htable₃
  have hsubject : (Window.tokenAt s₁.window.tokens
      (spanAt s.window.tokens s.window.index).start).text = name := by
    rw [htokens]
    exact h.name
  simp only [hsubject, htable, hstack.hasKey_eq hname] at hd
  cases hrules : rules.isEmpty with
  | true =>
      rw [if_neg (by simp [hrules])] at hd
      cases hd
      obtain rfl := List.isEmpty_iff.mp hrules
      rw [htable']
      exact hstack
  | false =>
      rw [if_pos (by simp [hrules])] at hd
      cases hd
      rw [htable']
      exact hstack.learnFirst rfl

end Directive

/-! ## Lines one after another -/

/-- A line that defines a macro, with the text it is expanded with if there is
one, or one that undefines it. -/
inductive MacroLine where
  | define (text : Option String)
  | undef
deriving DecidableEq

namespace MacroLine

/-- The cursor is on such a line for the name. -/
def StandsAt (name : String) (s : Reading) : MacroLine → Prop
  | define text => Directive.LineAt .define_ name s ∧
      Directive.expansion? s.window.tokens s.window.index = text
  | undef => Directive.LineAt .undef_ name s

/-- Lines for the name are read one after another, with nothing learned on the
way from one to the next. -/
inductive Run (scope : Scope) (name : String) : List MacroLine → Reading → Reading → Prop where
  | nil {s s' : Reading} (h : s'.table = s.table) : Run scope name [] s s'
  | cons {line : MacroLine} {lines : List MacroLine} {s s₁ s₂ s' : Reading} {b : Bool}
      (way : s₁.table = s.table) (stands : line.StandsAt name s₁)
      (read : Directive.read scope s₁ = .ok b s₂) (run : Run scope name lines s₂ s') :
      Run scope name (line :: lines) s s'

variable {scope : Scope} {name : String} {lines : List MacroLine} {s s' : Reading}

/-- Behind a first definition, each `#undef` comes in front of all there is and
no definition changes anything. -/
theorem run_stacks (hname : Text.isWord name.toList = true) (h : Run scope name lines s s')
    {rules : List Rule} (hstack : s.table.Stacks name rules) (hrules : rules ≠ [])
    (hspent : ∀ rule ∈ rules, rule.Spent) :
    s'.table.Stacks name (List.replicate (lines.count .undef) (Rule.named [name]) ++ rules) := by
  induction h generalizing rules with
  | nil h => simpa [h] using hstack
  | @cons line lines s s₁ s₂ s' b way stands read run ih =>
      rw [← way] at hstack
      cases line with
      | define text =>
          have hsame := Directive.define_again_eq_ok stands.1 hname hstack hrules hspent read
          rw [← hsame] at hstack
          simpa using ih hstack hrules hspent
      | undef =>
          have hput := Directive.undef_eq_ok stands hname hstack read
          rw [if_neg (by simpa using hrules)] at hput
          have hmarked : ∀ rule ∈ Rule.named [name] :: rules, rule.Spent := by
            intro rule hrule
            rcases List.mem_cons.mp hrule with rfl | hold
            · exact Or.inr (by simp [Rule.named])
            · exact hspent rule hold
          have hrest := ih hput (by simp) hmarked
          rwa [List.count_cons_self, List.replicate_succ', List.append_assoc]

/-- What is known of the name afterwards: nothing without a definition, or else
the first one under as many marks as there are `#undef`s behind it. -/
theorem run_rules (hname : Text.isWord name.toList = true) (h : Run scope name lines s s')
    (hstack : s.table.Stacks name []) :
    match lines.dropWhile (· == .undef) with
    | define text :: after => ∃ rule : Rule, rule.define = true ∧ rule.nativeText = text ∧
        s'.table.Stacks name (List.replicate (after.count .undef) (.named [name]) ++ [rule])
    | _ => s'.table.Stacks name [] := by
  induction h with
  | nil h => simpa [h] using hstack
  | @cons line lines s s₁ s₂ s' b way stands read run ih =>
      rw [← way] at hstack
      cases line with
      | undef =>
          have hput := Directive.undef_eq_ok stands hname hstack read
          exact ih hput
      | define text =>
          obtain ⟨rule, hdefine, hspent, htext, hput⟩ :=
            Directive.define_eq_ok stands.1 hname hstack read
          refine ⟨rule, hdefine, htext.trans stands.2, ?_⟩
          exact run_stacks hname run hput (by simp) (by simpa using hspent)

/-- **What lines leave behind.** A name without rules is known to be defined just
if some line defines it and no `#undef` comes behind the first that does. Uses of
it are then replaced by the text of that first definition. -/
theorem run_defined_iff (hsound : ∀ layer ∈ s.table.layers, layer.Sound)
    (hname : Text.isWord name.toList = true) (hnone : s.table.rules name = [])
    (h : Run scope name lines s s') :
    match lines.dropWhile (· == .undef) with
    | define text :: after =>
      ((s'.table.find? name).any (·.define) = true ↔ .undef ∉ after) ∧
        ∀ t : Token, t.isWord = true → t.text = name →
          (Expansion.ruleFor? s'.table t).map (·.2) = if .undef ∈ after then none else text
    | _ => s'.table.find? name = none := by
  have hrun := run_rules hname h (RuleTable.stacks_nil hsound hname hnone)
  split at hrun
  next text after hlines =>
    obtain ⟨rule, hdefine, htext, hstack⟩ := hrun
    have hkey : s'.table.hasKey name = true := by simp [hstack.hasKey_eq hname]
    by_cases hundef : .undef ∈ after
    · have hcount : after.count .undef ≠ 0 := by simpa [List.count_eq_zero] using hundef
      obtain ⟨n, hn⟩ := Nat.exists_eq_succ_of_ne_zero hcount
      have hfind : s'.table.find? name = some (.named [name]) := by
        rw [hstack.find?_eq hname, hn]
        rfl
      refine ⟨by simp [hfind, hundef, Rule.named], fun t _ ht => ?_⟩
      simp [Expansion.ruleFor?, ht, hfind, hundef, Rule.named]
    · have hfind : s'.table.find? name = some rule := by
        rw [hstack.find?_eq hname, List.count_eq_zero.mpr hundef]
        rfl
      refine ⟨by simp [hfind, hundef, hdefine], fun t hword ht => ?_⟩
      simp [Expansion.ruleFor?, hword, ht, hkey, hfind, hundef, htext, Function.comp_def]
  · rw [hrun.find?_eq hname, List.head?_nil]

/-- The state behind a line. -/
def behind (s : Reading) : Reading :=
  match Directive.read {} s with
  | .ok _ s' => s'
  | .error _ s' => s'

theorem read_behind (h : (match Directive.read {} s with
    | .ok b _ => b
    | .error _ _ => false) = true) : Directive.read {} s = .ok true (behind s) := by
  unfold behind
  split at h
  next b s' hread => rw [hread, h]
  · cases h

/-- A definition, an `#undef` and another definition: the name is not defined. -/
theorem run_defined_iff_again :
    ∃ s', Run {} "N" [.define none, .undef, .define none] (Reading.ofTokens {} []) s' ∧
      (s'.table.find? "N").any (·.define) = false := by
  let start : Reading := Reading.ofTokens {} []
  let onLine (s : Reading) (text : String) : Reading :=
    { s with window := .ofTokens (Token.ofText none text) }
  let s₁ := onLine start "#define N 1"
  let s₂ := onLine (behind s₁) "#undef N"
  let s₃ := onLine (behind s₂) "#define N 2"
  have hrun : Run {} "N" [.define none, .undef, .define none] start (behind s₃) := by
    have hway₁ : s₁.table = start.table := rfl
    have hway₂ : s₂.table = (behind s₁).table := rfl
    have hway₃ : s₃.table = (behind s₂).table := rfl
    refine .cons hway₁ ⟨⟨?_, ?_, ?_, ?_⟩, ?_⟩ (read_behind ?_)
      (.cons hway₂ ⟨?_, ?_, ?_, ?_⟩ (read_behind ?_)
        (.cons hway₃ ⟨⟨?_, ?_, ?_, ?_⟩, ?_⟩ (read_behind ?_) (.nil rfl)))
    all_goals decide +kernel
  have hiff := run_defined_iff (by simp [start, Reading.ofTokens, RuleTable.layers, Layer.sound_empty])
    (by decide +kernel) (by decide +kernel) hrun
  refine ⟨behind s₃, hrun, ?_⟩
  have hdefined := hiff.1
  simpa using hdefined

/-- What is said of a name by its first rule when a header has been read. -/
def definedAfter? (text name : String) : Option (Option Bool) :=
  match Statement.readAll {} { Reading.ofTokens {} (Token.ofText none text) with outline := {} } with
  | .ok () s => some ((s.table.find? name).map (·.define))
  | .error _ _ => none

/-- The last line defines the name, and it is known not to be defined. -/
theorem last_definition_is_lost :
    ∃ s, Statement.readAll {} { Reading.ofTokens {} (Token.ofText none
        "#define N 1\n#undef N\n#define N 2\n") with outline := {} } = .ok () s ∧
      (s.table.find? "N").map (·.define) = some false := by
  have hafter : definedAfter? "#define N 1\n#undef N\n#define N 2\n" "N" = some (some false) := by
    decide +kernel
  unfold definedAfter? at hafter
  split at hafter
  next s hread => exact ⟨s, hread, Option.some.inj hafter⟩
  · cases hafter

end MacroLine

end HeaderPeers

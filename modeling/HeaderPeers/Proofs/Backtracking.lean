import HeaderPeers.Proofs.Reading
import HeaderPeers.Proofs.Reading.Statements

/-!
# Going back

A statement is tried as one thing after another, and what does not recognize it
is taken to have done nothing: only the cursor is put back. This is so because
everything that is read before a recognizer makes up its mind is read by looking
(`Framed` is a `LookInvariant`), and because whatever has made up its mind says
yes or fails.

- `LooksOnly` — a step that has only looked if what it gives has a property.
- `Statement.attempt_leaves_no_trace` — the main statement.
-/

set_option mvcgen.warning false

namespace HeaderPeers

open Std.Do ReadM

/-! ## What looking leaves alone -/

/-- All but the warnings, the cursor and the tokens from a place on is as it was
before, and the cursor is not before that place. Inside a raw step nothing is
said of whether the window is raw; it is put back when the step ends. -/
structure Framed (before : Reading) (raw : Bool) (s : Reading) : Prop where
  raw_eq : raw = false → s.window.raw = before.window.raw
  table : s.table = before.table
  usings : s.usings = before.usings
  flattened : s.flattened = before.flattened
  constructors : s.constructors = before.constructors
  outline : s.outline = before.outline
  fuel : s.fuel = before.fuel
  index_le : before.window.index ≤ s.window.index
  consumed : s.window.tokens.toList.take before.window.index =
    before.window.tokens.toList.take before.window.index

theorem Framed.refl (s : Reading) : Framed s false s where
  raw_eq _ := rfl
  table := rfl
  usings := rfl
  flattened := rfl
  constructors := rfl
  outline := rfl
  fuel := rfl
  index_le := Nat.le_refl _
  consumed := rfl

/-- A look preprocesses tokens from the cursor on. -/
theorem Window.take_of_position {w w' : Window} {fuel i b : Nat} {table : RuleTable}
    {offset : Int} (h : w.position fuel table offset = some (i, w')) (hb : b ≤ w.index) :
    w'.raw = w.raw ∧ w'.index = w.index ∧
      w'.tokens.toList.take b = w.tokens.toList.take b := by
  unfold position at h
  split at h
  · cases h
    exact ⟨rfl, rfl, rfl⟩
  · obtain ⟨r, hr, heq⟩ := Option.map_eq_some_iff.mp h
    cases heq
    have htake := take_of_seek table fuel ⟨w.tokens, w.index, offset.toNat⟩ hr
    have hshort := congrArg (List.take b) htake
    rw [List.take_take, List.take_take, Nat.min_eq_left hb] at hshort
    exact ⟨rfl, rfl, hshort⟩

/-- Looking keeps the frame: tokens change from the cursor on, and the cursor only
goes back to places it has been at. -/
@[reducible]
def Framed.invariant (before : Reading) : LookInvariant where
  holds := Framed before
  core table outline fuel :=
    table = before.table ∧ outline = before.outline ∧ fuel = before.fuel
  place i := before.window.index ≤ i
  place_of_le hs hi := Nat.le_trans hs.index_le hi
  moved hs hi := { hs with index_le := hi }
  looked := by
    intro raw s offset i w hs hlook
    obtain ⟨hraw, hindex, htake⟩ := Window.take_of_position hlook hs.index_le
    exact { hs with
      raw_eq := fun h => hraw.trans (hs.raw_eq h)
      index_le := hindex ▸ hs.index_le
      consumed := htake.trans hs.consumed }
  warned hs := { hs with }
  bared hs := { hs with raw_eq := by simp }
  covered hs hs' := { hs' with raw_eq := hs.raw_eq }
  entered hs := ⟨hs.table, hs.outline, hs.fuel⟩
  left hs hs' := { hs with table := hs'.1, outline := hs'.2.1, fuel := hs'.2.2 }

/-! ## Steps that have only looked -/

namespace ReadM

variable {α β σ : Type} {before : Reading}

/-- If what the step gives has the property, the step has only looked. -/
def LooksOnly (before : Reading) (step : ReadM α) (R : α → Prop) : Prop :=
  ∀ s a s', Framed before false s → step s = .ok a s' → R a → Framed before false s'

theorem looksOnly_pure {a : α} {R : α → Prop} : LooksOnly before (pure a) R := by
  intro s b s' hs hrun _
  cases hrun
  exact hs

/-- A step that has made up its mind need not have only looked. -/
theorem looksOnly_of_yields {step : ReadM α} {R : α → Prop}
    (h : Yields step fun a => ¬ R a) : LooksOnly before step R :=
  fun s a s' _ hrun hR => absurd hR (h s a s' hrun)

/-- **Sequences.** If the first step gives something else, the second must have
made up its mind. -/
theorem LooksOnly.bind {step : ReadM α} {next : α → ReadM β} {P : α → Prop} {R : β → Prop}
    (h : LooksOnly before step P) (hnext : ∀ a, P a → LooksOnly before (next a) R)
    (helse : ∀ a, ¬ P a → Yields (next a) fun b => ¬ R b) :
    LooksOnly before (step >>= next) R := by
  intro s b s' hs hrun hR
  obtain ⟨a, s₁, ha, hb⟩ := bind_eq_ok hrun
  by_cases hP : P a
  · exact hnext a hP s₁ b s' (h s a s₁ hs ha hP) hb hR
  · exact absurd hR (helse a hP s₁ b s' hb)

theorem looksOnly_of_keeps {step : ReadM α} (h : ∀ [LookInvariant], Keeps false step) :
    LooksOnly before step fun _ => True := by
  intro s a s' hs hrun _
  let := Framed.invariant before
  have hkept := keeps_iff.mp h s hs
  rwa [hrun] at hkept

theorem looksOnly_bind {step : ReadM α} {next : α → ReadM β} {R : β → Prop}
    (h : ∀ [LookInvariant], Keeps false step) (hnext : ∀ a, LooksOnly before (next a) R) :
    LooksOnly before (step >>= next) R :=
  (looksOnly_of_keeps h).bind (fun a _ => hnext a) fun _ hfalse => absurd trivial hfalse

theorem looksOnly_cursor_bind {next : Nat → ReadM β} {R : β → Prop}
    (hnext : ∀ start, before.window.index ≤ start → LooksOnly before (next start) R) :
    LooksOnly before (cursor >>= next) R :=
  fun s b s' hs hrun hR => hnext s.window.index hs.index_le s b s' hs hrun hR

theorem looksOnly_moveTo_bind {i : Nat} {next : Unit → ReadM β} {R : β → Prop}
    (hi : before.window.index ≤ i) (hnext : ∀ u, LooksOnly before (next u) R) :
    LooksOnly before (moveTo i >>= next) R :=
  fun s b s' hs hrun hR =>
    hnext () { s with window.index := i } b s' { hs with index_le := hi } hrun hR

/-- **Loops.** As long as the state of the loop satisfies `I` its turns have only
looked, and once it does not it never will again. -/
theorem looksOnly_iterate {I : σ → Prop} {R : β → Prop} {start : σ}
    {turn : σ → ReadM (Turn σ β)} (hstart : I start)
    (hturn : ∀ state, I state → LooksOnly before (turn state) (Turn.Meets I R))
    (hlost : ∀ state, ¬ I state →
      Yields (turn state) (Turn.Meets (fun state => ¬ I state) fun b => ¬ R b)) :
    LooksOnly before (iterate start turn) R := by
  have hloop : ∀ n state, I state → LooksOnly before (iterateUpTo turn n state) R := by
    intro n
    induction n with
    | zero =>
        intro state _ s b s' _ hrun
        cases hrun
    | succ n ih =>
        intro state hstate
        refine (hturn state hstate).bind (fun r hr => ?_) fun r hr => ?_
        · cases r with
          | again state' => exact ih state' hr
          | done result => exact looksOnly_pure
        · cases r with
          | again state' => exact yields_iterateUpTo hlost n state' hr
          | done result => exact yields_pure hr
  exact fun s b s' hs hrun hR => hloop s.bound start hstart s b s' hs hrun hR

/-! ## Steps that have made up their mind -/

/-- The invariant that says nothing. -/
@[reducible]
def vacuous : ReadInvariant where
  holds _ _ := True
  core _ _ _ := True
  place _ := True
  place_of_le _ _ := trivial
  moved _ _ := trivial
  looked _ _ := trivial
  warned _ := trivial
  bared _ := trivial
  covered _ _ := trivial
  entered _ := trivial
  left _ _ := trivial
  anywhere _ := trivial
  learned _ := trivial
  printed _ := trivial
  named _ := trivial
  respaced _ := trivial
  core_learned _ := trivial
  core_printed _ := trivial

theorem vacuous_keeps {raw : Bool} (step : ReadM α) :
    @Keeps α vacuous.toLookInvariant raw step := by
  let := vacuous
  refine keeps_iff.mpr fun s _ => ?_
  split <;> trivial

/-- What a step gives can be found out as if every step kept the invariant. -/
theorem yields_of_gives {step : ReadM α} {Q : α → Prop}
    (h : ∀ _ : ReadInvariant, (∀ {β : Type} {raw : Bool} (step : ReadM β), Keeps raw step) →
      Gives false step Q) : Yields step Q := by
  intro s a s' hrun
  have hgives := triple_iff.mp (h vacuous vacuous_keeps) s trivial
  rw [hrun] at hgives
  exact hgives.2

theorem yields_raw {step : ReadM α} {P : α → Prop} (h : Yields step P) :
    Yields (ReadM.raw step) P := by
  intro s a s' hrun
  simp only [ReadM.raw, around] at hrun
  split at hrun
  next b after hstep =>
    cases hrun
    exact h _ _ _ hstep
  · cases hrun

theorem looksOnly_of_gives {step : ReadM Bool}
    (h : ∀ _ : ReadInvariant, (∀ {β : Type} {raw : Bool} (step : ReadM β), Keeps raw step) →
      Gives false step (· = true)) :
    LooksOnly before step (· = false) :=
  looksOnly_of_yields fun s a s' hrun => by simp [yields_of_gives h s a s' hrun]

end ReadM

/-! ## The recognizers -/

variable {before : Reading} (scope : Scope)

theorem Directive.read_looksOnly : LooksOnly before (read scope) (· = false) := by
  refine looksOnly_bind peek_keeps fun t => ?_
  split
  · exact looksOnly_pure
  · refine looksOnly_of_yields (yields_raw ?_)
    have hline := yields_of_gives fun _ _ => readLine_gives scope
    exact fun s a s' hrun => by simp [hline s a s' hrun]

section
variable (readScope : Class.ScopeReader)

theorem Namespace.readLinkageWith_looksOnly :
    LooksOnly before (readLinkageWith readScope scope) (· = false) := by
  refine looksOnly_bind (by intro; mvcgen) fun isLinkage => ?_
  split
  · exact looksOnly_pure
  · refine looksOnly_of_gives fun inv hall => ?_
    have hblock (scope : Scope) : Keeps false (readBlock readScope scope) := hall _
    mvcgen [leaveSpacing, hblock]

theorem Namespace.readWith_looksOnly :
    LooksOnly before (readWith readScope scope) (· = false) := by
  refine looksOnly_bind (by intro; mvcgen) fun isInline => ?_
  extract_lets rest
  have hrest (u : Unit) : LooksOnly before (rest u) (· = false) := by
    refine looksOnly_bind peek_keeps fun t => ?_
    split
    · exact looksOnly_pure
    · refine looksOnly_of_gives fun inv hall => ?_
      have hblock (scope : Scope) : Keeps false (readBlock readScope scope) := hall _
      mvcgen [leaveSpacing, hblock]
  split
  · exact looksOnly_bind advance_keeps fun _ => hrest ()
  · exact hrest ()

theorem Enumeration.read_looksOnly : LooksOnly before (read scope) (· = false) := by
  refine looksOnly_bind peek_keeps fun first => ?_
  refine looksOnly_bind peek_keeps fun again => ?_
  refine looksOnly_bind toEnum_keeps fun isEnum => ?_
  split
  · exact looksOnly_pure
  · refine looksOnly_bind (readHead_keeps scope _ _) fun head => ?_
    cases head with
    | none => exact looksOnly_pure
    | some found =>
        obtain ⟨head, t⟩ := found
        dsimp only
        split
        · refine looksOnly_of_gives fun inv hall => ?_
          mvcgen [leaveSpacing]
        · split
          · exact looksOnly_pure
          · exact looksOnly_of_gives fun _ _ => readBody_gives scope head

theorem Class.readWith_looksOnly :
    LooksOnly before (readWith readScope scope) (· = false) := by
  refine looksOnly_bind (readHead_keeps scope) fun head => ?_
  cases head with
  | none => exact looksOnly_pure
  | some head =>
      refine looksOnly_of_gives fun inv hall => ?_
      have hscope (scope : Scope) : Keeps false (readScope scope) := hall _
      have hbody := readBody_gives hscope trivial scope
      mvcgen [cursor_keeps, moveTo_anywhere, readForward_gives, hbody]

theorem Alias.readTypedef_looksOnly : LooksOnly before (readTypedef scope) (· = false) := by
  refine looksOnly_bind peek_keeps fun first => ?_
  refine looksOnly_bind peek_keeps fun t => ?_
  split
  · exact looksOnly_pure
  · refine looksOnly_cursor_bind fun start hstart => ?_
    -- nothing is learned before the first declarator has been found
    let I (state : Array Declaration × Nat) : Prop := state.1 = #[]
    refine LooksOnly.bind (P := (· = [])) (looksOnly_iterate (I := I) rfl ?_ ?_) ?_ ?_
    · rintro ⟨ds, number⟩ hds
      refine looksOnly_moveTo_bind hstart fun _ => ?_
      refine looksOnly_bind (Declarator.read_keeps _) fun declarator => ?_
      cases declarator with
      | none => exact looksOnly_pure
      | some d =>
          dsimp only
          split
          · exact looksOnly_pure
          · refine looksOnly_of_yields (yields_of_gives fun inv hall => ?_)
            mvcgen
            all_goals exact ⟨‹_›, by simp [I, Turn.Meets]⟩
    · rintro ⟨ds, number⟩ hds
      refine yields_of_gives fun inv hall => ?_
      mvcgen [moveTo_anywhere]
      all_goals simp_all +zetaDelta [Turn.Meets]
    · rintro ds rfl
      exact looksOnly_pure
    · intro ds hds
      refine yields_of_gives fun inv hall => ?_
      mvcgen
      simp_all

theorem Alias.readUsing_looksOnly : LooksOnly before (readUsing scope) (· = false) := by
  refine looksOnly_bind peek_keeps fun t => ?_
  split
  · exact looksOnly_pure
  · refine looksOnly_of_gives fun inv hall => ?_
    mvcgen
    exact fun _ _ => readTypedef_keepsInside scope

theorem Function.read_looksOnly : LooksOnly before (read scope) (· = false) := by
  refine looksOnly_bind peek_keeps fun first => ?_
  refine looksOnly_bind peek_keeps fun again => ?_
  extract_lets isFriend passOver rest
  have hrest (u : Unit) : LooksOnly before (rest u) (· = false) := by
    refine looksOnly_cursor_bind fun start hstart => ?_
    refine looksOnly_bind (NativeType.read_keeps scope) fun type => ?_
    cases type with
    | none => exact looksOnly_pure
    | some type =>
        refine looksOnly_bind peek_keeps fun t => ?_
        refine looksOnly_bind (Parameters.read_keeps scope 0 none) fun parameters => ?_
        split
        · exact looksOnly_pure
        · split
          · refine looksOnly_of_gives fun inv hall => ?_
            mvcgen [leaveSpacing]
          · refine looksOnly_moveTo_bind hstart fun _ => ?_
            refine looksOnly_bind (readDeclarator_keeps scope 0 none) fun declarator => ?_
            cases declarator with
            | none => exact looksOnly_pure
            | some d =>
                dsimp only
                split
                · exact looksOnly_pure
                · split
                  · exact looksOnly_pure
                  · exact looksOnly_of_gives fun _ _ => readFound_gives _ _ _ _ _ _ _
  split
  · exact looksOnly_bind advance_keeps fun _ => hrest ()
  · exact hrest ()

theorem Variable.read_looksOnly : LooksOnly before (read scope) (· = false) := by
  refine looksOnly_cursor_bind fun start hstart => ?_
  refine looksOnly_bind peek_keeps fun first => ?_
  refine looksOnly_bind (Declarator.read_keeps _) fun declarator => ?_
  cases declarator with
  | none => exact looksOnly_pure
  | some d =>
      dsimp only
      split
      · exact looksOnly_pure
      · refine looksOnly_bind peek_keeps fun t => ?_
        split
        · exact looksOnly_pure
        · refine looksOnly_of_gives fun inv hall => ?_
          mvcgen [leaveSpacing]

theorem Statement.recognizers_looksOnly :
    ∀ step ∈ recognizers readScope scope, LooksOnly before step (· = false) := by
  simp only [recognizers, List.forall_mem_cons, List.not_mem_nil, false_imp_iff, implies_true,
    and_true]
  exact ⟨Directive.read_looksOnly scope, Namespace.readLinkageWith_looksOnly scope readScope,
    Namespace.readWith_looksOnly scope readScope, Enumeration.read_looksOnly scope,
    Class.readWith_looksOnly scope readScope, Alias.readTypedef_looksOnly scope,
    Alias.readUsing_looksOnly scope, Function.read_looksOnly scope,
    Variable.read_looksOnly scope⟩

end

namespace Statement

/-- **Going back leaves no trace.** If a recognizer that is tried recognizes
nothing, then of the whole state only the warnings and the tokens from the
cursor on may have changed. -/
theorem attempt_leaves_no_trace {readScope : Class.ScopeReader} {scope : Scope}
    {step : ReadM Bool} (hstep : step ∈ recognizers readScope scope) {s s' : Reading}
    (h : attempt step s = .ok false s') :
    s' = { s with window.tokens := s'.window.tokens, warnings := s'.warnings } ∧
      s'.window.tokens.toList.take s.window.index = s.window.tokens.toList.take s.window.index := by
  obtain ⟨back, s₀, hback, hrun⟩ := bind_eq_ok h
  cases hback
  obtain ⟨matched, s₁, hread, hend⟩ := bind_eq_ok hrun
  cases matched with
  | true => cases hend
  | false =>
      have hlooks : LooksOnly s step (· = false) :=
        recognizers_looksOnly scope readScope step hstep
      have hframed := hlooks s false s₁ (.refl s) hread rfl
      cases hend
      refine ⟨?_, hframed.consumed⟩
      simp only [Reading.mk.injEq, Window.mk.injEq]
      exact ⟨⟨trivial, trivial, hframed.raw_eq rfl⟩, hframed.table, hframed.usings,
        hframed.flattened, hframed.constructors, trivial, hframed.outline, hframed.fuel⟩

/-- The cursor in front of a macro, behind another statement. -/
def atMacro : Reading :=
  let table := ({} : RuleTable).put { nativeNames := ["A"], nativeText := some "#define A int" }
  let start := Reading.ofTokens table (Token.ofText none "; A x;")
  { start with window.index := 1 }

/-- Trying an enumeration expands the macro and goes through the words, and
recognizes nothing. -/
theorem attempt_enumeration_atMacro :
    ∃ s', attempt (Enumeration.read {}) atMacro = .ok false s' ∧
      s'.window.tokens.toList.map (·.text) = [";", "int", "x", ";"] ∧
      s' = { atMacro with window.tokens := s'.window.tokens, warnings := s'.warnings } ∧
      s'.window.tokens.toList.take 1 = atMacro.window.tokens.toList.take 1 := by
  have hrun : (match attempt (Enumeration.read {}) atMacro with
      | .ok false s' => s'.window.tokens.toList.map (·.text) == [";", "int", "x", ";"]
      | _ => false) = true := by
    decide +kernel
  split at hrun
  next s' hread =>
    have hmember : Enumeration.read {} ∈ recognizers (fun _ => pure ()) {} := by
      simp [recognizers]
    exact ⟨s', hread, eq_of_beq hrun, attempt_leaves_no_trace hmember hread⟩
  · cases hrun

end Statement

end HeaderPeers

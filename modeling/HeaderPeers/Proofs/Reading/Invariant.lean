import HeaderPeers.Attribute
import HeaderPeers.Class.Reader
import HeaderPeers.Proofs.Reading
import HeaderPeers.Proofs.Window.Search
import Mathlib

/-!
# Invariants of reading

A property of the state that the basic steps keep is kept by everything that is
put together from them, whether it succeeds or fails. `Keeps` says so as a
triple, and the rules here follow the ways steps are put together: loops,
recursions, raw steps, attempts and steps on another text.

There are three kinds of invariants. Types and declarators are read by looking at
tokens and moving the cursor alone; a `LookInvariant` need not survive more.
Statements also learn rules, print and bring names into scope. A
`StatementInvariant` survives the ways they do so: declarations are added one
after another, an inner scope prints to an outline of its own, and what is
remembered of a class was read in its body. A `ReadInvariant` survives any
outline and anything remembered.
-/

set_option mvcgen.warning false

namespace HeaderPeers

open Std.Do

/-- What looking at tokens and moving the cursor keeps. -/
class LookInvariant where
  /-- The property of a state whose window is raw or not. -/
  holds : Bool → Reading → Prop
  /-- What of it can be said while another text is read. -/
  core : RuleTable → Outline → Nat → Prop
  /-- Positions the cursor may be put at. -/
  place : Nat → Prop
  place_of_le {raw : Bool} {s : Reading} {i : Nat} :
    holds raw s → s.window.index ≤ i → place i
  moved {raw : Bool} {s : Reading} {i : Nat} :
    holds raw s → place i → holds raw { s with window.index := i }
  looked {raw : Bool} {s : Reading} {offset : Int} {i : Nat} {w : Window} :
    holds raw s → s.window.position s.bound s.table offset = some (i, w) →
      holds raw { s with window := w }
  warned {raw : Bool} {s : Reading} {warnings : Array Diagnostic} :
    holds raw s → holds raw { s with warnings }
  bared {raw : Bool} {s : Reading} :
    holds raw s → holds true { s with window.raw := true }
  covered {raw : Bool} {s s' : Reading} :
    holds raw s → holds true s' → holds raw { s' with window.raw := s.window.raw }
  entered {raw : Bool} {s : Reading} : holds raw s → core s.table s.outline s.fuel
  left {raw : Bool} {s s' : Reading} :
    holds raw s → core s'.table s'.outline s'.fuel →
      holds raw { s' with
        window := s.window, usings := s.usings
        flattened := s.flattened, constructors := s.constructors
        warnings := s.warnings ++ s'.warnings }

/-- What can be said of an invariant while another text is read. -/
@[reducible]
def LookInvariant.inside (inv : LookInvariant) : LookInvariant where
  holds _ s := inv.core s.table s.outline s.fuel
  core := inv.core
  place _ := True
  place_of_le _ _ := trivial
  moved hs _ := hs
  looked hs _ := hs
  warned hs := hs
  bared hs := hs
  covered _ hs' := hs'
  entered hs := hs
  left _ hs' := hs'

/-- What statements keep, given how they change the state: they learn rules, add
declarations to the outline of the scope, put the cursor anywhere, change spacing
and remember what was read of a class. -/
class StatementInvariant extends LookInvariant where
  /-- Which readers the bodies of classes are read with. -/
  reads : Class.ScopeReader → Prop
  anywhere (i : Nat) : place i
  learned {raw : Bool} {s : Reading} {priority : Priority} {rule : Rule} :
    holds raw s → holds raw { s with table.top := s.table.top.putAt priority rule }
  added {raw : Bool} {s : Reading} {d : Declaration} :
    holds raw s → holds raw { s with outline := (s.outline.add s.table d).2 }
  framed {raw : Bool} {s : Reading} {spacing : Option String} {statement : Statement} :
    holds raw s → holds raw { s with outline := { s.outline with spacing, statement } }
  emptied {raw : Bool} {s : Reading} : holds raw s → holds raw { s with outline := {} }
  restored {raw : Bool} {s s' : Reading} :
    holds raw s → holds raw s' → holds raw { s' with outline := s.outline }
  named {raw : Bool} {s : Reading} {usings : List String}
    {constructors : List (String × List Declaration)} :
    holds raw s → holds raw { s with usings, constructors }
  respaced {raw : Bool} {s : Reading} {i : Nat} {spacing : String} :
    holds raw s → holds raw { s with
      window.tokens := s.window.tokens.modify i fun t => { t with spacing } }
  /-- What is remembered of a class are the members read in its body and what bases repeat. -/
  remembered {raw : Bool} {s t t' : Reading} {readScope : Class.ScopeReader} {scope : Scope}
    {table : RuleTable} {type : NativeType} {rule : Option Rule} {isPrivate isAnonymous : Bool}
    {vars : List Declarator} {members : Outline} {bases : List NativeType} {text : String} :
    holds raw s → reads readScope →
      Class.readInside readScope scope
        (Class.innerScope scope table type rule isPrivate isAnonymous) vars t = .ok members t' →
      Class.inheritedText scope bases s = .ok text s → rule.any (·.flatten) = true →
        holds raw { s with
          flattened := Class.assign type.nativeName (Class.memberText
            (Class.makingOf members.toList rule scope.cOnly) members.toList ++ text) s.flattened }
  core_learned {table : RuleTable} {outline : Outline} {fuel : Nat} {priority : Priority}
    {rule : Rule} : core table outline fuel →
      core { table with top := table.top.putAt priority rule } outline fuel
  core_added {table : RuleTable} {outline : Outline} {fuel : Nat} {d : Declaration} :
    core table outline fuel → core table (outline.add table d).2 fuel
  core_framed {table : RuleTable} {outline : Outline} {fuel : Nat} {spacing : Option String}
    {statement : Statement} :
    core table outline fuel → core table { outline with spacing, statement } fuel
  core_emptied {table : RuleTable} {outline : Outline} {fuel : Nat} :
    core table outline fuel → core table {} fuel
  core_restored {table table' : RuleTable} {outline outline' : Outline} {fuel fuel' : Nat} :
    core table outline fuel → core table' outline' fuel' → core table' outline fuel'

@[inherit_doc LookInvariant.inside, reducible]
def StatementInvariant.inside (inv : StatementInvariant) : StatementInvariant where
  toLookInvariant := inv.toLookInvariant.inside
  reads := inv.reads
  anywhere _ := trivial
  learned := inv.core_learned
  added := inv.core_added
  framed := inv.core_framed
  emptied := inv.core_emptied
  restored := inv.core_restored
  named hs := hs
  respaced hs := hs
  remembered hs _ _ _ _ := hs
  core_learned := inv.core_learned
  core_added := inv.core_added
  core_framed := inv.core_framed
  core_emptied := inv.core_emptied
  core_restored := inv.core_restored

/-- What statements keep whatever they print and remember. -/
class ReadInvariant extends LookInvariant where
  anywhere (i : Nat) : place i
  learned {raw : Bool} {s : Reading} {priority : Priority} {rule : Rule} :
    holds raw s → holds raw { s with table.top := s.table.top.putAt priority rule }
  printed {raw : Bool} {s : Reading} {outline : Outline} :
    holds raw s → holds raw { s with outline }
  named {raw : Bool} {s : Reading} {usings : List String} {flattened : List (String × String)}
    {constructors : List (String × List Declaration)} :
    holds raw s → holds raw { s with usings, flattened, constructors }
  respaced {raw : Bool} {s : Reading} {i : Nat} {spacing : String} :
    holds raw s → holds raw { s with
      window.tokens := s.window.tokens.modify i fun t => { t with spacing } }
  core_learned {table : RuleTable} {outline : Outline} {fuel : Nat} {priority : Priority}
    {rule : Rule} : core table outline fuel →
      core { table with top := table.top.putAt priority rule } outline fuel
  core_printed {table : RuleTable} {outline outline' : Outline} {fuel : Nat} :
    core table outline fuel → core table outline' fuel

@[inherit_doc LookInvariant.inside, reducible]
def ReadInvariant.inside (inv : ReadInvariant) : ReadInvariant where
  toLookInvariant := inv.toLookInvariant.inside
  anywhere _ := trivial
  learned := inv.core_learned
  printed := inv.core_printed
  named hs := hs
  respaced hs := hs
  core_learned := inv.core_learned
  core_printed := inv.core_printed

@[reducible]
instance (priority := low) ReadInvariant.ofStatements [inv : ReadInvariant] :
    StatementInvariant where
  toLookInvariant := inv.toLookInvariant
  reads _ := True
  anywhere := inv.anywhere
  learned := inv.learned
  added := inv.printed
  framed := inv.printed
  emptied := inv.printed
  restored _ hs' := inv.printed hs'
  named := inv.named
  respaced := inv.respaced
  remembered hs _ _ _ _ := inv.named hs
  core_learned := inv.core_learned
  core_added := inv.core_printed
  core_framed := inv.core_printed
  core_emptied := inv.core_printed
  core_restored _ hs' := inv.core_printed hs'

namespace ReadM

variable {α β σ : Type}

/-- Triples whose conditions are about the state alone say what a run says. -/
theorem triple_iff {step : ReadM α} {P : Reading → Prop} {Q : α → Reading → Prop}
    {E : Failure → Reading → Prop} :
    (⦃fun s => ⌜P s⌝⦄ step ⦃post⟨fun a s => ⌜Q a s⌝, fun e s => ⌜E e s⌝⟩⦄) ↔
      ∀ s, P s → match step s with
        | .ok a s' => Q a s'
        | .error e s' => E e s' := by
  constructor
  · intro h s hs
    have hrun := h s hs
    simp only [WP.wp, PredTrans.apply, EStateM.run] at hrun
    split at hrun <;> simp_all
  · intro h s hs
    have hrun := h s hs
    simp only [WP.wp, PredTrans.apply, EStateM.run]
    split <;> simp_all

/-- **Loops.** What each turn keeps, with the state of the loop, the loop keeps;
it may stop between two turns for want of fuel. -/
theorem triple_iterateUpTo {I : σ → Reading → Prop} {Q : β → Reading → Prop}
    {E : Failure → Reading → Prop} {turn : σ → ReadM (Turn σ β)}
    (hturn : ∀ state, ⦃fun s => ⌜I state s⌝⦄ turn state
      ⦃post⟨fun r s => ⌜match r with
        | .again state => I state s
        | .done result => Q result s⌝, fun e s => ⌜E e s⌝⟩⦄)
    (hout : ∀ state s, I state s → E .exhausted s) (n : Nat) :
    ∀ state, ⦃fun s => ⌜I state s⌝⦄ iterateUpTo turn n state
      ⦃post⟨fun b s => ⌜Q b s⌝, fun e s => ⌜E e s⌝⟩⦄ := by
  induction n with
  | zero => exact fun state => triple_iff.mpr (hout state)
  | succ n ih =>
      intro state
      mvcgen [iterateUpTo, hturn, ih]

theorem triple_iterate {I : σ → Reading → Prop} {Q : β → Reading → Prop}
    {E : Failure → Reading → Prop} {start : σ} {turn : σ → ReadM (Turn σ β)}
    (hturn : ∀ state, ⦃fun s => ⌜I state s⌝⦄ turn state
      ⦃post⟨fun r s => ⌜match r with
        | .again state => I state s
        | .done result => Q result s⌝, fun e s => ⌜E e s⌝⟩⦄)
    (hout : ∀ state s, I state s → E .exhausted s) :
    ⦃fun s => ⌜I start s⌝⦄ iterate start turn
    ⦃post⟨fun b s => ⌜Q b s⌝, fun e s => ⌜E e s⌝⟩⦄ := by
  have hloop := triple_iterateUpTo hturn hout
  mvcgen [iterate, hloop]

/-- The step keeps the invariant, and what it gives has the property. -/
abbrev Gives [LookInvariant] (raw : Bool) (step : ReadM α) (Q : α → Prop) : Prop :=
  ⦃fun s => ⌜LookInvariant.holds raw s⌝⦄ step
  ⦃post⟨fun a s => ⌜LookInvariant.holds raw s ∧ Q a⌝, fun _ s => ⌜LookInvariant.holds raw s⌝⟩⦄

/-- The step keeps the invariant. -/
abbrev Keeps [LookInvariant] (raw : Bool) (step : ReadM α) : Prop :=
  ⦃fun s => ⌜LookInvariant.holds raw s⌝⦄ step
  ⦃post⟨fun _ s => ⌜LookInvariant.holds raw s⌝, fun _ s => ⌜LookInvariant.holds raw s⌝⟩⦄

section Looking

variable [LookInvariant] {raw : Bool}

open LookInvariant

theorem keeps_iff {step : ReadM α} :
    Keeps raw step ↔ ∀ s, holds raw s → match step s with
      | .ok _ s' => holds raw s'
      | .error _ s' => holds raw s' :=
  triple_iff

/-- What is kept holds in the end, however the step ends. -/
theorem holds_perform {step : ReadM α} (h : Keeps raw step) {s : Reading} (hs : holds raw s) :
    holds raw (perform step s).2 := by
  have hrun := keeps_iff.mp h s hs
  unfold perform
  split
  next hstep => rwa [hstep] at hrun
  next hstep => rwa [hstep] at hrun

/-- What a step gives is what some run of it gave. -/
theorem gives_run {step : ReadM α} (h : Keeps raw step) :
    Gives raw step fun a => ∃ s s', step s = .ok a s' := by
  refine triple_iff.mpr fun s hs => ?_
  have hkept := keeps_iff.mp h s hs
  cases hrun : step s with
  | ok a s' =>
      rw [hrun] at hkept
      exact ⟨hkept, s, s', hrun⟩
  | error e s' =>
      rw [hrun] at hkept
      exact hkept

theorem keeps_of_gives {step : ReadM α} {Q : α → Prop} (h : Gives raw step Q) :
    Keeps raw step := by
  mvcgen [h]
  exact fun hs _ => hs

/-! ## Basic steps -/

attribute [spec] rule? rules table outline qualify

@[spec]
theorem peekAt_keeps (offset : Int) : Keeps raw (peekAt offset) := by
  refine keeps_iff.mpr fun s hs => ?_
  simp only [peekAt, Window.get]
  cases h : s.window.position s.bound s.table offset with
  | none => exact hs
  | some found => exact looked hs h

@[spec]
theorem peek_keeps : Keeps raw peek :=
  peekAt_keeps 0

@[spec]
theorem refuse_keeps (t : Token) : Keeps raw (refuse t : ReadM α) := by
  mvcgen [refuse]

@[spec]
theorem expect_keeps (t : Token) (texts : List String) : Keeps raw (expect t texts) := by
  mvcgen [expect]

@[spec]
theorem expectWord_keeps (t : Token) : Keeps raw (expectWord t) := by
  mvcgen [expectWord]

@[spec]
theorem advance_keeps : Keeps raw advance := by
  refine keeps_iff.mpr fun s hs => ?_
  simp only [advance, Window.next]
  cases h : s.window.position s.bound s.table 1 with
  | none => exact hs
  | some found =>
      have hplace := place_of_le hs (Window.index_le_of_position h (by decide))
      exact moved (looked hs h) hplace

theorem cursor_gives : Gives raw cursor LookInvariant.place :=
  triple_iff.mpr fun _ hs => ⟨hs, place_of_le hs (Nat.le_refl _)⟩

theorem moveTo_keeps {i : Nat} (hi : LookInvariant.place i) : Keeps raw (moveTo i) :=
  keeps_iff.mpr fun _ hs => moved hs hi

@[spec]
theorem warn_keeps (location : Location) (message : String) :
    Keeps raw (warn location message) := by
  refine keeps_iff.mpr fun s hs => ?_
  simp only [warn, modify, modifyGet, MonadStateOf.modifyGet, EStateM.modifyGet]
  split
  · exact hs
  · exact warned hs

/-! ## Steps put together -/

@[spec]
theorem andM_keeps {x y : ReadM Bool} (hx : Keeps raw x) (hy : Keeps raw y) :
    Keeps raw (andM x y) := by
  mvcgen [andM, hx, hy]

@[spec]
theorem orM_keeps {x y : ReadM Bool} (hx : Keeps raw x) (hy : Keeps raw y) :
    Keeps raw (orM x y) := by
  mvcgen [orM, hx, hy]

@[spec]
theorem iterateUpTo_keeps {turn : σ → ReadM (Turn σ β)} {n : Nat} {state : σ}
    (hturn : ∀ state, Keeps raw (turn state)) : Keeps raw (iterateUpTo turn n state) := by
  refine triple_iterateUpTo (I := fun _ s => holds raw s) (fun state => ?_) (fun _ _ hs => hs) n
    state
  mvcgen [hturn]
  split <;> exact id

@[spec]
theorem iterate_keeps {start : σ} {turn : σ → ReadM (Turn σ β)}
    (hturn : ∀ state, Keeps raw (turn state)) : Keeps raw (iterate start turn) := by
  mvcgen [iterate, hturn]

theorem nestUpTo_keeps {body : (α → ReadM β) → α → ReadM β}
    (hbody : ∀ inner, (∀ a, Keeps raw (inner a)) → ∀ a, Keeps raw (body inner a)) (n : Nat) :
    ∀ a, Keeps raw (nestUpTo body n a) := by
  induction n with
  | zero => exact fun a => keeps_iff.mpr fun _ hs => hs
  | succ n ih => exact hbody _ ih

@[spec]
theorem nest_keeps {body : (α → ReadM β) → α → ReadM β} {a : α}
    (hbody : ∀ inner, (∀ a, Keeps raw (inner a)) → ∀ a, Keeps raw (body inner a)) :
    Keeps raw (nest body a) := by
  have hdepth := nestUpTo_keeps hbody
  mvcgen [nest, hdepth]

/-- **Changes around a step.** The invariant may be another one inside. -/
theorem around_keeps {H : Reading → Prop} {enter : Reading → Reading}
    {leave : Reading → Reading → Reading} {step : ReadM α}
    (henter : ∀ s, holds raw s → H (enter s))
    (hstep : ⦃fun s => ⌜H s⌝⦄ step ⦃post⟨fun _ s => ⌜H s⌝, fun _ s => ⌜H s⌝⟩⦄)
    (hleave : ∀ s s', holds raw s → H s' → holds raw (leave s s')) :
    Keeps raw (around enter leave step) := by
  refine keeps_iff.mpr fun s hs => ?_
  have hrun := triple_iff.mp hstep _ (henter s hs)
  unfold around
  cases hresult : step (enter s) with
  | ok a s' =>
      rw [hresult] at hrun
      exact hleave s s' hs hrun
  | error e s' =>
      rw [hresult] at hrun
      exact hleave s s' hs hrun

@[spec]
theorem raw_keeps {step : ReadM α} (h : Keeps true step) : Keeps raw (ReadM.raw step) :=
  around_keeps (fun _ => bared) h fun _ _ => covered

/-- The step keeps the invariant on another text. -/
def KeepsInside (step : ReadM α) : Prop :=
  @Keeps α (LookInvariant.inside ‹_›) false step

@[spec]
theorem fragment_keeps {text : String} {step : ReadM α} (h : KeepsInside step) :
    Keeps raw (fragment text step) := by
  refine Triple.bind _ _ peek_keeps fun t => ?_
  exact around_keeps (H := fun s => core s.table s.outline s.fuel) (fun _ => entered) h
    fun _ _ => left

@[spec]
theorem attempt_keeps {step : ReadM Bool} (h : Keeps raw step) : Keeps raw (attempt step) := by
  mvcgen [attempt, cursor_gives, moveTo_keeps, h] <;> grind

@[spec]
theorem forM_keeps {as : List α} {f : α → ReadM PUnit} (h : ∀ a, Keeps raw (f a)) :
    Keeps raw (as.forM f) := by
  induction as with
  | nil => mvcgen
  | cons a as ih => exact Triple.bind _ _ (h a) fun _ => ih

@[spec]
theorem discard_keeps {step : ReadM α} (h : Keeps raw step) : Keeps raw (discard step) := by
  change Keeps raw (step >>= fun _ => pure PUnit.unit)
  mvcgen [h]

end Looking

/-! ## Steps of statements -/

/-- A step with an outline of its own that starts empty. -/
theorem withOutline_eq {step : ReadM α} {s : Reading} :
    withOutline {} step s = match step { s with outline := {} } with
      | .ok a s' => .ok (a, s'.outline) { s' with outline := s.outline }
      | .error e s' => .error e s' := by
  change (step >>= fun a => outline >>= fun made => modifyOutline (fun _ => s.outline) >>=
    fun _ => pure (a, made)) { s with outline := {} } = _
  cases hrun : step { s with outline := {} } with
  | ok a s' => rw [bind_of_ok hrun]; rfl
  | error e s' => rw [bind_of_error hrun]

section Statements

variable [StatementInvariant] {raw : Bool}

open LookInvariant StatementInvariant

theorem cursor_keeps : Keeps raw cursor :=
  keeps_iff.mpr fun _ hs => hs

theorem moveTo_anywhere (i : Nat) : Keeps raw (moveTo i) :=
  moveTo_keeps (anywhere i)

@[spec]
theorem learn_keeps (rule : Rule) : Keeps raw (learn rule) :=
  keeps_iff.mpr fun _ hs => learned hs

@[spec]
theorem learnFirst_keeps (rule : Rule) : Keeps raw (learnFirst rule) :=
  keeps_iff.mpr fun _ hs => learned hs

@[spec]
theorem setSpacing_keeps (spacing : String) : Keeps raw (setSpacing spacing) := by
  refine keeps_iff.mpr fun s hs => ?_
  simp only [setSpacing, Window.setSpacing]
  cases h : s.window.position s.bound s.table 0 with
  | none => exact hs
  | some found => exact respaced (looked hs h)

/-- A change of the outline that leaves its declarations alone. -/
theorem modifyOutline_keeps {f : Outline → Outline}
    (hf : ∀ o, (f o).declarations = o.declarations) : Keeps raw (modifyOutline f) := by
  refine keeps_iff.mpr fun s hs => ?_
  have hframe : f s.outline = ⟨s.outline.declarations, (f s.outline).spacing,
      (f s.outline).statement⟩ := by
    rw [← hf]
  change holds raw { s with outline := f s.outline }
  rw [hframe]
  exact framed hs

@[spec]
theorem modifyOutline_keepsSpacing (spacing : Option String) :
    Keeps raw (modifyOutline fun o => { o with spacing }) :=
  modifyOutline_keeps fun _ => rfl

@[spec]
theorem modifyOutline_keepsStatement (statement : Statement) :
    Keeps raw (modifyOutline fun o => { o with statement }) :=
  modifyOutline_keeps fun _ => rfl

@[spec]
theorem add_keeps (d : Declaration) : Keeps raw (add d) :=
  keeps_iff.mpr fun _ hs => added hs

@[spec]
theorem addSpaced_keeps (spacing : String) (ds : List Declaration) :
    Keeps raw (addSpaced spacing ds) := by
  mvcgen [addSpaced]

@[spec]
theorem indent_keeps (spacing text : String) : Keeps raw (indent spacing text) := by
  mvcgen [indent]

/-- **An outline of one's own.** -/
@[spec]
theorem withOutline_keeps {step : ReadM α} (h : Keeps raw step) :
    Keeps raw (withOutline {} step) := by
  refine keeps_iff.mpr fun s hs => ?_
  have hstep := keeps_iff.mp h { s with outline := {} } (emptied hs)
  rw [withOutline_eq]
  cases hrun : step { s with outline := {} } with
  | ok a s' =>
      rw [hrun] at hstep
      exact restored hs hstep
  | error e s' =>
      rw [hrun] at hstep
      exact hstep

end Statements

end ReadM

end HeaderPeers

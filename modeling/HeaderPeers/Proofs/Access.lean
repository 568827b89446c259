import HeaderPeers.Proofs.Instances
import HeaderPeers.Proofs.Progress.Basic
import HeaderPeers.Proofs.TextParts

/-!
# Access

A declaration takes the access of the section its statement stands in when it
is stored, and what is not accessible is left out of the peer class. So nothing
that a statement of a private or protected section declares is printed, a copy
of a constructor in such a section no more than the constructor itself. What
a copy is stored with is the access of the `using` though, not that of the
constructor it is made of.

- `Outline.Hides` — what a step does to the outline: in a section that is not
  accessible, all it stores is shut.
- `Statement.read_hides` — a statement hides what it declares, unless it is a
  block.
- `Statement.hidden_of_read` — the main statement.
- `Alias.private_constructor_is_restated` — a `using` in a public section
  restates a private constructor.
-/

set_option mvcgen.warning false

namespace HeaderPeers

open ReadM Relation

/-! ## What an outline hides -/

namespace Declaration

/-- The declaration is marked as a hook, which derived classes may redefine
whatever its access. -/
def isHook (d : Declaration) : Bool :=
  Text.hasPart "@Virtual " d.text

/-- Nothing is printed of the declaration in a peer class, unless it is a hook. -/
def isShut (d : Declaration) : Bool :=
  d.inaccessible || d.isHook

end Declaration

namespace Outline

/-- What is stored in a section that is not accessible is shut. -/
theorem isShut_stored {o : Outline} (h : o.statement.inaccessible = some true)
    (d : Declaration) : (o.stored d).isShut = true := by
  by_cases hhook : d.isHook = true
  · have hstored : (o.stored d).isHook = true :=
      Text.hasPart_rescan o (by decide) (by decide) (by decide) hhook
    simp [Declaration.isShut, hstored]
  · have hsettled : (settle o.statement d).inaccessible = true := by
      unfold Declaration.isHook at hhook
      simp [settle, h, hhook]
    have hstored : (o.stored d).inaccessible = true := hsettled
    simp [Declaration.isShut, hstored]

theorem mem_insert {o : Outline} {d x : Declaration} (h : x ∈ (o.insert d).toList) :
    x ∈ o.toList ∨ x = o.stored d := by
  rcases o.insert_cases d with ⟨-, heq⟩ | ⟨-, -, heq⟩ | ⟨-, -, heq⟩ <;> rw [heq] at h
  · simpa using h
  · exact Or.inl (List.mem_filter.mp h).1
  · obtain hkept | hnew := List.mem_append.mp h
    · exact Or.inl (List.mem_filter.mp hkept).1
    · exact Or.inr (by simpa using hnew)

/-- The section of the statement is still the same, and if it is not accessible,
all that has been stored since is shut. -/
structure Hides (o o' : Outline) : Prop where
  inaccessible : o'.statement.inaccessible = o.statement.inaccessible
  shut : o.statement.inaccessible = some true →
    ∀ d ∈ o'.toList, d ∈ o.toList ∨ d.isShut = true

theorem Hides.of_eq {o o' : Outline} (htoList : o'.toList = o.toList)
    (hinaccessible : o'.statement.inaccessible = o.statement.inaccessible) : Hides o o' where
  inaccessible := hinaccessible
  shut _ _ hd := Or.inl (htoList ▸ hd)

theorem Hides.refl (o : Outline) : Hides o o :=
  .of_eq rfl rfl

theorem Hides.trans {o₁ o₂ o₃ : Outline} (h : Hides o₁ o₂) (h' : Hides o₂ o₃) :
    Hides o₁ o₃ where
  inaccessible := h'.inaccessible.trans h.inaccessible
  shut hclosed d hd := by
    obtain hd | hshut := h'.shut (h.inaccessible.trans hclosed) d hd
    · exact h.shut hclosed d hd
    · exact Or.inr hshut

theorem insert_hides (o : Outline) (d : Declaration) : Hides o (o.insert d) where
  inaccessible := by rw [insert_statement]
  shut hclosed x hx := by
    obtain hx | rfl := mem_insert hx
    · exact Or.inl hx
    · exact Or.inr (isShut_stored hclosed d)

theorem foldl_insert_hides (ds : List Declaration) (o : Outline) :
    Hides o (ds.foldl insert o) := by
  induction ds generalizing o with
  | nil => exact .refl o
  | cons d ds ih => exact (o.insert_hides d).trans (ih (o.insert d))

theorem add_hides (o : Outline) (table : RuleTable) (d : Declaration) :
    Hides o (o.add table d).2 := by
  unfold add
  split
  · unfold holdBack
    split <;> exact .of_eq rfl rfl
  · split
    · exact .refl o
    · exact foldl_insert_hides d.unfold o

/-- **What a recognizer prints is hidden** where its statement stands in a
section that is not accessible. -/
theorem Moves.hides {a b : RuleTable × Outline} (h : Moves a b) : Hides a.2 b.2 := by
  induction h with
  | refl => exact .refl _
  | tail _ hmove ih =>
      refine ih.trans ?_
      cases hmove with
      | learn => exact .refl _
      | add table o d => exact o.add_hides table d
      | space => exact .of_eq rfl rfl

end Outline

/-! ## Statements -/

namespace Statement

/-- Recognizes a linkage specification or a namespace, where no directive
stands. -/
def recognizeBlock (readScope : Class.ScopeReader) (scope : Scope) : ReadM Bool := do
  if ← attempt (Directive.read scope) then return false
  tryAll [Namespace.readLinkageWith readScope scope, Namespace.readWith readScope scope]

/-- The statement at the cursor, or an instance of it, is read as a block. -/
inductive ReadsBlock (readScope : Class.ScopeReader) (scope : Scope) (s : Reading) : Prop
  | intro {template : Option TemplateMap} {s₀ s₁ t t₁ t₂ : Reading} {first : Token}
      {inner : Scope} (opening : readOpening scope s = .ok template s₀)
      (peeked : peek s₀ = .ok first s₁)
      (passes : ReflTransGen (fun a b =>
        readPass readScope scope (under scope template) template s₀.window.index first a =
          .ok (.again ()) b) s₁ t)
      (next : nextPass scope (under scope template) template s₀.window.index t =
        .ok (.read inner) t₁)
      (recognized : recognizeBlock readScope inner t₁ = .ok true t₂) : ReadsBlock readScope scope s

/-- A recognizer that is tried in vain prints nothing. -/
theorem attempt_output {readScope : Class.ScopeReader} {scope : Scope} {step : ReadM Bool}
    (hstep : step ∈ recognizers readScope scope) {s s' : Reading}
    (h : attempt step s = .ok false s') : s'.output = s.output := by
  rw [(attempt_leaves_no_trace hstep h).1]
  rfl

/-- The recognizers behind those of blocks. -/
theorem tryAll_behind_blocks {depth : Nat} {scope : Scope} {s s' : Reading}
    (hblock : ∀ t, recognizeBlock (nestUpTo readAllWith depth) scope s ≠ .ok true t)
    {b : Bool} (h : tryAll (recognizers (nestUpTo readAllWith depth) scope) s = .ok b s') :
    Outline.Moves s.output s'.output := by
  have hkeeps : ∀ [ReadInvariant] (scope : Scope),
      Keeps false (nestUpTo readAllWith depth scope) :=
    readAllUpTo_keeps (fun _ => trivial) depth
  obtain ⟨-, hdirective⟩ | ⟨s₁, hdirective, h₁⟩ := tryAll_cons_eq_ok h
  · obtain ⟨_, hrun, rfl⟩ := attempt_eq_ok hdirective
    exact moves_of_prints (prints_of_keeps (Directive.read_prints scope)) hrun
  have hblock₁ (t : Reading) : tryAll [Namespace.readLinkageWith (nestUpTo readAllWith depth) scope,
      Namespace.readWith (nestUpTo readAllWith depth) scope] s₁ ≠ .ok true t := by
    intro hrun
    exact hblock t ((bind_of_ok hdirective _).trans hrun)
  obtain ⟨-, hlinkage⟩ | ⟨s₂, hlinkage, h₂⟩ := tryAll_cons_eq_ok h₁
  · exact absurd (tryAll_of_true hlinkage) (hblock₁ s')
  obtain ⟨-, hnamespace⟩ | ⟨s₃, hnamespace, h₃⟩ := tryAll_cons_eq_ok h₂
  · exact absurd ((tryAll_of_false hlinkage).trans (tryAll_of_true hnamespace)) (hblock₁ s')
  have hvain {step : ReadM Bool} {t t' : Reading}
      (hstep : step ∈ (recognizers (nestUpTo readAllWith depth) scope).take 3)
      (hrun : attempt step t = .ok false t') : t'.output = t.output :=
    attempt_output (List.mem_of_mem_take hstep) hrun
  have hsame : s₃.output = s.output := by
    rw [hvain (by simp [recognizers]) hnamespace, hvain (by simp [recognizers]) hlinkage,
      hvain (by simp [recognizers]) hdirective]
  rw [← hsame]
  have hlooks (before : Reading) (step : ReadM Bool)
      (hstep : step ∈ (recognizers (nestUpTo readAllWith depth) scope).drop 3) :
      LooksOnly before step (· = false) :=
    recognizers_looksOnly scope _ step (List.mem_of_mem_drop hstep)
  obtain ⟨-, hnone⟩ | ⟨-, step, hstep, t, hreached, hrun⟩ := tryAll_eq_ok hlooks h₃
  · rw [hnone]
  rw [← hreached]
  simp only [recognizers, List.drop_succ_cons, List.drop_zero, List.mem_cons, List.not_mem_nil,
    or_false] at hstep
  rcases hstep with rfl | rfl | rfl | rfl | rfl | rfl
  · exact moves_of_prints (Enumeration.read_prints scope) hrun
  · exact moves_of_prints (Class.readWith_prints hkeeps scope) hrun
  · exact moves_of_prints (prints_of_keeps (Alias.readTypedef_prints scope)) hrun
  · exact moves_of_prints (Alias.readUsing_prints scope) hrun
  · exact moves_of_prints (prints_of_keeps (Function.read_prints scope)) hrun
  · exact moves_of_prints (prints_of_keeps (Variable.read_prints scope)) hrun

theorem readOne_hides {depth : Nat} {scope : Scope} {first : Token} {s s' : Reading}
    (hblock : ∀ t, recognizeBlock (nestUpTo readAllWith depth) scope s ≠ .ok true t)
    (h : readOne (nestUpTo readAllWith depth) scope first s = .ok () s') :
    s.outline.Hides s'.outline := by
  obtain ⟨matched, s₁, htry, hrest⟩ := bind_eq_ok h
  have htried : s.outline.Hides s₁.outline := (tryAll_behind_blocks hblock htry).hides
  cases matched with
  | true =>
      cases hrest
      exact htried
  | false =>
      -- an attribute: nothing is printed
      obtain ⟨t, s₂, hpeek, hrest⟩ := bind_eq_ok hrest
      obtain ⟨found, s₃, hread, hrest⟩ := bind_eq_ok hrest
      cases found with
      | none => cases hrest
      | some _ =>
          have hout : s'.output = s₁.output := by
            rw [setSpacing_output hrest, (framed_of_keeps Attribute.read_keeps hread).output,
              (framed_of_keeps peek_keeps hpeek).output]
          exact htried.trans (.of_eq (congrArg (·.2.toList) hout)
            (congrArg (·.2.statement.inaccessible) hout))

theorem nextInstance_hides {rule : Option Rule} {s s' : Reading}
    (h : nextInstance? s = .ok rule s') : s.outline.Hides s'.outline := by
  obtain ⟨o, s₁, houtline, hrest⟩ := bind_eq_ok h
  cases houtline
  cases hnext : s.outline.nextInstance? with
  | none =>
      rw [hnext] at hrest
      cases hrest
      exact .refl _
  | some found =>
      rw [hnext] at hrest
      cases hrest
      unfold Outline.nextInstance? at hnext
      split at hnext
      · cases hnext
        exact .of_eq rfl rfl
      · cases hnext

theorem readInstance_hides {scope : Scope} {map : TemplateMap} {rule : Rule}
    {bound : Option TemplateMap} {s s' : Reading}
    (h : readInstance scope map rule s = .ok bound s') : s.outline.Hides s'.outline := by
  obtain ⟨type, s₁, hname, hrest⟩ := bind_eq_ok h
  rw [← Templated.outline_of_name hname]
  cases harguments : type.bind (·.arguments) with
  | none =>
      rw [harguments] at hrest
      cases hrest
      exact .refl _
  | some arguments =>
      rw [harguments] at hrest
      cases hrest
      exact .of_eq rfl rfl

theorem nextPass_hides {around scope : Scope} {template : Option TemplateMap} {start : Nat}
    {pass : Pass} {s s' : Reading} (h : nextPass around scope template start s = .ok pass s') :
    s.outline.Hides s'.outline := by
  cases template with
  | none =>
      cases h
      exact .refl _
  | some map =>
      obtain ⟨rule, s₁, hnext, hrest⟩ := bind_eq_ok h
      have hqueue := nextInstance_hides hnext
      cases rule with
      | none =>
          cases hrest
          exact hqueue
      | some rule =>
          obtain ⟨bound, s₂, hinstance, hrest⟩ := bind_eq_ok hrest
          have hbound := hqueue.trans (readInstance_hides hinstance)
          cases bound <;> cases hrest <;> exact hbound

theorem endPass_outline {turn : Turn Unit Unit} {s s' : Reading}
    (h : endPass s = .ok turn s') : s' = s := by
  obtain ⟨o, s₁, houtline, hrest⟩ := bind_eq_ok h
  cases houtline
  split at hrest <;> cases hrest <;> rfl

/-- **One pass.** -/
theorem readPass_hides {depth : Nat} {around scope : Scope} {template : Option TemplateMap}
    {start : Nat} {first : Token} {turn : Turn Unit Unit} {s s' : Reading}
    (hblock : ∀ inner s₁ t, nextPass around scope template start s = .ok (.read inner) s₁ →
      recognizeBlock (nestUpTo readAllWith depth) inner s₁ ≠ .ok true t)
    (h : readPass (nestUpTo readAllWith depth) around scope template start first s = .ok turn s') :
    s.outline.Hides s'.outline := by
  obtain ⟨pass, s₁, hnext, hrest⟩ := bind_eq_ok h
  have hturned := nextPass_hides hnext
  cases pass with
  | skip =>
      obtain ⟨_, s₂, hskip, hrest⟩ := bind_eq_ok hrest
      cases hskip
      rwa [endPass_outline hrest]
  | read inner =>
      obtain ⟨_, s₂, hone, hrest⟩ := bind_eq_ok hrest
      obtain ⟨_, s₃, hskip, hrest⟩ := bind_eq_ok hrest
      rw [endPass_outline hrest, (framed_of_keeps skipSemicolons_looks hskip).outline]
      exact hturned.trans (readOne_hides (fun t => hblock inner s₁ t hnext) hone)

/-- **All passes.** -/
theorem iterateUpTo_hides {pass : ReadM (Turn Unit Unit)} {n : Nat} {s s' : Reading}
    (hpass : ∀ t t' turn, ReflTransGen (fun a b => pass a = .ok (.again ()) b) s t →
      pass t = .ok turn t' → t.outline.Hides t'.outline)
    (h : iterateUpTo (fun () => pass) n () s = .ok () s') : s.outline.Hides s'.outline := by
  induction n generalizing s with
  | zero => cases h
  | succ n ih =>
      obtain ⟨turn, s₁, hturn, hrest⟩ := bind_eq_ok h
      have hfirst := hpass s s₁ turn .refl hturn
      cases turn with
      | done =>
          cases hrest
          exact hfirst
      | again =>
          refine hfirst.trans (ih (fun t t' turn ht => ?_) hrest)
          exact hpass t t' turn (.head hturn ht)

theorem readPasses_hides {depth : Nat} {around scope : Scope} {template : Option TemplateMap}
    {s s' : Reading}
    (hblock : ∀ first s₁ t inner t₁ t₂, peek s = .ok first s₁ →
      ReflTransGen (fun a b => readPass (nestUpTo readAllWith depth) around scope template
        s.window.index first a = .ok (.again ()) b) s₁ t →
      nextPass around scope template s.window.index t = .ok (.read inner) t₁ →
      recognizeBlock (nestUpTo readAllWith depth) inner t₁ ≠ .ok true t₂)
    (h : readPasses (nestUpTo readAllWith depth) around scope template s = .ok () s') :
    s.outline.Hides s'.outline := by
  obtain ⟨start, s₀, hcursor, h⟩ := bind_eq_ok h
  cases hcursor
  obtain ⟨first, s₁, hpeek, h⟩ := bind_eq_ok h
  obtain ⟨turn, s₂, hpass, h⟩ := bind_eq_ok h
  have hone (t t' : Reading) (turn : Turn Unit Unit)
      (ht : ReflTransGen (fun a b => readPass (nestUpTo readAllWith depth) around scope template
        s.window.index first a = .ok (.again ()) b) s₁ t)
      (hrun : readPass (nestUpTo readAllWith depth) around scope template s.window.index first t =
        .ok turn t') : t.outline.Hides t'.outline :=
    readPass_hides (fun inner t₁ t₂ => hblock first s₁ t inner t₁ t₂ hpeek ht) hrun
  have hfirst := hone s₁ s₂ turn .refl hpass
  rw [(framed_of_keeps peek_keeps hpeek).outline] at hfirst
  cases turn with
  | done =>
      cases h
      exact hfirst
  | again =>
      obtain ⟨o, s₃, houtline, h⟩ := bind_eq_ok h
      cases houtline
      exact hfirst.trans (iterateUpTo_hides (fun t t' turn ht => hone t t' turn (.head hpass ht)) h)

/-- What stands in front of a statement adds its comment at most. -/
theorem mem_of_readOpening {scope : Scope} {template : Option TemplateMap} {s s' : Reading}
    (hclosed : scope.inaccessible = true) (h : readOpening scope s = .ok template s')
    {d : Declaration} (hd : d ∈ s'.outline.toList) : d ∈ s.outline.toList ∨ d.isShut = true := by
  obtain ⟨⟨comment, map⟩, s₁, hfront, h⟩ := bind_eq_ok h
  obtain ⟨_, s₂, hopen, h⟩ := bind_eq_ok h
  cases h
  have hbefore : s₁.outline = s.outline := by
    obtain ⟨c, t₁, hcomment, hfront⟩ := bind_eq_ok hfront
    cases hcomment
    obtain ⟨token, t₂, hpeek, hfront⟩ := bind_eq_ok hfront
    obtain ⟨m, t₃, hread, hfront⟩ := bind_eq_ok hfront
    have ht₃ := (framed_of_keeps (TemplateMap.read_keeps scope) hread).outline.trans
      (framed_of_keeps peek_keeps hpeek).outline
    split at hfront
    · obtain ⟨_, t₄, hspacing, hfront⟩ := bind_eq_ok hfront
      cases hfront
      exact (congrArg Prod.snd (setSpacing_output hspacing)).trans ht₃
    · cases hfront
      exact ht₃
  obtain ⟨_, s₃, hbegin, hopen⟩ := bind_eq_ok hopen
  cases hbegin
  rw [← hbefore]
  have hsection : (s₁.outline.beginStatement scope.inaccessible template).statement.inaccessible =
      some true := congrArg some hclosed
  split at hopen
  · obtain ⟨_, s₄, hadd, hopen⟩ := bind_eq_ok hopen
    cases hopen
    cases hadd
    exact (Outline.add_hides _ _ _).shut hsection d hd
  · cases hopen
    exact Or.inl hd

/-- A statement outside of a template is read once. -/
theorem readPass_done {depth : Nat} {scope : Scope} {start : Nat} {first : Token}
    {turn : Turn Unit Unit} {s s' : Reading} (htemplate : s.outline.statement.template = none)
    (hinstances : s.outline.statement.instances = none)
    (h : readPass (nestUpTo readAllWith depth) scope scope none start first s = .ok turn s') :
    turn = .done () := by
  obtain ⟨pass, s₁, hnext, h⟩ := bind_eq_ok h
  cases hnext
  obtain ⟨_, s₂, hone, h⟩ := bind_eq_ok h
  obtain ⟨_, s₃, hskip, h⟩ := bind_eq_ok h
  have hstatement : s₂.outline.statement = s.outline.statement := by
    obtain hmoves | hsame := readOne_moves hone
    · obtain hsame | ⟨moment, d, hback⟩ := Outline.Moves.heldBack hmoves
      · exact hsame
      · have hunbound := hback.unbound
        have hnone : moment.2.statement.template = none :=
          (Outline.Moves.template hback.reached).trans htemplate
        simp [Outline.isUnbound, hnone] at hunbound
    · exact hsame
  have hnone : s₃.outline.hasInstances = false := by
    rw [(framed_of_keeps skipSemicolons_looks hskip).outline, Outline.hasInstances, hstatement,
      hinstances]
    rfl
  obtain ⟨o, s₄, houtline, h⟩ := bind_eq_ok h
  cases houtline
  rw [hnone] at h
  cases h
  rfl

/-- Outside of a template a block is recognized where the statement starts. -/
theorem not_readsBlock_of_plain {depth : Nat} {scope : Scope} {first : Token}
    {s s₀ s₁ : Reading} (hopening : readOpening scope s = .ok none s₀)
    (hpeek : peek s₀ = .ok first s₁)
    (hblock : ∀ t, recognizeBlock (nestUpTo readAllWith depth) scope s₁ ≠ .ok true t) :
    ¬ ReadsBlock (nestUpTo readAllWith depth) scope s := by
  rintro ⟨opening, peeked, passes, next, recognized⟩
  cases hopening.symm.trans opening
  cases hpeek.symm.trans peeked
  obtain rfl | ⟨t, hpass, -⟩ := ReflTransGen.cases_head passes
  · cases next
    exact hblock _ recognized
  · have hstatement : s₁.outline.statement = { inaccessible := some scope.inaccessible } := by
      rw [(framed_of_keeps peek_keeps hpeek).outline, readOpening_statement hopening]
    cases readPass_done (by rw [hstatement]) (by rw [hstatement]) hpass

end Statement

/-! ## Peer classes -/

namespace Class

/-- The declaration makes no difference to what is printed for the members of a
class. -/
def IsHidden (d : Declaration) : Prop :=
  ∀ m before after, memberText m (before ++ d :: after) = memberText m (before ++ after)

theorem isHidden_of_inaccessible {d : Declaration} (h : d.inaccessible = true) : IsHidden d := by
  intro m before after
  simp [memberText, h]

theorem isHidden_of_isShut {d : Declaration} (h : d.isShut = true) (hhook : d.isHook = false) :
    IsHidden d :=
  isHidden_of_inaccessible (by simpa [Declaration.isShut, hhook] using h)

/-- A constructor that is restated takes the access of the section it is
restated in, whatever its own was. -/
theorem inaccessible_restated {derived : String} {d copy : Declaration} {o : Outline} {b : Bool}
    (hcopy : restate? derived d = some copy) (hsection : o.statement.inaccessible = some b)
    (hhook : copy.isHook = false) : (o.stored copy).inaccessible = b := by
  obtain ⟨p, -, rfl⟩ := Option.map_eq_some_iff.mp hcopy
  unfold Declaration.isHook at hhook
  simp [Outline.stored, Outline.settle, hsection, hhook]

end Class

namespace Statement

/-- **What a private section declares is not printed.** Let a statement that is
no block be read in a private or protected section, named by a label or there
from the start. Of all that it leaves in the outline of its class, nothing but
hooks makes a difference to what is printed for the members. Constructors of a
base that it restates are among this, and so is, in its turn, whatever is
restated of its own constructors in such a section of a derived class. -/
theorem hidden_of_read {depth : Nat} {scope : Scope} {s s' : Reading} {d : Declaration}
    (hclosed : scope.inaccessible = true)
    (hrun : read (nestUpTo readAllWith depth) scope s = .ok () s')
    (hblock : ¬ ReadsBlock (nestUpTo readAllWith depth) scope s)
    (hd : d ∈ s'.outline.toList) (hnew : d ∉ s.outline.toList) (hhook : d.isHook = false) :
    Class.IsHidden d ∧
      ∀ (derived : String) (copy : Declaration) (table : RuleTable) (o : Outline),
        Class.restate? derived d = some copy → o.statement.inaccessible = some true →
        ∀ x ∈ (o.add table copy).2.toList, x ∉ o.toList → x.isHook = false →
          Class.IsHidden x := by
  constructor
  · rw [read_eq] at hrun
    obtain ⟨template, s₀, hopening, hpasses⟩ := bind_eq_ok hrun
    have hhides : s₀.outline.Hides s'.outline :=
      readPasses_hides (fun first s₁ t inner t₁ t₂ hpeek hpass hnext hrecognized =>
        hblock ⟨hopening, hpeek, hpass, hnext, hrecognized⟩) hpasses
    have hsection : s₀.outline.statement.inaccessible = some true := by
      rw [readOpening_statement hopening, hclosed]
    have hshut : d.isShut = true := by
      obtain hd | hshut := hhides.shut hsection d hd
      · exact (mem_of_readOpening hclosed hopening hd).resolve_left hnew
      · exact hshut
    exact Class.isHidden_of_isShut hshut hhook
  · intro derived copy table o _ hsection x hx hnew hhook
    have hshut := ((o.add_hides table copy).shut hsection x hx).resolve_left hnew
    exact Class.isHidden_of_isShut hshut hhook

/-- The private section of a class. -/
def privateSection : Scope :=
  { group := some (.named "X"), inaccessible := true }

/-- The cursor in front of a constructor. -/
def atConstructor : Reading :=
  Reading.ofTokens {} (Token.ofText none "X(int n);")

theorem atConstructor_reads :
    (match read (nestUpTo readAllWith 0) privateSection atConstructor with
      | .ok () s' =>
        match s'.outline.toList with
        | [d] => d.isConstructor && !d.isHook && (Class.restate? "Y" d).isSome
        | _ => false
      | _ => false) = true := by
  decide +kernel

theorem atConstructor_plain :
    (match readOpening privateSection atConstructor with
      | .ok none s₀ =>
        match peek s₀ with
        | .ok _ s₁ =>
          match recognizeBlock (nestUpTo readAllWith 0) privateSection s₁ with
          | .ok true _ => false
          | _ => true
        | _ => false
      | _ => false) = true := by
  decide +kernel

/-- The constructor is read and stored, and nothing is printed for it. -/
theorem hidden_of_read_privateSection :
    ∃ s' d, read (nestUpTo readAllWith 0) privateSection atConstructor = .ok () s' ∧
      s'.outline.toList = [d] ∧ d.isConstructor = true ∧
      (Class.restate? "Y" d).isSome = true ∧ Class.IsHidden d := by
  have hrun := atConstructor_reads
  have hplain := atConstructor_plain
  split at hrun
  next s' hread =>
    split at hrun
    next d hd =>
      simp only [Bool.and_eq_true, Bool.not_eq_true'] at hrun
      obtain ⟨⟨hconstructor, hhook⟩, hcopy⟩ := hrun
      have hblock : ¬ ReadsBlock (nestUpTo readAllWith 0) privateSection atConstructor := by
        split at hplain
        next s₀ hopening =>
          split at hplain
          next first s₁ hpeek =>
            refine not_readsBlock_of_plain hopening hpeek fun t hrecognized => ?_
            rw [hrecognized] at hplain
            cases hplain
          · cases hplain
        · cases hplain
      refine ⟨s', d, hread, hd, hconstructor, hcopy, ?_⟩
      exact (hidden_of_read rfl hread hblock (hd ▸ List.mem_singleton_self d)
        List.not_mem_nil hhook).1
    · cases hrun
  · cases hrun

end Statement

/-- A class with a private constructor, and one derived from it that restates its
constructors in public. -/
def restatingHeader : Reading :=
  .ofTokens {} (Token.ofText none
    "class B\x7bB(int n);\x7d; struct D:B\x7busing B::B;\x7d;")

/-- What is printed of the derived class in front of the restated constructor. -/
def restatedFront : String :=
  " public static class D extends B \x7b\n    static \x7b Loader.load(); \x7d\n" ++
    "    public D() \x7b super((Pointer)null); \x7d\n" ++
    "    public D(Pointer p) \x7b super(p); \x7d\n"

/-- What is printed behind the head of the restated constructor. -/
def restatedBack : String :=
  " \x7b super((Pointer)null); allocate(n); \x7d\nprivate native void allocate(@ByVal int n);\x7d"

theorem restatingHeader_reads :
    (match Statement.readAll {} restatingHeader with
      | .ok () s' =>
        match s'.constructors.lookup "B" with
        | some [d] => d.inaccessible && s'.outline.toList.any fun peer =>
            peer.signature == "D" &&
              peer.text == restatedFront ++ "public D(@ByVal int n)" ++ restatedBack
        | _ => false
      | _ => false) = true := by
  decide +kernel

/-- What is remembered of the base is one private constructor, and it is printed
as a public one of the derived class. -/
theorem Alias.private_constructor_is_restated :
    ∃ s' d, Statement.readAll {} restatingHeader = .ok () s' ∧
      s'.constructors.lookup "B" = some [d] ∧ d.inaccessible = true ∧
      ∃ peer ∈ s'.outline.toList, peer.signature = "D" ∧
        Text.hasPart "public D(@ByVal int n)" peer.text = true := by
  have hrun := restatingHeader_reads
  split at hrun
  next s' hread =>
    split at hrun
    next d hd =>
      simp only [Bool.and_eq_true, List.any_eq_true, beq_iff_eq] at hrun
      obtain ⟨hinaccessible, peer, hpeer, hsignature, htext⟩ := hrun
      refine ⟨s', d, hread, hd, hinaccessible, peer, hpeer, hsignature, ?_⟩
      rw [htext]
      exact Text.hasPart_between restatedFront _ restatedBack
    · cases hrun
  · cases hrun

end HeaderPeers

import HeaderPeers.Proofs.Instances

/-!
# Bodies of classes

A run over the body of a class reads the members, looks up what is remembered of the
bases, and adds one declaration. `Body.exists_run` takes such a run apart, and
`readWith_ends` says when a class that has been read has such a body.
-/

set_option mvcgen.warning false

namespace HeaderPeers.Class

open ReadM

variable {s s' : Reading}

/-- What is known of a class when its body is read. -/
structure Body where
  scope : Scope
  head : Head
  type : NativeType
  rule : Option Rule
  /-- The name of the peer class. -/
  name : String
  base : NativeType
  others : List NativeType
  vars : List Declarator
  isAnonymous : Bool

namespace Body

variable (c : Body) {readScope : ScopeReader} {b : Bool}

def read (readScope : ScopeReader) : ReadM Bool :=
  readBody readScope c.scope c.head c.type c.rule c.name c.base c.others c.vars c.isAnonymous

/-- The scope of the members. -/
def inner (table : RuleTable) : Scope :=
  innerScope c.scope table c.type c.rule c.head.isPrivate c.isAnonymous

/-- What the members say about how the class is made. -/
def making (members : List Declaration) : Making :=
  makingOf members c.rule c.scope.cOnly

/-- The first lines of the class. -/
def introText (isVirtual : Bool) (m : Making) : String :=
  (Outline.indentLines c.head.spacing (Text.lines (c.head.type.annotations
    ++ headText c.scope c.name c.type.nativeName c.base.targetName isVirtual c.head.isDerived m
    ++ String.join (c.others.map (castText c.type.targetName)) ++ "\n"))).1

/-- The class around the text of its members; an unnamed class has no lines of its own. -/
def classText (isVirtual : Bool) (m : Making) (text closing ending : String) : String :=
  if c.isAnonymous then c.head.type.annotations ++ text ++ ending
  else c.introText isVirtual m ++ text ++ closing ++ "\x7d" ++ ending

/-- The declaration of the class, printed like this unless its rule knows better. -/
def declaration (text : String) : Declaration :=
  { text := (c.rule.bind (·.targetText)).getD text, signature := c.type.targetName
    type := some c.type, custom := (c.rule.bind (·.targetText)).isSome }

/-- A run over the body of a class. -/
structure Run (readScope : ScopeReader) (s s' : Reading) where
  members : Outline
  /-- What the bases have the class repeat. -/
  inherited : String
  /-- The states in front of the members and behind them. -/
  front : Reading
  behind : Reading
  /-- The state in which the class is added. -/
  last : Reading
  /-- White space before the closing brace. -/
  closing : String
  /-- White space behind the class. -/
  ending : String
  read_members : readInside readScope c.scope (c.inner front.table) c.vars front =
    .ok members behind
  read_inherited : inheritedText c.scope (c.base :: c.others) behind = .ok inherited behind
  flattened_front : front.flattened = s.flattened
  flattened_eq : s'.flattened = if c.rule.any (·.flatten) then
      assign c.type.nativeName (memberText (c.making members.toList) members.toList ++ inherited)
        behind.flattened
    else behind.flattened
  outline_eq : s'.outline = (last.outline.add last.table (c.declaration (c.classText
    (c.inner front.table).virtualize (c.making members.toList)
    (memberText (c.making members.toList) members.toList ++ inherited) closing ending))).2

/-- The class is added with what stands behind it. -/
theorem readEnd_eq_ok {text : String}
    (hrun : (do
      let ending ← readEnd
      let _ ← add (c.declaration (text ++ ending))
      return true : ReadM Bool) s = .ok b s') :
    ∃ ending, ∃ last : Reading,
      s'.outline = (last.outline.add last.table (c.declaration (text ++ ending))).2 ∧
      s'.flattened = s.flattened := by
  obtain ⟨ending, last, hend, hrun⟩ := bind_eq_ok hrun
  cases hrun
  exact ⟨ending, last, rfl, (framed_of_keeps readEnd_keeps hend).flattened⟩

theorem remember_eq_ok {nativeName text : String} {rule : Option Rule}
    {members : List Declaration} {u : Unit}
    (hrun : remember nativeName rule text members s = .ok u s') :
    s'.flattened = if rule.any (·.flatten) then assign nativeName text s.flattened
      else s.flattened := by
  unfold remember at hrun
  cases hflatten : rule.any (·.flatten) <;>
    cases hconstructors : (members.filter (·.isConstructor)).isEmpty <;>
    simp only [hflatten, hconstructors] at hrun <;> cases hrun <;> rfl

variable {c}

/-- **The body of a class.** -/
theorem exists_run (hrun : c.read readScope s = .ok b s') : Nonempty (c.Run readScope s s') := by
  unfold read readBody at hrun
  obtain ⟨_, s₁, hadvance, hrun⟩ := bind_eq_ok hrun
  obtain ⟨_, _, htable, hrun⟩ := bind_eq_ok hrun
  cases htable
  obtain ⟨members, s₂, hmembers, hrun⟩ := bind_eq_ok hrun
  obtain ⟨inherited, s₃, hinherited, hrun⟩ := bind_eq_ok hrun
  have hstill : s₃ = s₂ := by
    cases hinherited
    rfl
  rw [hstill] at hinherited hrun
  obtain ⟨_, s₄, hremember, hrun⟩ := bind_eq_ok hrun
  have hflattened := remember_eq_ok hremember
  have hfront := (framed_of_keeps advance_keeps hadvance).flattened
  cases hanonymous : c.isAnonymous with
  | true =>
      rw [hanonymous] at hrun
      obtain ⟨_, _, htext, hrun⟩ := bind_eq_ok hrun
      cases htext
      obtain ⟨ending, last, hadded, hsame⟩ := c.readEnd_eq_ok hrun
      refine ⟨members, inherited, s₁, s₂, last, "", ending, hmembers, hinherited, hfront,
        hsame.trans hflattened, ?_⟩
      rw [classText, if_pos hanonymous]
      exact hadded
  | false =>
      rw [hanonymous] at hrun
      obtain ⟨intro, _, hintro, hrun⟩ := bind_eq_ok hrun
      cases hintro
      obtain ⟨t, s₅, hpeek, hrun⟩ := bind_eq_ok hrun
      obtain ⟨_, _, htext, hrun⟩ := bind_eq_ok hrun
      obtain ⟨rfl, rfl⟩ := EStateM.Result.ok.inj htext
      obtain ⟨ending, last, hadded, hsame⟩ := c.readEnd_eq_ok hrun
      have hpeeked := (framed_of_keeps peek_keeps hpeek).flattened
      refine ⟨members, inherited, s₁, s₂, last, t.spacing, ending, hmembers, hinherited, hfront,
        (hsame.trans hpeeked).trans hflattened, ?_⟩
      rw [classText, if_neg (by simp [hanonymous]), introText, inner, making, hanonymous]
      exact hadded

end Body

/-! ## Classes -/

/-- What can be said of what is remembered, if it can be said again after one more class. -/
@[reducible]
def flattenedInvariant (P : List (String × String) → Prop) (reads : ScopeReader → Prop)
    (h : ∀ {s t t' : Reading} {readScope : ScopeReader} {c : Body} {table : RuleTable}
      {members : Outline} {bases : List NativeType} {text : String},
      P s.flattened → reads readScope →
      readInside readScope c.scope (c.inner table) c.vars t = .ok members t' →
      inheritedText c.scope bases s = .ok text s → c.rule.any (·.flatten) = true →
      P (assign c.type.nativeName (memberText (c.making members.toList) members.toList ++ text)
        s.flattened)) : StatementInvariant where
  holds _ s := P s.flattened
  core _ _ _ := True
  place _ := True
  place_of_le _ _ := trivial
  moved hs _ := hs
  looked hs _ := hs
  warned hs := hs
  bared hs := hs
  covered _ hs' := hs'
  entered _ := trivial
  left hs _ := hs
  reads := reads
  anywhere _ := trivial
  learned hs := hs
  added hs := hs
  framed hs := hs
  emptied hs := hs
  restored _ hs' := hs'
  named hs := hs
  respaced hs := hs
  remembered {_ _ _ _ _ scope _ type rule isPrivate isAnonymous vars _ _ _} hs hreads hmembers :=
    let head : Head :=
      { spacing := "", isTypedef := false, isFriend := false, isPrivate, type }
    h (c := ⟨scope, head, type, rule, "", type, [], vars, isAnonymous⟩) hs hreads hmembers
  core_learned _ := trivial
  core_added _ := trivial
  core_framed _ := trivial
  core_emptied _ := trivial
  core_restored _ _ := trivial

/-- What reads no body of a class remembers nothing. -/
theorem flattened_of_keeps {α : Type} {step : ReadM α}
    (h : ∀ [StatementInvariant], Keeps false step) {a : α} (hrun : step s = .ok a s') :
    s'.flattened = s.flattened := by
  let := flattenedInvariant (· = s.flattened) (fun _ => False) (fun _ h => h.elim)
  have hkept := keeps_iff.mp h s rfl
  rwa [hrun] at hkept

/-- The bases are those of the head, the first under the name that the rule wants. -/
def Body.HasBases (c : Body) : Prop :=
  ∃ first, first :: c.others =
      (if c.head.bases.isEmpty then [.named "Pointer"] else c.head.bases) ∧
    c.base = { first with targetName := (c.rule.bind (·.base)).getD first.targetName }

/-- How a class with this head ends: it is skipped, it has no body, or its body has been read. -/
inductive Ends (readScope : ScopeReader) (scope : Scope) (head : Head)
    (known : List (String × String)) (s' : Reading) : Prop
  | skipped (type : NativeType) (rule : Rule) (s t : Reading) (taken : Bool)
      (hrule : s.table.find? (scope.qualifyLocal type.nativeName) = some rule)
      (hskip : rule.skip = true) (hadd : add {} t = .ok taken s')
  | forward (type : NativeType) (name base : String) (s : Reading)
      (hforward : readForward scope head type name base s = .ok true s')
  | body (c : Body) (s : Reading) (hscope : c.scope = scope) (hhead : c.head = head)
      (hbases : c.HasBases) (hknown : s.flattened = known) (hbody : c.read readScope s = .ok true s')

/-- From states where this is remembered, the step ends as `Q` says if it recognizes something. -/
def Leads (known : List (String × String)) (Q : Reading → Prop) (step : ReadM Bool) : Prop :=
  ∀ s s', s.flattened = known → step s = .ok true s' → Q s'

theorem leads_bind {α : Type} {known : List (String × String)} {Q : Reading → Prop}
    {step : ReadM α} {next : α → ReadM Bool} (h : ∀ [StatementInvariant], Keeps false step)
    (hnext : ∀ a, (∃ s s', step s = .ok a s') → Leads known Q (next a)) :
    Leads known Q (step >>= next) := by
  intro s s' hs hrun
  obtain ⟨a, s₁, ha, hrun⟩ := bind_eq_ok hrun
  exact hnext a ⟨s, s₁, ha⟩ s₁ s' ((flattened_of_keeps h ha).trans hs) hrun

/-- The base that a class extends, and its others. -/
def basesOf (bases : List NativeType) : NativeType × List NativeType :=
  match bases with
  | [] => (NativeType.named "Pointer", [])
  | base :: others => (base, others)

/-- **Classes.** A class that has been read is skipped, has no body or has one. -/
theorem readWith_ends {readScope : ScopeReader} {scope : Scope}
    (hrun : readWith readScope scope s = .ok true s') :
    ∃ head s₀, readHead scope s = .ok (some head) s₀ ∧
      Ends readScope scope head s.flattened s' := by
  unfold readWith at hrun
  obtain ⟨head, s₀, hhead, hrun⟩ := bind_eq_ok hrun
  cases head with
  | none => cases hrun
  | some head =>
      have hs₀ := (framed_of_keeps (readHead_keeps scope) hhead).flattened
      refine ⟨head, s₀, hhead, (?_ : Leads s.flattened _ _) s₀ s' hs₀ hrun⟩
      dsimp -zeta only
      extract_lets isAnonymous
      refine leads_bind cursor_keeps fun start _ => ?_
      refine leads_bind (readBehind_keeps head isAnonymous) fun behind _ => ?_
      obtain ⟨type, vars⟩ := behind
      dsimp -zeta only
      extract_lets settled rest
      have hrest (known : Option Rule) (hskip : known.any (·.skip) = true →
            ∃ (rule : Rule) (s : Reading), rule.skip = true ∧
              s.table.find? (scope.qualifyLocal type.nativeName) = some rule) :
          Leads s.flattened (Ends readScope scope head s.flattened) (rest known) := by
        dsimp -zeta only [rest]
        split
        next hknown =>
          obtain ⟨rule, s₁, hskip, hrule⟩ := hskip hknown
          refine leads_bind (moveTo_anywhere start) fun _ _ => ?_
          refine leads_bind skipBody_keeps fun _ _ => ?_
          refine leads_bind skipStatement_keeps fun _ _ s₂ s' _ hrun => ?_
          obtain ⟨taken, s₃, hadd, hrun⟩ := bind_eq_ok hrun
          cases hrun
          exact .skipped type rule s₁ s₂ taken hrule hskip hadd
        next =>
          refine leads_bind (settle_keeps scope _) fun found _ => ?_
          obtain ⟨rule, name, type⟩ := found
          dsimp -zeta only
          let bases := basesOf head.bases
          have hbases : bases.1 :: bases.2 =
              if head.bases.isEmpty then [.named "Pointer"] else head.bases := by
            dsimp only [bases, basesOf]
            cases head.bases <;> rfl
          extract_lets base
          refine leads_bind (moveTo_anywhere start) fun _ _ => ?_
          refine leads_bind (by intro; mvcgen) fun isForward _ => ?_
          split
          · exact fun s₁ s' _ hrun => .forward type name base.targetName s₁ hrun
          · exact fun s₁ s' hs₁ hrun =>
              .body ⟨scope, head, type, rule, name, base, bases.2, vars, isAnonymous⟩ s₁ rfl rfl
                ⟨bases.1, hbases, rfl⟩ hs₁ hrun
      split
      next =>
        refine leads_bind (by intro; mvcgen) fun known hknown => hrest known ?_
        obtain ⟨_, _, hknown⟩ := hknown
        cases hknown
        simp
      next hnamed =>
        refine leads_bind (by intro; mvcgen) fun known hknown => hrest known fun hskip => ?_
        obtain ⟨s₁, _, hfind⟩ := hknown
        obtain ⟨rule, hrule, hskips⟩ := (Option.any_eq_true _ known).mp hskip
        have hname : settled.nativeName = scope.qualifyLocal type.nativeName := by
          by_cases hempty : type.nativeName.isEmpty = true
          · simp [settled, hempty] at hnamed
          · simp [settled, hempty]
        cases hfind
        exact ⟨rule, s₁, hskips, hname ▸ hrule⟩

end HeaderPeers.Class

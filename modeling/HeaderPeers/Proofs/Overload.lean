import HeaderPeers.Function.Reader
import HeaderPeers.Proofs.Outline
import HeaderPeers.Proofs.Reading

/-!
# Which overloads are told apart

An outline stores one declaration for each signature, and the signature of a
function is its target name with a word for each parameter. An underscore
stands between the words, but names may hold underscores too, and what is no
part of a word is left out, so different functions may have one signature.

- `pieces` — a name and the types of its parameters, cut at every underscore.
  This is all that a signature tells (`signature_eq_signature_iff`).
- `readDeclarator_signed` — whatever declarator of a function is read has the
  signature of its name and parameters.
- `add_keeps_both_iff` — two functions are both stored just if their pieces
  differ.
-/

namespace HeaderPeers.Overload

open ReadM

/-! ## Signatures -/

/-- What the type of a parameter adds to a signature: its last word without
brackets and the like. -/
def typeWord (target : String) : List Char :=
  (Text.lastWord target).toList.filter Text.isWordChar

/-- The signature of a function with this target name and with parameters of
these target types. -/
def signature (name : String) (types : List String) : String :=
  name ++ String.join (types.map Parameters.signaturePart)

/-- A name and the words of some types, cut at every underscore. -/
def pieces (name : String) (types : List String) : List (List Char) :=
  name.toList.splitOn '_' ++ types.flatMap fun t => (typeWord t).splitOn '_'

theorem toList_signature (name : String) (types : List String) :
    (signature name types).toList =
      name.toList ++ types.flatMap fun t => '_' :: typeWord t := by
  simp [signature, List.flatMap_map, Parameters.signaturePart, typeWord]

theorem splitOn_signature (types : List String) : ∀ cs : List Char,
    (cs ++ types.flatMap fun t => '_' :: typeWord t).splitOn '_' =
      cs.splitOn '_' ++ types.flatMap fun t => (typeWord t).splitOn '_' := by
  induction types with
  | nil => simp
  | cons t types ih =>
      intro cs
      rw [List.flatMap_cons, List.cons_append, List.splitOn_append_cons_self, ih,
        List.flatMap_cons]

/-- **What a signature tells.** -/
theorem signature_eq_signature_iff (name name' : String) (types types' : List String) :
    signature name types = signature name' types' ↔ pieces name types = pieces name' types' := by
  have hcut : ∀ n ts, (signature n ts).toList.splitOn '_' = pieces n ts := by
    intro n ts
    rw [toList_signature, splitOn_signature]
    rfl
  constructor
  · intro h
    rw [← hcut, ← hcut, h]
  · intro h
    rw [← hcut, ← hcut] at h
    have hjoin := congrArg (List.intercalate ['_']) h
    rw [List.intercalate_splitOn, List.intercalate_splitOn] at hjoin
    exact String.toList_inj.mp hjoin

/-- Without underscores the name and the words of the types can be read off. -/
theorem pieces_of_plain {name : String} {types : List String} (hname : '_' ∉ name.toList)
    (htypes : ∀ t ∈ types, '_' ∉ typeWord t) :
    pieces name types = name.toList :: types.map typeWord := by
  have hcut : ∀ t ∈ types, (typeWord t).splitOn '_' = [typeWord t] := fun t ht =>
    List.splitOn_eq_singleton (htypes t ht)
  rw [pieces, List.splitOn_eq_singleton hname, List.flatMap_congr hcut,
    ← List.map_eq_flatMap, List.singleton_append]

/-! ## Reading -/

/-- The signature of the parameters is made of their types. -/
def Listed (p : Parameters) : Prop :=
  p.signature = String.join ((p.declarators.map (·.type.targetName)).map Parameters.signaturePart)

/-- The signature of a function is that of its name and parameters. -/
def Signed (d : Declarator) : Prop :=
  ∀ p, d.parameters = some p →
    d.signature = signature d.targetName (p.declarators.map (·.type.targetName))

theorem listed_push {p : Parameters.Progress} (h : Listed p.parameters) (spacing : String)
    (d : Declarator) (value : Option DefaultValue) :
    Listed (p.push spacing d value).parameters := by
  unfold Listed at h ⊢
  simp [Parameters.Progress.push, h]

theorem listed_noteValue {p : Parameters.Progress} (h : Listed p.parameters)
    (value : Option DefaultValue) (keep : Option Nat) :
    Listed (p.noteValue value keep).2.parameters := by
  unfold Parameters.Progress.noteValue
  cases value with
  | none => exact h
  | some value =>
      simp only
      split <;> exact h

theorem readOne_listed (reader : DeclaratorReader) (scope : Scope) (choice : Int)
    (keep : Option Nat) {p : Parameters.Progress} (h : Listed p.parameters) (t : Token) :
    Yields (Parameters.readOne reader scope choice keep p t)
      fun r => ∀ p' ∈ r, Listed p'.parameters := by
  unfold Parameters.readOne
  refine yields_bind fun declarator => ?_
  split
  · exact yields_none
  refine yields_bind fun isPlain => ?_
  extract_lets finish
  have hfinish : ∀ value, Yields (finish value) fun r => ∀ p' ∈ r, Listed p'.parameters := by
    intro value
    have hnote := listed_noteValue (p := { p with count := p.count + 1 }) h value keep
    cases declarator with
    | none => exact yields_some hnote
    | some d =>
        simp only [finish]
        split
        · exact yields_some (listed_push hnote _ _ _)
        · exact yields_some hnote
  split
  · exact yields_bind hfinish
  · refine yields_bind fun value => ?_
    split
    · exact yields_bind fun _ => yields_bind hfinish
    · exact yields_bind hfinish

theorem readList_listed (reader : DeclaratorReader) (scope : Scope) (choice : Int)
    (keep : Option Nat) :
    Yields (Parameters.readList reader scope choice keep)
      fun r => ∀ p ∈ r, Listed p.parameters := by
  refine yields_bind fun first => ?_
  -- the loop keeps that what was read so far is listed
  refine yields_iterate (I := fun st => Listed st.1.parameters) (by simp [Listed]) ?_
  rintro ⟨p, t⟩ hp
  simp only
  split
  · exact yields_pure fun q hq => Option.some.inj hq ▸ hp
  split
  · exact yields_bind fun _ => yields_pure fun q hq => Option.some.inj hq ▸ hp
  refine (readOne_listed reader scope choice keep hp t).bind fun r hr => ?_
  cases r with
  | none => exact yields_pure hr
  | some p' =>
      refine yields_bind fun t => ?_
      refine yields_bind fun _ => ?_
      split <;> exact yields_bind fun _ => yields_pure (hr p' rfl)

theorem readWith_listed (reader : DeclaratorReader) (scope : Scope) (choice : Int)
    (keep : Option Nat) :
    Yields (Parameters.readWith reader scope choice keep) fun r => ∀ p ∈ r, Listed p := by
  refine yields_bind fun t => ?_
  split
  · exact yields_none
  refine yields_bind fun back => ?_
  refine (readList_listed reader scope choice keep).bind fun r hr => ?_
  cases r with
  | none => exact yields_bind fun _ => yields_none
  | some p =>
      have hp := hr p rfl
      simp only
      split
      · exact yields_some hp
      split
      · refine yields_bind fun _ => ?_
        refine (readList_listed reader scope choice none).bind fun again hagain => ?_
        refine Yields.bind (P := Listed) (yields_pure ?_) fun all hall => yields_some hall
        cases again with
        | none => exact hp
        | some q => exact hagain q rfl
      · exact (yields_pure hp).bind fun all hall => yields_some hall

/-- No parameters were read yet. -/
def Bare (d : Draft) : Prop :=
  d.declarator.parameters = none

theorem bare_pushMark {d d' : Draft} {t : Token} (h : Bare d) (ht : d.pushMark? t = some d') :
    Bare d' := by
  unfold Draft.pushMark? at ht
  split at ht
  · cases ht
    exact h
  split at ht
  · cases ht
    exact h
  split at ht
  · cases ht
    exact h
  split at ht
  · cases ht
    exact h
  · cases ht

theorem bare_withDims {d : Draft} (h : Bare d) (view : ArrayView) (dims : List Int) :
    Bare (d.withDims view dims) := by
  unfold Draft.withDims
  split
  · exact h
  · split <;> exact h
  · extract_lets levels
    split <;> exact h

theorem bare_mapBy {d : Draft} (h : Bare d) (scope : Scope) (rule : Rule) (choice : Int)
    (needsCast : Bool) : Bare (d.mapBy scope rule choice needsCast).1 := by
  unfold Draft.mapBy
  simp only [Bare]
  split <;> exact h

theorem bare_annotateShape {d : Draft} (h : Bare d) (m : Mapping) (choice : Int) :
    Bare (d.annotateShape m choice) := by
  have hcast : ∀ {d : Draft} (m : Mapping), Bare d → Bare (d.annotateCast m) := by
    intro d m h
    unfold Draft.annotateCast
    simp only
    split
    · exact h
    · split <;> exact h
  have hconst : ∀ {d : Draft} (m : Mapping), Bare d → Bare (d.annotateConst m) := by
    intro d m h
    unfold Draft.annotateConst
    split <;> exact h
  have hpassing : Bare (d.annotatePassing m choice).1 := by
    unfold Draft.annotatePassing
    simp only
    split
    · exact h
    split
    · exact h
    split
    · exact h
    split
    · exact h
    split
    · split <;> exact h
    · exact h
  unfold Draft.annotateShape
  split
  · exact hcast m h
  · exact hcast _ (hconst _ hpassing)

theorem readMarks_bare {d : Draft} (h : Bare d) : Yields d.readMarks Bare := by
  refine yields_iterate (I := Bare) h fun d hd => ?_
  refine yields_bind fun t => ?_
  split
  · exact yields_pure hd
  next d' hd' => exact yields_bind fun _ => yields_pure (bare_pushMark hd hd')

/-- Attributes in front of a name change the annotations only. -/
theorem readAttributes_yields {I : Draft → Prop} (hannotate : ∀ d f, I d → I (d.annotate f))
    {d : Draft} (h : I d) : Yields d.readAttributes fun r => I r.1 := by
  refine yields_bind fun start => ?_
  refine Yields.bind (P := fun r => I r.1) ?_ fun r hr => yields_bind fun _ => yields_pure hr
  refine yields_iterate (I := fun r => I r.1) h ?_
  rintro ⟨d, found, back⟩ hd
  refine yields_bind fun t => ?_
  extract_lets continue_
  have hcontinue : ∀ bracketed, Yields (continue_ bracketed)
      (Turn.Meets (fun r => I r.1) fun r => I r.1) := by
    intro bracketed
    cases bracketed with
    | true => exact yields_bind fun _ => yields_bind fun _ => yields_pure hd
    | false =>
        refine yields_bind fun found? => ?_
        cases found? with
        | none => exact yields_pure hd
        | some a =>
            simp only
            split
            · refine yields_bind fun back => yields_pure ?_
              exact hannotate d (· ++ a.targetName) hd
            · exact yields_pure hd
  split
  · exact yields_bind fun _ => yields_bind hcontinue
  · exact yields_bind hcontinue

theorem readAttributes_bare {d : Draft} (h : Bare d) :
    Yields d.readAttributes fun r => Bare r.1 :=
  readAttributes_yields (fun _ _ hd => hd) h

theorem readBitfield_bare {d : Draft} (h : Bare d) : Yields d.readBitfield Bare := by
  refine yields_bind fun t => ?_
  split
  · exact yields_pure h
  · exact yields_bind fun _ => yields_bind fun _ => yields_pure h

theorem findRule_bare {d : Draft} (h : Bare d) (scope : Scope) (isTypedef : Bool) :
    Yields (d.findRule scope isTypedef) fun r => Bare r.1 := by
  refine yields_bind fun table => ?_
  extract_lets rule mayAdapt finish
  split
  · exact yields_pure h
  have hfinish : ∀ adapter, Yields (finish adapter) fun r => Bare r.1 := by
    intro adapter
    refine yields_bind fun t => ?_
    split
    · exact yields_pure h
    · exact yields_pure h
  split
  · exact yields_bind hfinish
  · exact yields_bind hfinish

theorem readMapping_bare {d : Draft} (h : Bare d) (request : DeclaratorRequest)
    (isTypedef isUsing : Bool) : Yields (d.readMapping request isTypedef isUsing) Bare := by
  refine (findRule_bare h request.scope isTypedef).bind ?_
  rintro ⟨d, rule⟩ hd
  cases rule with
  | none => exact yields_pure (bare_annotateShape hd _ _)
  | some rule =>
      simp only
      split
      · exact yields_pure (bare_annotateShape hd _ _)
      · exact yields_pure (bare_annotateShape (bare_mapBy hd _ _ _ _) _ _)

theorem readParameters_signed {d : Draft} (h : Bare d)
    (hname : d.declarator.signature = d.declarator.targetName) (reader : DeclaratorReader)
    (request : DeclaratorRequest) (n : DeclaredName) (isTypedef : Bool) :
    Yields (d.readParameters reader request n isTypedef) fun d' => Signed d'.declarator := by
  have hnone : ∀ {e : Declarator}, e.parameters = none → Signed e := by
    intro e he p hp
    rw [he] at hp
    cases hp
  refine (readWith_listed reader request.scope request.choice request.keepDefaults).bind
    fun r hr => ?_
  cases r with
  | none => exact yields_pure (hnone h)
  | some parameters =>
      have hlisted : Listed parameters := hr parameters rfl
      simp only
      split
      · refine yields_pure fun p hp => ?_
        cases hp
        have hjoin : parameters.signature = String.join _ := hlisted
        simp only [hname, signature, hjoin]
      · exact yields_bind fun t => yields_pure (hnone h)

theorem readBehind_signed (reader : DeclaratorReader) (request : DeclaratorRequest)
    (type : NativeType) (isTypedef isUsing : Bool) :
    Yields (Declarator.readBehind reader request type isTypedef isUsing) Signed := by
  have hstart : Bare (Draft.ofType type (request.number == 0)) := rfl
  refine (readMarks_bare hstart).bind fun d hd => ?_
  refine (readAttributes_bare hd).bind ?_
  rintro ⟨d, hint⟩ hd
  refine yields_bind fun parens => ?_
  refine yields_bind fun n => ?_
  refine yields_bind fun dims => ?_
  refine (readBitfield_bare (bare_withDims hd request.view _)).bind fun d hd => ?_
  refine (readMapping_bare hd request isTypedef isUsing).bind fun d hd => ?_
  refine yields_bind fun s => ?_
  refine (readParameters_signed ?_ ?_ reader request _ isTypedef).bind fun d' hd' =>
    yields_bind fun _ => yields_pure hd'
  · exact hd
  · rfl

theorem read_signed (request : DeclaratorRequest) :
    Yields (Declarator.read request) fun r => ∀ d ∈ r, Signed d := by
  refine yields_nest fun inner => ?_
  refine yields_bind fun t => ?_
  refine yields_bind fun t' => ?_
  refine yields_bind fun type => ?_
  cases type with
  | none => exact yields_none
  | some type =>
      refine yields_bind fun found => ?_
      cases found with
      | false => exact yields_none
      | true =>
          exact (readBehind_signed inner request type _ _).bind fun d hd => yields_some hd

theorem ofSpecial_signed (type : NativeType) {p : Parameters} (h : Listed p) :
    Signed (Function.ofSpecial type p) := by
  intro q hq
  have hjoin : p.signature = String.join _ := h
  unfold Function.ofSpecial at hq ⊢
  cases hq
  simp only [signature, hjoin]

/-- **Signatures of functions.** Whatever declarator of a function is read has
the signature of its name and parameters. -/
theorem readDeclarator_signed (scope : Scope) (choice : Int) (keep : Option Nat) :
    Yields (Function.readDeclarator scope choice keep) fun r => ∀ d ∈ r, Signed d := by
  -- the native name is settled last, and no signature depends on it
  have hnative : ∀ r : Option Declarator, (∀ d ∈ r, Signed d) →
      ∀ d ∈ r.map (fun d => if d.nativeName.isEmpty then d
        else { d with nativeName := scope.qualifyLocal d.nativeName }), Signed d := by
    intro r hr d hd
    obtain ⟨e, he, rfl⟩ := Option.map_eq_some_iff.mp hd
    split
    · exact hr e he
    · exact hr e he
  refine yields_bind fun back => ?_
  refine yields_bind fun type => ?_
  cases type with
  | none => exact yields_none
  | some type =>
      simp only
      split
      · refine (readWith_listed _ scope choice keep).bind fun r hr => ?_
        refine Yields.bind (P := fun r => ∀ d ∈ r, Signed d) (yields_pure ?_)
          fun r hr => yields_pure (hnative r hr)
        intro d hd
        obtain ⟨p, hp, rfl⟩ := Option.map_eq_some_iff.mp hd
        exact ofSpecial_signed type (hr p hp)
      · refine yields_bind fun _ => ?_
        exact (read_signed _).bind fun r hr => yields_pure (hnative r hr)

/-! ## Overloads in an outline -/

/-- A function as `Function.readVariant` puts it into the outline of a scope: its
declarator was read there, in whatever state and as whatever variant, and gave
the declaration its signature. -/
structure Method (scope : Scope) where
  declaration : Declaration
  declarator : Declarator
  parameters : Parameters
  found : ∃ choice keep s s',
    Function.readDeclarator scope choice keep s = .ok (some declarator) s'
  takes : declarator.parameters = some parameters
  named : declarator.targetName ≠ ""
  declares : declaration.declarator = some declarator
  signed : declaration.signature = declarator.signature

namespace Method

variable {scope : Scope}

/-- The target types of the parameters. -/
def types (m : Method scope) : List String :=
  m.parameters.declarators.map (·.type.targetName)

def name (m : Method scope) : String :=
  m.declarator.targetName

theorem signature_eq (m : Method scope) : m.declaration.signature = signature m.name m.types := by
  obtain ⟨choice, keep, s, s', h⟩ := m.found
  rw [m.signed]
  exact readDeclarator_signed scope choice keep s _ s' h m.declarator rfl m.parameters m.takes

theorem signature_ne_empty (m : Method scope) : m.declaration.signature ≠ "" := by
  intro h
  have hlist := toList_signature m.name m.types
  rw [← m.signature_eq, h] at hlist
  exact m.named (String.toList_eq_nil_iff.mp (List.append_eq_nil_iff.mp hlist.symm).1)

/-- The signatures agree just if the pieces do. -/
theorem signature_eq_iff (m m' : Method scope) :
    m.declaration.signature = m'.declaration.signature ↔
      pieces m.name m.types = pieces m'.name m'.types := by
  rw [m.signature_eq, m'.signature_eq, signature_eq_signature_iff]

end Method

/-- Two functions meet nothing else of their signatures: neither in the outline
nor among the definitions that go before them. -/
structure Clear {scope : Scope} (o : Outline) (m₁ m₂ : Method scope) : Prop where
  outline : ∀ m ∈ [m₁, m₂], o.slot m.declaration.signature = []
  helpers : ∀ m ∈ [m₁, m₂], ∀ m' ∈ [m₁, m₂], ∀ x ∈ Outline.helpers m.declaration,
    x.signature ≠ m'.declaration.signature

section Adding

variable {scope : Scope} {o : Outline} {m₁ m₂ : Method scope} {table₁ table₂ : RuleTable}

/-- Behind the first function its slot holds that function alone. -/
theorem slot_first (hclear : Clear o m₁ m₂) (h₁ : (o.add table₁ m₁.declaration).1 = true) :
    ∃ x, (o.add table₁ m₁.declaration).2.slot m₁.declaration.signature = [x] ∧
      x.declarator = some m₁.declarator := by
  have hempty := hclear.outline m₁ (by simp)
  rcases Outline.slot_add_self h₁ m₁.signature_ne_empty (hclear.helpers m₁ (by simp) m₁ (by simp))
    (by simp [hempty]) with ⟨x, hx, hdecl⟩ | ⟨hne, -⟩
  · exact ⟨x, hx, hdecl.trans m₁.declares⟩
  · exact absurd hempty hne

/-- With different signatures, both functions are stored. -/
theorem slots_of_ne (hclear : Clear o m₁ m₂) (h₁ : (o.add table₁ m₁.declaration).1 = true)
    (h₂ : ((o.add table₁ m₁.declaration).2.add table₂ m₂.declaration).1 = true)
    (hne : m₁.declaration.signature ≠ m₂.declaration.signature) :
    ∀ m ∈ [m₁, m₂], ∃ x,
      ((o.add table₁ m₁.declaration).2.add table₂ m₂.declaration).2.slot
        m.declaration.signature = [x] ∧ x.declarator = some m.declarator := by
  obtain ⟨x, hx, hdecl⟩ := slot_first hclear h₁
  have hempty : (o.add table₁ m₁.declaration).2.slot m₂.declaration.signature = [] := by
    rw [Outline.slot_add_of_ne h₁ hne (hclear.helpers m₁ (by simp) m₂ (by simp)),
      hclear.outline m₂ (by simp)]
  have hfirst := Outline.slot_add_of_ne h₂ hne.symm (hclear.helpers m₂ (by simp) m₁ (by simp))
  have hsecond := Outline.slot_add_self h₂ m₂.signature_ne_empty
    (hclear.helpers m₂ (by simp) m₂ (by simp)) (by simp [hempty])
  intro m hm
  rcases List.mem_pair.mp hm with rfl | rfl
  · exact ⟨x, hfirst.trans hx, hdecl⟩
  · rcases hsecond with ⟨y, hy, hdecl'⟩ | ⟨hne', -⟩
    · exact ⟨y, hy, hdecl'.trans m.declares⟩
    · exact absurd hempty hne'

/-- With one signature, one of the functions is stored. -/
theorem slot_of_eq (hclear : Clear o m₁ m₂) (h₁ : (o.add table₁ m₁.declaration).1 = true)
    (h₂ : ((o.add table₁ m₁.declaration).2.add table₂ m₂.declaration).1 = true)
    (heq : m₁.declaration.signature = m₂.declaration.signature) :
    ∃ m ∈ [m₁, m₂], ∃ x,
      ((o.add table₁ m₁.declaration).2.add table₂ m₂.declaration).2.slot
        m₁.declaration.signature = [x] ∧ x.declarator = some m.declarator := by
  obtain ⟨x, hx, hdecl⟩ := slot_first hclear h₁
  rw [heq] at hx ⊢
  rcases Outline.slot_add_self h₂ m₂.signature_ne_empty
    (hclear.helpers m₂ (by simp) m₂ (by simp)) (by simp [hx]) with ⟨y, hy, hdecl'⟩ | ⟨-, hold⟩
  · exact ⟨m₂, by simp, y, hy, hdecl'.trans m₂.declares⟩
  · exact ⟨m₁, by simp, x, hold.trans hx, hdecl⟩

end Adding

/-- **Overloads.** Two functions of a scope have different signatures just if
their names and parameter types differ in some piece. Without underscores that
is if the names or the words of the types differ. If they do, an outline keeps
both of them, and if not, one. -/
theorem add_keeps_both_iff {scope : Scope} (m₁ m₂ : Method scope) :
    (m₁.declaration.signature = m₂.declaration.signature ↔
      pieces m₁.name m₁.types = pieces m₂.name m₂.types) ∧
    ((∀ m ∈ [m₁, m₂], '_' ∉ m.name.toList ∧ ∀ t ∈ m.types, '_' ∉ typeWord t) →
      (pieces m₁.name m₁.types = pieces m₂.name m₂.types ↔
        m₁.name = m₂.name ∧ m₁.types.map typeWord = m₂.types.map typeWord)) ∧
    ∀ (o : Outline) (table₁ table₂ : RuleTable), Clear o m₁ m₂ →
      (o.add table₁ m₁.declaration).1 = true →
      ((o.add table₁ m₁.declaration).2.add table₂ m₂.declaration).1 = true →
      let o' := ((o.add table₁ m₁.declaration).2.add table₂ m₂.declaration).2
      (pieces m₁.name m₁.types ≠ pieces m₂.name m₂.types → ∀ m ∈ [m₁, m₂],
        ∃ x, o'.slot m.declaration.signature = [x] ∧ x.declarator = some m.declarator) ∧
      (pieces m₁.name m₁.types = pieces m₂.name m₂.types → ∃ m ∈ [m₁, m₂],
        ∃ x, o'.slot m₁.declaration.signature = [x] ∧ x.declarator = some m.declarator) := by
  refine ⟨m₁.signature_eq_iff m₂, fun hplain => ?_, fun o table₁ table₂ hclear h₁ h₂ => ?_⟩
  · obtain ⟨hname₁, htypes₁⟩ := hplain m₁ (by simp)
    obtain ⟨hname₂, htypes₂⟩ := hplain m₂ (by simp)
    rw [pieces_of_plain hname₁ htypes₁, pieces_of_plain hname₂ htypes₂, List.cons.injEq,
      String.toList_inj]
  · simp only [ne_eq, ← m₁.signature_eq_iff m₂]
    exact ⟨slots_of_ne hclear h₁ h₂, slot_of_eq hclear h₁ h₂⟩

/-! ## Functions of a text -/

/-- The function that a text starts with. -/
def declaratorOf (text : String) : Option Declarator :=
  match Function.readDeclarator {} 0 none (Reading.ofTokens {} (Token.ofText none text)) with
  | .ok d _ => d
  | .error _ _ => none

theorem found_of_declaratorOf {text : String} {d : Declarator} (h : declaratorOf text = some d) :
    ∃ choice keep s s', Function.readDeclarator {} choice keep s = .ok (some d) s' := by
  refine ⟨0, none, Reading.ofTokens {} (Token.ofText none text), ?_⟩
  unfold declaratorOf at h
  split at h
  next d' s' hread => exact ⟨s', h ▸ hread⟩
  · cases h

/-- The function that a text starts with, as it is put into an outline. -/
def Method.ofText (text : String)
    (h : ((declaratorOf text).any fun d => d.parameters.isSome && d.targetName != "") = true) :
    Method {} :=
  have hsome : (declaratorOf text).isSome = true := by
    cases hd : declaratorOf text with
    | none => simp [hd] at h
    | some d => rfl
  let d := (declaratorOf text).get hsome
  have hd : declaratorOf text = some d := (Option.some_get hsome).symm
  have hboth : d.parameters.isSome = true ∧ d.targetName ≠ "" := by simpa [hd] using h
  { declaration := { text, signature := d.signature, declarator := some d, isFunction := true }
    declarator := d
    parameters := d.parameters.get hboth.1
    found := found_of_declaratorOf hd
    takes := (Option.some_get hboth.1).symm
    named := hboth.2
    declares := rfl
    signed := rfl }

def intMethod : Method {} := .ofText "void f(int x);" (by decide +kernel)

def longMethod : Method {} := .ofText "void f(long x);" (by decide +kernel)

def flatMethod : Method {} := .ofText "void f_int();" (by decide +kernel)

/-- `f(int)` and `f(long)` are both stored. -/
theorem add_keeps_int_and_long :
    ∀ m ∈ [intMethod, longMethod], ∃ x,
      ((({} : Outline).add {} intMethod.declaration).2.add {} longMethod.declaration).2.slot
        m.declaration.signature = [x] ∧ x.declarator = some m.declarator := by
  obtain ⟨hhelpers, hfirst, hsecond, hpieces⟩ :
      (∀ m ∈ [intMethod, longMethod], (Outline.helpers m.declaration).length = 0) ∧
        (({} : Outline).add {} intMethod.declaration).1 = true ∧
        ((({} : Outline).add {} intMethod.declaration).2.add {} longMethod.declaration).1 = true ∧
        pieces intMethod.name intMethod.types ≠ pieces longMethod.name longMethod.types := by
    decide +kernel
  have hclear : Clear {} intMethod longMethod := by
    refine ⟨fun m _ => rfl, fun m hm m' _ x hx => ?_⟩
    rw [List.length_eq_zero_iff.mp (hhelpers m hm)] at hx
    cases hx
  obtain ⟨-, -, hadd⟩ := add_keeps_both_iff intMethod longMethod
  exact (hadd {} {} {} hclear hfirst hsecond).1 hpieces

/-- `f_int()` and `f(int)` have one signature, and the second is lost. So have
parameters `A_B` and `A, B`, or `int` and `int[]`. -/
theorem add_loses_overload :
    (flatMethod.name, flatMethod.types) ≠ (intMethod.name, intMethod.types) ∧
    flatMethod.declaration.signature = intMethod.declaration.signature ∧
    ((({} : Outline).add {} flatMethod.declaration).2.add {} intMethod.declaration).2.toList.map
      (·.text) = ["void f_int();"] ∧
    signature "f" ["A_B"] = signature "f" ["A", "B"] ∧
    signature "g" ["int"] = signature "g" ["int[]"] := by
  decide +kernel

end HeaderPeers.Overload

import HeaderPeers.Proofs.Function.Alternatives
import HeaderPeers.Proofs.NativeType.Fundamental

/-!
# Overloads for default values

Where the last parameters of a function have default values, the function is printed once
with all parameters, and then once without the last, without the last two and so on. This
holds for the built-in rules and parameters of fundamental types passed by value, whose
target names are the same in each alternative.

- `Parameter.IsFundamental` — such a parameter.
- `Function.Head.Unmatched` — a function whose name no rule matches.
- `Function.read_defaults` — what is printed.
-/

namespace HeaderPeers

open ReadM

/-! ## One parameter -/

/-- A parameter of a fundamental type that is passed by value. Its name is matched by no
rule, and its default value, if there is one, names nothing that is skipped. -/
structure Parameter.IsFundamental (usings : List String) (scope : Scope) (x : Parameter) :
    Prop where
  words : NativeType.IsFundamental x.spelling.words
  marks : x.spelling.marks = []
  type_eq : x.spelling.type =
    (NativeType.ofWords x.spelling.words none).resolve .standard scope usings
  found_eq : x.found = x.spelling.own .standard
  unmatched : ∀ t ∈ x.spelling.name, Name.fundamentalWords.contains t.text = false ∧
    RuleTable.standard.find? t.text = none
  valued : ∀ v ∈ x.value, v.1.IsMark "=" ∧ DefaultValue.Balanced false v.2 ∧
    (v.2.any fun t => t.isWord && (RuleTable.standard.find? t.text).any (·.skip)) = false

namespace Parameter.IsFundamental

variable {x : Parameter} {scope : Scope} {usings : List String}

theorem inWords (h : x.IsFundamental usings scope) :
    x.spelling.InWords .standard usings scope x.spelling.words none where
  words_eq := by simp
  spells := NativeType.spells_of_fundamental h.words.words _ _
  mark := by simp
  marks_eq _ := h.marks
  dots := by simp [h.marks]
  type_eq := h.type_eq
  closed := h.words.closed
  name t ht := by
    obtain ⟨hword, hnone⟩ := h.unmatched t ht
    exact ⟨hword, by rw [hnone]; rfl⟩

/-- It stands for a value. -/
theorem isValue (h : x.IsFundamental usings scope) (hscope : scope.IsNamespace usings) :
    x.spelling.type.IsValue :=
  h.type_eq ▸ h.words.isValue hscope

theorem draft_eq (h : x.IsFundamental usings scope) :
    x.found.1 = (Draft.ofType x.spelling.type true).withDims .plain [] := by
  rw [h.found_eq, Spelling.own, Spelling.draft, h.marks]
  rfl

theorem type_eq_found (h : x.IsFundamental usings scope) : x.found.1.type = x.spelling.type := by
  rw [h.draft_eq]
  rfl

/-- The rule for it is tame. -/
theorem isTame (h : x.IsFundamental usings scope) (hscope : scope.IsNamespace usings) :
    ∀ r ∈ x.found.2, r.IsTame := by
  intro r hr
  rw [h.found_eq, Spelling.own, Option.mem_def] at hr
  dsimp only at hr
  have htype : x.spelling.draft.type = x.spelling.type := (Spelling.pushMarks_leaves _ _).1
  refine RuleTable.isTame_of_findWith?_standard ?_ hr
  rw [Draft.lookupName, htype]
  refine (h.isValue hscope).native.append ?_
  split <;> decide

/-- It can be read. -/
theorem fits (h : x.IsFundamental usings scope) (hscope : scope.IsNamespace usings) :
    x.Fits .standard usings scope :=
  fits_of_words hscope.free h.inWords h.found_eq
    (fun r hr => by rw [(h.isTame hscope r hr).native]; rfl) (h.isValue hscope).native.ne_empty
    h.valued

/-- Its type is not skipped. -/
theorem unskipped (h : x.IsFundamental usings scope) (hscope : scope.IsNamespace usings) :
    (RuleTable.standard.find? x.found.1.type.nativeName).any (·.skipsType) = false := by
  rw [Option.any_eq_false]
  intro r hr
  rw [h.type_eq_found] at hr
  have htame := RuleTable.isTame_of_findWith?_standard (h.isValue hscope).native hr
  simp [Rule.skipsType, htame.kept]

/-- It is passed by value. -/
theorem value_found (h : x.IsFundamental usings scope) (hscope : scope.IsNamespace usings) :
    x.found.1.declarator.indirections = 0 ∧ x.found.1.declarator.reference = false := by
  have hvalue := h.isValue hscope
  rw [h.draft_eq]
  exact ⟨hvalue.stars, by simp [Draft.withDims, Draft.ofType, hvalue.reference]⟩

/-- It is printed as a value of its type. -/
theorem declarator_shape (h : x.IsFundamental usings scope) (hscope : scope.IsNamespace usings)
    (table : RuleTable) (choice : Int) (count : Nat) :
    (x.declarator table usings scope choice count).type.nativeName = x.spelling.type.nativeName ∧
      (x.declarator table usings scope choice count).indirections = 0 ∧
      (x.declarator table usings scope choice count).reference = false := by
  obtain ⟨hstars, hreference⟩ := h.value_found hscope
  have hlike := x.spelling.like_declarator table usings x.found
    { scope, choice, defaultName := some ("arg" ++ toString count) }
  exact ⟨hlike.typeName.trans (congrArg NativeType.nativeName h.type_eq_found),
    hlike.stars.trans hstars, hlike.reference.trans hreference⟩

/-- All alternatives take one target name, and it is something. -/
theorem target_eq (h : x.IsFundamental usings scope) (hscope : scope.IsNamespace usings) :
    ∃ target, (target ≠ "" ∧ target ≠ "void") ∧ ∀ choice, x.target scope choice = target := by
  obtain ⟨hstars, hreference⟩ := h.value_found hscope
  have htarget := Parameter.target_eq hscope.free (x := x) (by omega)
  cases hrule : x.found.2 with
  | none =>
      refine ⟨x.spelling.type.targetName, (h.isValue hscope).target, fun choice => ?_⟩
      have hoffered : x.offered = [] := by rw [offered, hrule]; rfl
      rw [htarget, if_pos hoffered, h.type_eq_found]
  | some r =>
      obtain ⟨⟨value, hvalues, hsome⟩, -, -⟩ := h.isTame hscope r hrule
      refine ⟨value, hsome, fun choice => ?_⟩
      have hoffered : x.offered = [value] := by
        rw [offered, hrule, Option.map_some, Option.getD_some, Draft.offered]
        simp [hstars, hreference, hvalues]
      rw [htarget, if_neg (by simp [hoffered]), nameOf, hoffered]
      simp [Nat.mod_one]

/-- It is passed. -/
theorem passed (h : x.IsFundamental usings scope) (hscope : scope.IsNamespace usings)
    (choice : Int) : x.Passed scope choice := by
  obtain ⟨target, ⟨-, hvoid⟩, htarget⟩ := h.target_eq hscope
  rw [Passed, htarget]
  exact hvoid

end Parameter.IsFundamental

/-- What two related lists have in common can be read off either. -/
theorem List.map_eq_of_forall₂ {α β γ : Type} {R : α → β → Prop} {xs : List α} {ys : List β}
    {g : β → γ} {k : α → γ} (h : List.Forall₂ R xs ys)
    (heq : ∀ x ∈ xs, ∀ y, R x y → g y = k x) : ys.map g = xs.map k := by
  induction h with
  | nil => rfl
  | cons hxy _ ih =>
      rw [List.forall_mem_cons] at heq
      rw [List.map_cons, List.map_cons, heq.1 _ hxy, ih heq.2]

/-! ## Fewer and fewer parameters -/

namespace Parameters

variable {scope : Scope} {choice : Int} {required optional : List Parameter}

theorem valued_of_required (h : ∀ x ∈ required, x.value = none) : valued required = 0 := by
  rw [valued, List.length_eq_zero_iff, List.filter_eq_nil_iff]
  intro x hx
  simp [h x hx]

theorem valued_of_optional (h : ∀ x ∈ optional, x.value.isSome = true) :
    valued optional = optional.length := by
  rw [valued, List.filter_eq_self.mpr h]

/-- Without a limit, each parameter is printed with some number. -/
theorem exists_declarators_takeAll (table : RuleTable) (usings : List String)
    {xs : List Parameter} {p : Progress} (hpassed : ∀ x ∈ xs, x.Passed scope choice) :
    ∃ ds, (takeAll table usings scope choice none p xs).parameters.declarators =
        p.parameters.declarators ++ ds ∧
      List.Forall₂ (fun x d => ∃ i, d = x.declarator table usings scope choice i) xs ds := by
  induction xs generalizing p with
  | nil => exact ⟨[], (List.append_nil _).symm, .nil⟩
  | cons x xs ih =>
      have htake : (x.take table usings scope choice none p (spacingOf x)).parameters.declarators =
          p.parameters.declarators ++ [x.declarator table usings scope choice p.count] := by
        rw [x.take_none (hpassed x List.mem_cons_self)]
        rfl
      obtain ⟨ds, hds, hnumbered⟩ := ih (p := x.take table usings scope choice none p (spacingOf x))
        fun y hy => hpassed y (List.mem_cons_of_mem _ hy)
      refine ⟨_ :: ds, ?_, .cons ⟨p.count, rfl⟩ hnumbered⟩
      rw [htake, List.append_assoc, List.singleton_append] at hds
      exact hds

/-- **Taking fewer parameters.** Where only the last parameters have default values, a limit to
these takes the first parameters up to it. -/
theorem takeAll_limited (table : RuleTable) (usings : List String)
    (hpassed : ∀ x ∈ required ++ optional, x.Passed scope choice)
    (hrequired : ∀ x ∈ required, x.value = none)
    (hoptional : ∀ x ∈ optional, x.value.isSome = true) (m : Nat) :
    (takeAll table usings scope choice (some m) {} (required ++ optional)).parameters.declarators =
        List.take (required.length + m)
          (takeAll table usings scope choice none {} (required ++ optional)).parameters.declarators ∧
      (takeAll table usings scope choice (some m) {} (required ++ optional)).parameters.signature =
        String.join (((required ++ optional).take (required.length + m)).map fun x =>
          signaturePart (x.target scope choice)) := by
  obtain ⟨front, hfront⟩ : ∃ front, front = required ++ optional.take m := ⟨_, rfl⟩
  have hsplit : required ++ optional = front ++ optional.drop m := by simp [hfront]
  have htake : (required ++ optional).take (required.length + m) = front :=
    (List.take_length_add_append m).trans hfront.symm
  have hkept : valued front = min m optional.length := by
    rw [hfront, valued_append, valued_of_required hrequired,
      valued_of_optional fun x hx => hoptional x (List.mem_of_mem_take hx), Nat.zero_add,
      List.length_take]
  have hfirst : ∀ x ∈ front, x.Passed scope choice := fun x hx =>
    hpassed x (by rw [hsplit]; exact List.mem_append_left _ hx)
  have hlast : ∀ x ∈ optional.drop m, x.Passed scope choice := fun x hx =>
    hpassed x (by rw [hsplit]; exact List.mem_append_right _ hx)
  have htaken : Adds scope choice front {} (takeAll table usings scope choice none {} front) :=
    adds_takeAll hfirst
  have hrest : Adds scope choice (optional.drop m)
      (takeAll table usings scope choice none {} front)
      (takeAll table usings scope choice none {} (required ++ optional)) := by
    rw [hsplit, takeAll_append front]
    exact adds_takeAll hlast
  have hlimit : ({} : Progress).kept + valued front ≤ m := by
    rw [hkept]
    exact (Nat.zero_add _).trans_le (Nat.min_le_left m _)
  have hlimited : takeAll table usings scope choice (some m) {} (required ++ optional) =
      (takeAll table usings scope choice none {} front).pass (optional.drop m).length := by
    rw [hsplit, takeAll_append front, takeAll_of_stays hfirst hlimit]
    rcases le_or_gt m optional.length with hm | hm
    · refine takeAll_of_dropped (fun x hx => hoptional x (List.mem_of_mem_drop hx)) ?_
      rw [htaken.kept, hkept]
      omega
    · rw [List.drop_eq_nil_of_le hm.le]
      exact (Progress.pass_zero _).symm
  obtain ⟨ds, hds, hgives⟩ := htaken.declarators
  obtain ⟨ds', hds', hgives'⟩ := hrest.declarators
  have hlength : ds.length = required.length + min m optional.length := by
    rw [← hgives.length_eq, hfront, List.length_append, List.length_take]
  have hlength' : ds'.length = optional.length - m := by
    rw [← hgives'.length_eq, List.length_drop]
  rw [hlimited, htake]
  constructor
  · have hnil : ({} : Progress).parameters.declarators ++ ds = ds := rfl
    rw [hnil] at hds
    refine hds.trans ?_
    rw [hds', hds, List.take_append, List.take_of_length_le (by omega)]
    have hnone : ds'.take (required.length + m - ds.length) = [] := by
      rw [List.take_eq_nil_iff, ← List.length_eq_zero_iff]
      omega
    rw [hnone, List.append_nil]
  · exact htaken.signature.trans (String.empty_append ..)

end Parameters

/-- Texts that are not empty can be told apart by how many of them are joined. -/
theorem String.eq_of_join_take_eq {parts : List String} (hparts : ∀ part ∈ parts, part ≠ "")
    {i j : Nat} (hi : i ≤ parts.length) (hj : j ≤ parts.length)
    (h : String.join (parts.take i) = String.join (parts.take j)) : i = j := by
  wlog hle : i ≤ j generalizing i j
  · exact (this hj hi h.symm (Nat.le_of_not_le hle)).symm
  obtain ⟨n, rfl⟩ := Nat.exists_eq_add_of_le hle
  rw [List.take_add, String.join_append, eq_comm, String.append_eq_left_iff] at h
  cases n with
  | zero => rfl
  | succ n =>
      rw [List.drop_eq_getElem_cons (by omega), List.take_succ_cons, String.join_cons,
        String.append_eq_empty_iff] at h
      exact absurd h.1 (hparts _ (List.getElem_mem _))

/-! ## Names without rules -/

/-- Such a name is settled as itself. -/
theorem NativeType.settleName_eq_self {table : RuleTable} {name : String} {candidates : List String}
    (h : ∀ candidate ∈ candidates, table.find? candidate = none) :
    settleName table name candidates = (name, none) := by
  have hexact : exactMatch? table candidates = none := by
    rw [exactMatch?, List.find?_eq_none]
    intro candidate hcandidate
    simp [RuleTable.findWith?_eq_none (h candidate hcandidate)]
  have houter : outerMatch? table candidates = none := by
    rw [outerMatch?, List.find?_eq_none]
    intro candidate hcandidate
    simp [h candidate (List.mem_reverse.mp hcandidate)]
  rw [settleName_eq, hexact, houter]
  rfl

/-- What an attribute gives as a name is one. -/
theorem Draft.ne_empty_of_hint {d : Draft} {name : String} (h : d.hint = some name) :
    name ≠ "" := by
  obtain ⟨a, hfind, rfl⟩ := Option.map_eq_some_iff.mp h
  have hword := List.find?_some hfind
  rintro hempty
  rw [hempty] at hword
  cases hword

namespace Reading

/-- With the built-in rules, plain tokens are seen as they are. -/
theorem sees_standard {ts : List Token} (h : ∀ t ∈ ts, t.isComment = false ∧ t.is "#" = false) :
    (ofTokens .standard ts).Sees (ts ++ [Window.endToken ts.toArray]) :=
  ofTokens_sees fun t ht => ⟨(h t ht).1, (h t ht).2, RuleTable.plain_standard.ruleFor? t⟩

/-- At first nothing was read or printed. -/
theorem ofTokens_fresh (table : RuleTable) (ts : List Token) :
    (ofTokens table ts).table = table ∧ (ofTokens table ts).usings = [] ∧
      (ofTokens table ts).outline.isUnbound = false ∧ (ofTokens table ts).outline.toList = [] :=
  ⟨rfl, rfl, rfl, rfl⟩

end Reading

/-! ## The whole function -/

namespace Function

namespace Head

/-- A free function whose result type can be read and is not skipped, and whose name no rule
matches, with its parameters or without. -/
structure Unmatched (usings : List String) (scope : Scope) (f : Head) : Prop where
  reads : f.spelling.Reads .standard usings scope
  finds : f.spelling.draft.Finds .standard usings scope f.found
  ordinary : f.spelling.type.constructor = false ∧ f.spelling.type.destructor = false ∧
    f.spelling.type.operator = false
  type_ne : f.spelling.type.targetName ≠ "" ∧
    (f.result .standard usings scope 0).type.targetName ≠ ""
  kept : (RuleTable.standard.find? f.found.1.type.nativeName).any (·.skipsType) = false
  unmatched : ∀ name ∈ f.name.text :: scope.qualify f.name.text usings,
    RuleTable.standard.find? name = none
  unruled : Function.rule? .standard (scope.qualifyLocal f.name.text)
    (f.taken .standard usings scope 0 none) = none

variable {f : Head} {scope : Scope} {usings : List String} {choice : Int} {keep : Option Nat}

/-- Its name stands for itself. -/
theorem Unmatched.settled (h : f.Unmatched usings scope) :
    NativeType.settleName .standard f.name.text (scope.qualify f.name.text usings) =
      (f.name.text, none) :=
  NativeType.settleName_eq_self fun name hname => h.unmatched name (List.mem_cons_of_mem _ hname)

theorem title_eq (f : Head) (request : DeclaratorRequest) :
    f.spelling.title request = f.name.text := by
  rw [Spelling.title, f.named]
  rfl

/-- The name it is printed under is that of a rule, that of its draft or the one it has. -/
theorem target_standard (f : Head) (usings : List String) (scope : Scope) :
    f.target .standard usings scope =
      ((match (NativeType.settleName .standard (f.spelling.title { scope, choice := 0 })
          (scope.qualify (f.spelling.title { scope, choice := 0 }) usings)).2 with
        | some rule => if f.spelling.draft.hint.isNone && !false && Draft.renames scope false rule
            then rule.targetName? else none
        | none => none).orElse fun _ => f.spelling.draft.hint).getD
          (f.spelling.title { scope, choice := 0 }) :=
  rfl

theorem Unmatched.result_eq (h : f.Unmatched usings scope) (choice : Int) :
    (f.result .standard usings scope choice).nativeName = f.name.text ∧
      f.target .standard usings scope ≠ "" := by
  have hsettled := h.settled
  have hname : f.name.text ≠ "" := by
    have hempty := (f.spelling.isName _ f.named).isEmpty_eq
    simpa using hempty
  have hnative : (f.result .standard usings scope choice).nativeName =
      (NativeType.settleName .standard (f.spelling.title { scope, choice })
        (scope.qualify (f.spelling.title { scope, choice }) usings)).1 := rfl
  have htarget := f.target_standard usings scope
  rw [title_eq, hsettled] at hnative htarget
  refine ⟨hnative, ?_⟩
  rw [htarget]
  cases hhint : f.spelling.draft.hint with
  | none => exact hname
  | some name => exact Draft.ne_empty_of_hint hhint

theorem Unmatched.declared_nativeName (h : f.Unmatched usings scope) :
    (f.declared .standard usings scope choice keep).nativeName =
      scope.qualifyLocal f.name.text := by
  have hname : f.name.text ≠ "" := by
    have hempty := (f.spelling.isName _ f.named).isEmpty_eq
    simpa using hempty
  have hnative := (h.result_eq choice).1
  unfold declared
  dsimp only
  rw [hnative, if_neg (by simpa using hname)]

/-- It is printed, if its parameters are of fundamental types. -/
theorem Unmatched.printable (h : f.Unmatched usings scope) (hscope : scope.IsNamespace usings)
    (hparameters : ∀ x ∈ f.parameters, x.IsFundamental usings scope) :
    f.Printable .standard usings scope where
  reads := h.reads
  finds := h.finds
  plain := by
    rw [h.unmatched _ List.mem_cons_self]
    rfl
  ordinary := h.ordinary
  parameters x hx := (hparameters x hx).fits hscope
  free := hscope.free
  nativeName_eq := by rw [(h.result_eq 0).1]
  target_ne := (h.result_eq 0).2
  own r hr := by
    rw [h.unruled] at hr
    cases hr
  type_ne := h.type_ne
  unskipped := ⟨h.kept, fun x hx => (hparameters x hx).unskipped hscope⟩

/-- The name of a function with the types of its parameters. -/
theorem fullName_taken (hscope : scope.IsNamespace usings)
    (hfundamental : ∀ x ∈ f.parameters, x.IsFundamental usings scope) (table : RuleTable)
    (name : String) : fullName name (f.taken table usings scope choice none) =
      name ++ "(" ++ Text.joinWith ", " (f.parameters.map (·.spelling.type.nativeName)) ++ ")" := by
  obtain ⟨ds, hds, hnumbered⟩ := Parameters.exists_declarators_takeAll table usings
    (p := {}) fun x hx => (hfundamental x hx).passed hscope choice
  have hdeclarators : (f.taken table usings scope choice none).declarators = ds :=
    hds.trans (List.nil_append ds)
  rw [fullName, hdeclarators, List.map_eq_of_forall₂ hnumbered fun x hx d hd => ?_]
  obtain ⟨i, rfl⟩ := hd
  obtain ⟨hname, hstars, hreference⟩ := (hfundamental x hx).declarator_shape hscope table choice i
  simp [hname, hstars, hreference]

/-- The result as it would stand among the parameters. -/
def asParameter (f : Head) : Parameter :=
  { spelling := f.spelling, found := f.found, value := none }

/-- A result of a fundamental type can be read. -/
theorem unmatched_of_fundamental (hscope : scope.IsNamespace usings)
    (hresult : f.asParameter.IsFundamental usings scope)
    (hunmatched : ∀ name ∈ f.name.text :: scope.qualify f.name.text usings,
      RuleTable.standard.find? name = none)
    (hunruled : Function.rule? .standard (scope.qualifyLocal f.name.text)
      (f.taken .standard usings scope 0 none) = none) :
    f.Unmatched usings scope where
  reads := (hresult.fits hscope).reads
  finds := (hresult.fits hscope).finds
  ordinary := by
    obtain ⟨-, hconstructor, hdestructor, hoperator⟩ :=
      (NativeType.isPlain_ofWords f.spelling.words none).resolve .standard scope usings
    have htype : f.spelling.type =
        (NativeType.ofWords f.spelling.words none).resolve .standard scope usings :=
      hresult.type_eq
    rw [htype]
    exact ⟨hconstructor, hdestructor, hoperator⟩
  type_ne := by
    obtain ⟨target, ⟨hempty, -⟩, htarget⟩ := hresult.target_eq hscope
    have hsame : (f.result .standard usings scope 0).type.targetName =
        f.asParameter.target scope 0 := rfl
    exact ⟨(hresult.isValue hscope).target.1, by rw [hsame, htarget]; exact hempty⟩
  kept := hresult.unskipped hscope
  unmatched := hunmatched
  unruled := hunruled

/-! ## What is printed -/

variable {required optional : List Parameter} {table : RuleTable}

/-- A variant takes the first parameters, as many as it keeps. -/
theorem taken_keep (hparameters : f.parameters = required ++ optional)
    (hrequired : ∀ x ∈ required, x.value = none)
    (hoptional : ∀ x ∈ optional, x.value.isSome = true)
    (hpassed : ∀ x ∈ f.parameters, x.Passed scope choice) (keep : Option Nat) :
    (f.taken table usings scope choice keep).declarators =
        (f.taken table usings scope choice none).declarators.take
          (required.length + keep.getD optional.length) ∧
      (f.taken table usings scope choice keep).signature =
        String.join ((f.parameters.take (required.length + keep.getD optional.length)).map fun x =>
          Parameters.signaturePart (x.target scope choice)) := by
  cases keep with
  | none =>
      obtain ⟨hsignature, hgives⟩ : (f.taken table usings scope choice none).signature = _ ∧
          List.Forall₂ _ _ (f.taken table usings scope choice none).declarators :=
        taken_of_passed hpassed
      have hlength : f.parameters.length = required.length + optional.length := by
        rw [hparameters, List.length_append]
      rw [Option.getD_none, ← hlength]
      refine ⟨?_, by rw [hsignature, List.take_length]⟩
      rw [hgives.length_eq, List.take_length]
  | some m =>
      have hlimited := Parameters.takeAll_limited table usings (hparameters ▸ hpassed) hrequired
        hoptional m
      rw [← hparameters] at hlimited
      exact hlimited

/-- The signature with the first parameters, as all alternatives have it. -/
def signatureOf (table : RuleTable) (usings : List String) (scope : Scope) (f : Head) (n : Nat) :
    String :=
  f.target table usings scope ++ String.join ((f.parameters.take n).map fun x =>
    Parameters.signaturePart (x.target scope (-1)))

/-- It tells how many parameters there are. -/
theorem eq_of_signatureOf_eq {i j : Nat} (hi : i ≤ f.parameters.length)
    (hj : j ≤ f.parameters.length)
    (h : f.signatureOf table usings scope i = f.signatureOf table usings scope j) : i = j := by
  rw [signatureOf, signatureOf, String.append_right_inj, List.map_take, List.map_take] at h
  refine String.eq_of_join_take_eq ?_ (by simpa using hi) (by simpa using hj) h
  intro part hpart
  obtain ⟨x, -, rfl⟩ := List.mem_map.mp hpart
  simp [Parameters.signaturePart]

theorem signature_keep (hscope : scope.IsNamespace usings)
    (hparameters : f.parameters = required ++ optional)
    (hfundamental : ∀ x ∈ f.parameters, x.IsFundamental usings scope)
    (hrequired : ∀ x ∈ required, x.value = none)
    (hoptional : ∀ x ∈ optional, x.value.isSome = true) (v : Variant) :
    f.signature table usings scope v =
      f.signatureOf table usings scope (required.length + v.keep.getD optional.length) := by
  have hpassed : ∀ x ∈ f.parameters, x.Passed scope v.choice := fun x hx =>
    (hfundamental x hx).passed hscope v.choice
  rw [signature, (taken_keep hparameters hrequired hoptional hpassed v.keep).2, signatureOf]
  refine congrArg _ (congrArg String.join (List.map_congr_left fun x hx => ?_))
  obtain ⟨target, -, htarget⟩ := (hfundamental x (List.mem_of_mem_take hx)).target_eq hscope
  rw [htarget, htarget]

end Head

/-- One default value less stays in each variant of a block. -/
theorem map_block {α : Type} (required optional : Nat) (choice : Int) (g : Nat → α) :
    (block optional choice).map (fun v => g (required + v.keep.getD optional)) =
      (List.range (optional + 1)).map fun i => g (required + optional - i) := by
  have hkeep : (block optional choice).map (fun v => g (required + v.keep.getD optional)) =
      ((block optional choice).map (·.keep)).map fun keep => g (required + keep.getD optional) := by
    rw [List.map_map]
    rfl
  rw [hkeep, map_keep_block, List.range_succ_eq_map, List.map_cons, List.map_cons, List.map_map,
    List.map_map, Option.getD_none, Nat.sub_zero]
  refine congrArg _ (List.ext_getElem (by simp) fun i hi hi' => ?_)
  have hi : i < optional := by simpa using hi
  simp only [List.getElem_map, List.getElem_reverse, List.getElem_range, List.length_range,
    Function.comp_apply, Option.getD_some]
  exact congrArg g (by omega)

/-- The parameters that a declaration is printed with. -/
def parametersOf (d : Declaration) : Option (List Declarator) :=
  (d.declarator.bind (·.parameters)).map (·.declarators)

variable {s : Reading} {f : Head} {scope : Scope} {u : Token} {us rest : List Token}
  {required optional : List Parameter}

/-- **Overloads for default values.** -/
theorem read_defaults (htable : s.table = .standard) (hscope : scope.IsNamespace s.usings)
    (hf : f.Unmatched s.usings scope) (hparameters : f.parameters = required ++ optional)
    (hfundamental : ∀ x ∈ f.parameters, x.IsFundamental s.usings scope)
    (hrequired : ∀ x ∈ required, x.value = none)
    (hoptional : ∀ x ∈ optional, x.value.isSome = true)
    (htrails : Trails false s.table s.usings (u :: us) rest)
    (h : s.Sees (f.tokens ++ u :: us)) (hbound : s.outline.isUnbound = false)
    (hempty : s.outline.toList = []) :
    ∃ s' parameters, Function.read scope s = .ok true s' ∧
      List.Forall₂ (Parameter.Gives scope (-1)) f.parameters parameters ∧
      s'.outline.toList.map parametersOf = (List.range (optional.length + 1)).map
        (fun i => some (parameters.take (parameters.length - i))) ∧
      (∀ d ∈ s'.outline.toList,
        d.declarator.map (·.nativeName) = some (scope.qualifyLocal f.name.text)) ∧
      (s'.outline.toList.map (·.signature)).Nodup := by
  have hprintable : f.Printable s.table s.usings scope := htable ▸ hf.printable hscope hfundamental
  obtain ⟨s', hread, hshows⟩ := read_shows hprintable htrails h hbound hempty
  rw [if_neg (by simp)] at hshows
  have hvalued : Parameters.valued f.parameters = optional.length := by
    rw [hparameters, Parameters.valued_append, Parameters.valued_of_required hrequired,
      Parameters.valued_of_optional hoptional, Nat.zero_add]
  have hlength : f.parameters.length = required.length + optional.length := by
    rw [hparameters, List.length_append]
  have hblock {α : Type} (g : Nat → α) : (block optional.length (-1)).map
      (fun v => g (required.length + v.keep.getD optional.length)) =
        (List.range (optional.length + 1)).map fun i => g (f.parameters.length - i) := by
    rw [hlength]
    exact map_block _ _ _ g
  -- the signature of a variant tells how many default values stay, and nothing else
  let sign : Option Nat → String := fun keep =>
    f.signatureOf s.table s.usings scope (required.length + keep.getD optional.length)
  have hsign (v : Variant) : f.signature s.table s.usings scope v = sign v.keep :=
    Head.signature_keep hscope hparameters hfundamental hrequired hoptional v
  have hnodup : ((block optional.length (-1)).map fun v => sign v.keep).Nodup := by
    rw [hblock (f.signatureOf s.table s.usings scope)]
    refine List.Nodup.map_on (fun i hi j hj heq => ?_) List.nodup_range
    have hsame := Head.eq_of_signatureOf_eq (Nat.sub_le ..) (Nat.sub_le ..) heq
    have hi := List.mem_range.mp hi
    have hj := List.mem_range.mp hj
    omega
  have hpicked : f.picked s.table s.usings scope = block optional.length (-1) := by
    rw [Head.picked, hvalued]
    refine picked_variants_of_same hsign ?_
    rw [← map_keep_block optional.length (-1), List.map_map]
    exact hnodup
  rw [hpicked] at hshows
  have hpassed : ∀ x ∈ f.parameters, x.Passed scope (-1) := fun x hx =>
    (hfundamental x hx).passed hscope (-1)
  have hgives : List.Forall₂ (Parameter.Gives scope (-1)) f.parameters
      (f.taken s.table s.usings scope (-1) none).declarators := (Head.taken_of_passed hpassed).2
  generalize hfull : (f.taken s.table s.usings scope (-1) none).declarators = full at hgives
  refine ⟨s', full, hread, hgives, ?_, ?_, ?_⟩
  · rw [← hgives.length_eq, ← hblock fun n => some (full.take n)]
    refine List.map_eq_of_forall₂ hshows fun v hv d hd => ?_
    obtain ⟨native, n, hdeclared⟩ :=
      Head.declared_cases s.table s.usings scope v.choice v.keep f
    rw [parametersOf, hd.declarator, hdeclared, (choice_of_mem_block hv).1, ← hfull]
    exact congrArg some (Head.taken_keep hparameters hrequired hoptional hpassed v.keep).1
  · have hnative : s'.outline.toList.map (fun d => d.declarator.map (·.nativeName)) =
        (block optional.length (-1)).map fun _ => some (scope.qualifyLocal f.name.text) := by
      refine List.map_eq_of_forall₂ hshows fun v hv d hd => ?_
      rw [hd.declarator, Option.map_some, htable, hf.declared_nativeName]
    intro d hd
    have hmem := List.mem_map_of_mem (f := fun d => d.declarator.map (·.nativeName)) hd
    rw [hnative] at hmem
    obtain ⟨-, -, heq⟩ := List.mem_map.mp hmem
    exact heq.symm
  · have hsignatures : s'.outline.toList.map (·.signature) =
        (block optional.length (-1)).map fun v => sign v.keep :=
      List.map_eq_of_forall₂ hshows fun v _ d hd => hd.signature.trans (hsign v)
    rw [hsignatures]
    exact hnodup

/-! ## An example -/

/-- An unnamed parameter of type `int`. -/
def sampleValue (value : Option (Token × List Token)) : Parameter :=
  let p := sampleSpelling .standard "int" none none (by decide) (by decide)
  { spelling := p, found := p.own .standard, value }

/-- The tokens `= 2`. -/
def sampleDefault : Token × List Token :=
  (sampleMark "=", [{ kind := .integer, text := "2" }])

theorem isWord_sample : ∀ t ∈ some "q", Text.isWord t.toList = true := by
  decide

/-- The function `int q(int, int = 2)`. -/
def sampleOverloads : Head where
  spelling := sampleSpelling .standard "int" none (some "q") (by decide) isWord_sample
  found := (sampleSpelling .standard "int" none (some "q") (by decide)
    isWord_sample).own .standard
  name := sampleWord "q"
  named := rfl
  opening := sampleMark "("
  list := (sampleValue none).tokens ++ sampleMark "," :: (sampleValue (some sampleDefault)).tokens
  parameters := [sampleValue none, sampleValue (some sampleDefault)]
  close := sampleMark ")"
  opens := sampleFunction.opens
  closes := sampleFunction.closes
  written := .cons _ ⟨Or.inl rfl, rfl⟩ (.last _)

theorem sampleWord_fundamental : NativeType.IsFundamental [sampleWord "int"] where
  words t ht := by
    obtain rfl := List.mem_singleton.mp ht
    exact .named ⟨rfl, by decide⟩ (by decide)
  named := ⟨_, List.mem_cons_self, ⟨rfl, by decide⟩, by decide⟩

/-- The type of a declarator of one word is looked up with the table. -/
theorem sampleSpelling_type {type : String} {name : Option String}
    (htype : Text.isWord type.toList = true) (hname : ∀ t ∈ name, Text.isWord t.toList = true) :
    (sampleSpelling .standard type none name htype hname).type =
      (NativeType.ofWords (sampleSpelling .standard type none name htype hname).words none).resolve
        .standard {} [] := by
  unfold sampleSpelling Spelling.inWords
  dsimp only
  rw [Option.toList_none, List.append_nil]

theorem sampleValue_fundamental {value : Option (Token × List Token)}
    (hvalue : value = none ∨ value = some sampleDefault) :
    (sampleValue value).IsFundamental [] {} where
  words := sampleWord_fundamental
  marks := by rfl
  type_eq := sampleSpelling_type (by decide) (by decide)
  found_eq := by
    unfold sampleValue
    with_reducible rfl
  unmatched t ht := by
    have hnone : (sampleValue value).spelling.name = none := by rfl
    rw [hnone] at ht
    cases ht
  valued v hv := by
    change v ∈ value at hv
    rcases hvalue with rfl | rfl
    · cases hv
    · obtain rfl := Option.some.inj hv
      exact ⟨⟨Or.inl rfl, rfl⟩, .plain rfl (by decide) (by decide) .nil, rfl⟩

theorem sampleScope : Scope.IsNamespace {} [] :=
  ⟨rfl, rfl, by simp, by simp⟩

/-- Its native type is the word. -/
theorem sampleSpelling_nativeName {name : Option String}
    (htype : Text.isWord "int".toList = true) (hname : ∀ t ∈ name, Text.isWord t.toList = true) :
    (sampleSpelling .standard "int" none name htype hname).type.nativeName = "int" := by
  have hwords : (sampleSpelling .standard "int" none name htype hname).words =
      [sampleWord "int"] := by rfl
  have hnative : (NativeType.ofWords [sampleWord "int"] none).nativeName = "int" := by
    decide
  have hisName : NativeType.IsName (NativeType.ofWords [sampleWord "int"] none).nativeName :=
    NativeType.isName_ofWords
      (NativeType.spells_of_fundamental sampleWord_fundamental.words .standard {})
      (by rw [hnative]; simp)
  have hcandidates : Scope.qualify {} "int" [] = ["int"] := by decide
  rw [sampleSpelling_type, hwords, NativeType.resolve_nativeName _ hisName rfl
    (by rw [hnative, hcandidates]), hnative]

theorem sampleResult_fundamental : sampleOverloads.asParameter.IsFundamental [] {} where
  words := sampleWord_fundamental
  marks := by rfl
  type_eq := sampleSpelling_type (by decide) (by decide)
  found_eq := by
    unfold Head.asParameter sampleOverloads
    with_reducible rfl
  unmatched t ht := by
    have hname : sampleOverloads.asParameter.spelling.name = some (sampleWord "q") := by rfl
    rw [hname] at ht
    obtain rfl := Option.some.inj ht
    exact ⟨by decide, RuleTable.find?_sample "q" (by simp)⟩
  valued v hv := by
    have hnone : sampleOverloads.asParameter.value = none := by rfl
    rw [hnone] at hv
    cases hv

theorem sampleParameters_fundamental :
    ∀ x ∈ sampleOverloads.parameters, x.IsFundamental [] {} := by
  intro x hx
  have hparameters : sampleOverloads.parameters =
      [sampleValue none, sampleValue (some sampleDefault)] := by rfl
  rw [hparameters, List.mem_cons, List.mem_singleton] at hx
  rcases hx with rfl | rfl
  · exact sampleValue_fundamental (Or.inl rfl)
  · exact sampleValue_fundamental (Or.inr rfl)

theorem sampleOverloads_fullName :
    fullName "q" (sampleOverloads.taken .standard [] {} 0 none) = "q(int, int)" := by
  have hnative (value : Option (Token × List Token)) :
      (sampleValue value).spelling.type.nativeName = "int" :=
    sampleSpelling_nativeName (by decide) (by decide)
  have hparameters : sampleOverloads.parameters =
      [sampleValue none, sampleValue (some sampleDefault)] := by rfl
  rw [Head.fullName_taken sampleScope sampleParameters_fundamental, hparameters, List.map_cons,
    List.map_cons, List.map_nil, hnative, hnative]
  decide

theorem sampleOverloads_unmatched : sampleOverloads.Unmatched [] {} := by
  have hname : sampleOverloads.name.text = "q" := by rfl
  have hcandidates : Scope.qualify {} "q" [] = ["q"] := by decide
  refine Head.unmatched_of_fundamental sampleScope sampleResult_fundamental ?_ ?_
  · rw [hname, hcandidates]
    simpa using RuleTable.find?_sample "q" (by simp)
  · have hlocal : Scope.qualifyLocal {} "q" = "q" := by rfl
    rw [hname, hlocal, rule?, sampleOverloads_fullName, RuleTable.find?_sample _ (by simp),
      RuleTable.find?_sample _ (by simp)]
    rfl

/-- `int q(int, int = 2);` is printed with two parameters and with one. -/
theorem read_defaults_sample :
    ∃ s' x y, Function.read {} (.ofTokens .standard (sampleOverloads.tokens ++ [sampleMark ";"])) =
        .ok true s' ∧
      s'.outline.toList.map parametersOf = [some [x, y], some [x]] ∧
      x.type.nativeName = "int" ∧ y.type.nativeName = "int" ∧
      (∀ d ∈ s'.outline.toList, d.declarator.map (·.nativeName) = some "q") ∧
      (s'.outline.toList.map (·.signature)).Nodup := by
  have hsees : (Reading.ofTokens .standard (sampleOverloads.tokens ++ [sampleMark ";"])).Sees _ :=
    Reading.sees_standard (by decide)
  rw [List.append_assoc] at hsees
  have hparameters : sampleOverloads.parameters =
      [sampleValue none] ++ [sampleValue (some sampleDefault)] := by rfl
  obtain ⟨htable, husings, hbound, hempty⟩ :=
    Reading.ofTokens_fresh .standard (sampleOverloads.tokens ++ [sampleMark ";"])
  generalize Reading.ofTokens .standard (sampleOverloads.tokens ++ [sampleMark ";"]) = s at *
  obtain ⟨s', parameters, hread, hgives, hprinted, hnative, hsignatures⟩ :=
    read_defaults htable (husings ▸ sampleScope) (husings ▸ sampleOverloads_unmatched) hparameters
      (husings ▸ sampleParameters_fundamental) (by simp [sampleValue]) (by simp [sampleValue])
      (trails_semicolon ⟨Or.inl rfl, rfl⟩) hsees hbound hempty
  rw [hparameters] at hgives
  obtain ⟨x, rest, hx, hrest, rfl⟩ := List.forall₂_cons_left_iff.mp hgives
  obtain ⟨y, none, hy, hnone, rfl⟩ := List.forall₂_cons_left_iff.mp hrest
  obtain rfl := List.forall₂_nil_left_iff.mp hnone
  have hint (value : Option (Token × List Token)) (hvalue : value = none ∨
      value = some sampleDefault) : (sampleValue value).found.1.type.nativeName = "int" := by
    rw [(sampleValue_fundamental hvalue).type_eq_found]
    exact sampleSpelling_nativeName (by decide) (by decide)
  exact ⟨s', x, y, hread, hprinted, hx.typeName.trans (hint none (Or.inl rfl)),
    hy.typeName.trans (hint _ (Or.inr rfl)), hnative, hsignatures⟩

/-- **Deleted functions have no overloads.** `int q(int, int = 2) = delete;` is not printed at all,
with one default value and names that no rule matches. -/
theorem deleted_overloads_are_not_printed :
    sampleOverloads.Unmatched [] {} ∧
      (∀ x ∈ sampleOverloads.parameters, x.IsFundamental [] {}) ∧
      sampleOverloads.parameters.map (·.value.isSome) = [false, true] ∧
      ∃ s', Function.read {} (.ofTokens .standard (sampleOverloads.tokens ++ [sampleMark "=",
          { kind := .keyword .delete_, text := "delete", spacing := " " }, sampleMark ";"])) =
        .ok true s' ∧ s'.outline.toList = [] := by
  refine ⟨sampleOverloads_unmatched, sampleParameters_fundamental, by rfl, ?_⟩
  have hsees : (Reading.ofTokens .standard (sampleOverloads.tokens ++ [sampleMark "=",
      { kind := .keyword .delete_, text := "delete", spacing := " " }, sampleMark ";"])).Sees _ :=
    Reading.sees_standard (by decide)
  rw [List.append_assoc] at hsees
  obtain ⟨htable, husings, hbound, hempty⟩ :=
    Reading.ofTokens_fresh .standard (sampleOverloads.tokens ++ [sampleMark "=",
      { kind := .keyword .delete_, text := "delete", spacing := " " }, sampleMark ";"])
  generalize Reading.ofTokens .standard (sampleOverloads.tokens ++ [sampleMark "=",
    { kind := .keyword .delete_, text := "delete", spacing := " " }, sampleMark ";"]) = s at *
  have hprintable : sampleOverloads.Printable s.table s.usings {} := by
    rw [htable, husings]
    exact sampleOverloads_unmatched.printable sampleScope sampleParameters_fundamental
  obtain ⟨s', hread, hnone⟩ := read_of_deleted hprintable
    (trails_delete ⟨Or.inl rfl, rfl⟩ rfl (by decide) ⟨Or.inl rfl, rfl⟩) hsees hbound hempty
  exact ⟨s', hread, hnone⟩

end Function

end HeaderPeers

import HeaderPeers.Proofs.Function.Picked
import HeaderPeers.Proofs.Function.Written

/-!
# Overloads for alternative target names

Where the rules for the parameters of a function offer several target names, the
function is printed once for each combination that the alternatives run through: the
alternative with some number takes, for each parameter, the name with that number
modulo how many there are.

- `Parameter.offered` — the target names for the shape of a parameter.
- `Parameter.Offers` — a parameter whose names can be told apart in a signature.
- `Function.read_alternatives` — what is printed.
-/

namespace HeaderPeers

/-! ## The target name of a shape -/

namespace Draft

/-- The target names that a rule has for the shape. -/
def offered (d : Draft) (rule : Rule) : List String :=
  let isValue := rule.valueTypes.isSome
    && ((d.type.constValue && d.declarator.reference)
      || (d.declarator.indirections == 0 && !d.declarator.reference)
      || rule.pointerTypes.isNone)
  (if isValue then rule.valueTypes else rule.pointerTypes).getD []

/-- Up to one `*`, the annotations leave the target type as it is. -/
theorem annotateShape_keeps_targetName {d : Draft} (hstars : d.declarator.indirections ≤ 1)
    (m : Mapping) (choice : Int) :
    (d.annotateShape m choice).type.targetName = d.type.targetName := by
  have hannotate (d : Draft) (g : String → String) :
      (d.annotate g).type.targetName = d.type.targetName := rfl
  have hcast (d : Draft) (m : Mapping) : (d.annotateCast m).type.targetName = d.type.targetName := by
    unfold annotateCast
    split
    · rfl
    · dsimp only
      split <;> rfl
  have hconst (d : Draft) (m : Mapping) :
      (d.annotateConst m).type.targetName = d.type.targetName := by
    unfold annotateConst
    split <;> rfl
  have hpassing : (d.annotatePassing m choice).1.type.targetName = d.type.targetName := by
    have htwo : (d.declarator.indirections == 2) = false := by simp; omega
    unfold annotatePassing
    dsimp only
    split
    · rfl
    split
    · rfl
    split
    · rfl
    rw [htwo, Bool.false_and, Bool.false_and, if_neg (by simp), if_neg (by omega)]
  unfold annotateShape
  split
  · exact hcast d m
  · rw [hcast, hconst, hpassing]

/-- The target type of a shape behind at most one `*`: one of the names that its rule
offers, or the plain one. -/
theorem mapped_targetName {d : Draft} {scope : Scope} (hfree : scope.group = none)
    (hstars : d.declarator.indirections ≤ 1) (rule : Option Rule) (choice : Int) :
    (mapped (d, rule) scope choice).type.targetName =
      match (rule.map d.offered).getD [] with
      | [] => d.type.targetName
      | name :: names => (name :: names).getD (choice.toNat % (name :: names).length) "" := by
  cases rule with
  | none => exact annotateShape_keeps_targetName hstars {} choice
  | some rule =>
      have hshorten (name : String) : scope.shorten name = name := by
        unfold Scope.shorten
        rw [hfree]
      have hlike := like_mapBy d scope rule choice false
      have hmapped : mapped (d, some rule) scope choice =
          (d.mapBy scope rule choice false).1.annotateShape (d.mapBy scope rule choice false).2
            choice :=
        rfl
      rw [hmapped, annotateShape_keeps_targetName (hlike.stars ▸ hstars)]
      unfold mapBy offered
      dsimp only
      rw [Option.map_some, Option.getD_some]
      generalize (if rule.valueTypes.isSome && ((d.type.constValue && d.declarator.reference)
          || (d.declarator.indirections == 0 && !d.declarator.reference)
          || rule.pointerTypes.isNone) then rule.valueTypes else rule.pointerTypes).getD [] = names
      cases names with
      | nil => exact hshorten _
      | cons name names => exact hshorten _

end Draft

/-! ## Signatures -/

namespace Parameters

/-- A word is a whole part of a signature. -/
theorem signaturePart_eq {target : String}
    (h : ∀ c ∈ (Text.lastWord target).toList, Text.isWordChar c = true) :
    signaturePart target = "_" ++ Text.lastWord target := by
  unfold signaturePart
  rw [List.filter_eq_self.mpr h, String.ofList_toList]

/-- Parts that start with a mark which they do not hold otherwise can be told apart, by
induction on them. -/
theorem map_lastWord_eq_of_join_eq {ts us : List String} (hlength : ts.length = us.length)
    (hts : ∀ t ∈ ts ++ us, ∀ c ∈ (Text.lastWord t).toList, Text.isWordChar c = true ∧ c ≠ '_')
    (h : String.join (ts.map signaturePart) = String.join (us.map signaturePart)) :
    ts.map Text.lastWord = us.map Text.lastWord := by
  -- behind each word, the next part starts with the mark
  have hmark (vs : List String) : ∀ c ∈ (String.join (vs.map signaturePart)).toList.head?,
      c = '_' := by
    cases vs with
    | nil => simp [String.join]
    | cons v vs =>
        intro c hc
        rw [List.map_cons, String.join_cons, signaturePart] at hc
        simp only [String.toList_append, List.append_assoc] at hc
        exact (Option.some.inj hc).symm
  induction ts generalizing us with
  | nil =>
      obtain rfl := List.length_eq_zero_iff.mp hlength.symm
      rfl
  | cons t ts ih =>
      obtain ⟨u, us, rfl⟩ := List.exists_cons_of_length_eq_add_one hlength.symm
      have ht := hts t (by simp)
      have hu := hts u (by simp)
      rw [List.map_cons, List.map_cons, String.join_cons, String.join_cons,
        signaturePart_eq fun c hc => (ht c hc).1, signaturePart_eq fun c hc => (hu c hc).1,
        String.append_assoc, String.append_assoc, String.append_right_inj, ← String.toList_inj,
        String.toList_append, String.toList_append] at h
      have htake {w rest : List Char} (hw : ∀ c ∈ w, c ≠ '_') (hrest : ∀ c ∈ rest.head?, c = '_') :
          (w ++ rest).takeWhile (· != '_') = w := by
        rw [List.takeWhile_append_of_pos (by simpa using hw)]
        cases rest with
        | nil => simp
        | cons c rest => simp [hrest c rfl]
      have hword : (Text.lastWord t).toList = (Text.lastWord u).toList := by
        rw [← htake (fun c hc => (ht c hc).2) (hmark ts), h,
          htake (fun c hc => (hu c hc).2) (hmark us)]
      rw [hword, List.append_cancel_left_eq, String.toList_inj] at h
      rw [List.map_cons, List.map_cons, String.toList_inj.mp hword,
        ih (Nat.succ.inj hlength) (fun v hv => hts v (by
          simp only [List.mem_append, List.mem_cons] at hv ⊢
          tauto)) h]

end Parameters

/-! ## One parameter -/

namespace Parameter

/-- The target names for the shape of a parameter. -/
def offered (x : Parameter) : List String :=
  (x.found.2.map x.found.1.offered).getD []

/-- A parameter without a default value, behind at most one `*`, whose own rule offers
target names for its shape. Their last words differ, are made of letters and digits, and
none is `void`. -/
structure Offers (x : Parameter) : Prop where
  plain : x.value = none
  own : x.found.1 = x.spelling.draft
  stars : x.spelling.draft.declarator.indirections ≤ 1
  offered_ne : x.offered ≠ []
  distinct : (x.offered.map Text.lastWord).Nodup
  words : ∀ n ∈ x.offered, Text.lastWord n ≠ "void" ∧
    (Text.lastWord n).toList.all (fun c => Text.isLetter c || Text.isNumeral c) = true

/-- The name that an alternative takes. -/
def nameOf (x : Parameter) (i : Nat) : String :=
  x.offered.getD (i % x.offered.length) ""

variable {x : Parameter} {scope : Scope}

/-- The target type behind at most one `*`. -/
theorem target_eq (hfree : scope.group = none) (hstars : x.found.1.declarator.indirections ≤ 1)
    (choice : Int) : x.target scope choice =
      if x.offered = [] then x.found.1.type.targetName else x.nameOf choice.toNat := by
  have htarget := Draft.mapped_targetName hfree hstars x.found.2 choice
  change x.target scope choice = _ at htarget
  rw [htarget]
  unfold nameOf offered
  cases (x.found.2.map x.found.1.offered).getD [] <;> rfl

/-- The name with the number of the alternative is taken. -/
theorem Offers.target_eq (h : x.Offers) (hfree : scope.group = none) (choice : Int) :
    x.target scope choice = x.nameOf choice.toNat := by
  rw [Parameter.target_eq hfree (h.own ▸ h.stars), if_neg h.offered_ne]

theorem Offers.nameOf_mem (h : x.Offers) (i : Nat) : x.nameOf i ∈ x.offered := by
  have hlt := Nat.mod_lt i (List.length_pos_iff.mpr h.offered_ne)
  rw [nameOf, List.getD_eq_getElem _ _ hlt]
  exact List.getElem_mem hlt

theorem Offers.passed (h : x.Offers) (hfree : scope.group = none) (choice : Int) :
    x.Passed scope choice := by
  intro hvoid
  have hmem := h.nameOf_mem choice.toNat
  rw [← h.target_eq hfree, hvoid] at hmem
  exact (h.words _ hmem).1 rfl

theorem Offers.word (h : x.Offers) (i : Nat) :
    ∀ c ∈ (Text.lastWord (x.nameOf i)).toList, Text.isWordChar c = true ∧ c ≠ '_' := by
  intro c hc
  have hchar := List.all_eq_true.mp (h.words _ (h.nameOf_mem i)).2 c hc
  rw [Bool.or_eq_true] at hchar
  refine ⟨by rcases hchar with hletter | hdigit <;> simp [Text.isWordChar, *], ?_⟩
  rintro rfl
  rcases hchar with hletter | hdigit
  · exact absurd hletter (by decide +kernel)
  · exact absurd hdigit (by decide +kernel)

/-- Two alternatives take names with one last word only if they take the same name. -/
theorem Offers.lastWord_eq_iff (h : x.Offers) (i j : Nat) :
    Text.lastWord (x.nameOf i) = Text.lastWord (x.nameOf j) ↔ i ≡ j [MOD x.offered.length] := by
  have hlt (i : Nat) := Nat.mod_lt i (List.length_pos_iff.mpr h.offered_ne)
  have hlength (i : Nat) : i % x.offered.length < (x.offered.map Text.lastWord).length := by
    rw [List.length_map]
    exact hlt i
  have hword (i : Nat) : Text.lastWord (x.nameOf i) =
      (x.offered.map Text.lastWord).get ⟨i % x.offered.length, hlength i⟩ := by
    rw [nameOf, List.getD_eq_getElem _ _ (hlt i), List.get_eq_getElem, List.getElem_map]
  rw [hword, hword, List.get_eq_getElem, List.get_eq_getElem, h.distinct.getElem_inj_iff]
  rfl

end Parameter

/-! ## The whole function -/

/-- Numbers agree modulo all of some numbers exactly if they agree modulo their least
common multiple. -/
theorem modEq_foldr_lcm_iff {a b : Nat} (ms : List Nat) :
    a ≡ b [MOD ms.foldr Nat.lcm 1] ↔ ∀ m ∈ ms, a ≡ b [MOD m] := by
  induction ms with
  | nil => simp [Nat.modEq_one]
  | cons m ms ih =>
      rw [List.foldr_cons, List.forall_mem_cons, ← ih]
      constructor
      · exact fun h => ⟨h.of_dvd (Nat.dvd_lcm_left _ _), h.of_dvd (Nat.dvd_lcm_right _ _)⟩
      · rintro ⟨hm, hms⟩
        exact Nat.mod_lcm hm hms

namespace Function

namespace Head

variable {f : Head} {scope : Scope} {table : RuleTable} {usings : List String} {choice : Int}

/-- How many alternatives there are before the names repeat. -/
def period (f : Head) : Nat :=
  (f.parameters.map (·.offered.length)).foldr Nat.lcm 1

theorem period_pos (h : ∀ x ∈ f.parameters, x.Offers) : 0 < f.period := by
  unfold period
  generalize f.parameters = xs at h
  induction xs with
  | nil => exact Nat.one_pos
  | cons x xs ih =>
      rw [List.forall_mem_cons] at h
      exact Nat.lcm_pos (List.length_pos_iff.mpr h.1.offered_ne) (ih h.2)

/-- Without a limit, all parameters that are passed are read. -/
theorem taken_of_passed (h : ∀ x ∈ f.parameters, x.Passed scope choice) :
    (f.taken table usings scope choice none).signature =
        String.join (f.parameters.map fun x => Parameters.signaturePart (x.target scope choice)) ∧
      List.Forall₂ (Parameter.Gives scope choice) f.parameters
        (f.taken table usings scope choice none).declarators := by
  have hadds : Parameters.Adds scope choice f.parameters {}
      (Parameters.takeAll table usings scope choice none {} f.parameters) :=
    Parameters.adds_takeAll h
  obtain ⟨ds, hds, hgives⟩ := hadds.declarators
  refine ⟨hadds.signature.trans (String.empty_append ..), ?_⟩
  have hdeclarators : (f.taken table usings scope choice none).declarators = ds :=
    hds.trans (List.nil_append ds)
  exact hdeclarators ▸ hgives

/-- The signature with all parameters. -/
theorem signature_of_offers (hfree : scope.group = none) (h : ∀ x ∈ f.parameters, x.Offers)
    {v : Variant} (hv : v.keep = none) : f.signature table usings scope v =
      f.target table usings scope ++ String.join
        ((f.parameters.map (·.nameOf v.choice.toNat)).map Parameters.signaturePart) := by
  have hpassed : ∀ x ∈ f.parameters, x.Passed scope v.choice := fun x hx => (h x hx).passed hfree _
  have htargets : f.parameters.map (·.target scope v.choice) =
      f.parameters.map (·.nameOf v.choice.toNat) :=
    List.map_congr_left fun x hx => (h x hx).target_eq hfree _
  rw [signature, hv, (taken_of_passed hpassed).1, ← htargets, List.map_map]
  rfl

/-- Two variants with all parameters have one signature exactly if they take the same
target names. -/
theorem signature_eq_iff (hfree : scope.group = none) (h : ∀ x ∈ f.parameters, x.Offers)
    {v w : Variant} (hv : v.keep = none) (hw : w.keep = none) :
    f.signature table usings scope v = f.signature table usings scope w ↔
      v.choice.toNat ≡ w.choice.toNat [MOD f.period] := by
  generalize hi : v.choice.toNat = i
  generalize hj : w.choice.toNat = j
  have hword : ∀ t ∈ f.parameters.map (·.nameOf i) ++ f.parameters.map (·.nameOf j),
      ∀ c ∈ (Text.lastWord t).toList, Text.isWordChar c = true ∧ c ≠ '_' := by
    intro t ht
    simp only [List.mem_append, List.mem_map] at ht
    rcases ht with ⟨x, hx, rfl⟩ | ⟨x, hx, rfl⟩
    · exact (h x hx).word i
    · exact (h x hx).word j
  rw [signature_of_offers hfree h hv, signature_of_offers hfree h hw, hi, hj,
    String.append_right_inj, period, modEq_foldr_lcm_iff, List.forall_mem_map]
  constructor
  · intro hjoin x hx
    have hwords := Parameters.map_lastWord_eq_of_join_eq (by simp) hword hjoin
    rw [List.map_map, List.map_map, List.map_inj_left] at hwords
    exact ((h x hx).lastWord_eq_iff i j).mp (hwords x hx)
  · intro hmod
    refine congrArg String.join (congrArg _ (List.map_congr_left fun x hx => ?_))
    exact congrArg (x.offered.getD · "") (hmod x hx)

end Head

/-- The target types of the parameters of a declaration. -/
def parameterTypes (d : Declaration) : List String :=
  ((d.declarator.bind (·.parameters)).map (·.declarators.map (·.type.targetName))).getD []

variable {s : Reading} {f : Head} {scope : Scope} {u : Token} {us rest : List Token}

theorem parameterTypes_eq (hfree : scope.group = none) (h : ∀ x ∈ f.parameters, x.Offers)
    {v : Variant} (hv : v.keep = none) {d : Declaration}
    (hd : f.Shows s.table s.usings scope v d) :
    parameterTypes d = f.parameters.map (·.nameOf v.choice.toNat) := by
  obtain ⟨native, n, hdeclared⟩ :=
    Head.declared_cases s.table s.usings scope v.choice v.keep f
  have hgives : List.Forall₂ (Parameter.Gives scope v.choice) f.parameters
      (f.taken s.table s.usings scope v.choice none).declarators :=
    (Head.taken_of_passed fun x hx => (h x hx).passed hfree v.choice).2
  have htypes : parameterTypes d =
      (f.taken s.table s.usings scope v.choice none).declarators.map (·.type.targetName) := by
    rw [parameterTypes, hd.declarator, hdeclared, hv]
    rfl
  rw [htypes]
  generalize (f.taken s.table s.usings scope v.choice none).declarators = ds at hgives
  clear hdeclared htypes
  generalize f.parameters = xs at h hgives
  induction hgives with
  | nil => rfl
  | cons hx _ ih =>
      rw [List.forall_mem_cons] at h
      rw [List.map_cons, List.map_cons, hx.target, h.1.target_eq hfree, ih h.2]

/-- **Overloads for alternative target names.** Where the parameters of a function that is
not deleted have no default values and rules that offer target names, the function is
printed once for each number below the least common multiple of how many names there are,
up to 32 times, and each time with the names of that number. -/
theorem read_alternatives (hf : f.Printable s.table s.usings scope)
    (hoffers : ∀ x ∈ f.parameters, x.Offers)
    (htrails : Trails false s.table s.usings (u :: us) rest)
    (h : s.Sees (f.tokens ++ u :: us)) (hbound : s.outline.isUnbound = false)
    (hempty : s.outline.toList = []) :
    ∃ s', Function.read scope s = .ok true s' ∧
      s'.outline.toList.map parameterTypes =
        (List.range (min f.period 32)).map fun i => f.parameters.map (·.nameOf i) := by
  obtain ⟨s', hread, hshows⟩ := read_shows hf htrails h hbound hempty
  refine ⟨s', hread, ?_⟩
  have hvalued : Parameters.valued f.parameters = 0 := by
    rw [Parameters.valued, List.length_eq_zero_iff, List.filter_eq_nil_iff]
    intro x hx
    rw [(hoffers x hx).plain]
    simp
  have hpicked : (f.picked s.table s.usings scope).map (·.choice.toNat) =
      List.range (min f.period 32) := by
    unfold Head.picked
    rw [hvalued]
    exact picked_variants_of_periodic (Head.period_pos hoffers)
      fun v w hv hw => Head.signature_eq_iff hf.free hoffers hv hw
  have hkeep : ∀ v ∈ f.picked s.table s.usings scope, v.keep = none := by
    intro v hv
    unfold Head.picked at hv
    rw [hvalued] at hv
    exact keep_of_mem_variants_zero (mem_of_mem_picked hv)
  rw [if_neg (by simp)] at hshows
  rw [← hpicked, List.map_map]
  clear hread hpicked
  generalize f.picked s.table s.usings scope = vs at hshows hkeep
  generalize s'.outline.toList = ds at hshows
  induction hshows with
  | nil => rfl
  | cons hd _ ih =>
      rw [List.forall_mem_cons] at hkeep
      rw [List.map_cons, List.map_cons, parameterTypes_eq hf.free hoffers hkeep.1 hd, ih hkeep.2]
      rfl

/-! ## An example -/

/-- Two target names for values of `A`, and three for pointers to `B`. -/
def namesTable : RuleTable :=
  (({} : RuleTable).put
    { nativeNames := ["A"], valueTypes := some ["int", "@Cast(\"A\") long"] }).put
    { nativeNames := ["B"], pointerTypes := some ["BPointer", "BBuffer", "byteArray"] }

/-- The parameters `A a` and `B* b`. -/
def sampleParameters : Parameter × Parameter :=
  let a := sampleSpelling namesTable "A" none (some "a") (by decide +kernel) (by decide +kernel)
  let b := sampleSpelling namesTable "B" (some (sampleMark "*")) (some "b") (by decide +kernel)
    (by decide +kernel)
  ({ spelling := a, found := a.own namesTable, value := none },
    { spelling := b, found := b.own namesTable, value := none })

/-- The function `void q(A a, B* b)`. -/
def sampleFunction : Head where
  spelling := sampleSpelling namesTable "void" none (some "q") (by decide +kernel) (by decide +kernel)
  found := (sampleSpelling namesTable "void" none (some "q") (by decide +kernel)
    (by decide +kernel)).own namesTable
  name := sampleWord "q"
  named := rfl
  opening := sampleMark "("
  list := sampleParameters.1.tokens ++ sampleMark "," :: sampleParameters.2.tokens
  parameters := [sampleParameters.1, sampleParameters.2]
  close := sampleMark ")"
  opens := ⟨Or.inl rfl, rfl⟩
  closes := ⟨Or.inl rfl, rfl⟩
  written := .cons _ ⟨Or.inl rfl, rfl⟩ (.last _)

theorem sampleParameters_fit :
    sampleParameters.1.Fits namesTable [] {} ∧ sampleParameters.2.Fits namesTable [] {} := by
  constructor
  · exact Parameter.fits_of_words rfl
      (sampleSpelling_inWords (by decide +kernel) (by decide +kernel) (by simp)
        (by decide +kernel) (by decide +kernel)) rfl
      (by decide +kernel) (by decide +kernel) fun v hv => absurd hv (Option.not_mem_none v)
  · exact Parameter.fits_of_words rfl
      (sampleSpelling_inWords (by decide +kernel) (by decide +kernel) (by simp)
        (by decide +kernel) (by decide +kernel)) rfl
      (by decide +kernel) (by decide +kernel) fun v hv => absurd hv (Option.not_mem_none v)

theorem sampleFunction_printable : sampleFunction.Printable namesTable [] {} where
  toFits := Head.fits_of_words rfl
    (sampleSpelling_inWords (by decide +kernel) (by decide +kernel) (by simp)
      (by decide +kernel) (by decide +kernel)) rfl
    (by decide +kernel) (by
      intro x hx
      simp only [sampleFunction, List.mem_cons, List.not_mem_nil, or_false] at hx
      rcases hx with rfl | rfl
      · exact sampleParameters_fit.1
      · exact sampleParameters_fit.2)
  free := rfl
  nativeName_eq := by decide +kernel
  target_ne := by decide +kernel
  own := by decide +kernel
  type_ne := by decide +kernel
  unskipped := by decide +kernel

theorem sampleParameters_offer : ∀ x ∈ sampleFunction.parameters, x.Offers := by
  intro x hx
  simp only [sampleFunction, List.mem_cons, List.not_mem_nil, or_false] at hx
  rcases hx with rfl | rfl
  · exact ⟨rfl, rfl, by decide +kernel, by decide +kernel, by decide +kernel, by decide +kernel⟩
  · exact ⟨rfl, rfl, by decide +kernel, by decide +kernel, by decide +kernel, by decide +kernel⟩

/-- `void q(A a, B* b);` is printed six times. -/
theorem read_alternatives_sample :
    ∃ s', Function.read {} (.ofTokens namesTable (sampleFunction.tokens ++ [sampleMark ";"])) =
        .ok true s' ∧
      s'.outline.toList.map parameterTypes =
        [["int", "BPointer"], ["@Cast(\"A\") long", "BBuffer"], ["int", "byteArray"],
          ["@Cast(\"A\") long", "BPointer"], ["int", "BBuffer"],
          ["@Cast(\"A\") long", "byteArray"]] := by
  have hsees : (Reading.ofTokens namesTable (sampleFunction.tokens ++ [sampleMark ";"])).Sees _ :=
    Reading.ofTokens_sees (by decide +kernel)
  rw [List.append_assoc] at hsees
  obtain ⟨s', hread, htypes⟩ := read_alternatives sampleFunction_printable sampleParameters_offer
    (trails_semicolon ⟨Or.inl rfl, rfl⟩) hsees rfl rfl
  refine ⟨s', hread, htypes.trans ?_⟩
  decide +kernel

/-- **Deleted functions are not printed**, whatever their parameters are. -/
theorem read_of_deleted (hf : f.Printable s.table s.usings scope)
    (htrails : Trails true s.table s.usings (u :: us) rest)
    (h : s.Sees (f.tokens ++ u :: us)) (hbound : s.outline.isUnbound = false)
    (hempty : s.outline.toList = []) :
    ∃ s', Function.read scope s = .ok true s' ∧ s'.outline.toList = [] := by
  obtain ⟨s', hread, hshows⟩ := read_shows hf htrails h hbound hempty
  rw [if_pos rfl] at hshows
  exact ⟨s', hread, List.forall₂_nil_left_iff.mp hshows⟩

/-- `void q(A a, B* b) = delete;` is not printed. -/
theorem read_deleted_sample :
    (∀ x ∈ sampleFunction.parameters, x.Offers) ∧ min sampleFunction.period 32 = 6 ∧
      ∃ s', Function.read {} (.ofTokens namesTable (sampleFunction.tokens ++ [sampleMark "=",
          { kind := .keyword .delete_, text := "delete", spacing := " " }, sampleMark ";"])) =
        .ok true s' ∧ s'.outline.toList = [] := by
  refine ⟨sampleParameters_offer, by decide +kernel, ?_⟩
  have hsees : (Reading.ofTokens namesTable (sampleFunction.tokens ++ [sampleMark "=",
      { kind := .keyword .delete_, text := "delete", spacing := " " }, sampleMark ";"])).Sees _ :=
    Reading.ofTokens_sees (by decide +kernel)
  rw [List.append_assoc] at hsees
  exact read_of_deleted sampleFunction_printable
    (trails_delete ⟨Or.inl rfl, rfl⟩ rfl (by decide) ⟨Or.inl rfl, rfl⟩) hsees rfl rfl

end Function

end HeaderPeers

import HeaderPeers.Proofs.Reading.Looking
import HeaderPeers.Proofs.Reading

/-!
# The candidate that a type names

A name may stand for a name in each of the scopes around, the innermost first, and the
first candidate with a rule of its own settles it. Without one, a candidate counts for
which the rule of its template is found. Of these the last one is taken, so that an
outer template goes before an inner one.

- `NativeType.exactMatch?`, `NativeType.innerMatch?`, `NativeType.outerMatch?` — the
  candidates with rules.
- `NativeType.settleName_eq` — which of them is taken.
- `NativeType.read_settles` — the name of every type that is read.
- `NativeType.outer_template_is_taken` — two templates of one name.
-/

set_option mvcgen.warning false

namespace HeaderPeers

open ReadM

namespace NativeType

/-! ## Candidates with rules -/

/-- The first candidate with a rule of its own. -/
def exactMatch? (table : RuleTable) (candidates : List String) : Option String :=
  candidates.find? fun c => (table.findWith? c false).isSome

/-- The first candidate with a rule of its own or of its template. -/
def innerMatch? (table : RuleTable) (candidates : List String) : Option String :=
  candidates.find? fun c => (table.find? c).isSome

/-- The last candidate with a rule of its own or of its template. -/
def outerMatch? (table : RuleTable) (candidates : List String) : Option String :=
  candidates.reverse.find? fun c => (table.find? c).isSome

variable {table : RuleTable} {name candidate : String} {candidates : List String}

theorem exactMatch?_cons : exactMatch? table (candidate :: candidates) =
    if (table.findWith? candidate false).isSome then some candidate
    else exactMatch? table candidates := by
  unfold exactMatch?
  rw [List.find?_cons]
  split <;> simp_all

theorem outerMatch?_cons : outerMatch? table (candidate :: candidates) =
    (outerMatch? table candidates).or
      (if (table.find? candidate).isSome then some candidate else none) := by
  unfold outerMatch?
  rw [List.reverse_cons, List.find?_append, List.find?_singleton]

/-- There is a first match exactly if there is a last one. -/
theorem innerMatch?_eq_none_iff :
    innerMatch? table candidates = none ↔ outerMatch? table candidates = none := by
  simp [innerMatch?, outerMatch?]

/-- **Settling a name.** A rule of its own decides for its candidate; up to there, the last
candidate with a rule of its template replaces the name. -/
theorem settleName_eq : settleName table name candidates =
    (((exactMatch? table candidates).or (outerMatch? table candidates)).getD name,
      (exactMatch? table candidates).bind (table.findWith? · false)) := by
  induction candidates generalizing name with
  | nil => rfl
  | cons candidate candidates ih =>
      rw [settleName, exactMatch?_cons, outerMatch?_cons]
      cases hrule : table.findWith? candidate false with
      | some rule => simp [hrule]
      | none =>
          simp only [ih, Option.isSome_none, Bool.false_eq_true, if_false]
          congr 1
          cases exactMatch? table candidates <;> cases outerMatch? table candidates <;>
            cases table.find? candidate <;> rfl

/-- Without a rule of its own for any candidate, the first match is taken only where it is the
last one as well. -/
theorem or_innerMatch?_eq_iff :
    ((exactMatch? table candidates).or (outerMatch? table candidates)).getD name =
        ((exactMatch? table candidates).or (innerMatch? table candidates)).getD name ↔
      (exactMatch? table candidates).isSome = true ∨
        innerMatch? table candidates = outerMatch? table candidates := by
  have hnone : innerMatch? table candidates = none ↔ outerMatch? table candidates = none :=
    innerMatch?_eq_none_iff
  cases exactMatch? table candidates with
  | some exact => simp
  | none =>
      cases hinner : innerMatch? table candidates with
      | none =>
          rw [hnone.mp hinner]
          simp
      | some inner =>
          cases houter : outerMatch? table candidates with
          | none => exact absurd (hnone.mpr houter) (by simp [hinner])
          | some outer => simp [eq_comm]

/-! ## Reading a type -/

/-- Reads a type without looking it up. -/
def readUnresolved (readType : Scope → ReadM (Option NativeType)) (scope : Scope) :
    ReadM (Option NativeType) := do
  let type ← iterate {} (readPart readType scope)
  let type := { type with nativeName := Text.trim type.nativeName }
  if (← peek).is "..." then
    let _ ← advance
    if type.nativeName.isEmpty then return none
    return some type
  else if type.operator then return some (← readSymbol type)
  else return some type

variable {readType : Scope → ReadM (Option NativeType)} {scope : Scope} {s s' : Reading}
  {type found : NativeType}

/-- A type is looked up once its tokens are read. -/
theorem readWith_eq : readWith readType scope = do
    match ← readUnresolved readType scope with
    | none => return none
    | some type => return some (← finish scope type) := by
  unfold readWith readUnresolved
  simp only [bind_assoc]
  refine congrArg _ (funext fun type => congrArg _ (funext fun t => ?_))
  split
  · simp only [bind_assoc]
    refine congrArg _ (funext fun _ => ?_)
    split <;> rfl
  · split
    · simp only [bind_assoc, pure_bind]
    · rfl

/-- The rules and the names brought in by `using`, which stay as they are. -/
@[reducible]
def known (table : RuleTable) (usings : List String) : LookInvariant where
  holds _ s := s.table = table ∧ s.usings = usings
  core t _ _ := t = table
  place _ := True
  place_of_le _ _ := trivial
  moved hs _ := hs
  looked hs _ := hs
  warned hs := hs
  bared hs := hs
  covered _ hs := hs
  entered hs := hs.1
  left hs hs' := ⟨hs', hs.2⟩

/-- Reading the tokens of a type changes nothing that it is looked up in. -/
theorem readUnresolved_keeps [LookInvariant] {raw : Bool}
    (h : ∀ scope, Keeps raw (readType scope)) (scope : Scope) :
    Keeps raw (readUnresolved readType scope) := by
  have hpart := readPart_keeps h scope
  refine Std.Do.Triple.bind _ _ (iterate_keeps hpart) fun found => ?_
  -- which type was found makes no difference to what is kept
  extract_lets type
  clear_value type
  mvcgen
  intro s hs
  split <;> exact hs

/-- The class around makes no difference to the name. -/
theorem placeInGroup_yields (scope : Scope) (type : NativeType) :
    Yields (placeInGroup scope type) fun placed : NativeType =>
      placed.nativeName = type.nativeName := by
  unfold placeInGroup
  cases scope.group with
  | none => exact yields_pure rfl
  | some group =>
      simp only []
      split
      · exact yields_pure rfl
      · simp only [pure_bind]
        split
        · split
          · exact yields_bind fun _ => yields_pure rfl
          · exact yields_pure rfl
        · exact yields_pure rfl

theorem mapBy_nativeName (rule : Option Rule) (type : NativeType) :
    (mapBy rule type).1.nativeName = type.nativeName := by
  unfold mapBy
  dsimp only
  split <;> rfl

/-- The name that is looked up: the words read, without the marks behind them and with template
parameters replaced. -/
def lookedUp (scope : Scope) (type : NativeType) : String :=
  (type.hoist.instantiate scope).nativeName

theorem finish_nativeName (h : finish scope type s = .ok found s') : found.nativeName =
    (settleName s.table (lookedUp scope type)
      (scope.qualify (lookedUp scope type) s.usings)).1 := by
  have hplaced := placeInGroup_yields scope (type.resolve s.table scope s.usings) s found s' h
  rw [hplaced]
  exact mapBy_nativeName _ _

/-- **The name of a type** that is read is the first candidate with a rule of its own, or else the
last one whose template has a rule, or else the name that was looked up. So it is the innermost
candidate with a rule exactly if one has a rule of its own or no other template comes after. -/
theorem read_settles (h : read scope s = .ok (some found) s') :
    ∃ type s₁, readUnresolved (nestUpTo readWith (s.bound - 1)) scope s = .ok (some type) s₁ ∧
      let name := lookedUp scope type
      let candidates := scope.qualify name s.usings
      let exact := exactMatch? s.table candidates
      let inner := innerMatch? s.table candidates
      let outer := outerMatch? s.table candidates
      found.nativeName = (exact.or outer).getD name ∧
        (found.nativeName = (exact.or inner).getD name ↔ exact.isSome = true ∨ inner = outer) := by
  obtain ⟨depth, hdepth⟩ : ∃ depth, s.bound = depth + 1 := by
    cases hbound : s.bound with
    | zero =>
        have hnone : read scope s = nestUpTo readWith s.bound scope s := rfl
        rw [hnone, hbound] at h
        cases h
    | succ depth => exact ⟨depth, rfl⟩
  have hread : readWith (nestUpTo readWith depth) scope s = .ok (some found) s' := by
    have hnest : read scope s = nestUpTo readWith s.bound scope s := rfl
    rwa [hnest, hdepth] at h
  rw [readWith_eq] at hread
  obtain ⟨type?, s₁, htype, hfinish⟩ := bind_eq_ok hread
  cases type? with
  | none => cases hfinish
  | some type =>
      obtain ⟨placed, s₂, hplaced, hfound⟩ := bind_eq_ok hfinish
      cases hfound
      -- nothing is learned while the tokens of the type are read
      have hkept : s₁.table = s.table ∧ s₁.usings = s.usings := by
        let _ := known s.table s.usings
        have hinner : ∀ scope, Keeps false (nestUpTo readWith depth scope) :=
          nestUpTo_keeps (fun _ hinner scope => readWith_keeps hinner scope) depth
        have hkeeps := keeps_iff.mp (readUnresolved_keeps hinner scope) s ⟨rfl, rfl⟩
        rwa [htype] at hkeeps
      have hname := finish_nativeName hplaced
      rw [hkept.1, hkept.2, settleName_eq] at hname
      refine ⟨type, s₁, by rwa [hdepth, Nat.add_sub_cancel], hname, ?_⟩
      rw [hname]
      exact or_innerMatch?_eq_iff

/-! ## Rules for one name in two scopes -/

/-- The namespace `a`. -/
def scopeSample : Scope :=
  { path := some "a" }

/-- The text of a type, with rules for these names. -/
def readingSample (rules : List String) (text : String) : Reading :=
  let layer := rules.foldl (fun layer name => layer.putAt .last (.named [name])) ({} : Layer)
  .ofTokens { top := layer } (Token.ofText none text)

/-- What is read of a text, by the name that is computed. -/
theorem exists_read_of_given {name : String}
    (h : gives (read scope) s = true ∧
      (given (read scope) s).map (·.nativeName) = some name) :
    ∃ found s', read scope s = .ok (some found) s' ∧ found.nativeName = name := by
  obtain ⟨found, hfound, hname⟩ := Option.map_eq_some_iff.mp h.2
  exact ⟨found, _, hfound ▸ eq_ok_of_gives h.1, hname⟩

/-- A rule of its own further out goes before that of a template. -/
theorem read_settles_exact :
    let s := readingSample ["a::T", "T<int>"] "T<int>"
    ∃ found s', read scopeSample s = .ok (some found) s' ∧ found.nativeName = "T<int>" ∧
      ∃ type s₁, readUnresolved (nestUpTo readWith (s.bound - 1)) scopeSample s =
          .ok (some type) s₁ ∧
        let candidates := scopeSample.qualify (lookedUp scopeSample type) s.usings
        found.nativeName =
          ((exactMatch? s.table candidates).or (outerMatch? s.table candidates)).getD
            (lookedUp scopeSample type) := by
  intro s
  obtain ⟨found, s', hread, hname⟩ : ∃ found s', read scopeSample s = .ok (some found) s' ∧
      found.nativeName = "T<int>" :=
    exists_read_of_given (by decide +kernel)
  obtain ⟨type, s₁, htype, hsettled, -⟩ := read_settles hread
  exact ⟨found, s', hread, hname, type, s₁, htype, hsettled⟩

/-- With rules for the templates `a::T` and `T`, the type `T<int>` is named by the outer one
in the namespace `a`, although the inner one comes first. -/
theorem outer_template_is_taken :
    let s := readingSample ["a::T", "T"] "T<int>"
    let candidates := scopeSample.qualify "T<int>" s.usings
    candidates = ["a::T<int>", "T<int>"] ∧ exactMatch? s.table candidates = none ∧
      innerMatch? s.table candidates = some "a::T<int>" ∧
      ∃ found s', read scopeSample s = .ok (some found) s' ∧ found.nativeName = "T<int>" := by
  intro s candidates
  have hcandidates : candidates = ["a::T<int>", "T<int>"] ∧
      exactMatch? s.table candidates = none ∧
      innerMatch? s.table candidates = some "a::T<int>" := by
    decide +kernel
  exact ⟨hcandidates.1, hcandidates.2.1, hcandidates.2.2, exists_read_of_given (by decide +kernel)⟩

end NativeType

end HeaderPeers

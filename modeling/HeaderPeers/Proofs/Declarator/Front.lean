import HeaderPeers.Proofs.Variable.Items

/-!
# The front and the rest of a declarator

A declarator is read in two parts: what stands up to its name, and the dimensions, the width and
the parameters behind. The rule that is found in between changes the type and the annotations; the
dimensions stay those that the brackets gave.

- `Declarator.Front` — what is read up to the name.
- `Declarator.readWith_eq` — the two parts.
- `Declarator.dims_of_readRest` — the dimensions of what is read.
- `Declarator.readRest_passes` — when the rest is read.
-/

namespace HeaderPeers

open ReadM

variable {s s' : Reading} {t u : Token} {ts : List Token}

/-- Where nothing is resolved or expanded, the tokens ahead are seen. -/
theorem Reading.sees_of_still (hraw : s.window.raw = false) (hfuel : 0 < s.fuel)
    (hinside : s.window.index ≤ s.window.tokens.size)
    (hstill : ∀ t ∈ s.window.tokens.toList.drop s.window.index,
      t.is "#" = false ∧ (Expansion.ruleFor? s.table t).isNone = true) :
    s.Sees ((s.window.tokens.toList.drop s.window.index).filter (!·.isComment) ++
      [Window.endToken s.window.tokens]) :=
  ⟨hraw, hfuel, hinside, Window.sees_of_still hinside fun t ht =>
    ⟨(hstill t ht).1, Option.isNone_iff_eq_none.mp (hstill t ht).2⟩⟩

/-! ## The two parts -/

namespace Declarator

/-- What is read of a declarator up to its name. -/
structure Front where
  isTypedef : Bool
  isUsing : Bool
  draft : Draft
  hint : Option String
  parens : Nat
  name : DeclaredName

/-- Reads a declarator up to its name. -/
def readFront (request : DeclaratorRequest) : ReadM (Option Front) := do
  let isTypedef := (← peek).isKeyword .typedef_
  let isUsing := (← peek).isKeyword .using_
  match ← NativeType.read request.scope with
  | none => return none
  | some type =>
    if !(← skipTo request.number) then return none
    let d ← (Draft.ofType type (request.number == 0)).readMarks
    let (draft, hint) ← d.readAttributes
    let parens ← openParens
    let name ← DeclaredName.read request.scope isTypedef
    return some { isTypedef, isUsing, draft, hint, parens, name }

/-- The name with all dimensions. -/
def Front.named (f : Front) (request : DeclaratorRequest) (dims : List Int) : DeclaredName :=
  ({ f.name with
    name := if f.name.name.isEmpty then request.defaultName.getD "" else f.name.name
    dims } : DeclaredName).spreadStars

/-- The draft with all dimensions. -/
def Front.shaped (f : Front) (request : DeclaratorRequest) (dims : List Int) : Draft :=
  f.draft.withDims request.view (f.named request dims).dims

/-- Reads what stands behind the name. -/
def readRest (readDeclarator : DeclaratorReader) (request : DeclaratorRequest) (f : Front) :
    ReadM Declarator := do
  let dims ← DeclaredName.readDims f.name.dims
  let d ← (f.shaped request dims).readBitfield
  let d ← d.readMapping request f.isTypedef f.isUsing
  let s ← get
  let n := f.named request dims
  let d := { d with declarator.nativeName := n.name }
  let d := d.nameBy s.table request.scope s.usings f.hint n.isOperator request.defaultName.isSome
  let d ← d.readParameters readDeclarator request n f.isTypedef
  closeParens f.parens
  return d.declarator

/-- **A declarator** is its front and its rest. -/
theorem readWith_eq (readDeclarator : DeclaratorReader) (request : DeclaratorRequest) :
    readWith readDeclarator request = (do
      match ← readFront request with
      | none => return none
      | some f => return some (← readRest readDeclarator request f)) := by
  unfold readWith readFront
  simp only [bind_assoc]
  refine congrArg (peek >>= ·) (funext fun t => congrArg (peek >>= ·) (funext fun u =>
    congrArg (NativeType.read request.scope >>= ·) (funext fun type => ?_)))
  cases type with
  | none => rfl
  | some type =>
      dsimp only
      simp only [bind_assoc]
      refine congrArg (skipTo request.number >>= ·) (funext fun found => ?_)
      cases found with
      | false => rfl
      | true =>
          simp only [Bool.not_true, Bool.false_eq_true, if_false, readBehind, readRest, bind_assoc,
            pure_bind]
          rfl

variable {request : DeclaratorRequest} {f : Front} {s₁ : Reading} {d : Declarator}

/-- Behind its front, a declarator that is read is its rest. -/
theorem readRest_of_read (hfront : readFront request s = .ok (some f) s₁)
    (hread : read request s = .ok (some d) s') :
    ∃ reader, readRest reader request f s₁ = .ok d s' := by
  unfold read nest at hread
  obtain ⟨_, _, hget, hread⟩ := bind_eq_ok hread
  cases hget
  cases hbound : s.bound with
  | zero =>
      rw [hbound] at hread
      cases hread
  | succ n =>
      rw [hbound] at hread
      change readWith _ request s = _ at hread
      rw [readWith_eq, bind_of_ok hfront] at hread
      obtain ⟨d', s₂, hrest, hread⟩ := bind_eq_ok hread
      cases hread
      exact ⟨_, hrest⟩

/-- A declarator is read if its rest is, however those inside it are. -/
theorem exists_read (hfront : readFront request s = .ok (some f) s₁) (hfuel : 0 < s.fuel)
    (hrest : ∀ reader, ∃ d s', readRest reader request f s₁ = .ok d s') :
    ∃ d s', read request s = .ok (some d) s' := by
  obtain ⟨n, hn⟩ := Nat.exists_eq_add_one.mpr
    (Nat.lt_of_lt_of_le hfuel (Nat.le_add_right _ _) : 0 < s.bound)
  obtain ⟨d, s', hd⟩ := hrest (nestUpTo readWith n)
  refine ⟨d, s', ?_⟩
  have hget : (get : ReadM Reading) s = .ok s s := rfl
  unfold read nest
  rw [bind_of_ok hget, hn]
  change readWith (nestUpTo readWith n) request s = _
  rw [readWith_eq, bind_of_ok hfront]
  dsimp only
  rw [bind_of_ok hd]
  rfl

end Declarator

/-! ## What the rest leaves as it is -/

namespace Draft

variable {d d' : Draft} {request : DeclaratorRequest}

theorem dims_of_readBitfield (h : d.readBitfield s = .ok d' s') :
    d'.declarator.dims = d.declarator.dims := by
  unfold readBitfield at h
  obtain ⟨t, s₁, -, h⟩ := bind_eq_ok h
  by_cases hcolon : t.is ":" = true
  · rw [if_neg (by simp [hcolon])] at h
    obtain ⟨first, s₂, -, h⟩ := bind_eq_ok h
    obtain ⟨_, s₃, -, h⟩ := bind_eq_ok h
    cases h
    rfl
  · rw [if_pos (by simpa using hcolon)] at h
    cases h
    rfl

theorem dims_of_findRule {scope : Scope} {isTypedef : Bool} {found : Draft × Option Rule}
    (h : d.findRule scope isTypedef s = .ok found s') :
    found.1.declarator.dims = d.declarator.dims := by
  rcases findRule_eq_or_adapt h with hsame | ⟨argument, rule, hadapted⟩
  · rw [hsame]
  · rw [hadapted]
    rfl

theorem dims_of_readMapping {isTypedef isUsing : Bool}
    (h : d.readMapping request isTypedef isUsing s = .ok d' s') :
    d'.declarator.dims = d.declarator.dims := by
  unfold readMapping at h
  generalize (request.view == .asPointer && _) = needsCast at h
  obtain ⟨⟨found, rule⟩, s₁, hfound, h⟩ := bind_eq_ok h
  refine Eq.trans ?_ (dims_of_findRule hfound)
  cases rule with
  | none =>
      cases h
      exact (like_annotateShape _ _ _).dims
  | some rule =>
      cases isUsing with
      | true =>
          cases h
          exact (like_annotateShape _ _ _).dims
      | false =>
          cases h
          exact ((like_mapBy found request.scope rule request.choice needsCast).trans
            (like_annotateShape _ _ _)).dims

theorem dims_of_readParameters {readDeclarator : DeclaratorReader} {n : DeclaredName}
    {isTypedef : Bool} (h : d.readParameters readDeclarator request n isTypedef s = .ok d' s') :
    d'.declarator.dims = d.declarator.dims := by
  unfold readParameters at h
  obtain ⟨parameters, s₁, -, h⟩ := bind_eq_ok h
  cases parameters with
  | none =>
      cases h
      rfl
  | some parameters =>
      dsimp only at h
      split at h
      · cases h
        rfl
      · obtain ⟨t, s₂, -, h⟩ := bind_eq_ok h
        cases h
        rfl

/-- With the rule that is found, the type is mapped. -/
theorem readMapping_found {found : Draft × Option Rule} (isUsing : Bool) (h : s.Sees (t :: ts))
    (hfinds : d.Finds s.table s.usings request.scope found) :
    Passes (d.readMapping request false isUsing) s (t :: ts) fun _ => True := by
  have hfound := passes_of_eq (hfinds s t ts rfl rfl h) h
  obtain ⟨d', rule⟩ := found
  unfold readMapping
  cases rule with
  | none => exact hfound.bind_eq fun j h => passes_pure h trivial
  | some rule =>
      cases isUsing with
      | true => exact hfound.bind_eq fun j h => passes_pure h trivial
      | false => exact hfound.bind_eq fun j h => passes_pure h trivial

/-- Whether a pointer counts as a dimension. -/
def folds (d : Draft) (view : ArrayView) : Bool :=
  view == .asDimension && decide ((if d.type.anonymous then 0 else 1) < d.declarator.indirections)

theorem dims_withDims (d : Draft) (view : ArrayView) (dims : List Int) :
    (d.withDims view dims).declarator.dims = dims ++ if d.folds view then [-1] else [] := by
  unfold withDims folds
  cases view with
  | plain => simp
  | asPointer =>
      dsimp only
      split <;> simp
  | asDimension =>
      by_cases hfolds : (if d.type.anonymous then 0 else 1) < d.declarator.indirections
      · simp [hfolds]
      · simp [hfolds]

end Draft

/-! ## The dimensions of a declarator -/

namespace Declarator

variable {request : DeclaratorRequest} {f : Front} {readDeclarator : DeclaratorReader}
  {d : Declarator} {groups : List Dimension}

/-- The rest of a declarator leaves the dimensions that were read. -/
theorem dims_of_readRest (h : readRest readDeclarator request f s = .ok d s') :
    ∃ dims s₁, DeclaredName.readDims f.name.dims s = .ok dims s₁ ∧
      d.dims = (f.shaped request dims).declarator.dims := by
  unfold readRest at h
  obtain ⟨dims, s₁, hdims, h⟩ := bind_eq_ok h
  obtain ⟨d₁, s₂, hbitfield, h⟩ := bind_eq_ok h
  obtain ⟨d₂, s₃, hmapping, h⟩ := bind_eq_ok h
  obtain ⟨s₄, s₅, -, h⟩ := bind_eq_ok h
  obtain ⟨d₃, s₆, hparameters, h⟩ := bind_eq_ok h
  obtain ⟨_, s₇, -, h⟩ := bind_eq_ok h
  cases h
  have hnamed := Draft.dims_of_readParameters hparameters
  refine ⟨dims, s₁, hdims, ?_⟩
  calc d₃.declarator.dims = d₂.declarator.dims := hnamed
    _ = d₁.declarator.dims := Draft.dims_of_readMapping hmapping
    _ = _ := Draft.dims_of_readBitfield hbitfield

/-- **Brackets behind the name** give a dimension each. Pointers inside parentheses are dimensions
behind them, and so is one that the view asks for. -/
theorem dims_of_groups (h : readRest readDeclarator request f s = .ok d s')
    (hsees : s.Sees (groups.flatMap Dimension.tokens ++ u :: ts))
    (hbracket : u.is "[" = false) (hstars : groups ≠ [] ∨ f.name.stars = 0) :
    d.dims = f.name.dims ++ groups.map Dimension.extent ++ List.replicate f.name.stars (-1) ++
      if f.draft.folds request.view then [-1] else [] := by
  obtain ⟨dims, s₁, hread, hdims⟩ := dims_of_readRest h
  obtain ⟨_, j, hgroups, -, rfl⟩ :=
    DeclaredName.readDims_all groups hsees hbracket f.name.dims
  obtain ⟨rfl, -⟩ := EStateM.Result.ok.inj (hread.symm.trans hgroups)
  have hspread : (f.named request (f.name.dims ++ groups.map Dimension.extent)).dims =
      f.name.dims ++ groups.map Dimension.extent ++ List.replicate f.name.stars (-1) := by
    unfold Front.named DeclaredName.spreadStars
    rcases hstars with hgroups | hstars
    · have hne : (f.name.dims ++ groups.map Dimension.extent).isEmpty = false := by
        simp [hgroups]
      dsimp only
      rw [if_neg (by simp [hne])]
    · dsimp only
      split <;> simp [hstars]
  rw [hdims, Front.shaped, Draft.dims_withDims, hspread]

/-- **The rest of a declarator is read** if its rule is found and neither a width nor parameters
stand behind. -/
theorem readRest_passes {found : Draft × Option Rule} (readDeclarator : DeclaratorReader)
    (h : s.Sees (groups.flatMap Dimension.tokens ++ u :: ts))
    (hu : ∀ text ∈ ["[", ":", "("], u.is text = false) (hplain : f.isTypedef = false)
    (hparens : f.parens = 0)
    (hfinds : (f.shaped request (f.name.dims ++ groups.map Dimension.extent)).Finds s.table s.usings
      request.scope found) :
    Passes (readRest readDeclarator request f) s (u :: ts) fun _ => True := by
  unfold readRest
  refine (DeclaredName.readDims_all groups h (hu "[" (by simp)) f.name.dims).bind_eq
    fun j h => ?_
  refine (Draft.readBitfield_passes _ h (hu ":" (by simp))).bind_eq fun j h => ?_
  rw [hplain]
  refine (Draft.readMapping_found f.isUsing h hfinds).bind fun d j _ h => ?_
  refine (passes_of_eq (a := _) rfl h : Passes get _ _ (· = _)).bind_eq fun j h => ?_
  refine (Draft.readParameters_absent _ readDeclarator request _ false h (hu "(" (by simp))).bind_eq
    fun j h => ?_
  rw [hparens]
  exact (closeParens_passes h).bind_eq fun j h => passes_pure h trivial

end Declarator

end HeaderPeers

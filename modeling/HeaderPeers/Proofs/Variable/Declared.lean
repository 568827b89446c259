import HeaderPeers.Proofs.Variable.Items
import HeaderPeers.Variable.Reader

/-!
# What the items of a list are declared as

The first stars of a list belong to the type that is read, so the type differs from what
it is for another item alone: in its own stars, and in target names that the shape of the
item replaces. Nothing that is printed depends on the stars of the type.

- `Variable.Item.declarator` — what an item is read as.
- `Variable.Item.readBehind_passes` — it is read as that.
- `Variable.Item.declarator_behind` — behind a comma, it is the same up to the stars of
  the type.
-/

namespace HeaderPeers

open ReadM

variable {s : Reading} {t u : Token} {ts us : List Token}

/-- What stands behind the dimensions of an item: its value, the next item, or the end. -/
def Token.EndsItem (t : Token) : Prop :=
  ∃ text ∈ ["=", ",", ";"], t.IsMark text

namespace Token.EndsItem

theorem is_eq (h : t.EndsItem) (text : String) (htext : text ∉ ["=", ",", ";"]) :
    t.is text = false := by
  obtain ⟨mark, hmem, hmark⟩ := h
  rw [hmark.is_eq, beq_eq_false_iff_ne]
  rintro rfl
  exact htext hmem

theorem isEof_eq (h : t.EndsItem) : t.isEof = false := by
  obtain ⟨mark, -, hmark⟩ := h
  exact hmark.isEof_eq

theorem isWord_eq (h : t.EndsItem) : t.isWord = false := by
  obtain ⟨mark, -, hmark⟩ := h
  exact hmark.isWord_eq

theorem isAny_eq (h : t.EndsItem) : t.isAny ["[", "=", "(", ",", ":", ";"] = true := by
  obtain ⟨mark, hmem, hmark⟩ := h
  simp only [List.mem_cons, List.not_mem_nil, or_false] at hmem
  rcases hmem with rfl | rfl | rfl <;> simp [Token.isAny, hmark.is_eq]

theorem stopsName (h : t.EndsItem) : t.StopsName where
  isEof_eq := h.isEof_eq
  isWord_eq := h.isWord_eq
  marks text htext := h.is_eq text (by
    simp only [List.mem_cons, List.not_mem_nil, or_false] at htext
    rcases htext with rfl | rfl | rfl | rfl | rfl <;> decide)

end Token.EndsItem

/-! ## Mapping to a rule -/

namespace Draft

/-- The draft with the target type that a rule gives and the annotations that follow. -/
def mappedTo (d : Draft) (scope : Scope) (rule : Rule) (choice : Int) (needsCast : Bool) : Draft :=
  let (d, m) := d.mapBy scope rule choice needsCast
  d.annotateShape m choice

theorem like_mappedTo (d : Draft) (scope : Scope) (rule : Rule) (choice : Int) (needsCast : Bool) :
    d.Like (d.mappedTo scope rule choice needsCast) :=
  (like_mapBy d scope rule choice needsCast).trans (like_annotateShape _ _ _)

theorem readMapping_to {d : Draft} {rule : Rule} {request : DeclaratorRequest}
    (h : s.Sees (t :: ts)) (hfinds : d.Finds s.table s.usings request.scope (d, some rule)) :
    Passes (d.readMapping request false false) s (t :: ts) (· =
      d.mappedTo request.scope rule request.choice
        (request.view == .asPointer && decide (d.declarator.dims.length > 1))) := by
  have hfound := hfinds s t ts rfl rfl h
  unfold readMapping
  exact Passes.bind_eq (passes_of_eq hfound h) fun j h => passes_pure h rfl

end Draft

namespace Variable.Item

/-- The draft of an item, before its type is mapped. The type of the first item has its first
star. -/
def draft (x : Item) (type : NativeType) (isFirst : Bool) (view : ArrayView) : Draft :=
  ((Draft.ofType type isFirst).pushMarks (x.stars.drop isFirst.toNat)).withDims view
    (x.dims.map Dimension.extent)

/-- What an item is read as. -/
def declarator (x : Item) (table : RuleTable) (usings : List String) (type : NativeType)
    (rule : Rule) (request : DeclaratorRequest) : Declarator :=
  let d := x.draft type (request.number == 0) request.view
  let d := d.mappedTo request.scope rule request.choice
    (request.view == .asPointer && decide (d.declarator.dims.length > 1))
  let d := { d with declarator.nativeName := x.name.text }
  (d.nameBy table request.scope usings (Draft.ofType type (request.number == 0)).hint false
    false).declarator

theorem type_pushMarks (d : Draft) (ms : List Token) : (d.pushMarks ms).type = d.type :=
  (Spelling.pushMarks_leaves d ms).1

/-- **Reading an item** behind its type. -/
theorem readBehind_passes (x : Item) (readDeclarator : DeclaratorReader)
    {request : DeclaratorRequest} {type : NativeType} {rule : Rule}
    (h : s.Sees (x.stars.drop (request.number == 0).toNat ++
      x.name :: (x.dims.flatMap Dimension.tokens ++ u :: ts)))
    (hu : u.EndsItem) (hdefault : request.defaultName = none)
    (hplain : (s.table.find? x.name.text).any (·.isAttribute) = false)
    (hfinds : (x.draft type (request.number == 0) request.view).Finds s.table s.usings
      request.scope (x.draft type (request.number == 0) request.view, some rule)) :
    Passes (Declarator.readBehind readDeclarator request type false false) s (u :: ts)
      (· = x.declarator s.table s.usings type rule request) := by
  have hname := x.isName.is_eq
  have hmarks : ∀ t ∈ x.stars.drop (request.number == 0).toNat, Draft.marks t = true := by
    intro t ht
    simp [Draft.marks, Token.isAny, (x.areStars t (List.mem_of_mem_drop ht)).is_eq]
  have hmark : Draft.marks x.name = false := by
    simp [Draft.marks, Token.isAny, hname "*" (by decide), hname "&" (by decide),
      hname "&&" (by decide), x.isName.isKeyword_eq]
  obtain ⟨v, vs, hv, hstops⟩ : ∃ v vs, x.dims.flatMap Dimension.tokens ++ u :: ts = v :: vs ∧
      v.StopsName := by
    cases x.dims with
    | nil => exact ⟨u, ts, rfl, hu.stopsName⟩
    | cons d dims => exact ⟨d.opening, _, rfl, d.isOpening.stopsName (by decide)⟩
  unfold Declarator.readBehind
  refine (Draft.readMarks_passes hmarks hmark (Draft.ofType type (request.number == 0))
    h).bind_eq fun j h => ?_
  rw [hv] at h
  refine (Draft.readAttributes_passes _ h (hname "[" (by decide)) fun _ =>
    ⟨List.cons_ne_nil _ _, hplain⟩).bind_eq fun j h => ?_
  refine (Declarator.openParens_passes h (hname "(" (by decide))).bind_eq fun j h => ?_
  have hnamed : ∀ t ∈ some x.name, t.IsName := fun t ht => Option.some.inj ht ▸ x.isName
  refine (DeclaredName.read_passes request.scope h hnamed hstops (by simp)).bind_eq fun j h => ?_
  rw [← hv] at h
  refine (DeclaredName.readDims_all x.dims h (hu.is_eq "[" (by decide)) []).bind_eq fun j h => ?_
  have hspread : ({ name := x.name.text, dims := x.dims.map Dimension.extent } :
      DeclaredName).spreadStars =
        { name := x.name.text, dims := x.dims.map Dimension.extent } := by
    unfold DeclaredName.spreadStars
    split
    · rfl
    · simp
  have htitle : (if ((some x.name).map (·.text)).getD "" |>.isEmpty then
      request.defaultName.getD "" else ((some x.name).map (·.text)).getD "") = x.name.text := by
    simp [x.isName.isEmpty_eq]
  dsimp only
  rw [htitle, List.nil_append, hspread]
  refine (Draft.readBitfield_passes _ h (hu.is_eq ":" (by decide))).bind_eq fun j h => ?_
  refine (Draft.readMapping_to h hfinds).bind_eq fun j h => ?_
  refine (passes_of_eq (a := _) rfl h : Passes get _ _ (· = _)).bind_eq fun j h => ?_
  refine (Draft.readParameters_absent _ readDeclarator request _ false h
    (hu.is_eq "(" (by decide))).bind_eq fun j h => ?_
  refine (Declarator.closeParens_passes h).bind_eq fun j h => passes_pure h ?_
  rw [hdefault]
  unfold declarator Draft.hint
  rw [type_pushMarks]
  rfl

end Variable.Item

/-! ## Stars of the type -/

/-- The type with other stars and other target names. -/
def NativeType.reshaped (type : NativeType) (stars : Nat) (target : String)
    (targets : List String) : NativeType :=
  { type with indirections := stars, targetName := target, targetNames := targets }

/-- The declarator with other stars of its type. -/
def Declarator.starred (d : Declarator) (stars : Nat) : Declarator :=
  { d with type.indirections := stars }

/-- A rule that has target types for values and for pointers, and gives no native type. -/
structure Rule.MapsAll (rule : Rule) : Prop where
  values : rule.valueTypes.getD [] ≠ []
  pointers : rule.pointerTypes.getD [] ≠ []
  native : rule.nativeTypes = none

namespace Draft

variable {stars : Nat} {target : String} {targets : List String}

/-- The draft of a type with other stars and other target names. -/
def retyped (d : Draft) (stars : Nat) (target : String) (targets : List String) : Draft :=
  { d with declarator.type := d.type.reshaped stars target targets }

/-- The draft of a type with other stars. -/
def starred (d : Draft) (stars : Nat) : Draft :=
  { d with declarator.type.indirections := stars }

theorem pushMarks_retyped (d : Draft) (ms : List Token) :
    (d.retyped stars target targets).pushMarks ms =
      (d.pushMarks ms).retyped stars target targets := by
  induction ms generalizing d with
  | nil => rfl
  | cons t ms ih =>
      have hone : ((d.retyped stars target targets).pushMark? t).getD
          (d.retyped stars target targets) =
            ((d.pushMark? t).getD d).retyped stars target targets := by
        unfold pushMark?
        dsimp only
        split
        · rfl
        split
        · rfl
        split
        · rfl
        split <;> rfl
      change pushMarks (((d.retyped stars target targets).pushMark? t).getD _) ms = _
      rw [hone, ih]
      rfl

theorem withDims_retyped (d : Draft) (view : ArrayView) (dims : List Int) :
    (d.retyped stars target targets).withDims view dims =
      (d.withDims view dims).retyped stars target targets := by
  have hsame : (d.retyped stars target targets).declarator.indirections =
      d.declarator.indirections ∧
      (d.retyped stars target targets).type.anonymous = d.type.anonymous := ⟨rfl, rfl⟩
  unfold withDims
  rw [hsame.1, hsame.2]
  cases view with
  | plain => rfl
  | asPointer =>
      dsimp only
      split <;> rfl
  | asDimension =>
      dsimp only
      split <;> split <;> rfl

/-- The target names of the rule take the place of others. -/
theorem mapBy_retyped {rule : Rule} (hrule : rule.MapsAll) (d : Draft) (scope : Scope)
    (choice : Int) (needsCast : Bool) :
    (d.retyped stars target targets).mapBy scope rule choice needsCast =
      ((d.mapBy scope rule choice needsCast).1.starred stars,
        (d.mapBy scope rule choice needsCast).2) := by
  have hsame : (d.retyped stars target targets).type.constValue = d.type.constValue ∧
      (d.retyped stars target targets).declarator.reference = d.declarator.reference ∧
      (d.retyped stars target targets).declarator.indirections = d.declarator.indirections :=
    ⟨rfl, rfl, rfl⟩
  unfold mapBy
  rw [hsame.1, hsame.2.1, hsame.2.2]
  generalize (rule.valueTypes.isSome && _) = isValue
  have hnames : (if isValue = true then rule.valueTypes else rule.pointerTypes).getD [] ≠ [] := by
    cases isValue
    · exact hrule.pointers
    · exact hrule.values
  obtain ⟨name, names, heq⟩ := List.exists_cons_of_ne_nil hnames
  dsimp only
  rw [heq]
  rfl

theorem annotateCast_starred (d : Draft) (m : Mapping) :
    (d.starred stars).annotateCast m = (d.annotateCast m).starred stars := by
  have hsame : (d.starred stars).castText m = d.castText m ∧
      (d.starred stars).declarator.indirections = d.declarator.indirections ∧
      (d.starred stars).declarator.reference = d.declarator.reference := ⟨rfl, rfl, rfl⟩
  unfold annotateCast
  rw [hsame.1, hsame.2.1, hsame.2.2]
  split
  · rfl
  · dsimp only
    split <;> rfl

theorem annotatePassing_starred (d : Draft) (m : Mapping) (choice : Int) :
    (d.starred stars).annotatePassing m choice =
      ((d.annotatePassing m choice).1.starred stars, (d.annotatePassing m choice).2) := by
  have hsame : (d.starred stars).declarator.indirections = d.declarator.indirections ∧
      (d.starred stars).declarator.reference = d.declarator.reference := ⟨rfl, rfl⟩
  unfold annotatePassing
  rw [hsame.1, hsame.2]
  dsimp only
  split
  · rfl
  split
  · rfl
  split
  · rfl
  split
  · rfl
  split
  · split <;> rfl
  · rfl

theorem annotateConst_starred (d : Draft) (m : Mapping) :
    (d.starred stars).annotateConst m = (d.annotateConst m).starred stars := by
  have hsame : (d.starred stars).type.constValue = d.type.constValue ∧
      (d.starred stars).type.targetName = d.type.targetName := ⟨rfl, rfl⟩
  unfold annotateConst
  rw [hsame.1, hsame.2]
  split <;> rfl

theorem annotateShape_starred (d : Draft) (m : Mapping) (choice : Int) :
    (d.starred stars).annotateShape m choice = (d.annotateShape m choice).starred stars := by
  unfold annotateShape
  split
  · exact annotateCast_starred d m
  · rw [annotatePassing_starred]
    dsimp only
    rw [annotateConst_starred, annotateCast_starred]

/-- The stars of the type make no difference to what it is mapped to. -/
theorem mappedTo_retyped {rule : Rule} (hrule : rule.MapsAll) (d : Draft) (scope : Scope)
    (choice : Int) (needsCast : Bool) :
    (d.retyped stars target targets).mappedTo scope rule choice needsCast =
      (d.mappedTo scope rule choice needsCast).starred stars := by
  unfold mappedTo
  rw [mapBy_retyped hrule]
  exact annotateShape_starred _ _ _

end Draft

namespace Variable.Item

variable {stars : Nat} {target : String} {targets : List String}

/-- Behind a comma, all stars of an item are its own: its draft is that of the item alone, up to
the type. -/
theorem draft_behind (x : Item) {type : NativeType} (hreference : type.reference = false)
    (hstars : type.indirections = (x.stars.take 1).length) (view : ArrayView) :
    x.draft (type.reshaped stars target targets) false view =
      (x.draft type true view).retyped stars target targets := by
  have hmarks : (Draft.ofType (type.reshaped stars target targets) false).pushMarks x.stars =
      ((Draft.ofType type true).pushMarks (x.stars.drop 1)).retyped stars target targets := by
    cases hall : x.stars with
    | nil =>
        rw [hall] at hstars
        simp [Draft.ofType, Draft.pushMarks, Draft.retyped, NativeType.reshaped, Draft.type,
          hreference, hstars]
    | cons t ts =>
        rw [hall] at hstars
        have ht := x.areStars t (by simp [hall])
        -- the first star is pushed here, and there the type has it
        have hfirst : ((Draft.ofType (type.reshaped stars target targets) false).pushMark? t).getD
            (Draft.ofType (type.reshaped stars target targets) false) =
              (Draft.ofType type true).retyped stars target targets := by
          simp [Draft.ofType, Draft.pushMark?, Draft.retyped, NativeType.reshaped, Draft.type,
            hreference, hstars, ht.is_eq, ht.2]
        rw [List.drop_one, List.tail_cons, ← Draft.pushMarks_retyped, ← hfirst]
        rfl
  unfold draft
  exact (congrArg (Draft.withDims · view _) hmarks).trans (Draft.withDims_retyped _ _ _)

/-- **Behind a comma** an item is what it is alone, up to the stars of the type. -/
theorem declarator_behind (x : Item) (table : RuleTable) (usings : List String) {type : NativeType}
    {rule : Rule} (hrule : rule.MapsAll) (hreference : type.reference = false)
    (hstars : type.indirections = (x.stars.take 1).length) (request : DeclaratorRequest)
    (hnumber : request.number ≠ 0) :
    x.declarator table usings (type.reshaped stars target targets) rule request =
      (x.declarator table usings type rule { request with number := 0 }).starred stars := by
  have hlater : (request.number == 0) = false := by simpa using hnumber
  have hfirst : (({ request with number := 0 } : DeclaratorRequest).number == 0) = true := rfl
  unfold declarator
  rw [hlater, hfirst, draft_behind x hreference hstars]
  dsimp only
  rw [Draft.mappedTo_retyped hrule]
  rfl

end Variable.Item

end HeaderPeers

import HeaderPeers.Proofs.NativeType.Words
import HeaderPeers.Proofs.Variable.Statements

/-!
# Variables that stand alone

A statement may declare one variable only. In any scope it is read in one turn, and prints the
accessors of the variable; where the scope is the unnamed class of another variable, these go
through that variable, under a name of both.

- `Variable.Single` — a statement that declares one variable.
- `Variable.Single.Readable` — what its words and names are in a scope.
- `Variable.Single.text` — its accessors.
- `Variable.Single.scopeTurn_eq` — one turn of the loop over the scope.
-/

namespace HeaderPeers

open ReadM

variable {s : Reading} {t u : Token} {ts us : List Token} {scope : Scope}

theorem Reading.Sees.withOutline (h : s.Sees ts) (o : Outline) :
    ({ s with outline := o } : Reading).Sees ts :=
  ⟨h.cooked, h.fueled, h.inside, h.ahead⟩

/-! ## Types in a class -/

namespace NativeType

variable {type : NativeType}

/-- The type with the target name that the class around uses. -/
def shortened (scope : Scope) (type : NativeType) : NativeType :=
  { type with targetName := scope.shorten type.targetName }

theorem shortened_of_same (h : scope.shorten type.targetName = type.targetName) :
    type.shortened scope = type := by
  unfold shortened
  rw [h]
  cases type
  rfl

/-- A type that is no constructor gets its shorter target name. -/
theorem placeInGroup_shortened (h : s.Sees (t :: ts)) (ht : t.isAny ["(", ":"] = false)
    (hplain : type.constructor = false) :
    Passes (placeInGroup scope type) s (t :: ts) (· = type.shortened scope) := by
  have hsame : { type with constructor := false } = type := by
    rw [← hplain]
    cases type
    rfl
  have hshortened : { type with
      targetName := scope.shorten type.targetName, constructor := false } =
        type.shortened scope := by
    rw [shortened, ← hplain]
  unfold placeInGroup
  cases hgroup : scope.group with
  | none =>
      have hkept : scope.shorten type.targetName = type.targetName := by simp [Scope.shorten, hgroup]
      exact passes_pure h (shortened_of_same hkept).symm
  | some group =>
      dsimp only
      by_cases hempty : type.targetName.isEmpty = true
      · have hname : type.targetName = "" := by simpa using hempty
        have hkept : scope.shorten type.targetName = type.targetName := by
          rw [hname]
          simp [Scope.shorten, hgroup, Scope.commonDots]
        rw [if_pos hempty]
        exact passes_pure h (shortened_of_same hkept).symm
      rw [if_neg hempty]
      split
      · split
        · refine (peek_passes h).bind_eq fun j h => passes_pure h ?_
          rw [ht]
          exact hshortened
        · exact passes_pure h hshortened
      · exact passes_pure h rfl

/-- No attribute is among the words of a type. -/
theorem attributes_ofWords (ws : List Token) (m : Option Token) :
    (ofWords ws m).attributes = [] := by
  have hpush (type : NativeType) (t : Token) : (type.push t).attributes = type.attributes := by
    unfold push
    split
    · rfl
    split
    · split <;> rfl
    split
    · rfl
    split
    · rfl
    split <;> rfl
  have hfold (ws : List Token) (type : NativeType) :
      (ws.foldl push type).attributes = type.attributes := by
    induction ws generalizing type with
    | nil => rfl
    | cons t ws ih => exact (ih _).trans (hpush type t)
  cases m with
  | none => exact hfold ws {}
  | some t =>
      simp only [ofWords, Option.elim_some, mark]
      split
      · exact hfold ws {}
      split <;> exact hfold ws {}

theorem attributes_resolve (type : NativeType) (table : RuleTable) (scope : Scope)
    (usings : List String) : (type.resolve table scope usings).attributes = type.attributes := by
  have hhoist (type : NativeType) : type.hoist.attributes = type.attributes := by
    unfold hoist
    dsimp only
    split
    · rfl
    · split <;> rfl
  have hinstantiate (type : NativeType) :
      (type.instantiate scope).attributes = type.attributes := by
    unfold instantiate
    split
    · rfl
    dsimp only
    generalize hhoisted : NativeType.hoist _ = hoisted
    have hkept : hoisted.attributes = type.attributes := by
      rw [← hhoisted, hhoist]
      split <;> rfl
    split <;> exact hkept
  have hmap (rule : Option Rule) (type : NativeType) :
      (type.mapBy rule).1.attributes = type.attributes := by
    unfold mapBy
    dsimp only
    split <;> rfl
  unfold resolve
  generalize hlooked : type.hoist.instantiate scope = looked
  have hkept : looked.attributes = type.attributes := by rw [← hlooked, hinstantiate, hhoist]
  dsimp only
  exact (hmap _ _).trans hkept

end NativeType

/-! ## What a statement starts with -/

/-- Up to its first token that is no word, a statement starts with plain words. -/
theorem Statement.exists_startsPlain {stop : Token} (rest : List Token)
    (h : ∀ t ∈ ts, t.isEof = false ∧ t.is "#" = false ∧ t.isKeywordWith Keyword.starts = false)
    (heof : stop.isEof = false) (hword : stop.isWord = false) (hhash : stop.is "#" = false) :
    ∃ ws u us, ts ++ stop :: rest = ws ++ u :: us ∧ StartsPlain ws u := by
  induction ts with
  | nil => exact ⟨[], stop, rest, rfl, List.forall_mem_nil _, heof, hword, hhash⟩
  | cons t ts ih =>
      rw [List.forall_mem_cons] at h
      by_cases hisWord : t.isWord = true
      · obtain ⟨ws, u, us, htokens, hplain⟩ := ih h.2
        refine ⟨t :: ws, u, us, by rw [List.cons_append, htokens]; rfl, ?_, hplain.isEof,
          hplain.isWord, hplain.isHash⟩
        exact List.forall_mem_cons.mpr ⟨⟨hisWord, h.1.2⟩, hplain.words⟩
      · exact ⟨[], t, ts ++ stop :: rest, rfl, List.forall_mem_nil _, h.1.1,
          Bool.eq_false_iff.mpr hisWord, h.1.2.1⟩

namespace NativeType

variable {table : RuleTable} {type : NativeType}

theorem Joins.isEof_eq (h : Joins table type t) : t.isEof = false := by
  cases h with
  | colons ht => exact ht.isEof_eq
  | modifier kind plain word => simp [Token.isEof, kind]
  | fundamental ht named => exact ht.isEof_eq
  | name ht named opens plain => exact ht.isEof_eq

/-- No mark but `::` stands in a type. -/
theorem Joins.is_eq (h : Joins table type t) (text : String)
    (htext : Text.isWord text.toList = false ∧ ("::" == text) = false) : t.is text = false := by
  cases h with
  | colons ht => rw [ht.is_eq, htext.2]
  | modifier kind plain word => exact Token.is_of_word word text htext.1
  | fundamental ht named => exact ht.is_eq text htext.1
  | name ht named opens plain => exact ht.is_eq text htext.1

theorem Spells.exists_joins (h : Spells table type ts) (ht : t ∈ ts) :
    ∃ type, Joins table type t := by
  induction ts generalizing type with
  | nil => exact absurd ht List.not_mem_nil
  | cons u ts ih =>
      rcases List.mem_cons.mp ht with rfl | ht
      · exact ⟨type, h.1⟩
      · exact ih h.2 ht

end NativeType

/-! ## One variable -/

namespace Variable

/-- A statement that declares one variable, as it is written. -/
structure Single where
  words : List Token
  item : Item
  semicolon : Token

namespace Single

variable {x : Single} {table : RuleTable} {usings : List String} {request : DeclaratorRequest}

def tokens (x : Single) : List Token :=
  x.words ++ (x.item.tokens ++ [x.semicolon])

/-- The type, with the first star. -/
def type (x : Single) (table : RuleTable) (usings : List String) (scope : Scope) : NativeType :=
  ((NativeType.ofWords x.words x.item.stars.head?).resolve table scope usings).shortened scope

theorem isPlain_type (x : Single) (table : RuleTable) (usings : List String) (scope : Scope) :
    (x.type table usings scope).IsPlain :=
  have hplain := (NativeType.isPlain_ofWords x.words x.item.stars.head?).resolve table scope usings
  ⟨hplain.arguments, hplain.constructor_, hplain.destructor, hplain.operator⟩

/-- The rule for the shape of the variable. -/
def rule (x : Single) (table : RuleTable) (usings : List String) (scope : Scope)
    (view : ArrayView) : Option Rule :=
  table.findWith? (x.item.draft (x.type table usings scope) true view).lookupName false

/-- What is declared. -/
def declared (x : Single) (table : RuleTable) (usings : List String)
    (request : DeclaratorRequest) : Declarator :=
  x.item.declarator table usings (x.type table usings request.scope)
    ((x.rule table usings request.scope request.view).getD {}) { request with number := 0 }

/-- In this scope, the words are those of a type with rules, and no rule matches the name of the
variable. -/
structure Readable (x : Single) (table : RuleTable) (usings : List String) (scope : Scope) :
    Prop where
  isSemicolon : x.semicolon.IsMark ";"
  closed : x.item.Closed
  nonempty : x.words ≠ []
  spelled : NativeType.Spells table {} x.words
  plain : ∀ t ∈ x.words, t.isKeywordWith Keyword.starts = false
  complete : (x.words.foldl NativeType.push {}).nativeName.isEmpty = false ∧
    Text.endsWith "::" (x.words.foldl NativeType.push {}).nativeName = false
  ruled : ∀ view, ∃ rule, x.rule table usings scope view = some rule ∧
    rule.nativeTypes.getD [] = []
  kept : (table.find? (x.type table usings scope).nativeName).any (·.skipsType) = false
  named : Name.fundamentalWords.contains x.item.name.text = false
  unmatched : ∀ name ∈ x.item.name.text :: scope.qualifyLocal x.item.name.text ::
    scope.qualify x.item.name.text usings, table.find? name = none

theorem Readable.isAttribute_name (h : x.Readable table usings scope) :
    (table.find? x.item.name.text).any (·.isAttribute) = false := by
  rw [h.unmatched _ List.mem_cons_self]
  rfl

/-- **The type** is read with the first star. -/
theorem Readable.read_type (h : x.Readable table usings scope) (htable : s.table = table)
    (husings : s.usings = usings)
    (hsees : s.Sees (x.words ++ (x.item.tokens ++ x.semicolon :: ts))) :
    Passes (NativeType.read scope) s (x.item.stars.drop 1 ++ (x.item.named ++ x.semicolon :: ts))
      (· = some (x.type table usings scope)) := by
  subst htable husings
  have hends : x.semicolon.EndsItem := ⟨";", by simp, h.isSemicolon⟩
  obtain ⟨u, us, mark, hu, hmark, hmem⟩ := x.item.exists_stop hends ts
  have hnamed : x.item.named ++ x.semicolon :: ts = x.item.name :: u :: us := by
    rw [Base.named_append, hu]
  have hstops : u.StopsName := hmark.stopsName (by
    rintro hother
    revert hmem hother
    simp only [List.mem_cons, List.not_mem_nil, or_false]
    rintro (rfl | rfl | rfl | rfl) <;> decide)
  have hplain : ((NativeType.ofWords x.words x.item.stars.head?).resolve s.table scope
      s.usings).constructor = false :=
    ((NativeType.isPlain_ofWords _ _).resolve _ _ _).constructor_
  have hfinish {v : Token} {vs : List Token} (hv : v.isAny ["(", ":"] = false) (j : Nat)
      (hsees : (s.atIndex j).Sees (v :: vs)) :
      Passes (NativeType.finish scope (NativeType.ofWords x.words x.item.stars.head?))
        (s.atIndex j) (v :: vs) (· = x.type s.table s.usings scope) := by
    have hget : (get : ReadM Reading) (s.atIndex j) = .ok (s.atIndex j) (s.atIndex j) := rfl
    unfold NativeType.finish
    exact Passes.bind_eq (passes_of_eq hget hsees) fun k hsees =>
      NativeType.placeInGroup_shortened hsees hv hplain
  unfold Item.tokens at hsees
  rw [List.append_assoc, hnamed] at hsees
  rw [hnamed]
  obtain ⟨word, words, hwords⟩ := List.exists_cons_of_ne_nil h.nonempty
  have hstart := hsees
  rw [hwords] at hstart
  refine nest_passes hstart fun n => ?_
  cases hstars : x.item.stars with
  | nil =>
      rw [hstars] at hsees hfinish
      have hname := x.item.isName
      have hparen : x.item.name.isAny ["(", ":"] = false := by
        simp [Token.isAny, hname.is_eq "(" (by decide), hname.is_eq ":" (by decide)]
      refine (NativeType.readWith_finishes (m := none) h.spelled (fun j hsees => ?_)
        (hname.is_eq "..." (by decide)) hsees (hfinish hparen)).imp ?_
      · exact NativeType.readPart_of_name hname h.named h.isAttribute_name hstops
          (by simp [h.complete]) hsees
      · rintro _ ⟨type, rfl, rfl⟩
        rfl
  | cons star stars =>
      rw [hstars] at hsees hfinish
      have hstar := x.item.areStars star (by simp [hstars])
      obtain ⟨v, vs, hv, hdots, hparen⟩ : ∃ v vs, stars ++ x.item.name :: u :: us = v :: vs ∧
          v.is "..." = false ∧ v.isAny ["(", ":"] = false := by
        cases stars with
        | nil =>
            have hname := x.item.isName
            exact ⟨x.item.name, u :: us, rfl, hname.is_eq "..." (by decide),
              by simp [Token.isAny, hname.is_eq "(" (by decide), hname.is_eq ":" (by decide)]⟩
        | cons next stars =>
            have hnext := x.item.areStars next (by simp [hstars])
            exact ⟨next, _, rfl, by simp [hnext.is_eq], by simp [Token.isAny, hnext.is_eq]⟩
      rw [List.drop_one, List.tail_cons, hv]
      rw [List.cons_append, hv] at hsees
      refine (NativeType.readWith_finishes (m := some star) h.spelled ⟨"*", by simp, hstar⟩ hdots
        hsees (hfinish hparen)).imp ?_
      rintro _ ⟨type, rfl, rfl⟩
      rfl

/-- The rule for the shape is found. -/
theorem Readable.finds (h : x.Readable table usings scope) (view : ArrayView) :
    let d := x.item.draft (x.type table usings scope) true view
    d.Finds table usings scope (d, some ((x.rule table usings scope view).getD {})) := by
  obtain ⟨rule, hrule, hnative⟩ := h.ruled view
  dsimp only
  rw [hrule, Option.getD_some]
  refine Draft.finds_of_plain hrule (fun r hr => ?_) nofun
  obtain rfl := Option.some.inj hr
  exact hnative

/-- **The declarator** is read. -/
theorem Readable.read_declarator (request : DeclaratorRequest)
    (h : x.Readable table usings request.scope) (hnumber : request.number = 0)
    (hdefault : request.defaultName = none)
    (htable : s.table = table) (husings : s.usings = usings)
    (hsees : s.Sees (x.words ++ (x.item.tokens ++ x.semicolon :: ts))) :
    Passes (Declarator.read request) s (x.item.valueTokens ++ x.semicolon :: ts)
      (· = some (x.declared table usings request)) := by
  have hends : x.semicolon.EndsItem := ⟨";", by simp, h.isSemicolon⟩
  have hzero : ({ request with number := 0 } : DeclaratorRequest) = request := by rw [← hnumber]
  have hfirst : (request.number == 0) = true := by simp [hnumber]
  have htype := h.read_type htable husings hsees
  obtain ⟨word, words, hwords⟩ := List.exists_cons_of_ne_nil h.nonempty
  have hstart := hsees
  rw [hwords] at hstart
  refine Declarator.read_of_type (h.plain word (by simp [hwords])) hstart htype
    fun reader j hsees => ?_
  obtain ⟨v, vs, hv⟩ : ∃ v vs, x.item.stars.drop 1 ++ (x.item.named ++ x.semicolon :: ts) =
      v :: vs := by
    cases x.item.stars.drop 1 with
    | nil => exact ⟨x.item.name, _, rfl⟩
    | cons star stars => exact ⟨star, _, rfl⟩
  rw [hv] at hsees
  rw [hnumber]
  refine (Declarator.skipTo_zero_passes hsees).bind_eq fun k hsees => ?_
  rw [if_neg (by simp)]
  obtain ⟨u, us, hu, hitem⟩ := Base.exists_behind x.item hends ts
  have hseen : ((s.atIndex j).atIndex k).Sees (x.item.stars.drop (request.number == 0).toNat ++
      x.item.name :: (x.item.dims.flatMap Dimension.tokens ++ u :: us)) := by
    rw [hfirst, ← hu, ← Base.named_append]
    exact hv ▸ hsees
  have hfinds := h.finds request.view
  subst htable husings
  rw [← hfirst] at hfinds
  rw [hu]
  refine (x.item.readBehind_passes (s := (s.atIndex j).atIndex k) reader hseen hitem hdefault
    h.isAttribute_name hfinds).bind_eq fun l hsees => passes_pure hsees ?_
  unfold declared
  rw [hzero]
  rfl

/-- There is one declarator only. -/
theorem Readable.read_none (request : DeclaratorRequest)
    (h : x.Readable table usings request.scope) (hnumber : 0 < request.number)
    (htable : s.table = table) (husings : s.usings = usings)
    (hsees : s.Sees (x.words ++ (x.item.tokens ++ x.semicolon :: u :: us))) :
    Passes (Declarator.read request) s (u :: us) (· = none) := by
  have htype := h.read_type htable husings hsees
  obtain ⟨word, words, hwords⟩ := List.exists_cons_of_ne_nil h.nonempty
  have hstart := hsees
  rw [hwords] at hstart
  refine Declarator.read_of_type (h.plain word (by simp [hwords])) hstart htype
    fun reader j hsees => ?_
  rw [← List.append_assoc] at hsees
  have hothers : ∀ y ∈ ([] : List (Token × Item)), y.1.IsMark "," ∧ y.2.Closed :=
    List.forall_mem_nil _
  refine (Declarator.skipTo_end (Declarator.passedOver_item h.closed 1) hothers h.isSemicolon
    hnumber hsees).bind_eq fun k hsees => ?_
  rw [if_pos (by simp)]
  exact passes_pure hsees rfl

/-- It is declared under the name that is written. -/
structure DeclaredAs (x : Single) (table : RuleTable) (usings : List String) (scope : Scope)
    (d : Declarator) : Prop where
  nativeName : d.nativeName = x.item.name.text
  targetName : d.targetName = x.item.name.text
  signature : d.signature = x.item.name.text
  parameters : d.parameters = none
  definition : d.definition = none
  typeName : d.type.nativeName = (x.type table usings scope).nativeName
  isConstructor : d.type.constructor = false

theorem settleName_of_unmatched {candidates : List String} {name : String}
    (h : ∀ candidate ∈ candidates, table.find? candidate = none) :
    NativeType.settleName table name candidates = (name, none) := by
  induction candidates with
  | nil => rfl
  | cons candidate candidates ih =>
      rw [List.forall_mem_cons] at h
      unfold NativeType.settleName
      rw [RuleTable.findWith?_eq_none h.1, h.1]
      exact ih h.2

theorem Readable.declared_as (request : DeclaratorRequest)
    (h : x.Readable table usings request.scope) :
    x.DeclaredAs table usings request.scope (x.declared table usings request) := by
  have hsettled : NativeType.settleName table x.item.name.text
      (request.scope.qualify x.item.name.text usings) = (x.item.name.text, none) :=
    settleName_of_unmatched fun name hname =>
      h.unmatched name (List.mem_cons_of_mem _ (List.mem_cons_of_mem _ hname))
  have hhint : (Draft.ofType (x.type table usings request.scope) true).hint = none := by
    have hattributes : (Draft.ofType (x.type table usings request.scope) true).type.attributes = [] :=
      (NativeType.attributes_resolve _ _ _ _).trans (NativeType.attributes_ofWords _ _)
    rw [Draft.hint, hattributes]
    rfl
  have hnamed (d : Draft) (hd : d.declarator.parameters = none ∧ d.declarator.definition = none ∧
      d.type.nativeName = (x.type table usings request.scope).nativeName ∧
      d.type.constructor = false) :
      x.DeclaredAs table usings request.scope ({ d with declarator.nativeName := x.item.name.text
        }.nameBy table request.scope usings none false false).declarator := by
    unfold Draft.nameBy
    dsimp only
    rw [hsettled]
    exact ⟨rfl, rfl, rfl, hd.1, hd.2.1, hd.2.2.1, hd.2.2.2⟩
  unfold declared Item.declarator
  dsimp only
  have hzero : ((0 : Nat) == 0) = true := rfl
  rw [hzero, hhint]
  refine hnamed _ ?_
  generalize (x.rule table usings request.scope request.view).getD {} = rule
  generalize (request.view == .asPointer && _) = needsCast
  obtain ⟨hparameters, hdefinition⟩ :=
    x.item.parameters_draft (x.type table usings request.scope) true request.view
  have hlike := (x.item.draft (x.type table usings request.scope) true request.view).like_mappedTo
    request.scope rule request.choice needsCast
  exact ⟨hlike.parameters.trans hparameters, hlike.definition.trans hdefinition,
    hlike.typeName.trans (congrArg NativeType.nativeName (x.item.type_draft _ _ _)),
    hlike.isConstructor.trans ((congrArg NativeType.constructor (x.item.type_draft _ _ _)).trans
      (x.isPlain_type table usings request.scope).constructor_)⟩

/-! ### What is printed -/

/-- What is asked for the variable, and for a pointer to its elements. -/
abbrev lookingFor (scope : Scope) (number : Nat) (view : ArrayView) : DeclaratorRequest :=
  { scope, choice := -1, number, view }

/-- White space in front of the statement. -/
def spacing (x : Single) : String :=
  (x.words.head?.map (·.spacing)).getD ""

/-- What is known once the variable was recognized. -/
def subject (x : Single) (table : RuleTable) (usings : List String) (scope : Scope) (start : Nat) :
    Subject :=
  { scope, spacing := x.spacing, start, rule := none
    modifiers := modifiersOf scope
      (x.declared table usings { scope, view := .asDimension }).type.staticMember }

/-- The accessors. -/
def text (x : Single) (table : RuleTable) (usings : List String) (scope : Scope) : String :=
  let d := x.declared table usings (lookingFor scope 0 .asDimension)
  let m := (x.subject table usings scope 0).modifiers
  let n := namingOf scope d
  (if outerIndices scope == 0 || d.dims.isEmpty then elementText scope m n d else "") ++
    if d.dims.isEmpty then ""
    else arrayText scope m n (x.declared table usings (lookingFor scope 0 .asPointer))

/-- The declaration that is added. -/
def declaration (x : Single) (table : RuleTable) (usings : List String) (scope : Scope) :
    Declaration :=
  let d := x.declared table usings (lookingFor scope 0 .asDimension)
  { text := x.text table usings scope, signature := d.signature, declarator := some d
    isVariable := true }

/-- The outline with the variable. -/
def added (x : Single) (table : RuleTable) (usings : List String) (scope : Scope) (o : Outline) :
    Outline :=
  { ({ o with spacing := some x.spacing }.add table (x.declaration table usings scope)).2 with
    spacing := none }

/-- Its accessors are read with another look at it if it has dimensions. -/
theorem Readable.readText (h : x.Readable table usings scope) (htable : s.table = table)
    (husings : s.usings = usings) {j : Nat}
    (hsees : s.Sees (x.words ++ (x.item.tokens ++ x.semicolon :: u :: us)))
    (hbehind : (s.atIndex j).Sees (x.item.valueTokens ++ x.semicolon :: u :: us)) :
    Passes (readText (x.subject table usings scope s.window.index) 0
        (x.declared table usings (lookingFor scope 0 .asDimension))) (s.atIndex j)
      (x.item.valueTokens ++ x.semicolon :: u :: us) (· = x.text table usings scope) := by
  have hback : moveTo s.window.index (s.atIndex j) = .ok () s := rfl
  unfold Variable.readText Single.text
  generalize x.declared table usings (lookingFor scope 0 .asDimension) = d
  dsimp only
  by_cases hdims : d.dims.isEmpty = true
  · rw [if_pos hdims, if_pos hdims]
    exact passes_pure hbehind (by rw [String.append_empty]; rfl)
  · rw [if_neg hdims, if_neg hdims]
    obtain ⟨_, k, hread, hsees, rfl⟩ := h.read_declarator
      (lookingFor scope 0 .asPointer) rfl rfl htable husings hsees
    refine ⟨_, k, ?_, hsees, rfl⟩
    exact (bind_of_ok hback _).trans (bind_of_ok hread _)

/-- **The variable is read** and its declaration added. -/
theorem Readable.readNumber (h : x.Readable table usings scope) (htable : s.table = table)
    (husings : s.usings = usings) (hbare : ∀ t ∈ s.window.tokens, t.isComment = false)
    (hsees : s.Sees (x.words ++ (x.item.tokens ++ x.semicolon :: u :: us))) (k : Nat) :
    ∃ j, readNumber (x.subject table usings scope s.window.index) 0 (s.atIndex k) = .ok true
      { s.atIndex j with outline := ({ s.outline with spacing := some x.spacing }.add table
        (x.declaration table usings scope)).2 } := by
  have hback : moveTo s.window.index (s.atIndex k) = .ok () s := rfl
  have hdeclared := h.declared_as (lookingFor scope 0 .asDimension)
  obtain ⟨_, j, hread, hbehind, rfl⟩ := h.read_declarator
    (lookingFor scope 0 .asDimension) rfl rfl htable husings hsees
  obtain ⟨_, j₁, htext, hbehind, rfl⟩ := h.readText htable husings hsees hbehind
  obtain ⟨rest, _, j₂, hskip, -⟩ :=
    skipStatement_passes x.item.isEof_valueTokens h.isSemicolon hbehind
  have hcomment : Comment.takeAfter (((s.atIndex j).atIndex j₁).atIndex j₂) =
      .ok "" (((s.atIndex j).atIndex j₁).atIndex j₂) := takeAfter_of_bare hbare
  have hnative : ¬ (x.declared table usings (lookingFor scope 0 .asDimension)).nativeName.isEmpty =
      true := by
    rw [hdeclared.nativeName, x.item.isName.isEmpty_eq]
    simp
  refine ⟨j₂, ?_⟩
  unfold Variable.readNumber
  refine (bind_of_ok hback _).trans ((bind_of_ok hread _).trans ?_)
  dsimp only
  rw [if_neg hnative, bind_of_ok htext, bind_of_ok hskip, bind_of_ok hcomment]
  have hown : (none : Option Rule).bind (·.targetText) = none := rfl
  have hrule : (x.subject table usings scope s.window.index).rule = none := rfl
  rw [hrule, hown, Option.getD_none, ite_self, String.empty_append]
  obtain rfl := htable
  rfl

/-- Behind it there is none. -/
theorem Readable.readNumber_none (h : x.Readable table usings scope) (htable : s.table = table)
    (husings : s.usings = usings)
    (hsees : s.Sees (x.words ++ (x.item.tokens ++ x.semicolon :: u :: us))) (k : Nat) :
    Passes (Variable.readNumber (x.subject table usings scope s.window.index) 1) (s.atIndex k)
      (u :: us) (· = false) := by
  have hback : moveTo s.window.index (s.atIndex k) = .ok () s := rfl
  obtain ⟨_, j, hread, hbehind, rfl⟩ := h.read_none (lookingFor scope 1 .asDimension)
    Nat.one_pos htable husings hsees
  refine ⟨false, j, ?_, hbehind, rfl⟩
  unfold Variable.readNumber
  exact (bind_of_ok hback _).trans (bind_of_ok hread _)

/-- **A statement that declares one variable** is read as that. -/
theorem Readable.read (h : x.Readable table usings scope) (htable : s.table = table)
    (husings : s.usings = usings) (hbare : ∀ t ∈ s.window.tokens, t.isComment = false)
    (hsees : s.Sees (x.words ++ (x.item.tokens ++ x.semicolon :: u :: us))) :
    ∃ j, Variable.read scope s =
        .ok true { s.atIndex j with outline := x.added table usings scope s.outline } ∧
      (s.atIndex j).Sees (u :: us) := by
  have hends : x.semicolon.EndsItem := ⟨";", by simp, h.isSemicolon⟩
  obtain ⟨word, words, hwords⟩ := List.exists_cons_of_ne_nil h.nonempty
  have hpeek : peek s = .ok word s := peek_of_sees (by have := hsees; rwa [hwords] at this)
  have hspacing : word.spacing = x.spacing := by simp [spacing, hwords]
  have hcursor : cursor s = .ok s.window.index s := rfl
  have hdeclared := h.declared_as { scope, view := .asDimension }
  obtain ⟨_, j, hread, hbehind, rfl⟩ := h.read_declarator
    { scope, view := .asDimension } rfl rfl htable husings hsees
  obtain ⟨v, vs, hv, hitem⟩ := Base.exists_behind x.item hends (u :: us)
  have hnext : peek (s.atIndex j) = .ok v (s.atIndex j) := peek_of_sees (hv ▸ hbehind)
  have hrule : rule? (scope.qualifyLocal x.item.name.text) (s.atIndex j) =
      .ok none (s.atIndex j) := by
    change EStateM.Result.ok (s.table.find? (scope.qualifyLocal x.item.name.text)) _ = _
    rw [htable, h.unmatched _ (List.mem_cons_of_mem _ List.mem_cons_self)]
  obtain ⟨k, hnumber⟩ := h.readNumber htable husings hbare hsees j
  generalize hadded : ({ s.outline with spacing := some x.spacing }.add table
    (x.declaration table usings scope)).2 = o at hnumber
  obtain ⟨_, l, hnone, hstop, rfl⟩ := h.readNumber_none (s := { s with outline := o }) htable
    husings (hsees.withOutline o) k
  refine ⟨l, ?_, hstop.withOutline s.outline⟩
  have hloop : iterate 0 (numberTurn (x.subject table usings scope s.window.index)) (s.atIndex j) =
      .ok () { s.atIndex l with outline := o } := by
    obtain ⟨n, hn⟩ : ∃ n, (s.atIndex j).bound = n + 1 + 1 := by
      have hle := hsees.length_le
      simp only [hwords, List.length_append, List.length_cons] at hle
      exact ⟨s.bound - 2, by change s.bound = _; omega⟩
    have hfirst : numberTurn (x.subject table usings scope s.window.index) 0 (s.atIndex j) =
        .ok (.again 1) { s.atIndex k with outline := o } := by
      unfold numberTurn
      exact bind_of_ok hnumber _
    have hsecond : numberTurn (x.subject table usings scope s.window.index) 1
        { s.atIndex k with outline := o } = .ok (.done ()) { s.atIndex l with outline := o } := by
      unfold numberTurn
      exact bind_of_ok hnone _
    change iterateUpTo _ (s.atIndex j).bound 0 (s.atIndex j) = _
    rw [hn, iterateUpTo, bind_of_ok hfirst]
    dsimp only
    rw [iterateUpTo, bind_of_ok hsecond]
    rfl
  have hnative : ¬ (x.declared table usings { scope, view := .asDimension }).nativeName.isEmpty =
      true := by
    rw [hdeclared.nativeName, x.item.isName.isEmpty_eq]
    simp
  unfold Variable.read
  rw [bind_of_ok hcursor, bind_of_ok hpeek, bind_of_ok hread]
  dsimp only
  rw [if_neg hnative, bind_of_ok hnext, if_neg (by simp [hitem.isAny_eq]), hdeclared.nativeName,
    bind_of_ok hrule, if_neg (by simp), hspacing]
  refine (bind_of_ok hloop _).trans ?_
  rw [added, hadded]
  rfl

/-! ### One turn -/

/-- It starts with plain words. -/
theorem Readable.exists_startsPlain (h : x.Readable table usings scope) (rest : List Token) :
    ∃ ws u us, x.words ++ (x.item.tokens ++ x.semicolon :: rest) = ws ++ u :: us ∧
      Statement.StartsPlain ws u := by
  have hends : x.semicolon.EndsItem := ⟨";", by simp, h.isSemicolon⟩
  have hwords : ∀ t ∈ x.words, t.isEof = false ∧ t.is "#" = false ∧
      t.isKeywordWith Keyword.starts = false := by
    intro t ht
    obtain ⟨type, hjoins⟩ := h.spelled.exists_joins ht
    exact ⟨hjoins.isEof_eq, hjoins.is_eq "#" (by decide), h.plain t ht⟩
  have hstars : ∀ t ∈ x.item.stars, t.isEof = false ∧ t.is "#" = false ∧
      t.isKeywordWith Keyword.starts = false := fun t ht =>
    have hstar := x.item.areStars t ht
    ⟨hstar.isEof_eq, by simp [hstar.is_eq],
      Token.isKeywordWith_of_isWord hstar.isWord_eq Keyword.starts⟩
  have hname := x.item.isName
  obtain ⟨u, us, mark, hu, hmark, hmem⟩ := x.item.exists_stop hends rest
  have hfront : ∀ t ∈ x.words ++ (x.item.stars ++ [x.item.name]), t.isEof = false ∧
      t.is "#" = false ∧ t.isKeywordWith Keyword.starts = false := by
    simp only [List.forall_mem_append, List.forall_mem_singleton]
    exact ⟨hwords, hstars, hname.isEof_eq, hname.is_eq "#" (by decide),
      by simp [Token.isKeywordWith, hname.kind]⟩
  have hhash : u.is "#" = false := by
    rw [hmark.is_eq, beq_eq_false_iff_ne]
    rintro rfl
    revert hmem
    decide
  obtain ⟨ws, v, vs, htokens, hplain⟩ :=
    Statement.exists_startsPlain us hfront hmark.isEof_eq hmark.isWord_eq hhash
  refine ⟨ws, v, vs, ?_, hplain⟩
  rw [← htokens, ← hu]
  simp [Item.tokens, Item.named]

/-- It is no function. -/
theorem Readable.attempt_function (h : x.Readable table usings scope) (htable : s.table = table)
    (husings : s.usings = usings)
    (hsees : s.Sees (x.words ++ (x.item.tokens ++ x.semicolon :: us))) :
    attempt (Function.read scope) s = .ok false s := by
  obtain ⟨word, words, hwords⟩ := List.exists_cons_of_ne_nil h.nonempty
  have hstart := hsees
  rw [hwords] at hstart
  have htype := h.read_type htable husings hsees
  have hplain := x.isPlain_type table usings scope
  have hordinary : ((x.type table usings scope).constructor || (x.type table usings scope).destructor
      || (x.type table usings scope).operator) = false := by
    rw [hplain.constructor_, hplain.destructor, hplain.operator]
    rfl
  have hread := h.read_declarator { scope, choice := 0, keepDefaults := none } rfl rfl
    htable husings hsees
  have hdeclared := h.declared_as { scope, choice := 0, keepDefaults := none }
  have hfound := hread.imp (Q := fun d => ∃ d', d = some d' ∧ d'.parameters = none) (by
    rintro _ rfl
    exact ⟨_, rfl, hdeclared.parameters⟩)
  cases hstars : x.item.stars.drop 1 with
  | nil =>
      rw [hstars] at htype
      exact Function.attempt_of_absent (h.plain word (by simp [hwords])) hstart htype
        (x.item.isName.is_eq "(" (by decide)) hordinary hfound
  | cons star stars =>
      rw [hstars] at htype
      have hstar : star.IsMark "*" :=
        x.item.areStars star (List.mem_of_mem_drop (by rw [hstars]; exact List.mem_cons_self))
      exact Function.attempt_of_absent (h.plain word (by simp [hwords])) hstart htype
        (by simp [hstar.is_eq]) hordinary hfound

/-- The outline behind the statement. -/
def turned (x : Single) (table : RuleTable) (usings : List String) (scope : Scope) (o : Outline) :
    Outline :=
  x.added table usings scope (o.beginStatement scope.inaccessible none)

/-- The declaration is neither held back nor skipped, and needs no helpers. -/
theorem Readable.turned_eq (h : x.Readable table usings scope) (o : Outline) :
    x.turned table usings scope o =
      { ({ o.beginStatement scope.inaccessible none with spacing := some x.spacing }.insert
        (x.declaration table usings scope)) with spacing := none } := by
  have hdeclared := h.declared_as (lookingFor scope 0 .asDimension)
  have hskipped : Outline.isSkipped table (x.declaration table usings scope) = false := by
    unfold Outline.isSkipped declaration
    dsimp only
    rw [hdeclared.typeName, hdeclared.parameters, h.kept, Bool.and_false]
    rfl
  have hhelpers : Outline.helpers (x.declaration table usings scope) = [] := by
    obtain ⟨-, -, -, hparameters, hdefinition, -⟩ := hdeclared
    unfold declaration
    generalize x.declared table usings (lookingFor scope 0 .asDimension) = d at *
    cases d
    dsimp only at hparameters hdefinition
    subst hparameters hdefinition
    simp [Outline.helpers, Declaration.helpersOf]
  have hbound (o : Outline) : ({ o.beginStatement scope.inaccessible none with
      spacing := some x.spacing } : Outline).isUnbound = false := rfl
  have htaken : ({ o.beginStatement scope.inaccessible none with
      spacing := some x.spacing }.add table (x.declaration table usings scope)).1 = true := by
    unfold Outline.add
    rw [hbound, if_neg (by simp), if_neg (by simp [hskipped])]
  have hadd := Outline.add_of_taken htaken
  rw [hhelpers, List.foldl_nil] at hadd
  rw [turned, added, hadd]

/-- **One turn** of the loop over a scope reads the variable. -/
theorem Readable.scopeTurn_eq (h : x.Readable table usings scope) (readScope : Class.ScopeReader)
    (htable : s.table = table) (husings : s.usings = usings)
    (hbare : ∀ t ∈ s.window.tokens, t.isComment = false)
    (hsees : s.Sees (x.words ++ (x.item.tokens ++ x.semicolon :: u :: us))) (hu : u.is ";" = false) :
    ∃ j, Statement.scopeTurn readScope scope s = .ok (.again scope) { s.atIndex j with
        outline := x.turned table usings scope s.outline } ∧ (s.atIndex j).Sees (u :: us) := by
  obtain ⟨word, words, hwords⟩ := List.exists_cons_of_ne_nil h.nonempty
  have hstart := hsees
  rw [hwords] at hstart
  have hplainly : (Statement.begun scope s).Sees
      (x.words ++ (x.item.tokens ++ x.semicolon :: u :: us)) := hsees.withOutline _
  have hfunction := h.attempt_function (s := Statement.begun scope s) htable husings hplainly
  obtain ⟨j, hread, hbehind⟩ := h.read (s := Statement.begun scope s) htable husings hbare hplainly
  generalize hs' : ({ (Statement.begun scope s).atIndex j with
    outline := x.added table usings scope (Statement.begun scope s).outline } : Reading) = s' at hread
  have hattempt : attempt (Variable.read scope) (Statement.begun scope s) = .ok true s' := by
    have hcursor (s : Reading) : cursor s = .ok s.window.index s := rfl
    unfold attempt
    rw [bind_of_ok (hcursor _), bind_of_ok hread]
    rfl
  have hall : Statement.tryAll (Statement.recognizers readScope scope) (Statement.begun scope s) =
      .ok true s' := by
    obtain ⟨ws, v, vs, htokens, hplain⟩ := h.exists_startsPlain (u :: us)
    rw [htokens] at hplainly
    rw [hplain.tryAll_eq hplainly, Statement.tryAll_of_false hfunction]
    exact Statement.tryAll_of_true hattempt
  have hword : word ∈ x.words := by simp [hwords]
  obtain ⟨type, hjoins⟩ := h.spelled.exists_joins hword
  have houtline : s'.outline = x.turned table usings scope s.outline := by
    rw [← hs']
    rfl
  have hnone : s'.outline.statement.instances = none := by
    rw [houtline, h.turned_eq]
    dsimp only
    rw [Outline.insert_statement]
    rfl
  have hseen : s'.Sees (u :: us) := by
    rw [← hs']
    exact hbehind.withOutline _
  refine ⟨j, ?_, hbehind.withOutline s.outline⟩
  rw [Statement.scopeTurn_of_bare hbare hstart hjoins.isEof_eq (hjoins.is_eq "\x7d" (by decide))
    (h.plain word hword) hall hseen hu hnone, ← hs']
  rfl

/-! ### Outlines with the variable -/

/-- The declaration with the white space of the statement. -/
def printed (x : Single) (table : RuleTable) (usings : List String) (scope : Scope) : Declaration :=
  Outline.stored
    { spacing := some x.spacing, statement := { inaccessible := some scope.inaccessible } }
    (x.declaration table usings scope)

theorem Readable.signature_printed (h : x.Readable table usings scope) :
    (x.printed table usings scope).signature = x.item.name.text :=
  (h.declared_as (lookingFor scope 0 .asDimension)).signature

theorem text_ne (x : Single) (table : RuleTable) (usings : List String) (scope : Scope) :
    (x.text table usings scope).isEmpty = false := by
  rw [Bool.eq_false_iff]
  intro hempty
  have hnil := congrArg String.toList (String.isEmpty_iff.mp hempty)
  unfold text at hnil
  generalize x.declared table usings (lookingFor scope 0 .asDimension) = d at hnil
  dsimp only at hnil
  by_cases hdims : d.dims.isEmpty = true
  · rw [if_pos (by simp [hdims])] at hnil
    simp [elementText] at hnil
  · rw [if_neg hdims] at hnil
    simp [arrayText] at hnil

/-- In a public section, nothing takes its place. -/
theorem Readable.isFirm_printed (h : x.Readable table usings scope)
    (hpublic : scope.inaccessible = false) :
    Outline.isFirm (x.printed table usings scope) = true := by
  have hsignature : ((x.printed table usings scope).signature != "") = true := by
    have hempty := x.item.isName.isEmpty_eq
    rw [h.signature_printed]
    simpa using hempty
  have haccess : (x.printed table usings scope).inaccessible = false := by
    have hempty := x.text_ne table usings scope
    change (_ || (x.text table usings scope).isEmpty) = false
    rw [hempty, hpublic, Bool.or_false]
    exact ite_self false
  unfold Outline.isFirm
  rw [hsignature, haccess]
  rfl

/-- A variable of a new name is put behind the others. -/
theorem Readable.turned_of_fresh (h : x.Readable table usings scope) {o : Outline}
    (hfresh : ∀ e ∈ o.toList, e.signature ≠ x.item.name.text) :
    (x.turned table usings scope o).toList = o.toList ++ [x.printed table usings scope] := by
  have hname : (x.declaration table usings scope).signature = x.item.name.text :=
    h.signature_printed
  have hsignature : ¬ (x.declaration table usings scope).signature = "" := by
    have hempty := x.item.isName.isEmpty_eq
    rw [hname]
    simpa using hempty
  have hkept : o.toList.filter (Outline.stays (x.printed table usings scope)) = o.toList :=
    List.filter_eq_self.mpr fun e he => Outline.stays_eq_true_iff.mpr fun hsame =>
      absurd (hsame.trans hname) (hfresh e he)
  have hinserted := Outline.toList_insert { o.beginStatement scope.inaccessible none with
    spacing := some x.spacing } (x.declaration table usings scope)
  rw [if_neg hsignature] at hinserted
  rw [h.turned_eq]
  refine hinserted.trans ?_
  change (if (o.toList.filter (Outline.stays (x.printed table usings scope))).any _ = true then _
    else _) = _
  rw [hkept, hname, if_neg (by simpa using hfresh)]
  exact congrArg (· ++ [x.printed table usings scope]) hkept

/-- A variable of a name that is taken changes nothing. -/
theorem Readable.turned_of_taken (h : x.Readable table usings scope) {o : Outline}
    (htaken : ∃ e ∈ o.toList, e.signature = x.item.name.text)
    (hfirm : ∀ e ∈ o.toList, Outline.isFirm e = true) :
    (x.turned table usings scope o).toList = o.toList := by
  have hname : (x.declaration table usings scope).signature = x.item.name.text :=
    h.signature_printed
  have hsignature : ¬ (x.declaration table usings scope).signature = "" := by
    have hempty := x.item.isName.isEmpty_eq
    rw [hname]
    simpa using hempty
  have hkept : o.toList.filter (Outline.stays (x.printed table usings scope)) = o.toList :=
    List.filter_eq_self.mpr fun e he => Outline.stays_eq_true_iff.mpr fun _ =>
      Outline.yields_of_isFirm (hfirm e he) _
  have hinserted := Outline.toList_insert { o.beginStatement scope.inaccessible none with
    spacing := some x.spacing } (x.declaration table usings scope)
  rw [if_neg hsignature] at hinserted
  rw [h.turned_eq]
  refine hinserted.trans ?_
  change (if (o.toList.filter (Outline.stays (x.printed table usings scope))).any _ = true then _
    else _) = _
  rw [hkept, hname, if_pos (by simpa using htaken)]
  exact hkept

end Single

end Variable

end HeaderPeers

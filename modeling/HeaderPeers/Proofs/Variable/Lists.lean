import HeaderPeers.Proofs.Recognizers
import HeaderPeers.Proofs.Variable.Declared

/-!
# Lists of variables

A list of variables is read once for each of its items: each time from the start, past
the items in front of the one that is looked for. So each item is declared as it is alone.

- `Variable.Base` — the type of a list.
- `Variable.Base.read_first`, `Variable.Base.read_later`, `Variable.Base.read_none` — the
  declarators of a list.
- `Variable.Base.read_hidden` — a bracket that stays open hides those behind it.
-/

namespace HeaderPeers

open ReadM

/-- Behind its type, a declarator is looked for. -/
theorem Declarator.read_of_type {s : Reading} {request : DeclaratorRequest} {type : NativeType}
    {word : Token} {ts us rest : List Token} {P : Option Declarator → Prop}
    (hplain : word.isKeywordWith Keyword.starts = false) (h : s.Sees (word :: ts))
    (htype : Passes (NativeType.read request.scope) s us (· = some type))
    (hrest : ∀ readDeclarator j, (s.atIndex j).Sees us → Passes (do
      if !(← skipTo request.number) then return none
      return some (← readBehind readDeclarator request type false false)) (s.atIndex j) rest P) :
    Passes (read request) s rest P := by
  have hpeek : peek s = .ok word s := peek_of_sees h
  refine nest_passes h fun n => ?_
  unfold readWith Passes
  rw [bind_of_ok hpeek, bind_of_ok hpeek, Token.isKeyword_of_isKeywordWith hplain .typedef_ rfl,
    Token.isKeyword_of_isKeywordWith hplain .using_ rfl]
  exact htype.bind_eq fun j h => hrest (nestUpTo readWith n) j h

namespace Variable

variable {table : RuleTable} {s : Reading} {t u comma semicolon : Token} {ts us rest : List Token}

/-- The words of a type outside of scopes, and what they are read as in front of a star, which is
taken, and in front of a name: two types that differ in stars and target names. All shapes of the
type have rules with target types. -/
structure Base (table : RuleTable) where
  words : List Token
  type : Bool → NativeType
  nonempty : words ≠ []
  plain : ∀ t ∈ words, t.isWord = true ∧ Text.isWord t.text.toList = true ∧
    t.isKeywordWith Keyword.starts = false
  shape : ∀ starred, ∃ target targets,
    type starred = (type false).reshaped starred.toNat target targets
  named : (type false).nativeName ≠ ""
  ordinary : (type false).reference = false ∧ (type false).constructor = false ∧
    (type false).destructor = false ∧ (type false).operator = false
  unhinted : (type false).attributes = []
  rules : ∀ const, (const = true → (type false).constValue = true) →
    ∃ rule, table.findWith? ((if const then "const " else "") ++ (type false).nativeName) false =
      some rule ∧ rule.MapsAll
  kept : ∀ rule ∈ table.find? (type false).nativeName, rule.skipsType = false
  reads_star : ∀ (s : Reading) (star u : Token) (ts : List Token), s.table = table →
    s.usings = [] → star.IsMark "*" → u.is "..." = false → s.Sees (words ++ star :: u :: ts) →
    Passes (NativeType.read {}) s (u :: ts) (· = some (type true))
  reads_name : ∀ (s : Reading) (name u : Token) (ts : List Token), s.table = table →
    s.usings = [] → name.IsName → table.find? name.text = none → u.StopsName →
    s.Sees (words ++ name :: u :: ts) →
    Passes (NativeType.read {}) s (name :: u :: ts) (· = some (type false))

namespace Item

/-- Whether the type has the first star of this item. -/
def isStarred (x : Item) : Bool :=
  !x.stars.isEmpty

/-- What an item alone is declared as. -/
def declared (x : Item) (b : Base table) (request : DeclaratorRequest) : Declarator :=
  let type := b.type x.isStarred
  let name := (x.draft type true request.view).lookupName
  x.declarator table [] type ((table.findWith? name false).getD {}) { request with number := 0 }

theorem type_draft (x : Item) (type : NativeType) (isFirst : Bool) (view : ArrayView) :
    (x.draft type isFirst view).type = type := by
  have hmarks := type_pushMarks (Draft.ofType type isFirst) (x.stars.drop isFirst.toNat)
  have hdims (d : Draft) : (d.withDims view (x.dims.map Dimension.extent)).type = d.type := by
    unfold Draft.withDims
    cases view with
    | plain => rfl
    | asPointer =>
        dsimp only
        split <;> rfl
    | asDimension =>
        dsimp only
        split <;> split <;> rfl
  exact (hdims _).trans hmarks

end Item

/-- A request for a declarator at the top of a file. -/
structure AtTop (request : DeclaratorRequest) : Prop where
  scope : request.scope = {}
  unnamed : request.defaultName = none

namespace Base

variable {b : Base table} {request : DeclaratorRequest} {x first : Item}

theorem constValue_eq (b : Base table) (starred : Bool) :
    (b.type starred).constValue = (b.type false).constValue ∧
      (b.type starred).nativeName = (b.type false).nativeName ∧
      (b.type starred).reference = false ∧ (b.type starred).attributes = [] ∧
      (b.type starred).indirections = starred.toNat := by
  obtain ⟨target, targets, htype⟩ := b.shape starred
  rw [htype]
  exact ⟨rfl, rfl, b.ordinary.1, b.unhinted, rfl⟩

/-- The two types differ in stars and target names. -/
theorem exists_reshaped (b : Base table) (starred starred' : Bool) : ∃ target targets,
    b.type starred = (b.type starred').reshaped starred.toNat target targets := by
  obtain ⟨target, targets, htype⟩ := b.shape starred
  obtain ⟨target', targets', htype'⟩ := b.shape starred'
  refine ⟨target, targets, ?_⟩
  rw [htype, htype']
  rfl

/-- The rule for the shape of an item. -/
theorem exists_rule (b : Base table) (x : Item) (starred isFirst : Bool) (view : ArrayView) :
    ∃ rule, table.findWith? (x.draft (b.type starred) isFirst view).lookupName false = some rule ∧
      rule.MapsAll := by
  obtain ⟨hconst, hname, -⟩ := b.constValue_eq starred
  unfold Draft.lookupName
  rw [x.type_draft, hconst, hname]
  refine b.rules _ fun h => ?_
  simp only [Bool.and_eq_true] at h
  exact h.1.1

theorem finds (b : Base table) (x : Item) (starred isFirst : Bool) (view : ArrayView) :
    (x.draft (b.type starred) isFirst view).Finds table [] {}
      (x.draft (b.type starred) isFirst view,
        some ((table.findWith? (x.draft (b.type starred) isFirst view).lookupName false).getD {})) := by
  obtain ⟨rule, hrule, hmaps⟩ := b.exists_rule x starred isFirst view
  rw [hrule, Option.getD_some]
  refine Draft.finds_of_plain hrule (fun r hr => ?_) nofun
  obtain rfl := Option.some.inj hr
  rw [hmaps.native]
  rfl

/-- **The type of a list** is read with the first star of its first item. -/
theorem reads (b : Base table) (x : Item) (htable : s.table = table) (husings : s.usings = [])
    (hname : table.find? x.name.text = none) (ht : t.EndsItem)
    (h : s.Sees (b.words ++ (x.tokens ++ t :: ts))) :
    Passes (NativeType.read {}) s (x.stars.drop 1 ++ (x.named ++ t :: ts))
      (· = some (b.type x.isStarred)) := by
  obtain ⟨u, us, hu, hstops⟩ : ∃ u us, x.dims.flatMap Dimension.tokens ++ x.valueTokens ++ t :: ts =
      u :: us ∧ u.StopsName := by
    cases x.dims with
    | cons d dims => exact ⟨d.opening, _, rfl, d.isOpening.stopsName (by decide)⟩
    | nil =>
        unfold Item.valueTokens
        cases hvalue : x.value with
        | none => exact ⟨t, ts, rfl, ht.stopsName⟩
        | some v => exact ⟨v.1, _, rfl, (x.isValue v hvalue).1.stopsName (by decide)⟩
  have hnamed : x.named ++ t :: ts = x.name :: u :: us := by
    rw [← hu]
    rfl
  unfold Item.tokens at h
  rw [List.append_assoc, hnamed] at h
  rw [hnamed]
  unfold Item.isStarred
  cases hstars : x.stars with
  | nil =>
      rw [hstars] at h
      exact b.reads_name s x.name u us htable husings x.isName hname hstops h
  | cons star stars =>
      rw [hstars] at h
      obtain ⟨v, vs, hv, hdots⟩ : ∃ v vs, stars ++ x.name :: u :: us = v :: vs ∧
          v.is "..." = false := by
        cases stars with
        | nil => exact ⟨x.name, u :: us, rfl, x.isName.is_eq "..." (by decide)⟩
        | cons next stars =>
            have hnext := x.areStars next (by simp [hstars])
            exact ⟨next, _, rfl, by simp [hnext.is_eq]⟩
      rw [List.cons_append, hv] at h
      rw [List.drop_one, List.tail_cons, hv]
      exact b.reads_star s star v vs htable husings (x.areStars star (by simp [hstars])) hdots h

/-- A declarator is looked for behind the type. -/
theorem read_passes {type : NativeType} {P : Option Declarator → Prop} (b : Base table)
    (hrequest : AtTop request) (h : s.Sees (b.words ++ ts))
    (htype : Passes (NativeType.read {}) s us (· = some type))
    (hrest : ∀ readDeclarator j, (s.atIndex j).Sees us → Passes (do
      if !(← Declarator.skipTo request.number) then return none
      return some (← Declarator.readBehind readDeclarator request type false false))
        (s.atIndex j) rest P) :
    Passes (Declarator.read request) s rest P := by
  obtain ⟨word, words, hwords⟩ := List.exists_cons_of_ne_nil b.nonempty
  obtain ⟨-, -, hplain⟩ := b.plain word (by simp [hwords])
  rw [hwords] at h
  rw [← hrequest.scope] at htype
  exact Declarator.read_of_type hplain h htype hrest

theorem named_append (x : Item) : x.named ++ t :: ts =
    x.name :: (x.dims.flatMap Dimension.tokens ++ (x.valueTokens ++ t :: ts)) := by
  simp [Item.named]

/-- What stands behind the dimensions of an item ends it. -/
theorem exists_behind (x : Item) (ht : t.EndsItem) (ts : List Token) :
    ∃ u us, x.valueTokens ++ t :: ts = u :: us ∧ u.EndsItem := by
  unfold Item.valueTokens
  cases hvalue : x.value with
  | none => exact ⟨t, ts, rfl, ht⟩
  | some v => exact ⟨v.1, _, rfl, "=", by simp, (x.isValue v hvalue).1⟩

/-- An item that was reached is read with the rule for its shape. -/
theorem readBehind_passes (b : Base table) (x : Item) (starred : Bool)
    (readDeclarator : DeclaratorReader) (htable : s.table = table) (husings : s.usings = [])
    (hname : table.find? x.name.text = none) (hrequest : AtTop request) (ht : t.EndsItem)
    (h : s.Sees (x.stars.drop (request.number == 0).toNat ++ (x.named ++ t :: ts))) :
    Passes (Declarator.readBehind readDeclarator request (b.type starred) false false) s
      (x.valueTokens ++ t :: ts) (· = x.declarator table [] (b.type starred)
        ((table.findWith? (x.draft (b.type starred) (request.number == 0) request.view).lookupName
          false).getD {}) request) := by
  obtain ⟨u, us, hu, hends⟩ := exists_behind x ht ts
  have hplain : (s.table.find? x.name.text).any (·.isAttribute) = false := by
    rw [htable, hname]
    rfl
  have hfinds := b.finds x starred (request.number == 0) request.view
  rw [named_append, hu] at h
  rw [hu]
  have hread := x.readBehind_passes readDeclarator h hends hrequest.unnamed hplain
    (by rw [htable, husings, hrequest.scope]; exact hfinds)
  rwa [htable, husings] at hread

/-- **The first item** is declared as it is alone. -/
theorem read_first (b : Base table) (x : Item) (htable : s.table = table) (husings : s.usings = [])
    (hname : table.find? x.name.text = none) (hrequest : AtTop request)
    (hnumber : request.number = 0) (ht : t.EndsItem)
    (h : s.Sees (b.words ++ (x.tokens ++ t :: ts))) :
    Passes (Declarator.read request) s (x.valueTokens ++ t :: ts)
      (· = some (x.declared b request)) := by
  have hfirst : (request.number == 0) = true := by simp [hnumber]
  have hzero : ({ request with number := 0 } : DeclaratorRequest) = request := by rw [← hnumber]
  refine b.read_passes hrequest h (b.reads x htable husings hname ht h) fun reader j h => ?_
  obtain ⟨v, vs, hv⟩ : ∃ v vs, x.stars.drop 1 ++ (x.named ++ t :: ts) = v :: vs := by
    cases x.stars.drop 1 with
    | nil => exact ⟨x.name, _, rfl⟩
    | cons star stars => exact ⟨star, _, rfl⟩
  rw [hv] at h
  rw [hnumber]
  refine (Declarator.skipTo_zero_passes h).bind_eq fun k h => ?_
  rw [if_neg (by simp)]
  have hsees : ((s.atIndex j).atIndex k).Sees
      (x.stars.drop (request.number == 0).toNat ++ (x.named ++ t :: ts)) := by
    rw [hfirst]
    exact hv ▸ h
  refine (b.readBehind_passes (s := (s.atIndex j).atIndex k) x x.isStarred reader htable husings hname hrequest ht
    hsees).bind_eq fun l h => passes_pure h ?_
  rw [hfirst]
  unfold Item.declared
  rw [hzero]

/-- **A later item** is declared as it is alone, up to the stars of the type: it has those of the
first item. -/
theorem read_later (b : Base table) (first x : Item) {before : List (Token × Item)}
    (hclosed : first.Closed) (hbefore : ∀ y ∈ before, y.1.IsMark "," ∧ y.2.Closed)
    (hcomma : comma.IsMark ",") (htable : s.table = table)
    (husings : s.usings = []) (hfirst : table.find? first.name.text = none)
    (hname : table.find? x.name.text = none) (hrequest : AtTop request)
    (hnumber : request.number = before.length + 1) (ht : t.EndsItem)
    (h : s.Sees (b.words ++ (first.tokens ++ (Item.listed before ++ comma :: (x.tokens ++ t :: ts))))) :
    Passes (Declarator.read request) s (x.valueTokens ++ t :: ts)
      (· = some ((x.declared b request).starred first.isStarred.toNat)) := by
  have hlater : (request.number == 0) = false := by simp [hnumber]
  obtain ⟨u, us, hu, hends⟩ : ∃ u us, Item.listed before ++ comma :: (x.tokens ++ t :: ts) =
      u :: us ∧ u.EndsItem := by
    cases before with
    | nil => exact ⟨comma, _, rfl, ",", by simp, hcomma⟩
    | cons y before => exact ⟨y.1, _, rfl, ",", by simp, (hbefore y List.mem_cons_self).1⟩
  rw [hu] at h
  refine b.read_passes hrequest h (b.reads first htable husings hfirst hends h) fun reader j h => ?_
  obtain ⟨v, vs, hv⟩ : ∃ v vs, x.tokens ++ t :: ts = v :: vs := by
    unfold Item.tokens
    cases x.stars with
    | nil => exact ⟨x.name, _, rfl⟩
    | cons star stars => exact ⟨star, _, rfl⟩
  rw [← hu, ← List.append_assoc, hv] at h
  rw [hnumber]
  refine (Declarator.skipTo_item (Declarator.passedOver_item hclosed 1) hbefore hcomma
    h).bind_eq fun k h => ?_
  rw [if_neg (by simp)]
  have hsees : ((s.atIndex j).atIndex k).Sees
      (x.stars.drop (request.number == 0).toNat ++ (x.named ++ t :: ts)) := by
    rw [← hv] at h
    rw [hlater]
    simpa [Item.tokens] using h
  refine (b.readBehind_passes (s := (s.atIndex j).atIndex k) x first.isStarred reader htable husings hname hrequest ht
    hsees).bind_eq fun l h => passes_pure h ?_
  obtain ⟨rule, hrule, hmaps⟩ := b.exists_rule x x.isStarred true request.view
  obtain ⟨target, targets, hshape⟩ := b.exists_reshaped first.isStarred x.isStarred
  obtain ⟨-, -, hreference, -, hstars⟩ := b.constValue_eq x.isStarred
  have hone : (b.type x.isStarred).indirections = (x.stars.take 1).length := by
    rw [hstars]
    unfold Item.isStarred
    cases x.stars <;> rfl
  have hlookup : (x.draft (b.type first.isStarred) false request.view).lookupName =
      (x.draft (b.type x.isStarred) true request.view).lookupName := by
    rw [hshape, Item.draft_behind x hreference hone]
    rfl
  rw [hlater, hlookup, hrule, Option.getD_some, hshape,
    x.declarator_behind table [] hmaps hreference hone request (by simp [hnumber])]
  unfold Item.declared
  dsimp only
  rw [hrule, Option.getD_some]

/-- Behind the last item there is none. -/
theorem read_none (b : Base table) (first : Item) {others : List (Token × Item)}
    (hclosed : first.Closed) (hothers : ∀ y ∈ others, y.1.IsMark "," ∧ y.2.Closed)
    (hsemicolon : semicolon.IsMark ";")
    (htable : s.table = table) (husings : s.usings = [])
    (hfirst : table.find? first.name.text = none) (hrequest : AtTop request)
    (hnumber : others.length < request.number)
    (h : s.Sees (b.words ++ (first.tokens ++ (Item.listed others ++ semicolon :: t :: ts)))) :
    Passes (Declarator.read request) s (t :: ts) (· = none) := by
  obtain ⟨u, us, hu, hends⟩ : ∃ u us, Item.listed others ++ semicolon :: t :: ts = u :: us ∧
      u.EndsItem := by
    cases others with
    | nil => exact ⟨semicolon, t :: ts, rfl, ";", by simp, hsemicolon⟩
    | cons y others => exact ⟨y.1, _, rfl, ",", by simp, (hothers y List.mem_cons_self).1⟩
  rw [hu] at h
  refine b.read_passes hrequest h (b.reads first htable husings hfirst hends h) fun reader j h => ?_
  rw [← hu, ← List.append_assoc] at h
  refine (Declarator.skipTo_end (Declarator.passedOver_item hclosed 1) hothers hsemicolon hnumber
    h).bind_eq fun j h => ?_
  exact passes_pure h rfl

/-- At the end of the input there is no name. -/
theorem readBehind_nameless (b : Base table) (starred : Bool) (readDeclarator : DeclaratorReader)
    (htable : s.table = table) (husings : s.usings = []) (hrequest : AtTop request)
    (hnumber : 0 < request.number) (ht : t.isEof = true) (h : s.Sees [t]) :
    Passes (Declarator.readBehind readDeclarator request (b.type starred) false false) s [t]
      (·.nativeName = "") := by
  have hlater : (request.number == 0) = false := beq_eq_false_iff_ne.mpr (Nat.ne_of_gt hnumber)
  have hmark : Draft.marks t = false := by
    simp [Draft.marks, Token.isAny, Token.is_of_isEof ht, Token.isKeyword_of_isEof ht]
  -- there are neither stars nor dimensions, as for an item that is only a name
  let bare : Item :=
    { stars := [], name := { kind := .identifier, text := "x" }, dims := [], value := none
      areStars := Item.areStars_nil, isName := ⟨rfl, by decide⟩, isValue := Item.isValue_none }
  have hbare : (Draft.ofType (b.type starred) false).withDims request.view [] =
      bare.draft (b.type starred) false request.view := rfl
  have hfinds := b.finds bare starred false request.view
  subst htable
  rw [← hbare, ← husings, ← hrequest.scope] at hfinds
  unfold Declarator.readBehind
  rw [hlater]
  have hnone : ∀ t ∈ ([] : List Token), Draft.marks t = true := List.forall_mem_nil _
  refine (Draft.readMarks_passes hnone hmark _ h).bind_eq fun j h => ?_
  refine (Draft.readAttributes_passes _ h (Token.is_of_isEof ht _) fun hword => ?_).bind_eq
    fun j h => ?_
  · rw [Token.isWord_of_isEof ht] at hword
    cases hword
  refine (Declarator.openParens_passes h (Token.is_of_isEof ht _)).bind_eq fun j h => ?_
  refine (DeclaredName.read_nameless request.scope h (Token.is_of_isEof ht _)
    (Token.isWord_of_isEof ht)).bind_eq fun j h => ?_
  refine (DeclaredName.readDims_passes h (Token.is_of_isEof ht _) []).bind_eq fun j h => ?_
  have htitle : (if ("" : String).isEmpty then request.defaultName.getD "" else "") = "" := by
    rw [hrequest.unnamed]
    rfl
  dsimp only
  rw [htitle]
  refine (Draft.readBitfield_passes _ h (Token.is_of_isEof ht _)).bind_eq fun j h => ?_
  refine (Draft.readMapping_to h hfinds).bind_eq fun j h => ?_
  refine (passes_of_eq (a := _) rfl h : Passes get _ _ (· = _)).bind_eq fun j h => ?_
  refine (Draft.readParameters_absent _ readDeclarator request _ false h
    (Token.is_of_isEof ht _)).bind_eq fun j h => ?_
  exact (Declarator.closeParens_passes h).bind_eq fun j h => passes_pure h rfl

/-- **Behind a bracket that stays open** nothing is declared any more. -/
theorem read_hidden (b : Base table) (x : Item) (hhidden : Declarator.Hidden 0
      (x.stars.drop 1 ++ (x.named ++ t :: ts)))
    (hu : u.isEof = true) (htable : s.table = table) (husings : s.usings = [])
    (hname : table.find? x.name.text = none) (hrequest : AtTop request)
    (hnumber : 0 < request.number) (ht : t.EndsItem)
    (h : s.Sees (b.words ++ (x.tokens ++ t :: (ts ++ [u])))) :
    Passes (Declarator.read request) s [u] fun d => ∀ d' ∈ d, d'.nativeName = "" := by
  refine b.read_passes hrequest h (b.reads x htable husings hname ht h) fun reader j h => ?_
  have htokens : x.stars.drop 1 ++ (x.named ++ t :: (ts ++ [u])) =
      x.stars.drop 1 ++ (x.named ++ t :: ts) ++ [u] := by simp
  rw [htokens] at h
  refine (Declarator.skipTo_hidden hu hhidden hnumber h).bind_eq fun k h => ?_
  rw [if_neg (by simp)]
  refine (b.readBehind_nameless (s := (s.atIndex j).atIndex k) x.isStarred reader htable husings
    hrequest hnumber hu h).bind fun d l hd h => passes_pure h fun d' hd' => ?_
  obtain rfl := Option.some.inj hd'
  exact hd

end Base

end Variable

end HeaderPeers

import HeaderPeers.Proofs.Outline
import HeaderPeers.Proofs.Variable.Lists

/-!
# What is printed for a list of variables

Each item of a list is printed as it is alone: with the same accessors, under its name. Only
the white space in front differs, since the items of a list stand on lines of their own.

- `Variable.Item.printed` — the accessors of an item.
- `Variable.Listing` — a list of variables.
- `Variable.Spells` — tokens in which items are found: a list, and one where a bracket stays open.
- `Variable.AtItems.readNumber` — one item is added.
-/

namespace HeaderPeers.Variable

open ReadM

variable {table : RuleTable} {s : Reading} {t u comma semicolon : Token} {ts us rest : List Token}

/-! ## Declarations -/

/-- What is asked for a variable, and for a pointer to its elements. -/
abbrev ofNumber (number : Nat) (view : ArrayView) : DeclaratorRequest :=
  { scope := {}, choice := -1, number, view }

theorem atTop_ofNumber (number : Nat) (view : ArrayView) : AtTop (ofNumber number view) :=
  ⟨rfl, rfl⟩

/-- Variables at the top of a file have static accessors. -/
abbrev topModifiers : Modifiers :=
  ⟨"public static native ", "void "⟩

namespace Item

/-- The accessors that are printed for an item. -/
def printed (x : Item) (b : Base table) : String :=
  let d := x.declared b (ofNumber 0 .asDimension)
  let n := namingOf {} d
  elementText {} topModifiers n d ++
    if d.dims.isEmpty then ""
    else arrayText {} topModifiers n (x.declared b (ofNumber 0 .asPointer))

theorem parameters_draft (x : Item) (type : NativeType) (isFirst : Bool) (view : ArrayView) :
    (x.draft type isFirst view).declarator.parameters = none ∧
      (x.draft type isFirst view).declarator.definition = none := by
  have hmarks (d : Draft) (ms : List Token) :
      (d.pushMarks ms).declarator.parameters = d.declarator.parameters := by
    induction ms generalizing d with
    | nil => rfl
    | cons t ms ih =>
        have hone : ((d.pushMark? t).getD d).declarator.parameters = d.declarator.parameters := by
          unfold Draft.pushMark?
          dsimp only
          split
          · rfl
          split
          · rfl
          split
          · rfl
          split <;> rfl
        exact (ih _).trans hone
  have hdims (d : Draft) :
      (d.withDims view (x.dims.map Dimension.extent)).declarator.parameters =
          d.declarator.parameters ∧
        (d.withDims view (x.dims.map Dimension.extent)).declarator.definition =
          d.declarator.definition := by
    unfold Draft.withDims
    cases view with
    | plain => exact ⟨rfl, rfl⟩
    | asPointer =>
        dsimp only
        split <;> exact ⟨rfl, rfl⟩
    | asDimension =>
        dsimp only
        split <;> split <;> exact ⟨rfl, rfl⟩
  obtain ⟨hparameters, hdefinition⟩ := hdims
    ((Draft.ofType type isFirst).pushMarks (x.stars.drop isFirst.toNat))
  exact ⟨hparameters.trans (hmarks _ _),
    hdefinition.trans (Spelling.pushMarks_leaves _ _).2⟩

/-- An item that no rule matches is declared under its name, and needs no helpers. -/
structure DeclaredAs (x : Item) (b : Base table) (d : Declarator) : Prop where
  nativeName : d.nativeName = x.name.text
  signature : d.signature = x.name.text
  parameters : d.parameters = none
  definition : d.definition = none
  typeName : d.type.nativeName = (b.type false).nativeName

theorem declared_as (x : Item) (b : Base table) {request : DeclaratorRequest}
    (hrequest : AtTop request) (hname : table.find? x.name.text = none) :
    x.DeclaredAs b (x.declared b request) := by
  have hne : x.name.text ≠ "" := by
    have hempty := x.isName.isEmpty_eq
    simpa using hempty
  have hsettled : NativeType.settleName table x.name.text
      (({} : Scope).qualify x.name.text []) = (x.name.text, none) := by
    rw [NativeType.qualify_empty hne, NativeType.settleName_singleton,
      RuleTable.findWith?_eq_none hname]
  have hhint : (Draft.ofType (b.type x.isStarred) true).hint = none := by
    have hattributes : (Draft.ofType (b.type x.isStarred) true).type.attributes = [] :=
      (b.constValue_eq x.isStarred).2.2.2.1
    rw [Draft.hint, hattributes]
    rfl
  have hnamed (d : Draft) (h : d.declarator.parameters = none ∧ d.declarator.definition = none ∧
      d.type.nativeName = (b.type false).nativeName) :
      x.DeclaredAs b ({ d with declarator.nativeName := x.name.text }.nameBy table {} [] none false
        false).declarator := by
    unfold Draft.nameBy
    dsimp only
    rw [hsettled]
    exact ⟨rfl, rfl, h.1, h.2.1, h.2.2⟩
  unfold declared declarator
  dsimp only
  have hzero : ((0 : Nat) == 0) = true := rfl
  rw [hrequest.scope, hzero, hhint]
  refine hnamed _ ?_
  generalize hrule : (table.findWith? _ false).getD {} = rule
  generalize hcast : (request.view == .asPointer && _) = needsCast
  obtain ⟨hparameters, hdefinition⟩ :=
    x.parameters_draft (b.type x.isStarred) true request.view
  have hlike := (x.draft (b.type x.isStarred) true request.view).like_mappedTo {} rule
    request.choice needsCast
  exact ⟨hlike.parameters.trans hparameters, hlike.definition.trans hdefinition,
    hlike.typeName.trans ((congrArg NativeType.nativeName (x.type_draft _ _ _)).trans
      (b.constValue_eq x.isStarred).2.1)⟩

theorem isEof_valueTokens (x : Item) : ∀ t ∈ x.valueTokens, t.isEof = false := by
  unfold Item.valueTokens
  cases hvalue : x.value with
  | none => exact List.forall_mem_nil _
  | some v =>
      obtain ⟨hequals, -, hinside⟩ := x.isValue v hvalue
      exact List.forall_mem_cons.mpr ⟨hequals.isEof_eq, fun t ht => (hinside t ht).1⟩

theorem isEof_tokens (x : Item) : ∀ t ∈ x.tokens, t.isEof = false := by
  have hdimension (d : Dimension) : ∀ t ∈ d.tokens, t.isEof = false := by
    intro t ht
    simp only [Dimension.tokens, List.mem_cons, List.mem_append, List.not_mem_nil,
      or_false] at ht
    rcases ht with rfl | ht | rfl
    · exact d.isOpening.isEof_eq
    · exact (d.isSize t ht).1
    · exact d.isClosing.isEof_eq
  intro t ht
  simp only [Item.tokens, Item.named, List.mem_append, List.mem_cons, List.mem_flatMap] at ht
  rcases ht with ht | rfl | ⟨d, -, ht⟩ | ht
  · exact (x.areStars t ht).isEof_eq
  · exact x.isName.isEof_eq
  · exact hdimension d t ht
  · exact x.isEof_valueTokens t ht

theorem length_tokens_pos (x : Item) : 1 ≤ x.tokens.length := by
  simp only [Item.tokens, Item.named, List.length_append, List.length_cons]
  omega

end Item

/-! ## Lists -/

/-- The items of a list with commas between them, and a semicolon behind. No bracket stands inside
a dimension, no rule matches their names, and these differ. -/
structure Listing (table : RuleTable) where
  first : Item
  others : List (Token × Item)
  semicolon : Token
  areCommas : ∀ y ∈ others, y.1.IsMark ","
  isSemicolon : semicolon.IsMark ";"
  closed : ∀ x ∈ first :: others.map (·.2), x.Closed
  unmatched : ∀ x ∈ first :: others.map (·.2), table.find? x.name.text = none
  distinct : ((first :: others.map (·.2)).map (·.name.text)).Nodup

namespace Listing

variable {l : Listing table} {b : Base table} {x : Item} {i : Nat}

def items (l : Listing table) : List Item :=
  l.first :: l.others.map (·.2)

def tokens (l : Listing table) : List Token :=
  l.first.tokens ++ (Item.listed l.others ++ [l.semicolon])

/-- The list with one of its items only. -/
def alone (l : Listing table) (x : Item) (hx : x ∈ l.items) : Listing table where
  first := x
  others := []
  semicolon := l.semicolon
  areCommas := List.forall_mem_nil _
  isSemicolon := l.isSemicolon
  closed y hy := by
    obtain rfl := List.mem_singleton.mp hy
    exact l.closed y hx
  unmatched y hy := by
    obtain rfl := List.mem_singleton.mp hy
    exact l.unmatched y hx
  distinct := List.nodup_singleton _

theorem closed_others (l : Listing table) : ∀ y ∈ l.others, y.1.IsMark "," ∧ y.2.Closed :=
  fun y hy => ⟨l.areCommas y hy, l.closed y.2 (List.mem_cons_of_mem _ (List.mem_map_of_mem hy))⟩

/-- The tokens behind the dimensions of an item. -/
def behind (l : Listing table) (i : Nat) (x : Item) : List Token :=
  x.valueTokens ++ Item.listed (l.others.drop i)

theorem isEof_behind (l : Listing table) (i : Nat) (x : Item) :
    ∀ t ∈ l.behind i x, t.isEof = false := by
  intro t ht
  rcases List.mem_append.mp ht with ht | ht
  · exact x.isEof_valueTokens t ht
  · obtain ⟨y, hy, ht⟩ := List.mem_flatMap.mp ht
    rcases List.mem_cons.mp ht with rfl | ht
    · exact (l.areCommas y (List.mem_of_mem_drop hy)).isEof_eq
    · exact y.2.isEof_tokens t ht

/-- **An item of a list** is declared as it is alone, up to the stars of the type. -/
theorem read_item (hx : l.items[i]? = some x) {request : DeclaratorRequest}
    (hrequest : AtTop request) (hnumber : request.number = i) (htable : s.table = table)
    (husings : s.usings = []) (h : s.Sees (b.words ++ (l.tokens ++ us))) :
    Passes (Declarator.read request) s (l.behind i x ++ l.semicolon :: us) fun d =>
      ∃ stars, d = some ((x.declared b request).starred stars) := by
  have hfirst := l.unmatched l.first List.mem_cons_self
  have hname := l.unmatched x (List.mem_of_getElem? hx)
  obtain ⟨t, ts, ht, hends⟩ : ∃ t ts, Item.listed (l.others.drop i) ++ l.semicolon :: us = t :: ts ∧
      t.EndsItem := by
    cases hrest : l.others.drop i with
    | nil => exact ⟨l.semicolon, us, rfl, ";", by simp, l.isSemicolon⟩
    | cons y rest =>
        have hy : y ∈ l.others := List.mem_of_mem_drop (by rw [hrest]; exact List.mem_cons_self)
        exact ⟨y.1, _, rfl, ",", by simp, l.areCommas y hy⟩
  unfold behind
  rw [List.append_assoc, ht]
  cases i with
  | zero =>
      obtain rfl := Option.some.inj hx
      have htokens : l.tokens ++ us = l.first.tokens ++ t :: ts := by
        rw [← ht]
        simp [tokens]
      rw [htokens] at h
      refine (b.read_first l.first htable husings hname hrequest hnumber hends h).imp ?_
      rintro _ rfl
      exact ⟨_, rfl⟩
  | succ i =>
      obtain ⟨y, hy, rfl⟩ : ∃ y, l.others[i]? = some y ∧ y.2 = x := by
        simpa [items] using hx
      obtain ⟨hlt, hget⟩ := List.getElem?_eq_some_iff.mp hy
      have hsplit : l.others = l.others.take i ++ y :: l.others.drop (i + 1) := by
        rw [← hget]
        simp
      have htokens : l.tokens ++ us = l.first.tokens ++
          (Item.listed (l.others.take i) ++ y.1 :: (y.2.tokens ++ t :: ts)) := by
        rw [← ht, tokens]
        conv_lhs => rw [hsplit]
        simp [Item.listed]
      have hbefore : ∀ z ∈ l.others.take i, z.1.IsMark "," ∧ z.2.Closed := fun z hz =>
        l.closed_others z (List.mem_of_mem_take hz)
      have hlength : (l.others.take i).length = i := by
        rw [List.length_take]
        omega
      rw [htokens] at h
      refine (b.read_later l.first y.2 (l.closed l.first List.mem_cons_self) hbefore (l.areCommas y (List.mem_of_getElem? hy)) htable
        husings hfirst hname hrequest (by rw [hlength, hnumber]) hends h).imp ?_
      rintro _ rfl
      exact ⟨_, rfl⟩

/-- Behind the last item there is none. -/
theorem read_none {request : DeclaratorRequest} (hrequest : AtTop request)
    (hnumber : l.items.length ≤ request.number) (htable : s.table = table) (husings : s.usings = [])
    (h : s.Sees (b.words ++ (l.tokens ++ u :: us))) :
    Passes (Declarator.read request) s (u :: us) (· = none) := by
  have htokens : l.tokens ++ u :: us =
      l.first.tokens ++ (Item.listed l.others ++ l.semicolon :: u :: us) := by simp [tokens]
  have hlength : l.others.length < request.number := by simpa [items] using hnumber
  rw [htokens] at h
  exact b.read_none l.first (l.closed l.first List.mem_cons_self) l.closed_others l.isSemicolon
    htable husings (l.unmatched l.first List.mem_cons_self) hrequest hlength h

end Listing

/-! ## The rest of a statement -/

/-- One turn of passing over a statement. -/
def statementTurn : Token → ReadM (Turn Token Unit) := fun t => do
  if t.isEof || t.is ";" then return .done ()
  return .again (← advance)

/-- A statement is passed over up to its first semicolon, by induction on what stands in front. -/
theorem iterateUpTo_statement {n : Nat} {first : Token} (heof : ∀ t ∈ ts, t.isEof = false)
    (hsemicolon : semicolon.IsMark ";") (h : s.Sees (ts ++ semicolon :: u :: us))
    (hfirst : (ts ++ semicolon :: u :: us).head? = some first) (hn : ts.length < n) :
    ∃ last next rest, Passes (iterateUpTo statementTurn n first) s (last :: next :: rest)
      fun _ => True := by
  induction ts generalizing s first n with
  | nil =>
      obtain rfl := Option.some.inj hfirst
      obtain ⟨n, rfl⟩ := Nat.exists_eq_add_one.mpr hn
      refine ⟨semicolon, u, us, iterateUpTo_done ?_⟩
      unfold statementTurn
      rw [if_pos (by simp [hsemicolon.is_eq])]
      exact passes_pure h ⟨(), rfl, trivial⟩
  | cons t ts ih =>
      obtain rfl := Option.some.inj hfirst
      obtain ⟨n, rfl⟩ := Nat.exists_eq_add_one.mpr (Nat.zero_lt_of_lt hn)
      obtain ⟨v, vs, hv⟩ : ∃ v vs, ts ++ semicolon :: u :: us = v :: vs := by
        cases ts with
        | nil => exact ⟨semicolon, u :: us, rfl⟩
        | cons v ts => exact ⟨v, _, rfl⟩
      rw [List.forall_mem_cons] at heof
      rw [List.cons_append, hv] at h
      by_cases hend : t.is ";" = true
      · refine ⟨t, v, vs, iterateUpTo_done ?_⟩
        unfold statementTurn
        rw [if_pos (by simp [hend])]
        exact passes_pure h ⟨(), rfl, trivial⟩
      · obtain ⟨w, j, hadvance, hnext, rfl⟩ := advance_passes h
        obtain ⟨last, next, rest, hrest⟩ := ih heof.2 (hv ▸ hnext) (by rw [hv]; rfl)
          (Nat.lt_of_succ_lt_succ hn)
        refine ⟨last, next, rest, ?_⟩
        have hturn : statementTurn t s = .ok (.again w) (s.atIndex j) := by
          unfold statementTurn
          rw [if_neg (by simp [heof.1, hend]), bind_of_ok hadvance]
          rfl
        unfold Passes
        rw [iterateUpTo, bind_of_ok hturn]
        exact hrest

theorem skipStatement_passes (heof : ∀ t ∈ ts, t.isEof = false) (hsemicolon : semicolon.IsMark ";")
    (h : s.Sees (ts ++ semicolon :: u :: us)) :
    ∃ rest, Passes skipStatement s rest fun _ => True := by
  obtain ⟨first, more, hfirst⟩ : ∃ first more, ts ++ semicolon :: u :: us = first :: more := by
    cases ts with
    | nil => exact ⟨semicolon, u :: us, rfl⟩
    | cons t ts => exact ⟨t, _, rfl⟩
  have hlength : ts.length < s.bound := by
    have hle := h.length_le
    rw [List.length_append, List.length_cons] at hle
    omega
  obtain ⟨last, next, rest, hloop⟩ :=
    iterateUpTo_statement heof hsemicolon h (by rw [hfirst]; rfl) hlength
  have hiterate : Passes (iterate first statementTurn) s (last :: next :: rest) fun _ => True :=
    hloop
  have hpeek : peek s = .ok first s := peek_of_sees (hfirst ▸ h)
  refine ⟨next :: rest, ?_⟩
  change Passes (peek >>= fun first => iterate first statementTurn >>= fun _ => advance >>= fun _ =>
    pure ()) s _ _
  unfold Passes
  rw [bind_of_ok hpeek]
  exact hiterate.bind fun _ j _ h => (advance_passes h).bind fun _ k _ h => passes_pure h trivial

/-! ## Items that are found -/

/-- From here on, a statement is passed over. -/
def EndsStatement (ts : List Token) : Prop :=
  ∀ s : Reading, s.Sees ts → ∃ rest, Passes skipStatement s rest fun _ => True

/-- Behind the words of a type, these tokens are read as items, which no rule matches and whose
names differ. Behind all of them, no other one is found. -/
structure Spells (b : Base table) (xs : List Item) (ts stop : List Token) : Prop where
  starts : ∃ (x : Item) (t : Token) (us : List Token),
    xs.head? = some x ∧ t.EndsItem ∧ ts = x.tokens ++ t :: us
  reads : ∀ {s : Reading} {i : Nat} {x : Item} {request : DeclaratorRequest}, xs[i]? = some x →
    AtTop request → request.number = i → s.table = table → s.usings = [] →
    s.Sees (b.words ++ ts) → ∃ t us, t.EndsItem ∧ EndsStatement (t :: us) ∧
      Passes (Declarator.read request) s (t :: us) fun d =>
        ∃ stars, d = some ((x.declared b request).starred stars)
  ends : ∀ {s : Reading} {request : DeclaratorRequest}, AtTop request →
    xs.length ≤ request.number → s.table = table → s.usings = [] → s.Sees (b.words ++ ts) →
    Passes (Declarator.read request) s stop fun d => ∀ d' ∈ d, d'.nativeName = ""
  unmatched : ∀ x ∈ xs, table.find? x.name.text = none
  distinct : (xs.map (·.name.text)).Nodup
  length_le : xs.length ≤ ts.length

theorem endsStatement_of_semicolon (heof : ∀ t ∈ ts, t.isEof = false)
    (hsemicolon : semicolon.IsMark ";") (u : Token) (us : List Token) :
    EndsStatement (ts ++ semicolon :: u :: us) :=
  fun _ h => skipStatement_passes heof hsemicolon h

/-- **The items of a list** are found. -/
theorem Listing.spells (l : Listing table) (b : Base table) (u : Token) (us : List Token) :
    Spells b l.items (l.tokens ++ u :: us) (u :: us) where
  starts := by
    obtain ⟨t, ts, ht, hends⟩ : ∃ t ts, Item.listed l.others ++ l.semicolon :: u :: us = t :: ts ∧
        t.EndsItem := by
      cases hothers : l.others with
      | nil => exact ⟨l.semicolon, u :: us, rfl, ";", by simp, l.isSemicolon⟩
      | cons y others => exact ⟨y.1, _, rfl, ",", by simp, l.areCommas y (by simp [hothers])⟩
    refine ⟨l.first, t, ts, rfl, hends, ?_⟩
    rw [← ht]
    simp [Listing.tokens]
  reads {s i x request} hx hrequest hnumber htable husings h := by
    have hread := l.read_item hx hrequest hnumber htable husings h
    have hends := endsStatement_of_semicolon (l.isEof_behind i x) l.isSemicolon u us
    obtain ⟨t, ts, ht, hitem⟩ : ∃ t ts, l.behind i x ++ l.semicolon :: u :: us = t :: ts ∧
        t.EndsItem := by
      unfold Listing.behind
      rw [List.append_assoc]
      cases hothers : l.others.drop i with
      | nil => exact Base.exists_behind x ⟨";", by simp, l.isSemicolon⟩ (u :: us)
      | cons y others =>
          have hy : y ∈ l.others := List.mem_of_mem_drop (by rw [hothers]; exact List.mem_cons_self)
          exact Base.exists_behind x ⟨",", by simp, l.areCommas y hy⟩ _
    rw [ht] at hread hends
    exact ⟨t, ts, hitem, hends, hread⟩
  ends hrequest hnumber htable husings h :=
    (l.read_none hrequest hnumber htable husings h).imp fun d hd => by
      rw [hd]
      exact nofun
  unmatched := l.unmatched
  distinct := l.distinct
  length_le := by
    have hlisted (xs : List (Token × Item)) : xs.length ≤ (Item.listed xs).length := by
      unfold Item.listed
      induction xs with
      | nil => rfl
      | cons x xs ih =>
          rw [List.flatMap_cons, List.length_append, List.length_cons, List.length_cons]
          omega
    have hfirst := l.first.length_tokens_pos
    have hothers := hlisted l.others
    simp only [Listing.tokens, Listing.items, List.length_append, List.length_cons, List.length_map]
    omega

/-- **Behind a bracket that stays open** in the first item, the others are not found. -/
theorem Spells.of_hidden (b : Base table) (x : Item) (hhidden : Declarator.Hidden 0
      (x.stars.drop 1 ++ (x.named ++ t :: (ts ++ [semicolon]))))
    (hname : table.find? x.name.text = none) (ht : t.EndsItem)
    (hts : ∀ t ∈ ts, t.isEof = false) (hsemicolon : semicolon.IsMark ";") (hu : u.isEof = true) :
    Spells b [x] (x.tokens ++ t :: (ts ++ [semicolon, u])) [u] where
  starts := ⟨x, t, _, rfl, ht, rfl⟩
  reads {s i y request} hy hrequest hnumber htable husings h := by
    obtain ⟨rfl, rfl⟩ : i = 0 ∧ x = y := by
      cases i with
      | zero => exact ⟨rfl, Option.some.inj hy⟩
      | succ i => simp at hy
    obtain ⟨v, vs, hv, hends⟩ := Base.exists_behind x ht (ts ++ [semicolon, u])
    have hread := b.read_first x htable husings hname hrequest hnumber ht h
    have hskip : EndsStatement (x.valueTokens ++ t :: (ts ++ [semicolon, u])) := by
      have hall : ∀ v ∈ x.valueTokens ++ t :: ts, v.isEof = false := by
        intro v hv
        rcases List.mem_append.mp hv with hv | hv
        · exact x.isEof_valueTokens v hv
        · rcases List.mem_cons.mp hv with rfl | hv
          · exact ht.isEof_eq
          · exact hts v hv
      simpa using endsStatement_of_semicolon hall hsemicolon u []
    rw [hv] at hread hskip
    refine ⟨v, vs, hends, hskip, hread.imp ?_⟩
    rintro _ rfl
    exact ⟨_, rfl⟩
  ends hrequest hnumber htable husings h :=
    b.read_hidden x hhidden hu htable husings hname hrequest hnumber ht (by simpa using h)
  unmatched y hy := by
    obtain rfl := List.mem_singleton.mp hy
    exact hname
  distinct := List.nodup_singleton _
  length_le := by
    have hpos := x.length_tokens_pos
    rw [List.length_append, List.length_singleton]
    omega

/-! ## Adding the items -/

section Adding

variable {b : Base table} {xs : List Item} {x : Item} {i : Nat} {stop : List Token}

/-- The reading stands where items are found. -/
structure AtItems (b : Base table) (xs : List Item) (ts stop : List Token) (s : Reading) :
    Prop where
  spelled : Spells b xs ts stop
  table : s.table = table
  usings : s.usings = []
  bare : ∀ t ∈ s.window.tokens, t.isComment = false
  sees : s.Sees (b.words ++ ts)

/-- What the variables of a list have in common. -/
abbrev subject (spacing : String) (start : Nat) : Subject :=
  { scope := {}, spacing, start, rule := none, modifiers := topModifiers }

/-- The text of an item is read with another look at it if it has dimensions. -/
theorem AtItems.readText (h : AtItems b xs ts stop s) (hx : xs[i]? = some x) (spacing : String)
    (stars : Nat) {j : Nat} (hend : EndsStatement us) (hsees : (s.atIndex j).Sees us) :
    ∃ us, EndsStatement us ∧
      Passes (readText (subject spacing s.window.index) i
        ((x.declared b (ofNumber i .asDimension)).starred stars)) (s.atIndex j) us
        (· = x.printed b) := by
  have hnumber (view : ArrayView) :
      x.declared b (ofNumber i view) = x.declared b (ofNumber 0 view) := rfl
  have houter (d : Declarator) : (outerIndices {} == 0 || d.dims.isEmpty) = true := rfl
  have hback : moveTo s.window.index (s.atIndex j) = .ok () s := rfl
  unfold Variable.readText Item.printed
  rw [hnumber]
  generalize hd : x.declared b (ofNumber 0 .asDimension) = d
  have hdims : (d.starred stars).dims = d.dims := rfl
  have hnaming : namingOf {} (d.starred stars) = namingOf {} d := rfl
  have helement (n : Naming) : elementText {} topModifiers n (d.starred stars) =
      elementText {} topModifiers n d := rfl
  dsimp only
  rw [houter, if_pos rfl, hdims, hnaming, helement]
  by_cases hdims : d.dims.isEmpty = true
  · rw [if_pos hdims, if_pos hdims]
    exact ⟨us, hend, passes_pure hsees (by rw [String.append_empty])⟩
  · rw [if_neg hdims, if_neg hdims]
    obtain ⟨v, vs, -, hends, _, k, hread, hsees, stars', rfl⟩ :=
      h.spelled.reads hx (atTop_ofNumber i .asPointer) rfl h.table h.usings h.sees
    refine ⟨v :: vs, hends, _, k, ?_, hsees, rfl⟩
    refine (bind_of_ok hback _).trans ((bind_of_ok hread _).trans ?_)
    rfl

/-- The declaration of an item. -/
def Item.declaration (x : Item) (b : Base table) (d : Declarator) : Declaration :=
  { text := x.printed b, signature := x.name.text, declarator := some d, isVariable := true }

/-- **One item** is read from the start of the list, and its declaration added. -/
theorem AtItems.readNumber (h : AtItems b xs ts stop s) (hx : xs[i]? = some x) (spacing : String)
    (k : Nat) :
    ∃ d j, x.DeclaredAs b d ∧
      readNumber (subject spacing s.window.index) i (s.atIndex k) = .ok true
        { s.atIndex j with outline := ((if i = 0 then { s.outline with spacing := some spacing }
          else s.outline).add table (x.declaration b d)).2 } := by
  have hname := h.spelled.unmatched x (List.mem_of_getElem? hx)
  obtain ⟨v, vs, -, hends, _, j, hread, hsees, stars, rfl⟩ :=
    h.spelled.reads hx (atTop_ofNumber i .asDimension) rfl h.table h.usings h.sees
  obtain ⟨us, hends, _, j₁, htext, hsees, rfl⟩ := h.readText hx spacing stars hends hsees
  obtain ⟨rest, _, j₂, hskip, -⟩ := hends _ hsees
  have hcomment : Comment.takeAfter (((s.atIndex j).atIndex j₁).atIndex j₂) =
      .ok "" (((s.atIndex j).atIndex j₁).atIndex j₂) := takeAfter_of_bare h.bare
  have hdeclared := x.declared_as b (atTop_ofNumber i .asDimension) hname
  have hback : moveTo s.window.index (s.atIndex k) = .ok () s := rfl
  generalize hd : (x.declared b (ofNumber i .asDimension)).starred stars = d at hread htext
  have hd : x.DeclaredAs b d := by
    rw [← hd]
    exact ⟨hdeclared.1, hdeclared.2, hdeclared.3, hdeclared.4, hdeclared.5⟩
  refine ⟨d, j₂, hd, ?_⟩
  have hnative : ¬ d.nativeName.isEmpty = true := by
    rw [hd.nativeName, x.isName.isEmpty_eq]
    simp
  unfold Variable.readNumber
  rw [bind_of_ok hback, bind_of_ok hread]
  dsimp only
  rw [if_neg hnative, bind_of_ok htext, bind_of_ok hskip, bind_of_ok hcomment]
  have hown : (none : Option Rule).bind (·.targetText) = none := rfl
  rw [hown, Option.getD_none, ite_self, String.empty_append, hd.signature]
  obtain rfl := h.table
  cases i with
  | zero => rfl
  | succ i => rfl

end Adding

end HeaderPeers.Variable

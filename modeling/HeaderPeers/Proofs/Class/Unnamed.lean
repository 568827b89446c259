import HeaderPeers.Proofs.Declarator.Front
import HeaderPeers.Proofs.Reading.Ahead
import HeaderPeers.Proofs.Variable.Single

/-!
# Unnamed classes

The body of an unnamed class is read once for each of the variables behind it. All of them add to
one outline, where the accessors of a member have the name of the member for their signature, and
not the name they are printed under. So only those for the first variable are kept.

- `Variable.Single.readAllWith_eq` — a scope that declares variables.
- `Class.Unnamed` — an unnamed class with its variables.
- `Class.Unnamed.readInside_eq` — what is kept of its body.
-/

namespace HeaderPeers

open ReadM

variable {s : Reading} {t u : Token} {ts us : List Token} {scope : Scope}

/-! ## Scopes that declare variables -/

namespace Variable.Single

variable {xs : List Single} {table : RuleTable} {usings : List String}

/-- The outline behind some statements. -/
def allTurned (xs : List Single) (table : RuleTable) (usings : List String) (scope : Scope)
    (o : Outline) : Outline :=
  xs.foldl (fun o x => x.turned table usings scope o) o

/-- Statements are read in a turn each, by induction on them. -/
theorem turns (hxs : ∀ x ∈ xs, x.Readable table usings scope) (readScope : Class.ScopeReader)
    (htable : s.table = table) (husings : s.usings = usings)
    (hbare : ∀ t ∈ s.window.tokens, t.isComment = false)
    (hsees : s.Sees (xs.flatMap tokens ++ u :: us)) (hu : u.is ";" = false) :
    ∃ j, Statement.Turns readScope xs.length scope s scope { s.atIndex j with
        outline := allTurned xs table usings scope s.outline } ∧ (s.atIndex j).Sees (u :: us) := by
  induction xs generalizing s with
  | nil => exact ⟨s.window.index, .none scope s, hsees⟩
  | cons x xs ih =>
      rw [List.forall_mem_cons] at hxs
      obtain ⟨v, vs, hv, hsemicolon⟩ : ∃ v vs, xs.flatMap tokens ++ u :: us = v :: vs ∧
          v.is ";" = false := by
        cases xs with
        | nil => exact ⟨u, us, rfl, hu⟩
        | cons y ys =>
            have hy := hxs.2 y List.mem_cons_self
            obtain ⟨word, words, hwords⟩ := List.exists_cons_of_ne_nil hy.nonempty
            obtain ⟨type, hjoins⟩ := hy.spelled.exists_joins (t := word) (by simp [hwords])
            exact ⟨word, words ++ (y.item.tokens ++ y.semicolon :: (ys.flatMap tokens ++ u :: us)),
              by simp [tokens, hwords], hjoins.is_eq ";" (by decide)⟩
      have hfirst : s.Sees (x.words ++ (x.item.tokens ++ x.semicolon :: v :: vs)) := by
        rw [← hv]
        simpa [tokens] using hsees
      obtain ⟨j, hturn, hbehind⟩ :=
        hxs.1.scopeTurn_eq readScope htable husings hbare hfirst hsemicolon
      obtain ⟨k, hturns, hend⟩ := ih (s := { s.atIndex j with
        outline := x.turned table usings scope s.outline }) hxs.2 htable husings hbare
        ((hv ▸ hbehind).withOutline _)
      exact ⟨k, .turn hturn hturns, hend.withOutline s.outline⟩

/-- **A scope that declares variables** is read up to its closing brace. -/
theorem readAllWith_eq (hxs : ∀ x ∈ xs, x.Readable table usings scope)
    (readScope : Class.ScopeReader) (htable : s.table = table) (husings : s.usings = usings)
    (hbare : ∀ t ∈ s.window.tokens, t.isComment = false) (hu : u.IsMark "\x7d")
    (hsees : s.Sees (xs.flatMap tokens ++ u :: us)) :
    ∃ j, Statement.readAllWith readScope scope s = .ok () { s.atIndex j with
        outline := { allTurned xs table usings scope { s.outline with statement := {} } with
          statement := s.outline.statement } } ∧ (s.atIndex j).Sees (u :: us) := by
  obtain ⟨j, hturns, hend⟩ := turns (s := Statement.opened s) hxs readScope htable husings hbare
    (hsees.withOutline _) (by simp [hu.is_eq])
  have hbound : xs.length < s.bound := by
    have hle := hsees.length_le
    have hcount : xs.length ≤ (xs.flatMap tokens).length := by
      clear hxs hsees hturns hle
      induction xs with
      | nil => rfl
      | cons x xs ih =>
          simp only [List.flatMap_cons, List.length_append, List.length_cons, tokens]
          omega
    rw [List.length_append, List.length_cons] at hle
    omega
  refine ⟨j, ?_, hend.withOutline s.outline⟩
  exact Statement.readAllWith_of_bare hturns hbound hbare (hend.withOutline _)
    (.inr (by simp [hu.is_eq]))

/-- Variables of new names are put behind the others. -/
theorem allTurned_of_fresh (hxs : ∀ x ∈ xs, x.Readable table usings scope)
    (hdistinct : (xs.map (·.item.name.text)).Nodup) {o : Outline}
    (hfresh : ∀ e ∈ o.toList, ∀ x ∈ xs, e.signature ≠ x.item.name.text) :
    (allTurned xs table usings scope o).toList =
      o.toList ++ xs.map (·.printed table usings scope) := by
  induction xs generalizing o with
  | nil => simp [allTurned]
  | cons x xs ih =>
      rw [List.forall_mem_cons] at hxs
      rw [List.map_cons, List.nodup_cons] at hdistinct
      have hturned := hxs.1.turned_of_fresh fun e he => hfresh e he x List.mem_cons_self
      have hrest := ih (o := x.turned table usings scope o) hxs.2 hdistinct.2 (by
        intro e he y hy
        rw [hturned, List.mem_append, List.mem_singleton] at he
        rcases he with he | rfl
        · exact hfresh e he y (List.mem_cons_of_mem _ hy)
        · rw [hxs.1.signature_printed]
          intro hsame
          exact hdistinct.1 (hsame ▸ List.mem_map_of_mem hy))
      change (allTurned xs table usings scope (x.turned table usings scope o)).toList = _
      rw [hrest, hturned, List.append_assoc]
      rfl

/-- Variables of names that are taken change nothing. -/
theorem allTurned_of_taken (hxs : ∀ x ∈ xs, x.Readable table usings scope) {o : Outline}
    (htaken : ∀ x ∈ xs, ∃ e ∈ o.toList, e.signature = x.item.name.text)
    (hfirm : ∀ e ∈ o.toList, Outline.isFirm e = true) :
    (allTurned xs table usings scope o).toList = o.toList := by
  induction xs generalizing o with
  | nil => rfl
  | cons x xs ih =>
      rw [List.forall_mem_cons] at hxs htaken
      have hturned := hxs.1.turned_of_taken htaken.1 hfirm
      change (allTurned xs table usings scope (x.turned table usings scope o)).toList = _
      rw [ih hxs.2 (hturned ▸ htaken.2) (hturned ▸ hfirm), hturned]

end Variable.Single

namespace Class

/-! ## The class as it is written -/

/-- An unnamed class with its variables, as it is written. The names of its members differ. -/
structure Unnamed where
  keyword : Token
  opening : Token
  fields : List Variable.Single
  closing : Token
  first : Token
  others : List (Token × Token)
  semicolon : Token
  isKeyword : keyword.kind = .keyword .struct_ ∧ keyword.text = "struct"
  isOpening : opening.IsMark "\x7b"
  isBody : Nested "\x7b" "\x7d" (fields.flatMap Variable.Single.tokens)
  isClosing : closing.IsMark "\x7d"
  isFirst : first.IsName
  areOthers : ∀ y ∈ others, y.1.IsMark "," ∧ y.2.IsName
  isSemicolon : semicolon.IsMark ";"
  distinct : (fields.map (·.item.name.text)).Nodup

/-- What a variable of the class is declared as. -/
def holder (t : Token) : Declarator :=
  { nativeName := t.text, targetName := t.text }

/-- The scope inside the class, as seen from a variable of it. -/
def inside (scope : Scope) (v : Token) : Scope :=
  { scope with inaccessible := false, member := some (memberOf scope (holder v)) }

namespace Unnamed

def body (c : Unnamed) : List Token :=
  c.fields.flatMap Variable.Single.tokens

def names (c : Unnamed) : List Token :=
  c.first :: c.others.map (·.2)

/-- Variables, each behind a comma. -/
def listed (others : List (Token × Token)) : List Token :=
  others.flatMap fun y => [y.1, y.2]

def tokens (c : Unnamed) : List Token :=
  c.keyword :: c.opening :: (c.body ++ c.closing :: c.first :: (listed c.others ++ [c.semicolon]))

end Unnamed

/-! ## Its variables -/

/-- One turn of reading the variables. -/
def membersTurn : List Declarator × Declarator × Token →
    ReadM (Turn (List Declarator × Declarator × Token) (List Declarator)) :=
  fun (members, d, t) => do
    if t.isEof then return .done members
    if t.is "*" then
      return .again (members, { d with indirections := d.indirections + 1 }, ← advance)
    else if t.is "[" then
      let size ← peekAt 1
      return .again (members, { d with dims := d.dims ++ [arrayLength size] }, ← advance)
    else if t.isIdentifier && d.nativeName.isEmpty then
      return .again (members, { d with nativeName := t.text, targetName := t.text }, ← advance)
    else if t.isAny [",", ";"] then
      let (members, d) := if d.nativeName.isEmpty then (members, d) else (members ++ [d], {})
      if t.is ";" then return .done members
      return .again (members, d, ← advance)
    else return .again (members, d, ← advance)

theorem readMembers_eq : readMembers = (do
    let back ← cursor
    let first ← peek
    let members ← iterate ([], ({} : Declarator), first) membersTurn
    moveTo back
    return members) :=
  rfl

variable {v : Token} {members : List Declarator}

theorem membersTurn_name (ht : t.IsName) (h : s.Sees (t :: u :: us)) :
    Passes (membersTurn (members, {}, t)) s (u :: us) (· = .again (members, holder t, u)) := by
  have hidentifier : (t.isIdentifier && ({} : Declarator).nativeName.isEmpty) = true := by
    simp [Token.isIdentifier, ht.kind]
  unfold membersTurn
  dsimp only
  rw [if_neg (by simp [ht.isEof_eq]), if_neg (by simp [ht.is_eq "*" (by decide)]),
    if_neg (by simp [ht.is_eq "[" (by decide)]), if_pos hidentifier]
  exact (advance_passes h).bind_eq fun j h => passes_pure h rfl

theorem not_isEmpty_holder (hv : v.IsName) : ¬ (holder v).nativeName.isEmpty = true := by
  simp [holder, hv.isEmpty_eq]

theorem membersTurn_comma (hv : v.IsName) (ht : t.IsMark ",") (h : s.Sees (t :: u :: us)) :
    Passes (membersTurn (members, holder v, t)) s (u :: us)
      (· = .again (members ++ [holder v], {}, u)) := by
  unfold membersTurn
  dsimp only
  rw [if_neg (by simp [ht.isEof_eq]), if_neg (by simp [ht.is_eq]), if_neg (by simp [ht.is_eq]),
    if_neg (by simp [not_isEmpty_holder hv]), if_pos (by simp [Token.isAny, ht.is_eq]),
    if_neg (not_isEmpty_holder hv)]
  dsimp only
  rw [if_neg (by simp [ht.is_eq])]
  exact (advance_passes h).bind_eq fun j h => passes_pure h rfl

theorem membersTurn_semicolon (hv : v.IsName) (ht : t.IsMark ";") (h : s.Sees (t :: us)) :
    Passes (membersTurn (members, holder v, t)) s (t :: us)
      (· = .done (members ++ [holder v])) := by
  unfold membersTurn
  dsimp only
  rw [if_neg (by simp [ht.isEof_eq]), if_neg (by simp [ht.is_eq]), if_neg (by simp [ht.is_eq]),
    if_neg (by simp [not_isEmpty_holder hv]), if_pos (by simp [Token.isAny, ht.is_eq]),
    if_neg (not_isEmpty_holder hv)]
  dsimp only
  rw [if_pos (by simp [ht.is_eq])]
  exact passes_pure h rfl

/-- The variables behind the first one are taken one after another, by induction on them. -/
theorem iterateUpTo_members (members : List Declarator) {others : List (Token × Token)}
    {semicolon : Token} {n : Nat} (hv : v.IsName)
    (hothers : ∀ y ∈ others, y.1.IsMark "," ∧ y.2.IsName)
    (hsemicolon : semicolon.IsMark ";") (h : s.Sees (Unnamed.listed others ++ semicolon :: us))
    (hu : (Unnamed.listed others ++ semicolon :: us).head? = some u)
    (hn : (Unnamed.listed others).length < n) :
    Passes (iterateUpTo membersTurn n (members, holder v, u)) s (semicolon :: us)
      (· = members ++ holder v :: others.map fun y => holder y.2) := by
  induction others generalizing s members v u n with
  | nil =>
      obtain rfl := Option.some.inj hu
      obtain ⟨n, rfl⟩ := Nat.exists_eq_add_one.mpr hn
      exact iterateUpTo_done ((membersTurn_semicolon hv hsemicolon h).imp fun r hr => ⟨_, hr, rfl⟩)
  | cons y others ih =>
      obtain ⟨comma, w⟩ := y
      obtain rfl := Option.some.inj hu
      rw [List.forall_mem_cons] at hothers
      obtain ⟨⟨hcomma, hw⟩, hothers⟩ := hothers
      obtain ⟨next, more, hnext⟩ : ∃ next more, Unnamed.listed others ++ semicolon :: us =
          next :: more := by
        cases others with
        | nil => exact ⟨semicolon, us, rfl⟩
        | cons y others => exact ⟨y.1, _, rfl⟩
      have htokens : Unnamed.listed ((comma, w) :: others) ++ semicolon :: us =
          comma :: w :: next :: more := by
        rw [← hnext]
        rfl
      obtain ⟨n, rfl⟩ : ∃ m, n = m + 1 + 1 := by
        have hlength : (Unnamed.listed ((comma, w) :: others)).length =
            (Unnamed.listed others).length + 2 := rfl
        exact ⟨n - 2, by omega⟩
      rw [htokens] at h
      refine iterateUpTo_again ((membersTurn_comma hv hcomma h).imp fun r hr => ⟨_, hr, rfl⟩) ?_
      rintro _ j rfl h
      refine iterateUpTo_again ((membersTurn_name hw h).imp fun r hr => ⟨_, hr, rfl⟩) ?_
      rintro _ k rfl h
      have hrest := ih (members ++ [holder v]) hw hothers (hnext ▸ h)
        (by rw [hnext]; rfl) (Nat.lt_of_succ_lt_succ (Nat.lt_of_succ_lt_succ hn))
      simpa using hrest

/-- **The variables** are read, and the cursor goes back. -/
theorem Unnamed.readMembers_eq (c : Unnamed)
    (h : s.Sees (c.first :: (listed c.others ++ c.semicolon :: us))) :
    readMembers s = .ok (c.names.map holder) s := by
  obtain ⟨next, more, hnext⟩ : ∃ next more, listed c.others ++ c.semicolon :: us =
      next :: more := by
    cases c.others with
    | nil => exact ⟨c.semicolon, us, rfl⟩
    | cons y others => exact ⟨y.1, _, rfl⟩
  have hcursor : cursor s = .ok s.window.index s := rfl
  have hpeek : peek s = .ok c.first s := peek_of_sees h
  obtain ⟨_, j, hloop, -, rfl⟩ : Passes (iterate ([], ({} : Declarator), c.first) membersTurn) s
      (c.semicolon :: us) (· = c.names.map holder) := by
    refine iterate_passes h fun n hn => ?_
    rw [List.length_cons, List.length_append, List.length_cons] at hn
    obtain ⟨n, rfl⟩ := Nat.exists_eq_add_one.mpr (Nat.zero_lt_of_lt hn)
    rw [hnext] at h
    refine iterateUpTo_again ((membersTurn_name c.isFirst h).imp fun r hr => ⟨_, hr, rfl⟩) ?_
    rintro _ k rfl h
    refine (iterateUpTo_members [] c.isFirst c.areOthers c.isSemicolon (hnext ▸ h)
      (by rw [hnext]; rfl) (by omega)).imp ?_
    rintro _ rfl
    simp [names]
  rw [Class.readMembers_eq, bind_of_ok hcursor, bind_of_ok hpeek, bind_of_ok hloop]
  rfl

/-! ## The passes over its body -/

/-- What is declared does not depend on the variable, but for the text. -/
theorem readable_inside {x : Variable.Single} {table : RuleTable} {usings : List String}
    (h : x.Readable table usings scope) (v : Token) : x.Readable table usings (inside scope v) :=
  ⟨h.isSemicolon, h.closed, h.nonempty, h.spelled, h.plain, h.complete, h.ruled, h.kept, h.named,
    h.unmatched⟩

/-- A pass over the body for one variable. -/
def readFor (readScope : ScopeReader) (scope : Scope) (body : Nat) (d : Declarator) :
    ReadM Unit := do
  moveTo body
  readScope { { scope with inaccessible := false } with member := some (memberOf scope d) }

theorem readInside_cons (readScope : ScopeReader) (scope : Scope) (d : Declarator)
    (ds : List Declarator) :
    readInside readScope scope { scope with inaccessible := false } (d :: ds) = (do
      let body ← cursor
      let ((), members) ← withOutline {} ((d :: ds).forM (readFor readScope scope body))
      return members) :=
  rfl

namespace Unnamed

variable {c : Unnamed} {o : Outline} {n : Nat}

/-- The outline behind a pass. -/
def passed (c : Unnamed) (table : RuleTable) (usings : List String) (scope : Scope) (v : Token)
    (o : Outline) : Outline :=
  { Variable.Single.allTurned c.fields table usings (inside scope v) { o with statement := {} } with
    statement := o.statement }

theorem readFor_eq (hfields : ∀ x ∈ c.fields, x.Readable s.table s.usings scope)
    (hbare : ∀ t ∈ s.window.tokens, t.isComment = false) (h : s.Sees (c.body ++ c.closing :: us))
    (v : Token) (o : Outline) (k : Nat) :
    ∃ j, readFor (nestUpTo Statement.readAllWith (n + 1)) scope s.window.index (holder v)
        { s.atIndex k with outline := o } =
          .ok () { s.atIndex j with outline := c.passed s.table s.usings scope v o } ∧
      (s.atIndex j).Sees (c.closing :: us) := by
  have hback : moveTo s.window.index { s.atIndex k with outline := o } =
      .ok () { s with outline := o } := rfl
  obtain ⟨j, hread, hend⟩ := Variable.Single.readAllWith_eq (s := { s with outline := o })
    (fun x hx => readable_inside (hfields x hx) v) (nestUpTo Statement.readAllWith n) rfl rfl hbare
    c.isClosing (h.withOutline o)
  refine ⟨j, ?_, hend.withOutline s.outline⟩
  unfold readFor
  rw [bind_of_ok hback]
  exact hread

/-- The first pass declares all members. -/
theorem toList_passed_first (hfields : ∀ x ∈ c.fields, x.Readable s.table s.usings scope)
    (v : Token) : (c.passed s.table s.usings scope v {}).toList =
      c.fields.map (·.printed s.table s.usings (inside scope v)) :=
  Variable.Single.allTurned_of_fresh (o := {}) (fun x hx => readable_inside (hfields x hx) v)
    c.distinct (List.forall_mem_nil _)

/-- Another pass changes nothing. -/
theorem toList_passed_later (hfields : ∀ x ∈ c.fields, x.Readable s.table s.usings scope)
    {first : Token} (ho : o.toList = c.fields.map (·.printed s.table s.usings (inside scope first)))
    (v : Token) : (c.passed s.table s.usings scope v o).toList = o.toList := by
  refine Variable.Single.allTurned_of_taken (o := { o with statement := {} })
    (fun x hx => readable_inside (hfields x hx) v) (fun x hx => ?_) fun e he => ?_
  · refine ⟨x.printed s.table s.usings (inside scope first), ?_,
      (readable_inside (hfields x hx) first).signature_printed⟩
    change _ ∈ o.toList
    rw [ho]
    exact List.mem_map_of_mem hx
  · change e ∈ o.toList at he
    rw [ho] at he
    obtain ⟨x, hx, rfl⟩ := List.mem_map.mp he
    exact (readable_inside (hfields x hx) first).isFirm_printed rfl

/-- Later passes change nothing, by induction on the variables that are left. -/
theorem forM_readFor (hfields : ∀ x ∈ c.fields, x.Readable s.table s.usings scope)
    (hbare : ∀ t ∈ s.window.tokens, t.isComment = false) (h : s.Sees (c.body ++ c.closing :: us))
    {first : Token} (ho : o.toList = c.fields.map (·.printed s.table s.usings (inside scope first)))
    (vs : List Token) {k : Nat} (hk : (s.atIndex k).Sees (c.closing :: us)) :
    ∃ j o', (vs.map holder).forM
        (readFor (nestUpTo Statement.readAllWith (n + 1)) scope s.window.index)
        { s.atIndex k with outline := o } = .ok () { s.atIndex j with outline := o' } ∧
      (s.atIndex j).Sees (c.closing :: us) ∧ o'.toList = o.toList := by
  induction vs generalizing o k with
  | nil => exact ⟨k, o, rfl, hk, rfl⟩
  | cons v vs ih =>
      obtain ⟨i, hfirst, hi⟩ := readFor_eq (n := n) hfields hbare h v o k
      have hsame := toList_passed_later hfields ho v
      obtain ⟨j, o', hrest, hj, hlist⟩ := ih (o := c.passed s.table s.usings scope v o)
        (hsame.trans ho) hi
      exact ⟨j, o', (bind_of_ok hfirst _).trans hrest, hj, hlist.trans hsame⟩

/-- **Of all passes over the body** only the first one leaves declarations. -/
theorem readInside_eq (hfields : ∀ x ∈ c.fields, x.Readable s.table s.usings scope)
    (hbare : ∀ t ∈ s.window.tokens, t.isComment = false) (h : s.Sees (c.body ++ c.closing :: us)) :
    ∃ o, Passes (readInside (nestUpTo Statement.readAllWith (n + 1)) scope
        { scope with inaccessible := false } (c.names.map holder)) s (c.closing :: us) (· = o) ∧
      o.toList = c.fields.map (·.printed s.table s.usings (inside scope c.first)) := by
  obtain ⟨i, hfirst, hi⟩ := readFor_eq (n := n) hfields hbare h c.first {} s.window.index
  have hdeclared := toList_passed_first hfields c.first
  obtain ⟨j, o, hrest, hj, hlist⟩ := forM_readFor (n := n) hfields hbare h hdeclared
    (c.others.map (·.2)) hi
  refine ⟨o, ⟨o, j, ?_, hj, rfl⟩, hlist.trans hdeclared⟩
  have hcursor : cursor s = .ok s.window.index s := rfl
  have hall : (c.names.map holder).forM
      (readFor (nestUpTo Statement.readAllWith (n + 1)) scope s.window.index)
      { s with outline := {} } = .ok () { s.atIndex j with outline := o } := by
    simp only [names, List.map_cons]
    exact (bind_of_ok hfirst _).trans hrest
  have hkept : withOutline {} ((c.names.map holder).forM
      (readFor (nestUpTo Statement.readAllWith (n + 1)) scope s.window.index)) s =
        .ok ((), o) (s.atIndex j) := by
    have houtline : outline s = .ok s.outline s := rfl
    have hempty : modifyOutline (fun _ => {}) s = .ok () { s with outline := {} } := rfl
    unfold withOutline
    rw [bind_of_ok houtline, bind_of_ok hempty, bind_of_ok hall]
    rfl
  rw [names, List.map_cons, readInside_cons, bind_of_ok hcursor]
  exact bind_of_ok hkept _

end Unnamed

end Class

end HeaderPeers

import HeaderPeers.Proofs.Function.Declarators

/-!
# Reading parameters

A list of parameters is read one after another; those with a default value stay up
to a limit. What is read is the fold of `Parameter.take` over the list.

- `DefaultValue.Balanced` — the tokens of a default value.
- `Parameters.readWith_passes` — what a list of parameters is read as.
-/

namespace HeaderPeers

open ReadM

variable {s : Reading} {t u : Token} {ts us rest : List Token}

/-! ## Default values -/

namespace DefaultValue

/-- Tokens with each bracket closed by one of its kind; outside of brackets there are
commas only if they are allowed. -/
inductive Balanced : Bool → List Token → Prop where
  | nil {commas : Bool} : Balanced commas []
  | plain {commas : Bool} {t : Token} {ts : List Token} (inside : t.isEof = false)
      (notBracket : t.isAny ["(", ")", "\x7b", "\x7d", "<", ">", "[", "]"] = false)
      (notComma : t.is "," = true → commas = true) (rest : Balanced commas ts) :
      Balanced commas (t :: ts)
  | group {commas : Bool} {opening closing : String} {t u : Token} {ts us : List Token}
      (pair : (opening, closing) ∈ [("(", ")"), ("\x7b", "\x7d"), ("<", ">"), ("[", "]")])
      (opens : t.IsMark opening) (inside : Balanced true ts) (closes : u.IsMark closing)
      (rest : Balanced commas us) : Balanced commas (t :: ts ++ u :: us)

/-- One turn of reading a default value. -/
def tokensTurn : Nat × Array Token × Token → ReadM (Turn (Nat × Array Token × Token) (List Token)) :=
  fun (depth, read, t) => do
    if t.isEof || (depth == 0 && t.isAny [",", ")"]) then return .done read.toList
    let depth : Nat := if t.isAny ["(", "\x7b", "<", "["] then depth + 1
      else if t.isAny [")", "\x7d", ">", "]"] then depth - 1 else depth
    return .again (depth, read.push t, ← advance)

/-- A token that does not end the value is taken. -/
theorem tokensTurn_passes {depth : Nat} {read : Array Token} (h : s.Sees (t :: u :: ts))
    (heof : t.isEof = false) (hstop : depth = 0 → t.isAny [",", ")"] = false) :
    Passes (tokensTurn (depth, read, t)) s (u :: ts)
      (· = .again (if t.isAny ["(", "\x7b", "<", "["] then depth + 1
        else if t.isAny [")", "\x7d", ">", "]"] then depth - 1 else depth, read.push t, u)) := by
  have hgo : ¬ (t.isEof || (depth == 0 && t.isAny [",", ")"])) = true := by
    cases depth with
    | zero => simp [heof, hstop rfl]
    | succ depth => simp [heof]
  unfold tokensTurn
  dsimp only
  rw [if_neg hgo]
  exact (advance_passes h).bind_eq fun j h => passes_pure h rfl

/-- Balanced tokens are taken and leave the depth as it is, by induction on them. -/
theorem tokens_passes {commas : Bool} {vs : List Token} (h : Balanced commas vs) :
    ∀ {s : Reading} {n depth : Nat} {read : Array Token} {first stop : Token} {rest us : List Token}
      {R : List Token → Prop}, (commas = true → 0 < depth) → s.Sees (vs ++ stop :: rest) →
      (vs ++ stop :: rest).head? = some first →
      (∀ j, (s.atIndex j).Sees (stop :: rest) →
        Passes (iterateUpTo tokensTurn n (depth, read ++ vs, stop)) (s.atIndex j) us R) →
      Passes (iterateUpTo tokensTurn (vs.length + n) (depth, read, first)) s us R := by
  induction h with
  | nil =>
      intro s n depth read first stop rest us R _ h hfirst hrest
      obtain rfl := Option.some.inj hfirst
      have hread : Passes _ s us R := hrest s.window.index h
      simpa using hread
  | @plain commas t ts inside notBracket notComma more ih =>
      intro s n depth read first stop rest us R hdepth h hfirst hrest
      obtain rfl := Option.some.inj hfirst
      simp only [Token.isAny, List.any_cons, List.any_nil, Bool.or_false,
        Bool.or_eq_false_iff] at notBracket
      obtain ⟨h₁, h₂, h₃, h₄, h₅, h₆, h₇, h₈⟩ := notBracket
      obtain ⟨next, more', hnext⟩ : ∃ next more', ts ++ stop :: rest = next :: more' := by
        cases ts with
        | nil => exact ⟨stop, rest, rfl⟩
        | cons t ts => exact ⟨t, ts ++ stop :: rest, rfl⟩
      have hstop : depth = 0 → t.isAny [",", ")"] = false := by
        rintro rfl
        have hcomma : t.is "," = false := by
          rw [Bool.eq_false_iff]
          exact fun hcomma => absurd (hdepth (notComma hcomma)) (Nat.lt_irrefl 0)
        simp [Token.isAny, hcomma, h₂]
      rw [List.cons_append, hnext] at h
      rw [List.length_cons, Nat.add_right_comm]
      refine iterateUpTo_again ((tokensTurn_passes h inside hstop).imp fun r hr =>
        ⟨_, hr, rfl⟩) ?_
      rintro _ j rfl h
      rw [← hnext] at h
      have hplain : (if t.isAny ["(", "\x7b", "<", "["] = true then depth + 1
          else if t.isAny [")", "\x7d", ">", "]"] = true then depth - 1 else depth) = depth := by
        simp [Token.isAny, h₁, h₂, h₃, h₄, h₅, h₆, h₇, h₈]
      rw [hplain]
      refine ih hdepth h (by rw [hnext]; rfl) fun k h => ?_
      have hread : read.push t ++ ts = read ++ (t :: ts) := by simp
      rw [hread]
      exact hrest k h
  | @group commas opening closing t u ts us pair opens inside closes more ihInside ihRest =>
      intro s n depth read first stop rest us' R hdepth h hfirst hrest
      obtain rfl := Option.some.inj hfirst
      obtain ⟨next, more', hnext⟩ : ∃ next more',
          ts ++ u :: (us ++ stop :: rest) = next :: more' := by
        cases ts with
        | nil => exact ⟨u, _, rfl⟩
        | cons v ts => exact ⟨v, ts ++ u :: (us ++ stop :: rest), rfl⟩
      obtain ⟨behind, more'', hbehind⟩ : ∃ behind more'', us ++ stop :: rest = behind :: more'' := by
        cases us with
        | nil => exact ⟨stop, rest, rfl⟩
        | cons v us => exact ⟨v, us ++ stop :: rest, rfl⟩
      have hopens : t.isAny ["(", "\x7b", "<", "["] = true ∧ t.isAny [",", ")"] = false := by
        simp only [List.mem_cons, Prod.mk.injEq, List.not_mem_nil, or_false] at pair
        rcases pair with ⟨rfl, rfl⟩ | ⟨rfl, rfl⟩ | ⟨rfl, rfl⟩ | ⟨rfl, rfl⟩ <;>
          simp [Token.isAny, opens.is_eq]
      have hcloses : u.isAny ["(", "\x7b", "<", "["] = false ∧
          u.isAny [")", "\x7d", ">", "]"] = true := by
        simp only [List.mem_cons, Prod.mk.injEq, List.not_mem_nil, or_false] at pair
        rcases pair with ⟨rfl, rfl⟩ | ⟨rfl, rfl⟩ | ⟨rfl, rfl⟩ | ⟨rfl, rfl⟩ <;>
          simp [Token.isAny, closes.is_eq]
      have hlength : (t :: ts ++ u :: us).length + n = ts.length + (us.length + n + 1) + 1 := by
        simp only [List.length_append, List.length_cons]
        omega
      have htokens : t :: ts ++ u :: us ++ stop :: rest =
          t :: (ts ++ u :: (us ++ stop :: rest)) := by simp
      rw [htokens, hnext] at h
      rw [hlength]
      refine iterateUpTo_again ((tokensTurn_passes h opens.isEof_eq fun _ => hopens.2).imp
        fun r hr => ⟨_, hr, rfl⟩) ?_
      rintro _ j rfl h
      rw [← hnext] at h
      rw [hopens.1, if_pos rfl]
      -- inside, the depth is one more, and the closing bracket brings it back
      refine ihInside (fun _ => Nat.succ_pos depth) h (by rw [hnext]; rfl) fun k h => ?_
      rw [hbehind] at h
      refine iterateUpTo_again ((tokensTurn_passes h closes.isEof_eq fun hzero =>
        absurd hzero (Nat.succ_ne_zero depth)).imp fun r hr => ⟨_, hr, rfl⟩) ?_
      rintro _ j' rfl h
      rw [← hbehind] at h
      rw [hcloses.1, hcloses.2, if_neg (by simp), if_pos rfl, Nat.succ_sub_one]
      refine ihRest hdepth h (by rw [hbehind]; rfl) fun k' h => ?_
      have hread : (read.push t ++ ts).push u ++ us = read ++ (t :: ts ++ u :: us) := by
        apply Array.toList_inj.mp
        simp
      rw [hread]
      exact hrest k' h

/-- **Reading the tokens of a default value**, from the mark in front of it. -/
theorem readTokens_passes {mark stop : Token} {vs : List Token} (hvs : Balanced false vs)
    (hstop : stop.isAny [",", ")"] = true) (h : s.Sees (mark :: (vs ++ stop :: rest))) :
    Passes readTokens s (stop :: rest) (· = vs) := by
  obtain ⟨first, hfirst⟩ : ∃ first, (vs ++ stop :: rest).head? = some first := by
    cases vs with
    | nil => exact ⟨stop, rfl⟩
    | cons v vs => exact ⟨v, rfl⟩
  refine (advance_to h hfirst).bind_eq fun j h => iterate_passes h fun n hn => ?_
  obtain ⟨k, rfl⟩ : ∃ k, n = vs.length + (k + 1) := by
    simp only [List.length_append, List.length_cons] at hn
    exact ⟨n - vs.length - 1, by omega⟩
  refine tokens_passes hvs (fun hcommas => by cases hcommas) h hfirst fun i h => ?_
  refine iterateUpTo_done ?_
  rw [tokensTurn, if_pos (by simp [hstop])]
  exact passes_pure h ⟨vs, by simp, rfl⟩

/-- The text of a default value that names nothing that is skipped. -/
theorem read_passes {scope : Scope} {mark stop : Token} {vs : List Token}
    (h : s.Sees (mark :: (vs ++ stop :: rest))) (hvs : Balanced false vs)
    (hstop : stop.isAny [",", ")"] = true)
    (hskipped : (vs.any fun t => t.isWord && (s.table.find? t.text).any (·.skip)) = false) :
    Passes (DefaultValue.read scope) s (stop :: rest)
      (· = { text := Name.spell vs, qualified := qualifyNames s.table scope s.usings true vs
             isSkipped := false }) := by
  unfold DefaultValue.read
  refine (readTokens_passes hvs hstop h).bind_eq fun j h => ?_
  have hget : (get : ReadM Reading) (s.atIndex j) = .ok (s.atIndex j) (s.atIndex j) := rfl
  refine Passes.bind_eq (passes_of_eq hget h) fun j h => passes_pure h ?_
  rw [← hskipped]
  rfl

end DefaultValue

/-! ## One parameter -/

/-- A parameter as it is written, and what is found of its type. -/
structure Parameter where
  spelling : Spelling
  found : Draft × Option Rule
  /-- The mark in front of a default value and the tokens of it. -/
  value : Option (Token × List Token)

namespace Parameter

/-- The default value with the mark in front of it. -/
def valueTokens (x : Parameter) : List Token :=
  match x.value with
  | none => []
  | some (mark, vs) => mark :: vs

def tokens (x : Parameter) : List Token :=
  x.spelling.tokens ++ x.valueTokens

/-- What the default value is read as. -/
def default? (table : RuleTable) (usings : List String) (scope : Scope) (x : Parameter) :
    Option DefaultValue :=
  x.value.map fun (_, vs) =>
    { text := Name.spell vs
      qualified := DefaultValue.qualifyNames table scope usings true vs
      isSkipped := false }

/-- The declarator that is read in this place of the list. -/
def declarator (table : RuleTable) (usings : List String) (scope : Scope) (choice : Int)
    (count : Nat) (x : Parameter) : Declarator :=
  (x.spelling.declarator table usings x.found
    { scope, choice, defaultName := some ("arg" ++ toString count) }).declarator

/-- The parameters read so far with one more. -/
def take (table : RuleTable) (usings : List String) (scope : Scope) (choice : Int)
    (keep : Option Nat) (p : Parameters.Progress) (x : Parameter) (spacing : String) :
    Parameters.Progress :=
  let d := x.declarator table usings scope choice p.count
  let value := x.default? table usings scope
  let (stays, p) := { p with count := p.count + 1 }.noteValue value keep
  if stays && (d.type.targetName != "void" || d.indirections > 0) then p.push spacing d value
  else p

/-- The parameter can be read in a scope: its type is read as such, the rule for it is
found, its name is no attribute, and its default value is balanced and names nothing
that is skipped. -/
structure Fits (table : RuleTable) (usings : List String) (scope : Scope) (x : Parameter) :
    Prop where
  reads : x.spelling.Reads table usings scope
  finds : x.spelling.draft.Finds table usings scope x.found
  plain : ∀ t ∈ x.spelling.name, (table.find? t.text).any (·.isAttribute) = false
  typed : x.found.1.type.nativeName ≠ ""
  valued : ∀ v ∈ x.value, v.1.IsMark "=" ∧ DefaultValue.Balanced false v.2 ∧
    (v.2.any fun t => t.isWord && (table.find? t.text).any (·.skip)) = false

variable {x : Parameter} {scope : Scope} {choice : Int} {keep : Option Nat}

theorem declarator_nativeName (table : RuleTable) (usings : List String) (count : Nat) :
    (x.declarator table usings scope choice count).type.nativeName = x.found.1.type.nativeName :=
  (x.spelling.like_declarator table usings x.found _).typeName

/-- Whether no default value follows. -/
theorem isPlain_passes (h : s.Sees (t :: ts)) :
    Passes ((do return (← peek).isAny [",", ")"]) <||> (do return (← peek).isEof) : ReadM Bool) s
      (t :: ts) (· = (t.isAny [",", ")"] || t.isEof)) := by
  unfold orM
  refine Passes.bind_eq ((peek_passes h).bind_eq fun j h => passes_pure h rfl) fun j h => ?_
  cases hstop : t.isAny [",", ")"] with
  | true => exact passes_pure h rfl
  | false => exact (peek_passes h).bind_eq fun j h => passes_pure h rfl

/-- With its default value, the parameter is taken. -/
theorem finish_eq {table : RuleTable} {usings : List String} {p : Parameters.Progress}
    (x : Parameter) (spacing : String) {value : Option DefaultValue}
    (hvalue : value = x.default? table usings scope) :
    (if (({ p with count := p.count + 1 }.noteValue value keep).1 &&
          ((x.declarator table usings scope choice p.count).type.targetName != "void" ||
            decide ((x.declarator table usings scope choice p.count).indirections > 0))) = true then
        pure (some (({ p with count := p.count + 1 }.noteValue value keep).2.push spacing
          (x.declarator table usings scope choice p.count) value))
      else pure (some ({ p with count := p.count + 1 }.noteValue value keep).2) :
        ReadM (Option Parameters.Progress)) =
      pure (some (x.take table usings scope choice keep p spacing)) := by
  subst hvalue
  exact (apply_ite (fun q => (pure (some q) : ReadM (Option Parameters.Progress))) _ _ _).symm

/-- **Reading one parameter.** -/
theorem readOne_passes (inner : DeclaratorReader) (p : Parameters.Progress) (first stop : Token)
    (hx : x.Fits s.table s.usings scope) (hstop : stop.IsMark "," ∨ stop.IsMark ")")
    (h : s.Sees (x.tokens ++ stop :: rest)) :
    Passes (Parameters.readOne (Declarator.readWith inner) scope choice keep p first) s
      (stop :: rest) (· = some (x.take s.table s.usings scope choice keep p first.spacing)) := by
  obtain ⟨u, us, hu, hends, hopening⟩ : ∃ u us, x.valueTokens ++ stop :: rest = u :: us ∧
      u.EndsName ∧ u.is "(" = false := by
    unfold valueTokens
    cases hvalue : x.value with
    | none =>
        refine ⟨stop, rest, rfl, ?_, ?_⟩
        · rcases hstop with hstop | hstop
          · exact ⟨",", by decide, hstop⟩
          · exact ⟨")", by decide, hstop⟩
        · rcases hstop with hstop | hstop <;> simp [hstop.is_eq]
    | some v =>
        obtain ⟨hmark, -, -⟩ := hx.valued v hvalue
        exact ⟨v.1, v.2 ++ stop :: rest, rfl, ⟨"=", by decide, hmark⟩, by simp [hmark.is_eq]⟩
  have htyped : (x.declarator s.table s.usings scope choice p.count).type.nativeName.isEmpty =
      false := by
    rw [declarator_nativeName]
    simpa using hx.typed
  have hnamed : (some (x.declarator s.table s.usings scope choice p.count)).any
      (·.type.nativeName.isEmpty) = false := by
    rw [Option.any_some, htyped]
  unfold tokens at h
  rw [List.append_assoc, hu] at h
  unfold Parameters.readOne
  have hread : Passes (Declarator.readWith inner
      { scope, choice, defaultName := some ("arg" ++ toString p.count) }) s (u :: us)
      (· = some (x.declarator s.table s.usings scope choice p.count)) :=
    x.spelling.readWith_passes inner h hends hopening rfl rfl hx.plain hx.reads hx.finds
  refine hread.bind_eq fun j h => ?_
  rw [if_neg (by simp [hnamed])]
  dsimp only
  refine (isPlain_passes h).bind_eq fun j h => ?_
  unfold valueTokens at hu
  cases hvalue : x.value with
  | none =>
      rw [hvalue] at hu
      obtain ⟨rfl, rfl⟩ := List.cons.inj hu
      have hplain : (stop.isAny [",", ")"] || stop.isEof) = true := by
        rcases hstop with hstop | hstop <;> simp [Token.isAny, hstop.is_eq]
      rw [hplain, if_pos rfl]
      refine Passes.bind_eq (passes_pure h rfl) fun j h => ?_
      rw [finish_eq x first.spacing (by rw [default?, hvalue]; rfl)]
      exact passes_pure h rfl
  | some v =>
      obtain ⟨mark, vs⟩ := v
      obtain ⟨hmark, hbalanced, hskipped⟩ := hx.valued _ hvalue
      rw [hvalue] at hu
      obtain ⟨rfl, rfl⟩ := List.cons.inj hu
      have hplain : (mark.isAny [",", ")"] || mark.isEof) = false := by
        simp [Token.isAny, hmark.is_eq, hmark.isEof_eq]
      rw [hplain, if_neg (by simp)]
      have hends : stop.isAny [",", ")"] = true := by
        rcases hstop with hstop | hstop <;> simp [Token.isAny, hstop.is_eq]
      refine (DefaultValue.read_passes h hbalanced hends hskipped).bind_eq fun j h => ?_
      dsimp only
      rw [if_neg (by simp)]
      refine Passes.bind_eq (passes_pure h rfl) fun j h => ?_
      rw [finish_eq x first.spacing (by rw [default?, hvalue]; rfl)]
      exact passes_pure h rfl

theorem exists_first (x : Parameter) :
    ∃ t ts, x.tokens = t :: ts ∧ t.isEof = false ∧ t.is ")" = false := by
  obtain ⟨t, ts, hwords⟩ := List.exists_cons_of_ne_nil x.spelling.words_ne
  obtain ⟨heof, hclosing, -⟩ := x.spelling.words_plain t (by rw [hwords]; rfl)
  exact ⟨t, ts ++ x.spelling.tail ++ x.valueTokens, by simp [tokens, Spelling.tokens, hwords], heof,
    hclosing⟩

end Parameter

/-! ## The list -/

namespace Parameters

/-- The tokens between the parentheses: parameters with commas between them. -/
inductive Written : List Token → List Parameter → Prop where
  | nil : Written [] []
  | last (x : Parameter) : Written x.tokens [x]
  | cons {comma : Token} {ts : List Token} {y : Parameter} {xs : List Parameter} (x : Parameter)
      (mark : comma.IsMark ",") (more : Written ts (y :: xs)) :
      Written (x.tokens ++ comma :: ts) (x :: y :: xs)

/-- The white space in front of a parameter. -/
def spacingOf (x : Parameter) : String :=
  (x.tokens.head?.map (·.spacing)).getD ""

/-- The parameters of a list, taken one after another. -/
def takeAll (table : RuleTable) (usings : List String) (scope : Scope) (choice : Int)
    (keep : Option Nat) (p : Progress) (xs : List Parameter) : Progress :=
  xs.foldl (fun p x => x.take table usings scope choice keep p (spacingOf x)) p

/-- One turn of reading the list. -/
def listTurn (readDeclarator : DeclaratorReader) (scope : Scope) (choice : Int)
    (keep : Option Nat) : Progress × Token → ReadM (Turn (Progress × Token) (Option Progress)) :=
  fun (p, t) => do
    if t.isEof then return .done (some p)
    if t.is ")" then
      let _ ← advance
      return .done (some (p.close t.spacing))
    match ← readOne readDeclarator scope choice keep p t with
    | none => return .done none
    | some p =>
      let t ← peek
      expect t [",", ")"]
      return .again (p, ← if t.is "," then advance else pure t)

variable {scope : Scope} {choice : Int} {keep : Option Nat}

/-- A turn takes one parameter and the comma behind it. -/
theorem listTurn_passes (inner : DeclaratorReader) (p : Progress) {x : Parameter}
    {stop next : Token} {behind : List Token} (hx : x.Fits s.table s.usings scope)
    (hstop : stop.IsMark "," ∨ stop.IsMark ")")
    (hnext : (if stop.is "," then rest else stop :: rest) = next :: behind) (t : Token)
    (ht : x.tokens.head? = some t) (h : s.Sees (x.tokens ++ stop :: rest)) :
    Passes (listTurn (Declarator.readWith inner) scope choice keep (p, t)) s (next :: behind)
      (· = .again (x.take s.table s.usings scope choice keep p (spacingOf x), next)) := by
  obtain ⟨first, ts, hfirst, heof, hclosing⟩ := x.exists_first
  obtain rfl : first = t := by simpa [hfirst] using ht
  have hspacing : first.spacing = spacingOf x := by rw [spacingOf, ht]; rfl
  have hends : stop.isAny [",", ")"] = true := by
    rcases hstop with hstop | hstop <;> simp [Token.isAny, hstop.is_eq]
  unfold listTurn
  dsimp only
  rw [if_neg (by simp [heof]), if_neg (by simp [hclosing])]
  refine (x.readOne_passes inner p first stop hx hstop h).bind_eq fun j h => ?_
  dsimp only
  refine (peek_passes h).bind_eq fun j h => ?_
  refine (expect_passes h hends).bind fun _ j _ h => ?_
  rw [hspacing]
  by_cases hcomma : stop.is "," = true
  · rw [if_pos hcomma] at hnext ⊢
    rw [hnext] at h
    exact (advance_passes h).bind_eq fun j h => passes_pure h rfl
  · rw [if_neg hcomma] at hnext ⊢
    obtain ⟨rfl, rfl⟩ := List.cons.inj hnext
    exact Passes.bind_eq (passes_pure h rfl) fun j h => passes_pure h rfl

/-- The loop over the parameters, by induction on the list. -/
theorem list_passes (inner : DeclaratorReader) {close : Token} (hclose : close.IsMark ")")
    {ts : List Token} {xs : List Parameter} (hxs : Written ts xs) :
    ∀ {s : Reading} {n : Nat} {p : Progress} {first : Token},
      (∀ x ∈ xs, x.Fits s.table s.usings scope) → s.Sees (ts ++ close :: u :: us) →
      (ts ++ close :: u :: us).head? = some first → xs.length < n →
      Passes (iterateUpTo (listTurn (Declarator.readWith inner) scope choice keep) n (p, first)) s
        (u :: us)
        (· = some ((takeAll s.table s.usings scope choice keep p xs).close close.spacing)) := by
  induction hxs with
  | nil =>
      intro s n p first _ h hfirst hn
      obtain rfl := Option.some.inj hfirst
      obtain ⟨n, rfl⟩ := Nat.exists_eq_add_one.mpr hn
      refine iterateUpTo_done ?_
      unfold listTurn
      dsimp only
      rw [if_neg (by simp [hclose.isEof_eq]), if_pos (by simp [hclose.is_eq])]
      exact (advance_passes h).bind_eq fun j h => passes_pure h ⟨_, rfl, rfl⟩
  | last x =>
      intro s n p first hfits h hfirst hn
      obtain ⟨t, tail, htokens, -, -⟩ := x.exists_first
      have hcomma : close.is "," = false := by simp [hclose.is_eq]
      have ht : x.tokens.head? = some first := by
        rw [htokens] at hfirst ⊢
        exact hfirst
      obtain ⟨n, rfl⟩ : ∃ k, n = k + 1 + 1 := ⟨n - 2, by simp at hn; omega⟩
      refine iterateUpTo_again ((listTurn_passes inner p (hfits x (by simp)) (Or.inr hclose)
        (by rw [hcomma]; rfl) first ht h).imp fun r hr => ⟨_, hr, rfl⟩) ?_
      rintro _ j rfl h
      refine iterateUpTo_done ?_
      unfold listTurn
      dsimp only
      rw [if_neg (by simp [hclose.isEof_eq]), if_pos (by simp [hclose.is_eq])]
      exact (advance_passes h).bind_eq fun j h => passes_pure h ⟨_, rfl, rfl⟩
  | @cons comma ts y xs x mark more ih =>
      intro s n p first hfits h hfirst hn
      obtain ⟨t, tail, htokens, -, -⟩ := x.exists_first
      have hcomma : comma.is "," = true := by simp [mark.is_eq]
      have ht : x.tokens.head? = some first := by
        rw [htokens] at hfirst ⊢
        exact hfirst
      obtain ⟨next, behind, hnext⟩ : ∃ next behind, ts ++ close :: u :: us = next :: behind := by
        cases ts with
        | nil => exact ⟨close, _, rfl⟩
        | cons v ts => exact ⟨v, _, rfl⟩
      obtain ⟨n, rfl⟩ := Nat.exists_eq_add_one.mpr (Nat.zero_lt_of_lt hn)
      rw [List.append_assoc, List.cons_append] at h
      refine iterateUpTo_again ((listTurn_passes inner p (hfits x (by simp)) (Or.inl mark)
        (by rw [hcomma, if_pos rfl, hnext]) first ht h).imp fun r hr => ⟨_, hr, rfl⟩) ?_
      rintro _ j rfl h
      rw [← hnext] at h
      exact ih (fun z hz => hfits z (List.mem_cons_of_mem _ hz)) h (by rw [hnext]; rfl)
        (Nat.lt_of_succ_lt_succ hn)

theorem Written.length_le {xs : List Parameter} (h : Written ts xs) : xs.length ≤ ts.length := by
  have hpos (x : Parameter) : 0 < x.tokens.length := by
    obtain ⟨t, rest, htokens, -⟩ := x.exists_first
    rw [htokens]
    exact Nat.succ_pos _
  induction h with
  | nil => exact Nat.le_refl 0
  | last x => exact hpos x
  | cons x mark more ih =>
      have hx := hpos x
      simp only [List.length_append, List.length_cons] at ih ⊢
      omega

end Parameters

/-! ## What is taken -/

/-- Parameters with default values are counted only. -/
def Parameters.Progress.pass (p : Progress) (n : Nat) : Progress :=
  { p with count := p.count + n, parameters.defaults := p.parameters.defaults + n }

theorem Parameters.Progress.pass_zero (p : Progress) : p.pass 0 = p := by
  obtain ⟨⟨_, _, _, _, _, _⟩, _, _, _⟩ := p
  rfl

namespace Parameter

variable {table : RuleTable} {usings : List String} {x : Parameter} {scope : Scope} {choice : Int}
  {keep : Option Nat} {p : Parameters.Progress} {spacing : String}

/-- The target type of the parameter, with one of the target names of its rule. -/
def target (scope : Scope) (choice : Int) (x : Parameter) : String :=
  (Draft.mapped x.found scope choice).type.targetName

/-- The parameter is passed at all: it is no `void`. -/
def Passed (scope : Scope) (choice : Int) (x : Parameter) : Prop :=
  x.target scope choice ≠ "void"

/-- A parameter that stays is printed. -/
theorem take_none (hx : x.Passed scope choice) :
    x.take table usings scope choice none p spacing =
      ({ p with
          count := p.count + 1, kept := p.kept + x.value.toList.length
          parameters.defaults := p.parameters.defaults + x.value.toList.length } :
        Parameters.Progress).push spacing (x.declarator table usings scope choice p.count)
          (x.default? table usings scope) := by
  have htarget : (x.declarator table usings scope choice p.count).type.targetName ≠ "void" := hx
  unfold take default?
  cases x.value with
  | none =>
      simp [Parameters.Progress.noteValue, htarget]
      rfl
  | some v => simp [Parameters.Progress.noteValue, htarget]

/-- A parameter stays that has no default value, or one within the limit. -/
theorem take_of_stays (hstays : x.value = none ∨ keep.all (p.kept < ·) = true) :
    x.take table usings scope choice keep p spacing =
      x.take table usings scope choice none p spacing := by
  unfold take default?
  cases hvalue : x.value with
  | none => rfl
  | some v =>
      have hkeep : keep.all (p.kept < ·) = true := by
        rcases hstays with hnone | hkeep
        · rw [hvalue] at hnone
          cases hnone
        · exact hkeep
      simp [Parameters.Progress.noteValue, hkeep]

/-- Beyond the limit a parameter with a default value is counted only. -/
theorem take_of_dropped (hvalue : x.value.isSome = true) (hkeep : keep.all (p.kept < ·) = false) :
    x.take table usings scope choice keep p spacing = p.pass 1 := by
  obtain ⟨v, hv⟩ := Option.isSome_iff_exists.mp hvalue
  unfold take default?
  simp [hv, Parameters.Progress.noteValue, hkeep, Parameters.Progress.pass]

/-- Default values are counted, whether they stay or not, and none of them names anything
that is skipped. -/
theorem take_notes (keep : Option Nat) (p : Parameters.Progress) :
    (x.take table usings scope choice keep p spacing).parameters.defaults =
        p.parameters.defaults + x.value.toList.length ∧
      (x.take table usings scope choice keep p spacing).namesSkipped = p.namesSkipped := by
  have hnote : ∀ (value : Option DefaultValue) (q : Parameters.Progress),
      (∀ v ∈ value, v.isSkipped = false) →
        (q.noteValue value keep).2.parameters.defaults =
            q.parameters.defaults + value.toList.length ∧
          (q.noteValue value keep).2.namesSkipped = q.namesSkipped := by
    intro value q hvalue
    unfold Parameters.Progress.noteValue
    cases value with
    | none => exact ⟨rfl, rfl⟩
    | some v =>
        dsimp only
        split <;> simp [hvalue v rfl]
  have hvalue : ∀ v ∈ x.default? table usings scope, v.isSkipped = false := by
    intro v hv
    obtain ⟨_, -, rfl⟩ := Option.map_eq_some_iff.mp hv
    rfl
  have hlength : (x.default? table usings scope).toList.length = x.value.toList.length := by
    unfold default?
    cases x.value <;> rfl
  obtain ⟨hdefaults, hskipped⟩ := hnote _ { p with count := p.count + 1 } hvalue
  rw [hlength] at hdefaults
  unfold take
  dsimp only
  split
  · exact ⟨hdefaults, hskipped⟩
  · exact ⟨hdefaults, hskipped⟩

/-- Nothing else is printed than the parameter. -/
theorem take_declarators (table : RuleTable) (usings : List String) :
    (x.take table usings scope choice keep p spacing).parameters.declarators =
        p.parameters.declarators ∨
      (x.take table usings scope choice keep p spacing).parameters.declarators =
        p.parameters.declarators ++ [x.declarator table usings scope choice p.count] := by
  have hnote : ∀ (value : Option DefaultValue) (q : Parameters.Progress),
      (q.noteValue value keep).2.parameters.declarators = q.parameters.declarators := by
    intro value q
    unfold Parameters.Progress.noteValue
    cases value with
    | none => rfl
    | some v =>
        dsimp only
        split <;> rfl
  unfold take
  dsimp only
  split
  · refine Or.inr ?_
    change Parameters.declarators _ ++ [_] = _
    rw [hnote]
  · exact Or.inl (hnote _ _)

/-- What a parameter is printed as. -/
structure Gives (scope : Scope) (choice : Int) (x : Parameter) (d : Declarator) : Prop where
  typeName : d.type.nativeName = x.found.1.type.nativeName
  target : d.type.targetName = x.target scope choice
  stars : d.indirections = x.found.1.declarator.indirections
  definition : d.definition = x.found.1.declarator.definition

theorem gives_declarator (table : RuleTable) (usings : List String) (scope : Scope) (choice : Int)
    (count : Nat) (x : Parameter) :
    x.Gives scope choice (x.declarator table usings scope choice count) := by
  have hlike := x.spelling.like_declarator table usings x.found
    { scope, choice, defaultName := some ("arg" ++ toString count) }
  exact ⟨hlike.typeName, rfl, hlike.stars, hlike.definition⟩

end Parameter

namespace Parameters

variable {table : RuleTable} {usings : List String} {scope : Scope} {choice : Int}
  {keep : Option Nat} {p p' : Progress} {xs ys : List Parameter}

/-- How many parameters have a default value. -/
def valued (xs : List Parameter) : Nat :=
  (xs.filter (·.value.isSome)).length

theorem valued_append (xs ys : List Parameter) : valued (xs ++ ys) = valued xs + valued ys := by
  simp [valued]

theorem valued_singleton (x : Parameter) : valued [x] = x.value.toList.length := by
  cases hvalue : x.value <;> simp [valued, hvalue]

/-- All of these parameters were printed behind those in front of them. -/
structure Adds (scope : Scope) (choice : Int) (xs : List Parameter) (p p' : Progress) : Prop where
  declarators : ∃ ds, p'.parameters.declarators = p.parameters.declarators ++ ds ∧
    List.Forall₂ (Parameter.Gives scope choice) xs ds
  signature : p'.parameters.signature = p.parameters.signature ++
    String.join (xs.map fun x => signaturePart (x.target scope choice))
  defaults : p'.parameters.defaults = p.parameters.defaults + valued xs
  kept : p'.kept = p.kept + valued xs

theorem Adds.nil : Adds scope choice [] p p :=
  ⟨⟨[], by simp⟩, by simp, rfl, rfl⟩

theorem Adds.trans {p'' : Progress} (h : Adds scope choice xs p p')
    (h' : Adds scope choice ys p' p'') : Adds scope choice (xs ++ ys) p p'' := by
  obtain ⟨ds, hds, hgives⟩ := h.declarators
  obtain ⟨ds', hds', hgives'⟩ := h'.declarators
  refine ⟨⟨ds ++ ds', ?_, List.rel_append hgives hgives'⟩, ?_, ?_, ?_⟩
  · rw [hds', hds, List.append_assoc]
  · rw [h'.signature, h.signature, List.map_append, String.join_append, String.append_assoc]
  · rw [h'.defaults, h.defaults, valued_append, Nat.add_assoc]
  · rw [h'.kept, h.kept, valued_append, Nat.add_assoc]

/-- One parameter is printed. -/
theorem adds_take (table : RuleTable) (usings : List String) {x : Parameter}
    (hx : x.Passed scope choice) (spacing : String) :
    Adds scope choice [x] p (x.take table usings scope choice none p spacing) := by
  have hgiven := x.gives_declarator table usings scope choice p.count
  rw [x.take_none hx]
  refine ⟨⟨_, rfl, .cons hgiven .nil⟩, ?_, ?_, ?_⟩
  · simp [Progress.push, hgiven.target, String.join]
  · rw [valued_singleton]
    rfl
  · rw [valued_singleton]
    rfl

/-- Without a limit all parameters are printed, by induction on the list. -/
theorem adds_takeAll (hxs : ∀ x ∈ xs, x.Passed scope choice) :
    Adds scope choice xs p (takeAll table usings scope choice none p xs) := by
  induction xs generalizing p with
  | nil => exact .nil
  | cons x xs ih =>
      exact (adds_take table usings (hxs x List.mem_cons_self) _).trans
        (ih fun y hy => hxs y (List.mem_cons_of_mem _ hy))

theorem takeAll_append (xs ys : List Parameter) :
    takeAll table usings scope choice keep p (xs ++ ys) =
      takeAll table usings scope choice keep (takeAll table usings scope choice keep p xs) ys :=
  List.foldl_append

/-- Up to the limit, the limit makes no difference. -/
theorem takeAll_of_stays {m : Nat} (hxs : ∀ x ∈ xs, x.Passed scope choice)
    (hm : p.kept + valued xs ≤ m) :
    takeAll table usings scope choice (some m) p xs =
      takeAll table usings scope choice none p xs := by
  induction xs generalizing p with
  | nil => rfl
  | cons x xs ih =>
      have hcount : valued (x :: xs) = valued [x] + valued xs := valued_append [x] xs
      have hstays : x.value = none ∨ (some m).all (p.kept < ·) = true := by
        cases hvalue : x.value with
        | none => exact Or.inl rfl
        | some v =>
            have hone : valued [x] = 1 := by simp [valued, hvalue]
            exact Or.inr (by simp; omega)
      have htake := (adds_take table usings (p := p) (hxs x List.mem_cons_self)
        (spacingOf x)).kept
      change takeAll table usings scope choice (some m) (x.take _ _ _ _ _ _ _) xs =
        takeAll table usings scope choice none _ xs
      rw [Parameter.take_of_stays hstays]
      exact ih (fun y hy => hxs y (List.mem_cons_of_mem _ hy)) (by rw [htake]; omega)

/-- Beyond the limit, parameters with default values are counted only. -/
theorem takeAll_of_dropped {m : Nat} (hxs : ∀ x ∈ xs, x.value.isSome = true) (hm : m ≤ p.kept) :
    takeAll table usings scope choice (some m) p xs = p.pass xs.length := by
  induction xs generalizing p with
  | nil => exact p.pass_zero.symm
  | cons x xs ih =>
      have hpass : (p.pass 1).pass xs.length = p.pass (x :: xs).length := by
        simp only [Progress.pass, List.length_cons, Nat.add_assoc, Nat.add_comm 1]
      change takeAll table usings scope choice (some m) (x.take _ _ _ _ _ _ _) xs = _
      rw [Parameter.take_of_dropped (hxs x List.mem_cons_self) (by simpa using hm), ← hpass]
      exact ih (fun y hy => hxs y (List.mem_cons_of_mem _ hy)) hm

/-- All default values are counted, and none of them names anything that is skipped. -/
theorem takeAll_notes :
    (takeAll table usings scope choice keep p xs).parameters.defaults =
        p.parameters.defaults + valued xs ∧
      (takeAll table usings scope choice keep p xs).namesSkipped = p.namesSkipped := by
  induction xs generalizing p with
  | nil => exact ⟨rfl, rfl⟩
  | cons x xs ih =>
      obtain ⟨hdefaults, hskipped⟩ := x.take_notes keep p
      obtain ⟨hdefaults', hskipped'⟩ := ih (p := x.take table usings scope choice keep p (spacingOf x))
      refine ⟨?_, hskipped'.trans hskipped⟩
      rw [hdefaults, Nat.add_assoc, ← valued_singleton, ← valued_append] at hdefaults'
      exact hdefaults'

/-- Each parameter that is printed is one of those. -/
theorem exists_gives_of_mem_takeAll {d : Declarator}
    (hd : d ∈ (takeAll table usings scope choice keep p xs).parameters.declarators) :
    d ∈ p.parameters.declarators ∨ ∃ x ∈ xs, x.Gives scope choice d := by
  induction xs generalizing p with
  | nil => exact Or.inl hd
  | cons x xs ih =>
      rcases ih hd with hbefore | ⟨y, hy, hgives⟩
      · rcases x.take_declarators table usings with hsame | hmore
        · exact Or.inl (hsame ▸ hbefore)
        · rw [hmore, List.mem_append, List.mem_singleton] at hbefore
          rcases hbefore with hbefore | rfl
          · exact Or.inl hbefore
          · exact Or.inr ⟨x, List.mem_cons_self, x.gives_declarator table usings scope choice _⟩
      · exact Or.inr ⟨y, List.mem_cons_of_mem _ hy, hgives⟩

/-! ## Reading the list -/

/-- What a list of parameters is read as. -/
def taken (table : RuleTable) (usings : List String) (scope : Scope) (choice : Int)
    (keep : Option Nat) (close : Token) (xs : List Parameter) : Parameters :=
  ((takeAll table usings scope choice keep {} xs).close close.spacing).parameters

/-- **Reading a list of parameters.** -/
theorem readWith_passes (inner : DeclaratorReader) {opening close : Token}
    (hopening : opening.is "(" = true) (hclose : close.IsMark ")") (hxs : Written ts xs)
    (hfits : ∀ x ∈ xs, x.Fits s.table s.usings scope)
    (h : s.Sees (opening :: (ts ++ close :: u :: us))) :
    Passes (readWith (Declarator.readWith inner) scope choice keep) s (u :: us)
      (· = some (taken s.table s.usings scope choice keep close xs)) := by
  obtain ⟨first, more, hfirst⟩ : ∃ first more, ts ++ close :: u :: us = first :: more := by
    cases ts with
    | nil => exact ⟨close, _, rfl⟩
    | cons t ts => exact ⟨t, _, rfl⟩
  have hlist : Passes (readList (Declarator.readWith inner) scope choice keep) s (u :: us)
      (· = some ((takeAll s.table s.usings scope choice keep {} xs).close close.spacing)) := by
    refine (advance_to h (by rw [hfirst]; rfl)).bind_eq fun j h => iterate_passes h fun n hn => ?_
    refine list_passes inner hclose hxs hfits h (by rw [hfirst]; rfl) ?_
    have hlength := hxs.length_le
    simp only [List.length_append, List.length_cons] at hn
    omega
  have hskipped : ((takeAll s.table s.usings scope choice keep {} xs).close
      close.spacing).namesSkipped = false :=
    takeAll_notes.2
  have hback : cursor s = .ok s.window.index s := rfl
  unfold readWith
  rw [Passes, bind_of_ok (peek_of_sees h), if_neg (by simp [hopening]), bind_of_ok hback]
  refine hlist.bind_eq fun j h => ?_
  dsimp only
  rw [if_pos (by simp [hskipped])]
  exact passes_pure h rfl

end Parameters

end HeaderPeers

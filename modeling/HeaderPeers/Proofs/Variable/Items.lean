import HeaderPeers.Proofs.Function.Declarators
import HeaderPeers.Proofs.Window.Invocation

/-!
# The items of a list of variables

A declarator of a variable has stars, a name, dimensions and perhaps a value. To get
to one of several, those in front of it are passed over with a count of the brackets.

- `Dimension` — a dimension as it is written.
- `Variable.Item` — a declarator as it is written.
- `Declarator.PassedOver` — tokens that are passed over at some depth of brackets.
- `Declarator.skipTo_item`, `Declarator.skipTo_end` — getting to one of several items, and behind
  all of them.
- `Declarator.skipTo_hidden` — behind a bracket that stays open there is no further item.
-/

namespace HeaderPeers

open ReadM

variable {s : Reading} {t u stop : Token} {ts us rest : List Token} {depth : Int} {i number n : Nat}

/-! ## Passing over tokens -/

namespace Declarator

/-- One turn of going to the declarator with this number. -/
def skipTurn (number : Nat) : Int × Nat × Token → ReadM (Turn (Int × Nat × Token) Bool) :=
  fun (depth, i, t) => do
    if i ≥ number || t.isEof then return .done true
    if t.isAny ["(", "[", "\x7b"] then return .again (depth + 1, i, ← advance)
    else if t.isAny [")", "]", "\x7d"] then return .again (depth - 1, i, ← advance)
    else if depth > 0 then return .again (depth, i, ← advance)
    else if t.is "," then return .again (depth, i + 1, ← advance)
    else if t.is ";" then
      let _ ← advance
      return .done false
    else return .again (depth, i, ← advance)

theorem skipTo_eq (number : Nat) : skipTo number = (do
    let first ← peek
    iterate ((0 : Int), 0, first) (skipTurn number)) :=
  rfl

/-- A mark that opens brackets, and one that closes them. -/
abbrev opens (t : Token) : Bool :=
  t.isAny ["(", "[", "\x7b"]

abbrev closes (t : Token) : Bool :=
  t.isAny [")", "]", "\x7d"]

theorem isEof_of_isAny {texts : List String} (h : t.isAny texts = true) : t.isEof = false := by
  obtain ⟨text, -, htext⟩ := List.any_eq_true.mp h
  simp only [Token.is, Bool.and_eq_true, bne_iff_ne, ne_eq] at htext
  simpa [Token.isEof] using htext.1

theorem skipTurn_opens (hi : i < number) (ht : opens t = true) (h : s.Sees (t :: u :: ts)) :
    Passes (skipTurn number (depth, i, t)) s (u :: ts) (· = .again (depth + 1, i, u)) := by
  unfold skipTurn
  dsimp only
  rw [if_neg (by simp [hi, isEof_of_isAny ht]), if_pos ht]
  exact (advance_passes h).bind_eq fun j h => passes_pure h rfl

theorem skipTurn_closes (hi : i < number) (hopens : opens t = false) (ht : closes t = true)
    (h : s.Sees (t :: u :: ts)) :
    Passes (skipTurn number (depth, i, t)) s (u :: ts) (· = .again (depth - 1, i, u)) := by
  unfold skipTurn
  dsimp only
  rw [if_neg (by simp [hi, isEof_of_isAny ht]), if_neg (by simp [hopens]), if_pos ht]
  exact (advance_passes h).bind_eq fun j h => passes_pure h rfl

theorem skipTurn_plain (hi : i < number) (heof : t.isEof = false) (hopens : opens t = false)
    (hcloses : closes t = false) (hplain : 0 < depth ∨ t.is "," = false ∧ t.is ";" = false)
    (h : s.Sees (t :: u :: ts)) :
    Passes (skipTurn number (depth, i, t)) s (u :: ts) (· = .again (depth, i, u)) := by
  unfold skipTurn
  dsimp only
  rw [if_neg (by simp [hi, heof]), if_neg (by simp [hopens]), if_neg (by simp [hcloses])]
  by_cases hdepth : depth > 0
  · rw [if_pos hdepth]
    exact (advance_passes h).bind_eq fun j h => passes_pure h rfl
  · obtain ⟨hcomma, hsemicolon⟩ := hplain.resolve_left hdepth
    rw [if_neg hdepth, if_neg (by simp [hcomma]), if_neg (by simp [hsemicolon])]
    exact (advance_passes h).bind_eq fun j h => passes_pure h rfl

/-- Outside of brackets, commas are counted. -/
theorem skipTurn_comma (hi : i < number) (ht : t.IsMark ",") (h : s.Sees (t :: u :: ts)) :
    Passes (skipTurn number (0, i, t)) s (u :: ts) (· = .again (0, i + 1, u)) := by
  unfold skipTurn
  dsimp only
  rw [if_neg (by simp [hi, ht.isEof_eq]), if_neg (by simp [Token.isAny, ht.is_eq]),
    if_neg (by simp [Token.isAny, ht.is_eq]), if_neg (by simp), if_pos (by simp [ht.is_eq])]
  exact (advance_passes h).bind_eq fun j h => passes_pure h rfl

/-- Outside of brackets, a semicolon ends the search. -/
theorem skipTurn_semicolon (hi : i < number) (ht : t.IsMark ";") (h : s.Sees (t :: u :: ts)) :
    Passes (skipTurn number (0, i, t)) s (u :: ts) (· = .done false) := by
  unfold skipTurn
  dsimp only
  rw [if_neg (by simp [hi, ht.isEof_eq]), if_neg (by simp [Token.isAny, ht.is_eq]),
    if_neg (by simp [Token.isAny, ht.is_eq]), if_neg (by simp), if_neg (by simp [ht.is_eq]),
    if_pos (by simp [ht.is_eq])]
  exact (advance_passes h).bind_eq fun j h => passes_pure h rfl

/-- The tokens are passed over at this depth of brackets, which is the same behind them: the loop
goes on from there. -/
def PassedOver (depth : Int) (ts : List Token) : Prop :=
  ∀ ⦃number i n : Nat⦄ ⦃s : Reading⦄ ⦃first stop : Token⦄ ⦃rest us : List Token⦄ ⦃R : Bool → Prop⦄,
    i < number → s.Sees (ts ++ stop :: rest) → (ts ++ stop :: rest).head? = some first →
    (∀ j, (s.atIndex j).Sees (stop :: rest) →
      Passes (iterateUpTo (skipTurn number) n (depth, i, stop)) (s.atIndex j) us R) →
    Passes (iterateUpTo (skipTurn number) (ts.length + n) (depth, i, first)) s us R

theorem passedOver_nil (depth : Int) : PassedOver depth [] := by
  intro number i n s first stop rest us R _ h hfirst hrest
  obtain rfl := Option.some.inj hfirst
  rw [List.length_nil, Nat.zero_add]
  exact hrest s.window.index h

theorem PassedOver.append (h : PassedOver depth ts) (h' : PassedOver depth us) :
    PassedOver depth (ts ++ us) := by
  intro number i n s first stop rest us' R hi hsees hfirst hrest
  obtain ⟨next, more, hnext⟩ : ∃ next more, us ++ stop :: rest = next :: more := by
    cases us with
    | nil => exact ⟨stop, rest, rfl⟩
    | cons t us => exact ⟨t, us ++ stop :: rest, rfl⟩
  rw [List.append_assoc, hnext] at hsees hfirst
  rw [List.length_append, Nat.add_assoc]
  refine h hi hsees hfirst fun j hsees => ?_
  exact h' hi (hnext ▸ hsees) (by rw [hnext]; rfl) fun k hsees => hrest k hsees

theorem passedOver_of_forall (h : ∀ t ∈ ts, PassedOver depth [t]) : PassedOver depth ts := by
  induction ts with
  | nil => exact passedOver_nil depth
  | cons t ts ih =>
      rw [List.forall_mem_cons] at h
      exact h.1.append (ih h.2)

theorem passedOver_token (heof : t.isEof = false) (hopens : opens t = false)
    (hcloses : closes t = false) (hplain : 0 < depth ∨ t.is "," = false ∧ t.is ";" = false) :
    PassedOver depth [t] := by
  intro number i n s first stop rest us R hi h hfirst hrest
  obtain rfl := Option.some.inj hfirst
  rw [List.length_singleton, Nat.add_comm]
  refine iterateUpTo_again ((skipTurn_plain hi heof hopens hcloses hplain h).imp fun r hr =>
    ⟨_, hr, rfl⟩) ?_
  rintro _ j rfl h
  exact hrest j h

/-- Brackets are passed over with what stands inside. -/
theorem PassedOver.group (hopens : opens t = true) (inside : PassedOver (depth + 1) ts)
    (hnot : opens u = false) (hcloses : closes u = true) :
    PassedOver depth (t :: (ts ++ [u])) := by
  intro number i n s first stop rest us R hi h hfirst hrest
  obtain rfl := Option.some.inj hfirst
  obtain ⟨next, more, hnext⟩ : ∃ next more, ts ++ u :: stop :: rest = next :: more := by
    cases ts with
    | nil => exact ⟨u, stop :: rest, rfl⟩
    | cons v ts => exact ⟨v, ts ++ u :: stop :: rest, rfl⟩
  have htokens : t :: (ts ++ [u]) ++ stop :: rest = t :: (ts ++ u :: stop :: rest) := by simp
  have hlength : (t :: (ts ++ [u])).length + n = ts.length + (n + 1) + 1 := by
    simp only [List.length_cons, List.length_append, List.length_nil]
    omega
  rw [htokens, hnext] at h
  rw [hlength]
  refine iterateUpTo_again ((skipTurn_opens hi hopens h).imp fun r hr => ⟨_, hr, rfl⟩) ?_
  rintro _ j rfl h
  rw [← hnext] at h
  refine inside hi h (by rw [hnext]; rfl) fun k h => ?_
  refine iterateUpTo_again ((skipTurn_closes hi hnot hcloses h).imp fun r hr => ⟨_, hr, rfl⟩) ?_
  rintro _ l rfl h
  rw [Int.add_sub_cancel]
  exact hrest l h

/-- Balanced tokens are passed over, by induction on them: commas stand inside brackets, and no
semicolon outside of them. -/
theorem passedOver_of_balanced {commas : Bool} (h : Expansion.Balanced commas ts)
    (hdepth : 0 ≤ depth) (hcommas : commas = true → 0 < depth)
    (heof : ∀ t ∈ ts, t.isEof = false) (hsemicolon : 0 < depth ∨ ∀ t ∈ ts, t.is ";" = false) :
    PassedOver depth ts := by
  induction h generalizing depth with
  | nil => exact passedOver_nil depth
  | @plain commas t ts notBracket notComma more ih =>
      simp only [Token.isAny, List.any_cons, List.any_nil, Bool.or_false,
        Bool.or_eq_false_iff] at notBracket
      obtain ⟨h₁, h₂, h₃, h₄, h₅, h₆⟩ := notBracket
      have hplain : 0 < depth ∨ t.is "," = false ∧ t.is ";" = false := by
        by_cases hinside : 0 < depth
        · exact Or.inl hinside
        · refine Or.inr ⟨?_, hsemicolon.resolve_left hinside t List.mem_cons_self⟩
          rw [Bool.eq_false_iff]
          exact fun hcomma => hinside (hcommas (notComma hcomma))
      have hfirst : PassedOver depth [t] :=
        passedOver_token (heof t List.mem_cons_self) (by simp [opens, Token.isAny, h₁, h₃, h₅])
          (by simp [closes, Token.isAny, h₂, h₄, h₆]) hplain
      refine hfirst.append (ih hdepth hcommas (fun u hu => heof u (List.mem_cons_of_mem _ hu)) ?_)
      exact hsemicolon.imp_right fun h u hu => h u (List.mem_cons_of_mem _ hu)
  | @group commas opening closing t u ts us pair isOpening inside isClosing more ihInside ihRest =>
      have hbrackets : opens t = true ∧ opens u = false ∧ closes u = true := by
        simp only [Token.is, Bool.and_eq_true, bne_iff_ne, beq_iff_eq] at isOpening isClosing
        simp only [List.mem_cons, Prod.mk.injEq, List.not_mem_nil, or_false] at pair
        rcases pair with ⟨rfl, rfl⟩ | ⟨rfl, rfl⟩ | ⟨rfl, rfl⟩ <;>
          simp [opens, closes, Token.isAny, Token.is, isOpening, isClosing]
      have hmem {v : Token} (hv : v ∈ ts ∨ v ∈ us) : v ∈ t :: ts ++ u :: us := by
        rcases hv with hv | hv <;> simp [hv]
      have hgroup : PassedOver depth (t :: (ts ++ [u])) :=
        .group hbrackets.1 (ihInside (by omega) (fun _ => by omega)
          (fun v hv => heof v (hmem (Or.inl hv))) (Or.inl (by omega))) hbrackets.2.1 hbrackets.2.2
      have hrest := ihRest hdepth hcommas (fun v hv => heof v (hmem (Or.inr hv)))
        (hsemicolon.imp_right fun h v hv => h v (hmem (Or.inr hv)))
      simpa using hgroup.append hrest

end Declarator

/-! ## Dimensions -/

/-- A dimension as it is written: brackets with any tokens between them, or none. -/
structure Dimension where
  opening : Token
  size : List Token
  closing : Token
  isOpening : opening.IsMark "["
  isClosing : closing.IsMark "]"
  isSize : ∀ t ∈ size, t.isEof = false ∧ t.is "]" = false

namespace Dimension

/-- No bracket stands inside. -/
def Closed (x : Dimension) : Prop :=
  ∀ t ∈ x.size, t.isAny ["(", ")", "[", "\x7b", "\x7d"] = false

def tokens (x : Dimension) : List Token :=
  x.opening :: (x.size ++ [x.closing])

/-- The number that it is read as: that of its first token. -/
def extent (x : Dimension) : Int :=
  DeclaredName.dimension (x.size.head?.getD x.closing)

theorem passedOver {x : Dimension} (h : x.Closed) : Declarator.PassedOver 0 x.tokens := by
  have hopens : Declarator.opens x.opening = true := by
    simp [Declarator.opens, Token.isAny, x.isOpening.is_eq]
  have hnot : Declarator.opens x.closing = false := by
    simp [Declarator.opens, Token.isAny, x.isClosing.is_eq]
  have hcloses : Declarator.closes x.closing = true := by
    simp [Declarator.closes, Token.isAny, x.isClosing.is_eq]
  refine .group hopens (Declarator.passedOver_of_forall fun t ht => ?_) hnot hcloses
  obtain ⟨heof, hinside⟩ := x.isSize t ht
  have hbracket := h t ht
  simp only [Token.isAny, List.any_cons, List.any_nil, Bool.or_false,
    Bool.or_eq_false_iff] at hbracket
  obtain ⟨h₁, h₂, h₃, h₄, h₅⟩ := hbracket
  exact Declarator.passedOver_token heof
    (by simp [Declarator.opens, Token.isAny, h₁, h₃, h₄])
    (by simp [Declarator.closes, Token.isAny, h₂, hinside, h₅]) (Or.inl (by decide))

end Dimension

namespace DeclaredName

/-- One turn of reading dimensions. -/
def dimsTurn : List Int × Bool × Token → ReadM (Turn (List Int × Bool × Token) (List Int)) :=
  fun (dims, inside, t) => do
    if t.isEof then return .done dims
    if !inside then
      if t.is "[" then
        let size ← peekAt 1
        return .again (dims ++ [dimension size], true, ← advance)
      else return .done dims
    else return .again (dims, !t.is "]", ← advance)

/-- Inside brackets, each token is passed, and the closing one ends them. -/
theorem dimsTurn_inside (heof : t.isEof = false) (h : s.Sees (t :: u :: ts)) (dims : List Int) :
    Passes (dimsTurn (dims, true, t)) s (u :: ts) (· = .again (dims, !t.is "]", u)) := by
  unfold dimsTurn
  dsimp only
  rw [if_neg (by simp [heof]), if_neg (by simp)]
  exact (advance_passes h).bind_eq fun j h => passes_pure h rfl

/-- Tokens inside brackets are passed, by induction on them. -/
theorem iterateUpTo_inside {dims : List Int} {closing first : Token} {R : List Int → Prop}
    (hclosing : closing.IsMark "]") (hts : ∀ t ∈ ts, t.isEof = false ∧ t.is "]" = false)
    (h : s.Sees (ts ++ closing :: u :: rest))
    (hfirst : (ts ++ closing :: u :: rest).head? = some first)
    (hrest : ∀ j, (s.atIndex j).Sees (u :: rest) →
      Passes (iterateUpTo dimsTurn n (dims, false, u)) (s.atIndex j) us R) :
    Passes (iterateUpTo dimsTurn (ts.length + (n + 1)) (dims, true, first)) s us R := by
  induction ts generalizing s first with
  | nil =>
      obtain rfl := Option.some.inj hfirst
      rw [List.length_nil, Nat.zero_add]
      have hturn := dimsTurn_inside hclosing.isEof_eq h dims
      refine iterateUpTo_again (hturn.imp fun r hr => ⟨_, hr, rfl⟩) ?_
      rintro _ j rfl h
      have hends : (!closing.is "]") = false := by simp [hclosing.is_eq]
      rw [hends]
      exact hrest j h
  | cons t ts ih =>
      obtain rfl := Option.some.inj hfirst
      rw [List.forall_mem_cons] at hts
      obtain ⟨next, more, hnext⟩ : ∃ next more, ts ++ closing :: u :: rest = next :: more := by
        cases ts with
        | nil => exact ⟨closing, u :: rest, rfl⟩
        | cons v ts => exact ⟨v, _, rfl⟩
      rw [List.cons_append, hnext] at h
      rw [List.length_cons, Nat.add_right_comm]
      refine iterateUpTo_again ((dimsTurn_inside hts.1.1 h dims).imp fun r hr => ⟨_, hr, rfl⟩) ?_
      rintro _ j rfl h
      rw [hts.1.2]
      exact ih hts.2 (hnext ▸ h) (by rw [hnext]; rfl) hrest

/-- One dimension is taken, and the loop goes on behind it. -/
theorem iterateUpTo_dimension {dims : List Int} {R : List Int → Prop} (x : Dimension)
    (h : s.Sees (x.tokens ++ u :: ts))
    (hrest : ∀ j, (s.atIndex j).Sees (u :: ts) →
      Passes (iterateUpTo dimsTurn n (dims ++ [x.extent], false, u)) (s.atIndex j) us R) :
    Passes (iterateUpTo dimsTurn (x.tokens.length + n) (dims, false, x.opening)) s us R := by
  obtain ⟨v, vs, hv, hextent⟩ : ∃ v vs, x.size ++ x.closing :: u :: ts = v :: vs ∧
      x.extent = dimension v := by
    unfold Dimension.extent
    cases x.size with
    | nil => exact ⟨x.closing, u :: ts, rfl, rfl⟩
    | cons v vs => exact ⟨v, _, rfl, rfl⟩
  obtain ⟨w, ws, hw⟩ : ∃ w ws, vs = w :: ws := by
    refine List.exists_cons_of_ne_nil fun hnil => ?_
    have hlength := congrArg List.length hv
    simp only [hnil, List.length_append, List.length_cons, List.length_nil] at hlength
    omega
  have htokens : x.tokens ++ u :: ts = x.opening :: (x.size ++ x.closing :: u :: ts) := by
    simp [Dimension.tokens]
  have hlength : x.tokens.length + n = x.size.length + (n + 1) + 1 := by
    simp only [Dimension.tokens, List.length_cons, List.length_append, List.length_nil]
    omega
  rw [htokens, hv, hw] at h
  have hopening : Passes (dimsTurn (dims, false, x.opening)) s (v :: w :: ws)
      (· = .again (dims ++ [dimension v], true, v)) := by
    unfold dimsTurn
    dsimp only
    rw [if_neg (by simp [x.isOpening.isEof_eq]), if_pos (by simp),
      if_pos (by simp [x.isOpening.is_eq])]
    refine (peekAt_one_passes h).bind_eq fun j h => ?_
    exact (advance_passes h).bind_eq fun j h => passes_pure h rfl
  rw [hlength]
  refine iterateUpTo_again (hopening.imp fun r hr => ⟨_, hr, rfl⟩) ?_
  rintro _ j rfl h
  rw [← hw, ← hv] at h
  rw [hextent] at hrest
  exact iterateUpTo_inside x.isClosing x.isSize h (by rw [hv]; rfl) hrest

/-- Dimensions are taken one after another, by induction on them. -/
theorem iterateUpTo_dimensions {first : Token} (xs : List Dimension)
    (h : s.Sees (xs.flatMap Dimension.tokens ++ u :: ts))
    (hfirst : (xs.flatMap Dimension.tokens ++ u :: ts).head? = some first)
    (hbracket : u.is "[" = false) (dims : List Int) :
    Passes (iterateUpTo dimsTurn ((xs.flatMap Dimension.tokens).length + (n + 1))
      (dims, false, first)) s (u :: ts) (· = dims ++ xs.map Dimension.extent) := by
  induction xs generalizing s dims first with
  | nil =>
      obtain rfl := Option.some.inj hfirst
      rw [List.flatMap_nil, List.length_nil, Nat.zero_add]
      refine iterateUpTo_done ?_
      unfold dimsTurn
      dsimp only
      by_cases heof : u.isEof = true
      · rw [if_pos heof]
        exact passes_pure h ⟨_, rfl, by simp⟩
      · rw [if_neg heof, if_pos (by simp), if_neg (by simp [hbracket])]
        exact passes_pure h ⟨_, rfl, by simp⟩
  | cons x xs ih =>
      obtain rfl := Option.some.inj hfirst
      obtain ⟨next, more, hnext⟩ :
          ∃ next more, xs.flatMap Dimension.tokens ++ u :: ts = next :: more := by
        cases xs with
        | nil => exact ⟨u, ts, rfl⟩
        | cons x xs => exact ⟨x.opening, _, rfl⟩
      rw [List.flatMap_cons, List.append_assoc, hnext] at h
      rw [List.flatMap_cons, List.length_append, Nat.add_assoc]
      refine iterateUpTo_dimension x h fun j h => ?_
      have hread := ih (hnext ▸ h) (by rw [hnext]; rfl) (dims ++ [x.extent])
      simpa using hread

theorem readDims_all (xs : List Dimension) (h : s.Sees (xs.flatMap Dimension.tokens ++ u :: ts))
    (hbracket : u.is "[" = false) (dims : List Int) :
    Passes (readDims dims) s (u :: ts) (· = dims ++ xs.map Dimension.extent) := by
  obtain ⟨first, rest, hfirst⟩ :
      ∃ first rest, xs.flatMap Dimension.tokens ++ u :: ts = first :: rest := by
    cases xs with
    | nil => exact ⟨u, ts, rfl⟩
    | cons x xs => exact ⟨x.opening, _, rfl⟩
  change Passes (peek >>= fun first => iterate (dims, false, first) dimsTurn) s _ _
  rw [hfirst] at h
  refine (peek_passes h).bind_eq fun j h => iterate_passes h fun n hn => ?_
  have hlength : (xs.flatMap Dimension.tokens).length < n := by
    have hall := congrArg List.length hfirst
    rw [List.length_append, List.length_cons] at hall
    omega
  obtain ⟨n, rfl⟩ := Nat.exists_eq_add_of_lt hlength
  rw [← hfirst] at h
  exact iterateUpTo_dimensions xs h (by rw [hfirst]; rfl) hbracket dims

end DeclaredName

/-! ## Items -/

namespace Variable

/-- A declarator of a variable as it is written. -/
structure Item where
  stars : List Token
  name : Token
  dims : List Dimension
  /-- The mark `=` and what stands behind it. -/
  value : Option (Token × List Token)
  areStars : ∀ t ∈ stars, t.IsMark "*"
  isName : name.IsName
  isValue : ∀ v ∈ value, v.1.IsMark "=" ∧ Expansion.Balanced false v.2 ∧
    ∀ t ∈ v.2, t.isEof = false ∧ t.is ";" = false

namespace Item

theorem areStars_nil : ∀ t ∈ ([] : List Token), t.IsMark "*" :=
  List.forall_mem_nil _

theorem isValue_none : ∀ v ∈ (none : Option (Token × List Token)), v.1.IsMark "=" ∧
    Expansion.Balanced false v.2 ∧ ∀ t ∈ v.2, t.isEof = false ∧ t.is ";" = false := by
  simp

def valueTokens (x : Item) : List Token :=
  x.value.elim [] fun v => v.1 :: v.2

/-- The tokens from the name on. -/
def named (x : Item) : List Token :=
  x.name :: (x.dims.flatMap Dimension.tokens ++ x.valueTokens)

def tokens (x : Item) : List Token :=
  x.stars ++ x.named

/-- No bracket stands inside the brackets of the dimensions. -/
def Closed (x : Item) : Prop :=
  ∀ d ∈ x.dims, d.Closed

/-- Other items, each behind a comma. -/
def listed (others : List (Token × Item)) : List Token :=
  others.flatMap fun x => x.1 :: x.2.tokens

end Item

end Variable

namespace Declarator

open Variable

theorem passedOver_of_isMark {text : String} (ht : t.IsMark text)
    (htext : text ∉ ["(", "[", "\x7b", ")", "]", "\x7d", ",", ";"]) : PassedOver 0 [t] := by
  simp only [List.mem_cons, List.not_mem_nil, or_false, not_or] at htext
  exact passedOver_token ht.isEof_eq (by simp [opens, Token.isAny, ht.is_eq, htext])
    (by simp [closes, Token.isAny, ht.is_eq, htext]) (Or.inr (by simp [ht.is_eq, htext]))

/-- An item is passed over, also if the type has taken its first stars. -/
theorem passedOver_item {x : Item} (h : x.Closed) (taken : Nat) :
    PassedOver 0 (x.stars.drop taken ++ x.named) := by
  have hstars : PassedOver 0 (x.stars.drop taken) := passedOver_of_forall fun t ht =>
    passedOver_of_isMark (x.areStars t (List.mem_of_mem_drop ht)) (by decide)
  have hname : PassedOver 0 [x.name] := by
    have hmark := x.isName.is_eq
    exact passedOver_token x.isName.isEof_eq
      (by simp [opens, Token.isAny, hmark "(" (by decide), hmark "[" (by decide),
        hmark "\x7b" (by decide)])
      (by simp [closes, Token.isAny, hmark ")" (by decide), hmark "]" (by decide),
        hmark "\x7d" (by decide)])
      (Or.inr ⟨hmark "," (by decide), hmark ";" (by decide)⟩)
  have hdims : PassedOver 0 (x.dims.flatMap Dimension.tokens) := by
    unfold Item.Closed at h
    generalize x.dims = dims at h
    induction dims with
    | nil => exact passedOver_nil 0
    | cons d dims ih =>
        rw [List.forall_mem_cons] at h
        exact (Dimension.passedOver h.1).append (ih h.2)
  have hvalue : PassedOver 0 x.valueTokens := by
    unfold Item.valueTokens
    cases hvalue : x.value with
    | none => exact passedOver_nil 0
    | some v =>
        obtain ⟨hequals, hbalanced, hinside⟩ := x.isValue v hvalue
        have hmark : PassedOver 0 [v.1] := passedOver_of_isMark hequals (by decide)
        exact hmark.append (passedOver_of_balanced hbalanced (Int.le_refl 0) (by simp)
          (fun t ht => (hinside t ht).1) (Or.inr fun t ht => (hinside t ht).2))
  exact hstars.append (hname.append (hdims.append hvalue))

/-- Items are passed over one after another, and their commas are counted: by induction on
them. -/
theorem iterateUpTo_listed {first : Token} {R : Bool → Prop} (others : List (Token × Item))
    (hothers : ∀ x ∈ others, x.1.IsMark "," ∧ x.2.Closed) (hi : i + others.length < number)
    (h : s.Sees (Item.listed others ++ stop :: rest))
    (hfirst : (Item.listed others ++ stop :: rest).head? = some first)
    (hrest : ∀ j, (s.atIndex j).Sees (stop :: rest) →
      Passes (iterateUpTo (skipTurn number) n (0, i + others.length, stop)) (s.atIndex j) us R) :
    Passes (iterateUpTo (skipTurn number) ((Item.listed others).length + n) (0, i, first)) s us R := by
  induction others generalizing s i first with
  | nil =>
      obtain rfl := Option.some.inj hfirst
      have hlength : (Item.listed []).length + n = n := Nat.zero_add n
      rw [hlength]
      exact hrest s.window.index h
  | cons x others ih =>
      obtain ⟨comma, x⟩ := x
      obtain rfl := Option.some.inj hfirst
      rw [List.forall_mem_cons] at hothers
      rw [List.length_cons] at hi hrest
      obtain ⟨next, more, hnext⟩ : ∃ next more, Item.listed others ++ stop :: rest = next :: more := by
        cases others with
        | nil => exact ⟨stop, rest, rfl⟩
        | cons x others => exact ⟨x.1, _, rfl⟩
      obtain ⟨t, ts, ht⟩ : ∃ t ts, x.tokens ++ next :: more = t :: ts := by
        unfold Item.tokens
        cases x.stars with
        | nil => exact ⟨x.name, _, rfl⟩
        | cons t stars => exact ⟨t, _, rfl⟩
      have htokens : Item.listed ((comma, x) :: others) ++ stop :: rest =
          comma :: (x.tokens ++ next :: more) := by
        rw [← hnext]
        simp [Item.listed]
      have hlength : (Item.listed ((comma, x) :: others)).length + n =
          x.tokens.length + ((Item.listed others).length + n) + 1 := by
        simp only [Item.listed, List.flatMap_cons, List.length_append, List.length_cons]
        omega
      rw [htokens, ht] at h
      rw [hlength]
      refine iterateUpTo_again ((skipTurn_comma (by omega) hothers.1.1 h).imp fun r hr =>
        ⟨_, hr, rfl⟩) ?_
      rintro _ j rfl h
      rw [← ht] at h
      refine passedOver_item hothers.1.2 0 (by omega) h (congrArg List.head? ht) fun k h => ?_
      refine ih hothers.2 (by omega) (hnext ▸ h) (by rw [hnext]; rfl) fun l h => ?_
      rw [Nat.add_assoc, Nat.add_comm 1]
      exact hrest l h

section Search

variable {front : List Token} {others : List (Token × Item)}

/-- The search gets behind a number of items. -/
theorem skipTo_behind {R : Bool → Prop} (hfront : PassedOver 0 front)
    (hothers : ∀ x ∈ others, x.1.IsMark "," ∧ x.2.Closed) (hnumber : others.length < number)
    (h : s.Sees (front ++ (Item.listed others ++ stop :: rest)))
    (hrest : ∀ n j, (stop :: rest).length ≤ n → (s.atIndex j).Sees (stop :: rest) →
      Passes (iterateUpTo (skipTurn number) n (0, others.length, stop)) (s.atIndex j) us R) :
    Passes (skipTo number) s us R := by
  obtain ⟨next, more, hnext⟩ : ∃ next more, Item.listed others ++ stop :: rest = next :: more := by
    cases others with
    | nil => exact ⟨stop, rest, rfl⟩
    | cons x others => exact ⟨x.1, _, rfl⟩
  obtain ⟨first, tail, hfirst⟩ : ∃ first tail, front ++ next :: more = first :: tail := by
    cases front with
    | nil => exact ⟨next, more, rfl⟩
    | cons t front => exact ⟨t, _, rfl⟩
  rw [hnext, hfirst] at h
  rw [skipTo_eq]
  refine (peek_passes h).bind_eq fun j h => iterate_passes h fun n hn => ?_
  rw [← hfirst, List.length_append, ← hnext, List.length_append] at hn
  obtain ⟨m, rfl⟩ := Nat.exists_eq_add_of_le hn
  rw [← hfirst] at h
  have hcount : front.length + ((Item.listed others).length + (stop :: rest).length) + m =
      front.length + ((Item.listed others).length + ((stop :: rest).length + m)) := by omega
  rw [hcount]
  refine hfront (by omega) h (congrArg List.head? hfirst) fun k h => ?_
  refine iterateUpTo_listed others hothers (by omega) (hnext ▸ h) (by rw [hnext]; rfl)
    fun l h => ?_
  rw [Nat.zero_add]
  exact hrest _ l (Nat.le_add_right _ _) h

/-- The item behind a number of others is reached. -/
theorem skipTo_item (hfront : PassedOver 0 front)
    (hothers : ∀ x ∈ others, x.1.IsMark "," ∧ x.2.Closed) {comma : Token} (hcomma : comma.IsMark ",")
    (h : s.Sees (front ++ (Item.listed others ++ comma :: t :: ts))) :
    Passes (skipTo (others.length + 1)) s (t :: ts) (· = true) := by
  refine skipTo_behind hfront hothers (Nat.lt_succ_self _) h fun n j hn h => ?_
  obtain ⟨n, rfl⟩ : ∃ m, n = m + 1 + 1 := ⟨n - 2, by simp only [List.length_cons] at hn; omega⟩
  refine iterateUpTo_again ((skipTurn_comma (Nat.lt_succ_self _) hcomma h).imp fun r hr =>
    ⟨_, hr, rfl⟩) ?_
  rintro _ k rfl h
  refine iterateUpTo_done ?_
  unfold skipTurn
  dsimp only
  rw [if_pos (by simp)]
  exact passes_pure h ⟨true, rfl, rfl⟩

/-- Behind the last item, the semicolon is passed. -/
theorem skipTo_end (hfront : PassedOver 0 front)
    (hothers : ∀ x ∈ others, x.1.IsMark "," ∧ x.2.Closed)
    {semicolon : Token} (hsemicolon : semicolon.IsMark ";") (hnumber : others.length < number)
    (h : s.Sees (front ++ (Item.listed others ++ semicolon :: t :: ts))) :
    Passes (skipTo number) s (t :: ts) (· = false) := by
  refine skipTo_behind hfront hothers hnumber h fun n j hn h => ?_
  obtain ⟨n, rfl⟩ := Nat.exists_eq_add_one.mpr (Nat.lt_of_lt_of_le (Nat.succ_pos _) hn)
  exact iterateUpTo_done ((skipTurn_semicolon hnumber hsemicolon h).imp fun r hr => ⟨_, hr, rfl⟩)

end Search

/-! ### Brackets that stay open -/

/-- The depth of brackets behind a token. -/
def depthBehind (depth : Int) (t : Token) : Int :=
  if opens t then depth + 1 else if closes t then depth - 1 else depth

/-- All commas and semicolons among these tokens stand inside of brackets. -/
def Hidden : Int → List Token → Prop
  | _, [] => True
  | depth, t :: ts => t.isEof = false ∧ (0 < depth ∨ t.is "," = false ∧ t.is ";" = false) ∧
      Hidden (depthBehind depth t) ts

theorem skipTurn_hidden (hi : i < number) (heof : t.isEof = false)
    (hplain : 0 < depth ∨ t.is "," = false ∧ t.is ";" = false) (h : s.Sees (t :: u :: ts)) :
    Passes (skipTurn number (depth, i, t)) s (u :: ts)
      (· = .again (depthBehind depth t, i, u)) := by
  unfold depthBehind
  by_cases hopens : opens t = true
  · rw [if_pos hopens]
    exact skipTurn_opens hi hopens h
  rw [if_neg hopens]
  by_cases hcloses : closes t = true
  · rw [if_pos hcloses]
    exact skipTurn_closes hi (Bool.eq_false_iff.mpr hopens) hcloses h
  · rw [if_neg hcloses]
    exact skipTurn_plain hi heof (Bool.eq_false_iff.mpr hopens) (Bool.eq_false_iff.mpr hcloses)
      hplain h

/-- **Where a bracket stays open**, the search gets to the end of the input, by induction on what
stands in front of it. -/
theorem skipTo_hidden {stop : Token} (hstop : stop.isEof = true) (hhidden : Hidden 0 ts)
    (hnumber : 0 < number) (h : s.Sees (ts ++ [stop])) :
    Passes (skipTo number) s [stop] (· = true) := by
  have hloop : ∀ (depth : Int) (n : Nat) (s : Reading) (first : Token), Hidden depth ts →
      s.Sees (ts ++ [stop]) → (ts ++ [stop]).head? = some first → ts.length < n →
      Passes (iterateUpTo (skipTurn number) n (depth, 0, first)) s [stop] (· = true) := by
    clear h hhidden
    induction ts with
    | nil =>
        intro depth n s first _ h hfirst hn
        obtain rfl := Option.some.inj hfirst
        obtain ⟨n, rfl⟩ := Nat.exists_eq_add_one.mpr hn
        refine iterateUpTo_done ?_
        unfold skipTurn
        dsimp only
        rw [if_pos (by simp [hstop])]
        exact passes_pure h ⟨true, rfl, rfl⟩
    | cons t ts ih =>
        intro depth n s first hhidden h hfirst hn
        obtain rfl := Option.some.inj hfirst
        obtain ⟨n, rfl⟩ := Nat.exists_eq_add_one.mpr (Nat.zero_lt_of_lt hn)
        obtain ⟨heof, hplain, hrest⟩ := hhidden
        obtain ⟨next, more, hnext⟩ : ∃ next more, ts ++ [stop] = next :: more := by
          cases ts with
          | nil => exact ⟨stop, [], rfl⟩
          | cons u ts => exact ⟨u, _, rfl⟩
        rw [List.cons_append, hnext] at h
        refine iterateUpTo_again ((skipTurn_hidden hnumber heof hplain h).imp fun r hr =>
          ⟨_, hr, rfl⟩) ?_
        rintro _ j rfl h
        exact ih _ n _ next hrest (hnext ▸ h) (by rw [hnext]; rfl) (Nat.lt_of_succ_lt_succ hn)
  obtain ⟨first, more, hfirst⟩ : ∃ first more, ts ++ [stop] = first :: more := by
    cases ts with
    | nil => exact ⟨stop, [], rfl⟩
    | cons t ts => exact ⟨t, _, rfl⟩
  rw [hfirst] at h
  rw [skipTo_eq]
  refine (peek_passes h).bind_eq fun j h => iterate_passes h fun n hn => ?_
  rw [← hfirst, List.length_append, List.length_singleton] at hn
  exact hloop 0 n _ first hhidden (hfirst ▸ h) (by rw [hfirst]; rfl) (by omega)

end Declarator

end HeaderPeers

import HeaderPeers.Proofs.Enumeration.Values

/-!
# Enumerators that count on

An enumerator without an initializer is worth one more than the one before it.

- `countedValues?` — the values that enumerators have in C.
- `Layout.literals_counted` — behind literals the constants are printed with these
  values, unless an octal literal is read in base ten.
- `Layout.expression_counted` — behind an expression, the number of places is added
  at its right end, so that the values count on if no operator that binds looser
  than a sum stands outside of parentheses.
-/

namespace HeaderPeers.Enumeration

open Arithmetic

variable {names : List Char → Option Int} {path : String} {values : Nat → Option Int}
  {items before after : List Item} {es : List Enumerator} {e : Enumerator} {i k : Nat} {v : Int}
  {name : String} {x : Expression}

/-- The values of enumerators in C, from what comes next if nothing is given: that of
the initializer, or one more than the value before. -/
def countedValues? (names : List Char → Option Int) : Int → List Item → Option (List Int)
  | _, [] => some []
  | next, (_, none) :: items => (countedValues? names (next + 1) items).map (next :: ·)
  | _, (_, some x) :: items => do
    let v ← x.value? names
    (countedValues? names (v + 1) items).map (v :: ·)

namespace Prints

/-- There is an enumerator for each name, under its native name, and none is read
through a getter. -/
theorem native (h : Prints names path values i items es) :
    es.map (·.nativeName) = items.map (path ++ ·.1) ∧ ∀ e ∈ es, e.getter = false := by
  induction h with
  | nil => exact ⟨rfl, fun e he => absurd he List.not_mem_nil⟩
  | implicit nativeName getter value more ih =>
      exact ⟨by simp [nativeName, ih.1], List.forall_mem_cons.mpr ⟨getter, ih.2⟩⟩
  | given nativeName getter value more ih =>
      exact ⟨by simp [nativeName, ih.1], List.forall_mem_cons.mpr ⟨getter, ih.2⟩⟩

/-- By induction on the list: where the values that are printed count on behind each
initializer, they are the ones counted. -/
theorem counted (h : Prints names path values i items es) {base : Int}
    (hvalues : ∀ k, values k = some (base + k))
    (hitems : ∀ item ∈ items, ∀ x ∈ item.2, x.Tight ∧ ∃ v, x.value? names = some v) :
    ∃ vs, countedValues? names (base + i) items = some vs ∧
      es.map (value? names ·.value) = vs.map some := by
  induction h generalizing base with
  | nil => exact ⟨[], rfl, rfl⟩
  | @implicit values i name items e es nativeName getter value more ih =>
      obtain ⟨vs, hvs, hes⟩ := ih hvalues fun item hitem => hitems item (by simp [hitem])
      rw [Nat.cast_succ, ← Int.add_assoc] at hvs
      exact ⟨(base + i) :: vs, by simp [countedValues?, hvs], by simp [hes, value _ (hvalues i)]⟩
  | @given values i name x items e es nativeName getter value more ih =>
      obtain ⟨htight, v, hv⟩ := hitems _ List.mem_cons_self x rfl
      obtain ⟨vs, hvs, hes⟩ := ih (fun k => x.after_of_tight htight hv k) fun item hitem =>
        hitems item (by simp [hitem])
      exact ⟨v :: vs, by simpa [countedValues?, hv] using hvs, by simp [hes, value v hv]⟩

/-- Without an initializer, the values go on where the list stands. -/
theorem implicit_value {more : List String}
    (h : Prints names path values i (more.map (·, none) ++ after) es) (hk : k < more.length) :
    ∃ e, es[k]? = some e ∧ ∀ w, values (i + k) = some w → value? names e.value = some w := by
  induction more generalizing i es k with
  | nil => cases hk
  | cons name more ih =>
      cases h with
      | @implicit _ _ _ _ e es nativeName getter value more =>
          cases k with
          | zero => exact ⟨e, rfl, value⟩
          | succ k =>
              obtain ⟨e', he', hvalue⟩ := ih more (Nat.lt_of_succ_lt_succ hk)
              rw [Nat.add_right_comm] at hvalue
              exact ⟨e', he', hvalue⟩

/-- The values from an initializer on. -/
theorem given_value {more : List String}
    (h : Prints names path values i (before ++ (name, some x) :: (more.map (·, none) ++ after)) es)
    (hk : k ≤ more.length) :
    ∃ e, es[before.length + k]? = some e ∧
      ∀ w, x.after names k = some w → value? names e.value = some w := by
  induction before generalizing i values es with
  | nil =>
      cases h with
      | @given _ _ _ _ _ e es nativeName getter value rest =>
          cases k with
          | zero => exact ⟨e, rfl, value⟩
          | succ k =>
              obtain ⟨e', he', hvalue⟩ := rest.implicit_value (Nat.lt_of_succ_le hk)
              rw [Nat.add_comm] at hvalue
              exact ⟨e', by simpa using he', hvalue⟩
  | cons item before ih =>
      have hnext : before.length + 1 + k = before.length + k + 1 := Nat.add_right_comm _ _ _
      cases h with
      | implicit nativeName getter value rest =>
          obtain ⟨e', he', hvalue⟩ := ih rest
          exact ⟨e', by simpa [hnext] using he', hvalue⟩
      | given nativeName getter value rest =>
          obtain ⟨e', he', hvalue⟩ := ih rest
          exact ⟨e', by simpa [hnext] using he', hvalue⟩

end Prints

/-- A literal has a value, with a sign or without. -/
theorem exists_value_of_digits? {ts : List Token} (h : Written ts x)
    (hdigits : x.digits?.isSome = true) : ∃ v, x.value? names = some v := by
  obtain ⟨digits, hsome⟩ := Option.isSome_iff_exists.mp hdigits
  obtain ⟨t, n, ht, rfl⟩ := h.exists_literal hsome
  have hn := ht.literal?_eq
  unfold Expression.digits? at hsome
  split at hsome
  next digits =>
    rw [← Option.some.inj hsome] at hn
    exact ⟨n, by rw [Expression.value?, hn]; rfl⟩
  next negative digits =>
    rw [← Option.some.inj hsome] at hn
    exact ⟨signed negative n, by rw [Expression.value?, Expression.value?, hn]; rfl⟩
  · cases hsome

/-- Initializers that are literals have values. -/
theorem Lists.exists_value {ts : List Token} (h : Lists ts items) :
    ∀ item ∈ items, ∀ x ∈ item.2, x.digits?.isSome = true → ∃ v, x.value? names = some v := by
  have hdeclares {ts : List Token} {item : Item} (h : Declares ts item) :
      ∀ x ∈ item.2, x.digits?.isSome = true → ∃ v, x.value? names = some v := by
    rintro x hx hdigits
    cases h with
    | bare kind word => cases hx
    | valued kind word equals written ranked =>
        obtain rfl := Option.some.inj hx
        exact exists_value_of_digits? written hdigits
  induction h with
  | nil => exact fun item hitem => absurd hitem List.not_mem_nil
  | last first => exact List.forall_mem_singleton.mpr (hdeclares first)
  | cons first mark more ih => exact List.forall_mem_cons.mpr ⟨hdeclares first, ih⟩

/-- The word with a blank in front of it. -/
def sampleWord (text : String) : Token :=
  { kind := .identifier, text, spacing := " " }

/-- The number with a blank in front of it. -/
def sampleNumber (text : String) : Token :=
  { kind := .integer, text, spacing := " " }

/-- The mark with a blank in front of it. -/
def sampleMark (text : String) : Token :=
  { kind := .punct, text, spacing := " " }

/-- The enumeration `enum E {…};` with such a list. -/
def sample (list : List Token) (items : List Item) (lists : Lists list items) : Layout where
  lead := []
  keyword := { kind := .keyword .enum_, text := "enum" }
  kind := none
  name := some (sampleWord "E")
  opening := sampleMark "\x7b"
  list := list
  items := items
  closing := sampleMark "\x7d"
  other := none
  semicolon := sampleMark ";"
  lead_words := by simp
  keyword_enum := rfl
  kind_words := by simp
  name_words := by
    rintro t ht
    obtain rfl := Option.some.inj ht
    decide
  opens := ⟨Or.inl rfl, rfl⟩
  lists := lists
  closes := ⟨Or.inl rfl, rfl⟩
  other_words := by simp
  ends := ⟨Or.inl rfl, rfl⟩

/-- The state in front of an enumeration, without rules. -/
def Layout.start (l : Layout) : Reading :=
  .ofTokens {} l.tokens

theorem Layout.start_sees (l : Layout)
    (h : ∀ t ∈ l.tokens, t.isComment = false ∧ t.is "#" = false) :
    l.start.Sees (l.tokens ++ [Window.endToken l.tokens.toArray]) := by
  refine Reading.ofTokens_sees fun t ht => ⟨(h t ht).1, (h t ht).2, ?_⟩
  have hkey : ({} : RuleTable).hasKey t.text = false := rfl
  simp [Expansion.ruleFor?, hkey]

theorem Layout.unruled (l : Layout) : Unruled l.start.table (l.nativeName {}) := by
  rintro - rule hrule
  have hnone : l.start.table.find? (l.nativeName {}) = none := rfl
  rw [hnone] at hrule
  cases hrule

theorem blank_of_space {ts : List Token} (h : ∀ t ∈ ts, t.spacing = " ") : ∀ t ∈ ts, t.Blank := by
  rintro t ht c hc
  rw [h t ht] at hc
  obtain rfl := List.mem_singleton.mp hc
  rfl

/-- The texts that reading an enumeration without rules adds to an empty outline. -/
def printed? (text : String) : Option (List String) :=
  match read {} (.ofTokens {} (Token.ofText none text)) with
  | .ok true s => some (s.outline.toList.map (·.text))
  | _ => none

namespace Layout

variable {s : Reading} {u : Token} {scope : Scope}

/-- **Constants behind literals.** Where every initializer is one literal, with a sign
or without, and none is an octal literal that is worth eight or more, each constant
is printed with its value in C. -/
theorem literals_counted (names : List Char → Option Int) (l : Layout)
    (h : s.Sees (l.tokens ++ [u])) (hrules : Unruled s.table (l.nativeName scope))
    (hliterals : ∀ item ∈ l.items, ∀ x ∈ item.2, x.digits?.isSome = true)
    (hleads : ∀ item ∈ l.items, Leads item) (hblank : ∀ t ∈ l.list, t.Blank)
    (hcount : l.items.length ≤ 2 ^ 62) :
    l.Adds scope s fun es =>
      es.map (·.nativeName) = l.items.map (l.path scope ++ ·.1) ∧ (∀ e ∈ es, e.getter = false) ∧
      ∃ vs, countedValues? names 0 l.items = some vs ∧ es.map (value? names ·.value) = vs.map some := by
  refine (read_adds names l h hrules hleads hblank hcount).imp fun es hes => ?_
  obtain ⟨hnames, hgetters⟩ := hes.native
  refine ⟨hnames, hgetters, ?_⟩
  have hstart : ∀ k : Nat, some (k : Int) = some (0 + (k : Int)) := fun k => by rw [Int.zero_add]
  refine hes.counted hstart fun item hitem x hx => ?_
  have hdigits := hliterals item hitem x hx
  obtain ⟨digits, hsome⟩ := Option.isSome_iff_exists.mp hdigits
  exact ⟨x.digits?_tight hsome, l.lists.exists_value item hitem x hx hdigits⟩

/-- Two literals and two names that count on behind them. -/
theorem mixedLists :
    Lists ([sampleWord "A", sampleMark "=", sampleNumber "0x10"] ++ sampleMark "," ::
        ([sampleWord "B"] ++ sampleMark "," ::
          ([sampleWord "C", sampleMark "=", sampleMark "-", sampleNumber "3"] ++ sampleMark "," ::
            [sampleWord "D"])))
      [("A", some (.literal "0x10".toList)), ("B", none),
        ("C", some (.sign true (.literal "3".toList))), ("D", none)] := by
  have hcomma : (sampleMark ",").IsMark "," := ⟨Or.inl rfl, rfl⟩
  have hequals : (sampleMark "=").IsMark "=" := ⟨Or.inl rfl, rfl⟩
  have hword (name : String) (h : Text.isWord name.toList = true) :
      Declares [sampleWord name] (name, none) := .bare rfl h
  have hfirst : Written [sampleNumber "0x10"] (.literal "0x10".toList) :=
    .literal (n := 16) ⟨rfl, "0x10".toList, by decide, by decide, by decide⟩
  have hthird : Written [sampleMark "-", sampleNumber "3"] (.sign true (.literal "3".toList)) :=
    .sign true ⟨Or.inl rfl, rfl⟩ (by decide)
      (.literal (n := 3) ⟨rfl, "3".toList, by decide, by decide, by decide⟩)
  refine .cons (.valued rfl (by decide) hequals hfirst trivial) hcomma ?_
  refine .cons (hword "B" (by decide)) hcomma ?_
  exact .cons (.valued rfl (by decide) hequals hthird ⟨rfl, trivial⟩) hcomma
    (.last (hword "D" (by decide)))

/-- The constants of `enum E {A = 0x10, B, C = -3, D};` are sixteen, seventeen, minus
three and minus two. -/
theorem literals_counted_mixed :
    (sample _ _ mixedLists).Adds {} (sample _ _ mixedLists).start fun es =>
      es.map (·.nativeName) = ["A", "B", "C", "D"] ∧
      es.map (value? (fun _ => none) ·.value) = [some 16, some 17, some (-3), some (-2)] := by
  have hcounted : countedValues? (fun _ => none) 0 (sample _ _ mixedLists).items =
      some [16, 17, -3, -2] := by
    decide
  refine (literals_counted (fun _ => none) (sample _ _ mixedLists) (start_sees _ (by decide))
    (unruled _) (by decide) (by decide) (blank_of_space (by decide)) (by decide)).imp
    fun es hes => ?_
  obtain ⟨hnames, -, vs, hvs, hvalues⟩ := hes
  refine ⟨hnames, ?_⟩
  rw [hvalues, Option.some.inj (hvs.symm.trans hcounted)]
  rfl

/-- Where an octal literal is printed without its leading zero, it is worth more. -/
theorem octal_literal_is_misread :
    printed? "enum E \x7b A = 010 \x7d;" =
        some ["/** enum E */\npublic static final int A = 10;"] ∧
      nativeLiteral? "010".toList = some 8 ∧ value? (fun _ => none) "10" = some 10 :=
  ⟨by decide +kernel, by decide, by decide⟩

/-- **Constants behind an expression.** The constants from an initializer on are
printed with the values of the expression with the number of places added at its
right end; they count on from its value if all operators outside of parentheses
bind at least as tight as a sum. -/
theorem expression_counted (names : List Char → Option Int) (l : Layout)
    (h : s.Sees (l.tokens ++ [u])) (hrules : Unruled s.table (l.nativeName scope))
    (hleads : ∀ item ∈ l.items, Leads item) (hblank : ∀ t ∈ l.list, t.Blank)
    (hcount : l.items.length ≤ 2 ^ 62) {before after : List Item} {name : String} {x : Expression}
    {more : List String}
    (hitems : l.items = before ++ (name, some x) :: (more.map (·, none) ++ after)) {v : Int}
    (hv : x.value? names = some v) :
    l.Adds scope s fun es => ∀ k ≤ more.length, ∃ e w, es[before.length + k]? = some e ∧
      e.getter = false ∧ x.after names k = some w ∧ value? names e.value = some w ∧
      (x.Tight → w = v + k) := by
  refine (read_adds names l h hrules hleads hblank hcount).imp fun es hes k hk => ?_
  obtain ⟨-, hgetters⟩ := hes.native
  rw [hitems] at hes
  obtain ⟨e, he, hvalue⟩ := hes.given_value hk
  obtain ⟨w, hw⟩ := x.exists_after hv k
  refine ⟨e, w, he, hgetters e (List.mem_of_getElem? he), hw, hvalue w hw, fun htight => ?_⟩
  rw [x.after_of_tight htight hv k] at hw
  exact (Option.some.inj hw).symm

/-- A sum and a name that counts on behind it. -/
theorem sumLists :
    Lists ([sampleWord "A"] ++ sampleMark "," ::
        ([sampleWord "B", sampleMark "=", sampleWord "A", sampleMark "+", sampleNumber "4"] ++
          sampleMark "," :: [sampleWord "C"]))
      [("A", none), ("B", some (.binary .add (.name ['A']) (.literal ['4']))), ("C", none)] := by
  have hcomma : (sampleMark ",").IsMark "," := ⟨Or.inl rfl, rfl⟩
  have hsum : Written [sampleWord "A", sampleMark "+", sampleNumber "4"]
      (.binary .add (.name ['A']) (.literal ['4'])) :=
    .binary (.name rfl (by decide)) (.one (by decide) ⟨Or.inl rfl, rfl⟩)
      (.literal (n := 4) ⟨rfl, ['4'], by decide, by decide, by decide⟩) (by decide)
  have hranked : (Expression.binary .add (.name ['A']) (.literal ['4'])).Ranked :=
    ⟨by decide, by decide, trivial, trivial⟩
  exact .cons (.bare rfl (by decide)) hcomma
    (.cons (.valued rfl (by decide) ⟨Or.inl rfl, rfl⟩ hsum hranked) hcomma
      (.last (.bare rfl (by decide))))

/-- In `enum E {A, B = A + 4, C};`, where `A` is zero, `C` is printed with the value five. -/
theorem expression_counted_sum :
    (sample _ _ sumLists).Adds {} (sample _ _ sumLists).start fun es =>
      ∃ e, es[2]? = some e ∧ e.getter = false ∧
        value? (fun cs => if cs = ['A'] then some 0 else none) e.value = some 5 := by
  let names : List Char → Option Int := fun cs => if cs = ['A'] then some 0 else none
  have hvalue : (Expression.binary .add (.name ['A']) (.literal ['4'])).value? names = some 4 := by
    decide
  have hitems : (sample _ _ sumLists).items =
      [("A", none)] ++ ("B", some (.binary .add (.name ['A']) (.literal ['4']))) ::
        (["C"].map (·, none) ++ []) :=
    rfl
  refine (expression_counted names (sample _ _ sumLists) (start_sees _ (by decide)) (unruled _)
    (by decide) (blank_of_space (by decide)) (by decide) hitems hvalue).imp fun es hes => ?_
  obtain ⟨e, w, he, hgetter, -, hw, htight⟩ := hes 1 (by decide)
  obtain rfl : w = 5 := htight (show 4 ≤ 4 from Nat.le_refl 4)
  exact ⟨e, he, hgetter, hw⟩

/-- Where an operator binds looser than the sum that is printed, it takes the sum as
its operand: the second name has the value of the first again. -/
theorem loose_operator_takes_sum :
    printed? "enum E \x7b A = 1 | 4, B \x7d;" =
        some ["/** enum E */\npublic static final int A = 1 | 4, B = 1 | 4 + 1;"] ∧
      value? (fun _ => none) "1 | 4" = some 5 ∧ value? (fun _ => none) "1 | 4 + 1" = some 5 :=
  ⟨by decide +kernel, by decide +kernel, by decide +kernel⟩

end Layout

end HeaderPeers.Enumeration

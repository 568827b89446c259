import HeaderPeers.Proofs.Instances
import HeaderPeers.Proofs.Scope.Walk
import HeaderPeers.Proofs.Variable.Printed

/-!
# Adding the variables of a list

The variables of a list are added one after the other. The first stands behind the white space
of the list, and the others on lines of their own: what is printed differs in the white space in
front of the first line only, since all lines behind it start in the same way.

- `Outline.trim_indentLines` — the white space that is due decides about the start of a text only.
- `Variable.add_item` — an item is printed behind those in front of it.
- `Variable.AtItems.read` — all items are printed, in order.
-/

namespace HeaderPeers

/-! ## White space -/

namespace Text

/-- White space only. -/
def Blank (s : String) : Prop :=
  ∀ c ∈ s.toList, isBlank c = true

theorem trim_append_of_blank {before : String} (h : Blank before) (s : String) :
    trim (before ++ s) = trim s := by
  have hdrop : (before ++ s).toList.dropWhile isBlank = s.toList.dropWhile isBlank := by
    rw [String.toList_append, List.dropWhile_append_of_pos h]
  rw [trim, hdrop, trim]

/-- Behind its last cut a text has no further one. -/
theorem IsLastCut.behind {needle s before after : String} (h : IsLastCut needle s before after) :
    IsLastCut needle (needle ++ after) "" after := by
  refine ⟨by rw [String.empty_append], fun b a hsplit => h.last (before ++ b) a ?_⟩
  rw [h.eq, String.append_assoc, hsplit]
  simp only [String.append_assoc]

end Text

namespace Outline

theorem nextSpacing_cases (spacing : String) : nextSpacing spacing = "\n" ∨
    ∃ before after, Text.IsLastCut "\n" spacing before after ∧
      nextSpacing spacing = "\n" ++ after := by
  unfold nextSpacing
  cases hcut : Text.cutLast? "\n" spacing with
  | none => exact .inl rfl
  | some parts =>
      obtain ⟨before, after⟩ := parts
      exact .inr ⟨before, after, (Text.cutLast?_eq_some_iff (by decide)).mp hcut, rfl⟩

/-- The white space between lines stays the same from the second line on. -/
theorem nextSpacing_nextSpacing (spacing : String) :
    nextSpacing (nextSpacing spacing) = nextSpacing spacing := by
  obtain heq | ⟨before, after, hcut, heq⟩ := nextSpacing_cases spacing
  · rw [heq]
    decide
  · have hagain := (Text.cutLast?_eq_some_iff (by decide)).mpr hcut.behind
    rw [heq, nextSpacing, hagain]

theorem blank_nextSpacing {spacing : String} (h : Text.Blank spacing) :
    Text.Blank (nextSpacing spacing) := by
  obtain heq | ⟨before, after, hcut, heq⟩ := nextSpacing_cases spacing
  · rw [heq]
    intro c hc
    obtain rfl : c = '\n' := by simpa using hc
    decide
  · intro c hc
    refine h c ?_
    rw [heq] at hc
    rw [hcut.eq, String.append_assoc, String.toList_append]
    exact List.mem_append_right _ hc

theorem indentLines_spacing (spacing : String) (lines : List String) :
    nextSpacing (indentLines spacing lines).2 = nextSpacing spacing := by
  induction lines generalizing spacing with
  | nil => rfl
  | cons line lines ih =>
      rw [indentLines]
      exact (ih _).trans (nextSpacing_nextSpacing spacing)

theorem blank_indentLines {spacing : String} (h : Text.Blank spacing) (lines : List String) :
    Text.Blank (indentLines spacing lines).2 := by
  induction lines generalizing spacing with
  | nil => exact h
  | cons line lines ih => exact ih (blank_nextSpacing h)

/-- What is due in front of a text decides about its start only, if the lines behind the first
start in the same way. -/
theorem trim_indentLines {spacing spacing' : String} (h : Text.Blank spacing)
    (h' : Text.Blank spacing') (heq : nextSpacing spacing = nextSpacing spacing')
    (lines : List String) :
    Text.trim (indentLines spacing lines).1 = Text.trim (indentLines spacing' lines).1 := by
  cases lines with
  | nil => rfl
  | cons line lines =>
      rw [indentLines, indentLines, heq]
      dsimp only
      rw [String.append_assoc, String.append_assoc, Text.trim_append_of_blank h,
        Text.trim_append_of_blank h']

/-- The white space that is due: the lines behind the first start as behind `spacing`. -/
def Due (o : Outline) (spacing : String) : Prop :=
  ∃ due, o.spacing = some due ∧ Text.Blank due ∧ nextSpacing due = nextSpacing spacing

/-- The text of a declaration, up to white space at its ends. -/
def trimmedText (spacing text : String) : String :=
  Text.trim (indentLines (nextSpacing spacing) (Text.lines text)).1

theorem Due.rescan {o : Outline} {spacing : String} (h : o.Due spacing)
    (hspacing : Text.Blank spacing) (text : String) :
    Text.trim (o.rescan text).1 = trimmedText spacing text ∧ (o.rescan text).2.Due spacing := by
  obtain ⟨due, hdue, hblank, hnext⟩ := h
  unfold Outline.rescan
  rw [hdue]
  refine ⟨trim_indentLines hblank (blank_nextSpacing hspacing) ?_ _, _, rfl,
    blank_indentLines hblank _, (indentLines_spacing due _).trans hnext⟩
  rw [nextSpacing_nextSpacing, hnext]

/-- A declaration of a new signature is put behind the others. -/
theorem insert_of_fresh {o : Outline} {d : Declaration} (hd : d.signature ≠ "")
    (hfresh : ∀ e ∈ o.toList, e.signature ≠ d.signature) :
    o.insert d =
      { (o.rescan d.text).2 with declarations := o.declarations.push (o.stored d) } := by
  have hstays : o.declarations.filter (stays (settle o.statement d)) = o.declarations := by
    refine Array.filter_eq_self.mpr fun e he => stays_eq_true_iff.mpr fun hsame => ?_
    exact absurd hsame (hfresh e (Array.mem_toList_iff.mpr he))
  have hany : o.declarations.any (·.signature == (settle o.statement d).signature) = false := by
    rw [← Array.any_toList]
    refine List.any_eq_false.mpr fun e he => ?_
    rw [beq_iff_eq]
    exact hfresh e he
  have hempty : ¬ (settle o.statement d).signature.isEmpty = true := by
    simpa [settle] using hd
  unfold insert
  dsimp only
  rw [if_neg hempty, hstays, hany]
  rw [if_neg (by simp), rescan_declarations]
  rfl

end Outline

namespace Variable

open ReadM

variable {table : RuleTable} {s : Reading} {u : Token} {us : List Token} {b : Base table}
  {xs : List Item} {x : Item} {i : Nat} {ts stop : List Token} {spacing : String} {o : Outline}

/-! ## One item -/

/-- What is printed for an item, up to white space at its ends. -/
structure Item.Prints (x : Item) (b : Base table) (spacing : String) (d : Declaration) : Prop where
  isVariable : d.isVariable = true
  signature : d.signature = x.name.text
  text : Text.trim d.text = Outline.trimmedText spacing (x.printed b)

theorem isSkipped_declaration {d : Declarator} (hd : x.DeclaredAs b d) :
    Outline.isSkipped table (x.declaration b d) = false := by
  have hkept : ((table.find? (b.type false).nativeName).any (·.skipsType)) = false := by
    cases hrule : table.find? (b.type false).nativeName with
    | none => rfl
    | some rule => exact b.kept rule hrule
  unfold Outline.isSkipped Item.declaration
  dsimp only
  rw [hd.typeName, hd.parameters, hkept, Bool.and_false]
  rfl

theorem helpers_declaration {d : Declarator} (hd : x.DeclaredAs b d) :
    Outline.helpers (x.declaration b d) = [] := by
  obtain ⟨-, -, hparameters, hdefinition, -⟩ := hd
  cases d
  dsimp only at hparameters hdefinition
  subst hparameters hdefinition
  simp [Outline.helpers, Item.declaration, Declaration.helpersOf]

/-- **One item** is printed behind those in front of it. -/
theorem add_item {d : Declarator} (hd : x.DeclaredAs b d) (hbound : o.isUnbound = false)
    (hspacing : Text.Blank spacing) (hdue : o.Due spacing)
    (hfresh : ∀ e ∈ o.toList, e.signature ≠ x.name.text) :
    ∃ e, (o.add table (x.declaration b d)).2.toList = o.toList ++ [e] ∧ x.Prints b spacing e ∧
      (o.add table (x.declaration b d)).2.Due spacing ∧
      (o.add table (x.declaration b d)).2.statement = o.statement := by
  have hname : (x.declaration b d).signature ≠ "" := by
    have hempty := x.isName.isEmpty_eq
    simpa [Item.declaration] using hempty
  have htaken : (o.add table (x.declaration b d)).1 = true := by
    unfold Outline.add
    rw [hbound, if_neg (by simp), if_neg (by simp [isSkipped_declaration hd])]
  have hadd := Outline.add_of_taken htaken
  rw [helpers_declaration hd, List.foldl_nil, Outline.insert_of_fresh hname hfresh] at hadd
  obtain ⟨htext, hrescanned⟩ := hdue.rescan hspacing (x.declaration b d).text
  rw [hadd]
  exact ⟨_, Array.toList_push, ⟨rfl, rfl, htext⟩, hrescanned, Outline.rescan_statement _ _⟩

/-! ## All items -/

/-- One turn of reading the variables of a list. -/
def numberTurn (v : Subject) : Nat → ReadM (Turn Nat Unit) := fun number => do
  if ← readNumber v number then return .again (number + 1)
  return .done ()

/-- The outline to which the item with this number is added: the white space of the list is due in
front of the first one. -/
abbrev spacedFor (spacing : String) (i : Nat) (o : Outline) : Outline :=
  if i = 0 then { o with spacing := some spacing } else o

theorem spacedFor_keeps (spacing : String) (i : Nat) (o : Outline) :
    (spacedFor spacing i o).toList = o.toList ∧ (spacedFor spacing i o).statement = o.statement := by
  unfold spacedFor
  split <;> exact ⟨rfl, rfl⟩

theorem AtItems.withOutline (h : AtItems b xs ts stop s) (o : Outline) :
    AtItems b xs ts stop { s with outline := o } :=
  ⟨h.spelled, h.table, h.usings, h.bare, h.sees.cooked, h.sees.fueled, h.sees.inside,
    h.sees.ahead⟩

/-- Behind the last item there is none. -/
theorem AtItems.readNumber_end (h : AtItems b xs ts stop s) (hi : xs.length ≤ i)
    (spacing : String) (k : Nat) :
    ∃ j, Variable.readNumber (subject spacing s.window.index) i (s.atIndex k) =
        .ok false (s.atIndex j) ∧ (s.atIndex j).Sees stop := by
  obtain ⟨d, j, hread, hsees, hnone⟩ :=
    h.spelled.ends (atTop_ofNumber i .asDimension) hi h.table h.usings h.sees
  have hback : moveTo s.window.index (s.atIndex k) = .ok () s := rfl
  refine ⟨j, ?_, hsees⟩
  unfold Variable.readNumber
  rw [bind_of_ok hback, bind_of_ok hread]
  cases d with
  | none => rfl
  | some d =>
      dsimp only
      rw [hnone d rfl]
      rfl

/-- The items of a list are added one after the other, by induction on those that are left. -/
theorem iterateUpTo_numberTurn {rest : List Item} {k n : Nat} (h : AtItems b xs ts stop s)
    (hspacing : Text.Blank spacing) (hrest : xs.drop i = rest) (hn : rest.length < n)
    (hbound : o.isUnbound = false) (hdue : (spacedFor spacing i o).Due spacing)
    (hfresh : ∀ e ∈ o.toList, ∀ x ∈ rest, e.signature ≠ x.name.text) :
    ∃ j o' ds, iterateUpTo (numberTurn (subject spacing s.window.index)) n i
        { s.atIndex k with outline := o } = .ok () { s.atIndex j with outline := o' } ∧
      (s.atIndex j).Sees stop ∧ o'.statement = o.statement ∧ o'.toList = o.toList ++ ds ∧
      List.Forall₂ (fun x d => x.Prints b spacing d) rest ds := by
  induction rest generalizing i o k n with
  | nil =>
      obtain ⟨n, rfl⟩ := Nat.exists_eq_add_one.mpr hn
      obtain ⟨j, hread, hsees⟩ :=
        (h.withOutline o).readNumber_end (List.drop_eq_nil_iff.mp hrest) spacing k
      have hstop : (s.atIndex j).Sees stop :=
        ⟨hsees.cooked, hsees.fueled, hsees.inside, hsees.ahead⟩
      refine ⟨j, o, [], ?_, hstop, rfl, by simp, .nil⟩
      have hturn : numberTurn (subject spacing s.window.index) i { s.atIndex k with outline := o } =
          .ok (.done ()) { s.atIndex j with outline := o } := by
        unfold numberTurn
        exact bind_of_ok hread _
      rw [iterateUpTo, bind_of_ok hturn]
      rfl
  | cons x rest ih =>
      obtain ⟨n, rfl⟩ := Nat.exists_eq_add_one.mpr (Nat.zero_lt_of_lt hn)
      have hx : xs[i]? = some x := by
        have hhead := congrArg List.head? hrest
        rwa [List.head?_drop] at hhead
      have hnext : xs.drop (i + 1) = rest := by
        rw [← List.tail_drop, hrest]
        rfl
      obtain ⟨d, j, hd, hread⟩ := (h.withOutline o).readNumber hx spacing k
      obtain ⟨hspaced, hstatement⟩ := spacedFor_keeps spacing i o
      obtain ⟨e, hadded, hprints, hdue', hkept⟩ := add_item hd
        (o := spacedFor spacing i o) (by rw [Outline.isUnbound, hstatement]; exact hbound) hspacing
        hdue fun e he => hfresh e (hspaced ▸ he) x List.mem_cons_self
      generalize ho₁ : ((spacedFor spacing i o).add table (x.declaration b d)).2 = o₁ at *
      have hdistinct : ∀ y ∈ rest, x.name.text ≠ y.name.text := by
        have hnodup : ((xs.drop i).map (·.name.text)).Nodup :=
          h.spelled.distinct.sublist ((List.drop_sublist i xs).map _)
        rw [hrest] at hnodup
        intro y hy hsame
        have hmem : y.name.text ∈ rest.map (·.name.text) := List.mem_map_of_mem hy
        rw [← hsame] at hmem
        exact (List.nodup_cons.mp hnodup).1 hmem
      obtain ⟨j', o', ds, hloop, hsees, hstatement', hlist', hds⟩ := ih (o := o₁) (k := j) hnext
        (Nat.lt_of_succ_lt_succ hn) (by rw [Outline.isUnbound, hkept, hstatement]; exact hbound)
        (by rwa [spacedFor, if_neg (Nat.succ_ne_zero i)]) (by
          intro e' he' y hy
          rw [hadded, List.mem_append, List.mem_singleton, hspaced] at he'
          rcases he' with he' | rfl
          · exact hfresh e' he' y (List.mem_cons_of_mem _ hy)
          · rw [hprints.signature]
            exact hdistinct y hy)
      refine ⟨j', o', e :: ds, ?_, hsees, hstatement'.trans (hkept.trans hstatement), ?_,
        .cons hprints hds⟩
      · have hturn : numberTurn (subject spacing s.window.index) i
            { s.atIndex k with outline := o } =
              .ok (.again (i + 1)) { s.atIndex j with outline := o₁ } := by
          unfold numberTurn
          refine (bind_of_ok hread _).trans ?_
          rw [← ho₁]
          rfl
        rw [iterateUpTo, bind_of_ok hturn]
        exact hloop
      · rw [hlist', hadded, hspaced, List.append_assoc]
        rfl

/-- There are more tokens than items. -/
theorem AtItems.length_lt (h : AtItems b xs ts stop s) : xs.length < s.bound := by
  have hword : 0 < b.words.length := List.length_pos_of_ne_nil b.nonempty
  have hitems := h.spelled.length_le
  have hle := h.sees.length_le
  rw [List.length_append] at hle
  omega

/-- White space in front of a list. -/
def Base.front (b : Base table) : String :=
  (b.words.head b.nonempty).spacing

/-- **All items** are printed in order. -/
theorem AtItems.read (h : AtItems b xs ts stop s) (hspacing : Text.Blank b.front)
    (hbound : s.outline.isUnbound = false) (hempty : s.outline.toList = []) :
    ∃ j o, Variable.read {} s = .ok true { s.atIndex j with outline := o } ∧
      (s.atIndex j).Sees stop ∧ o.statement = s.outline.statement ∧
      List.Forall₂ (fun x d => x.Prints b b.front d) xs o.toList := by
  obtain ⟨word, words, hwords⟩ := List.exists_cons_of_ne_nil b.nonempty
  have hpeek : peek s = .ok word s := peek_of_sees (by have := h.sees; rwa [hwords] at this)
  have hword : word.spacing = b.front := by simp [Base.front, hwords]
  have hcursor : cursor s = .ok s.window.index s := rfl
  let request : DeclaratorRequest := { scope := {}, view := .asDimension }
  have hrequest : AtTop request := ⟨rfl, rfl⟩
  obtain ⟨x, _, _, hfirst, -⟩ := h.spelled.starts
  rw [List.head?_eq_getElem?] at hfirst
  have hname := h.spelled.unmatched x (List.mem_of_getElem? hfirst)
  obtain ⟨v, vs, hends, -, _, j, hread, hsees, stars, rfl⟩ :=
    h.spelled.reads hfirst hrequest rfl h.table h.usings h.sees
  have hdeclared := x.declared_as b hrequest hname
  have hnext : peek (s.atIndex j) = .ok v (s.atIndex j) := peek_of_sees hsees
  obtain ⟨j', o, ds, hloop, hsees', hstatement, hlist, hds⟩ :=
    iterateUpTo_numberTurn (o := s.outline) (i := 0) (k := j) h hspacing rfl h.length_lt hbound
      ⟨_, rfl, hspacing, rfl⟩ (by simp [hempty])
  rw [hempty, List.nil_append] at hlist
  refine ⟨j', { o with spacing := none }, ?_, hsees', hstatement, ?_⟩
  · have hnative : ((x.declared b request).starred stars).nativeName = x.name.text :=
      hdeclared.nativeName
    have hrule : rule? (Scope.qualifyLocal {} x.name.text) (s.atIndex j) =
        .ok none (s.atIndex j) := by
      change EStateM.Result.ok (s.table.find? x.name.text) (s.atIndex j) = _
      rw [h.table, hname]
    have hiterate : iterate 0 (numberTurn (subject b.front s.window.index)) (s.atIndex j) =
        .ok () { s.atIndex j' with outline := o } := hloop
    unfold Variable.read
    rw [bind_of_ok hcursor, bind_of_ok hpeek, bind_of_ok hread]
    dsimp only
    rw [hnative, if_neg (by simp [x.isName.isEmpty_eq]), bind_of_ok hnext,
      if_neg (by simp [hends.isAny_eq]), bind_of_ok hrule, if_neg (by simp), hword]
    exact bind_of_ok hiterate _
  · change List.Forall₂ _ _ o.toList
    rw [hlist]
    exact hds

end Variable

end HeaderPeers

import HeaderPeers.Proofs.Instances

/-!
# Helpers come first

A declaration may need helper definitions: the peer class of a function pointer
it takes, say, and whatever that class needs in turn. They are added to the
outline before it. Each of them can be dropped for an earlier declaration of
its signature, or push that one out, so positions shift while a batch goes in;
what holds at the end is that the declaration stands last and everything it
needs stands before it.

- `Declaration.Needs` — what a declaration needs, over any number of steps.
- `Reachable` — the outlines that a reader of headers can come to.
- `Outline.unsigned` — the declarations without a signature, which nothing
  pushes out.
- `add_puts_helpers_first` — the statement.
-/

namespace HeaderPeers

/-! ## What a declaration needs -/

namespace Declaration

/-- The definitions that belong to the declarator of a declaration and to its
parameters. -/
def definitions (d : Declaration) : List Declaration :=
  d.declarator.elim [] fun named =>
    named.definition.toList ++
      ((named.parameters.map (·.declarators)).getD []).filterMap (·.definition)

/-- A declaration needs its own definitions and all that they need. -/
inductive Needs : Declaration → Declaration → Prop where
  | own {d x : Declaration} (h : x ∈ d.definitions) : Needs d x
  | inner {d y x : Declaration} (h : y ∈ d.definitions) (hx : Needs y x) : Needs d x

theorem definitionsOf_eq (ds : List Declarator) :
    definitionsOf ds = (ds.filterMap (·.definition)).flatMap unfold := by
  induction ds with
  | nil => rfl
  | cons d ds ih =>
      obtain ⟨_, _, _, _, _, _, _, _, _, _, definition, _, _⟩ := d
      cases definition with
      | none => simp [definitionsOf, ih]
      | some helper => simp [definitionsOf, ih]

end Declaration

namespace Outline

open Declaration (Needs)

theorem unfold_eq (d : Declaration) : d.unfold = helpers d ++ [d] := by
  obtain ⟨text, signature, type, declarator, _⟩ := d
  cases declarator <;> simp [Declaration.unfold, helpers]

/-- The helpers are the own definitions, each unfolded. -/
theorem helpers_eq (d : Declaration) :
    helpers d = d.definitions.flatMap Declaration.unfold := by
  obtain ⟨text, signature, type, declarator, _⟩ := d
  cases declarator with
  | none => rfl
  | some named =>
      obtain ⟨_, _, _, _, _, _, _, _, _, parameters, definition, _, _⟩ := named
      rcases parameters with _ | ⟨_, _, declarators, _, _, _⟩ <;> cases definition <;>
        simp [helpers, Declaration.helpersOf, Declaration.definitions,
          Declaration.definitionsOf_eq]

/-- The helpers are what is needed, and all of it. -/
theorem mem_helpers_iff {d x : Declaration} : x ∈ helpers d ↔ Needs d x := by
  constructor
  · -- an inner helper has fewer helpers than the declaration it is for
    induction hn : (helpers d).length using Nat.strongRecOn generalizing d with
    | ind n ih =>
      intro hx
      rw [helpers_eq] at hx
      obtain ⟨y, hy, hxy⟩ := List.mem_flatMap.mp hx
      rw [unfold_eq, List.mem_append, List.mem_singleton] at hxy
      rcases hxy with hxy | rfl
      · have hle : (Declaration.unfold y).length ≤ (helpers d).length := by
          rw [helpers_eq, List.flatMap_def]
          exact (List.sublist_flatten_of_mem (List.mem_map_of_mem hy)).length_le
        have hlt : (helpers y).length < n := by
          rw [unfold_eq, List.length_append, List.length_singleton] at hle
          omega
        exact .inner hy (ih _ hlt rfl hxy)
      · exact .own hy
  · intro h
    induction h with
    | @own d x h =>
        rw [helpers_eq]
        refine List.mem_flatMap.mpr ⟨x, h, ?_⟩
        rw [unfold_eq]
        exact List.mem_append_right _ (List.mem_singleton_self x)
    | @inner d y x h _ ih =>
        rw [helpers_eq]
        refine List.mem_flatMap.mpr ⟨y, h, ?_⟩
        rw [unfold_eq]
        exact List.mem_append_left _ ih

/-! ## Outlines that come up -/

/-- The outlines that come up while headers are read: declarations are added,
statements begin and end, the spacing changes, and the last declaration may be
taken back. -/
inductive Reachable : Outline → Prop where
  | empty : Reachable {}
  | add {o : Outline} (table : RuleTable) (d : Declaration) (h : Reachable o) :
      Reachable (o.add table d).2
  | turn {o : Outline} (spacing : Option String) (statement : Statement) (h : Reachable o) :
      Reachable { o with spacing, statement }
  | removeLast {o : Outline} (h : Reachable o) : Reachable o.removeLast

theorem toList_removeLast (o : Outline) : o.removeLast.toList = o.toList.dropLast := by
  simp [removeLast, toList]

/-- No signature is stored twice. -/
theorem Reachable.nodup {o : Outline} (h : Reachable o) : o.signatures.Nodup := by
  induction h with
  | empty => exact List.nodup_nil
  | add table d _ ih => exact (add_evolves _ table d).unique ih
  | turn spacing statement _ ih => exact ih
  | removeLast _ ih =>
      rw [signatures, toList_removeLast]
      exact ih.sublist (((List.dropLast_sublist _).map _).filter _)

/-- Of a signature that is stored there is one declaration. -/
theorem slot_eq_singleton {o : Outline} {s : String} (hn : o.signatures.Nodup)
    (hs : s ∈ o.signatures) : ∃ y, o.slot s = [y] := by
  have hne : s ≠ "" := (mem_signatures.mp hs).1
  have hcount : o.signatures.count s = (o.slot s).length := by
    rw [signatures, List.count_filter (by simpa using hne), List.count_eq_countP,
      List.countP_map, List.countP_eq_length_filter]
    rfl
  rw [List.count_eq_one_of_mem hn hs] at hcount
  exact List.length_eq_one_iff.mp hcount.symm

/-! ## One batch -/

/-- What a declaration is stored as during a statement: its access is settled,
and its lines have got some spacing. -/
def IsEntry (statement : Statement) (d e : Declaration) : Prop :=
  ∃ spacing, e = stored { spacing, statement } d

theorem isEntry_stored (o : Outline) (d : Declaration) :
    IsEntry o.statement d (o.stored d) := by
  refine ⟨o.spacing, ?_⟩
  unfold stored
  rw [← rescan_text o #[] d.text]

theorem signature_mem_insert {d : Declaration} (hd : d.signature ≠ "") (o : Outline) :
    d.signature ∈ (o.insert d).signatures := by
  refine mem_signatures.mpr ⟨hd, ?_⟩
  rcases insert_cases o d with ⟨he, -⟩ | ⟨-, ⟨x, hx, hsig, hy⟩, he⟩ | ⟨-, -, he⟩
  · exact absurd he hd
  · rw [he]
    exact ⟨x, List.mem_filter.mpr ⟨hx, stays_eq_true_iff.mpr fun _ => hy⟩, hsig⟩
  · rw [he]
    exact ⟨o.stored d, by simp, rfl⟩

/-- Whatever else goes in, the signatures of a batch are stored at its end. -/
theorem signature_mem_foldl_insert {ds : List Declaration} {d : Declaration} (h : d ∈ ds)
    (hd : d.signature ≠ "") : ∀ o : Outline, d.signature ∈ (ds.foldl insert o).signatures := by
  induction ds with
  | nil => cases h
  | cons x ds ih =>
      intro o
      rcases List.mem_cons.mp h with rfl | h
      · exact (foldl_insert_evolves ds (o.insert d)).signatures_subset
          (signature_mem_insert hd o)
      · exact ih h (o.insert x)

/-- The declarations without a signature, in order. -/
def unsigned (ds : List Declaration) : List Declaration :=
  ds.filter (·.signature = "")

theorem unsigned_insert (o : Outline) (d : Declaration) :
    unsigned (o.insert d).toList =
      unsigned o.toList ++ if d.signature = "" then [o.stored d] else [] := by
  rcases insert_cases o d with ⟨hd, he⟩ | ⟨hd, -, he⟩ | ⟨hd, -, he⟩
  · simp [he, unsigned, hd]
  · rw [he, if_neg hd, List.append_nil, unsigned, unsigned, List.filter_filter]
    refine List.filter_congr fun x _ => ?_
    by_cases hx : x.signature = ""
    · simp [stays, hx, Ne.symm hd]
    · simp [hx]
  · rw [he, if_neg hd, List.append_nil, unsigned, unsigned, List.filter_append,
      List.filter_filter]
    have hnew : [o.stored d].filter (·.signature = "") = [] := by simp [hd]
    rw [hnew, List.append_nil]
    refine List.filter_congr fun x _ => ?_
    by_cases hx : x.signature = ""
    · simp [hx, Ne.symm hd]
    · simp [hx]

/-- A batch leaves the earlier declarations without a signature where they are,
and puts one entry behind them for each of its own. -/
theorem unsigned_foldl_insert (ds : List Declaration) : ∀ o : Outline,
    ∃ entries, unsigned (ds.foldl insert o).toList = unsigned o.toList ++ entries ∧
      List.Forall₂ (IsEntry o.statement) (unsigned ds) entries := by
  induction ds with
  | nil => exact fun o => ⟨[], (List.append_nil _).symm, .nil⟩
  | cons d ds ih =>
      intro o
      obtain ⟨entries, he, hall⟩ := ih (o.insert d)
      rw [unsigned_insert, List.append_assoc] at he
      rw [insert_statement] at hall
      refine ⟨_, he, ?_⟩
      by_cases hd : d.signature = ""
      · simpa [unsigned, hd] using And.intro (isEntry_stored o d) hall
      · simpa [unsigned, hd] using hall

/-! ## The declaration itself -/

/-- Whether adding one declaration without its helpers stores it: what there is
of its signature gives way. -/
def TakesIn (o : Outline) (d : Declaration) : Prop :=
  d.signature = "" ∨ ∀ x ∈ o.toList, x.signature = d.signature → yields x (o.stored d) = true

/-- Whether adding a declaration stores it. -/
def Stores (o : Outline) (table : RuleTable) (d : Declaration) : Prop :=
  (o.add table d).1 = true ∧ TakesIn ((helpers d).foldl insert o) d

instance (o : Outline) (d : Declaration) : Decidable (TakesIn o d) :=
  inferInstanceAs (Decidable (_ ∨ _))

instance (o : Outline) (table : RuleTable) (d : Declaration) : Decidable (Stores o table d) :=
  inferInstanceAs (Decidable (_ ∧ _))

/-- What is taken in stands last; of the others those of its signature are
gone. -/
theorem toList_insert_of_takesIn {o : Outline} {d : Declaration} (h : TakesIn o d) :
    (o.insert d).toList =
      o.toList.filter (fun x => d.signature = "" ∨ x.signature ≠ d.signature) ++ [o.stored d] := by
  rcases insert_cases o d with ⟨hd, he⟩ | ⟨hd, ⟨x, hx, hsig, hy⟩, -⟩ | ⟨hd, -, he⟩
  · simpa [hd] using he
  · have hyields := (h.resolve_left hd) x hx hsig
    rw [hy] at hyields
    cases hyields
  · simpa [hd] using he

/-- **Helpers come first.** When a declaration is stored in an outline that can
come up, and nothing it needs has its own signature, it stands last; each thing
it needs stands before it: one with a signature as the only declaration of that
signature, and those without as entries of their own, behind the earlier
declarations without a signature. -/
theorem add_puts_helpers_first {o : Outline} (ho : Reachable o) (table : RuleTable)
    {d : Declaration} (hstored : Stores o table d)
    (hd : ∀ x, Needs d x → x.signature ≠ "" → x.signature ≠ d.signature) :
    ∃ before e, (o.add table d).2.toList = before ++ [e] ∧ IsEntry o.statement d e ∧
      (∀ x, Needs d x → x.signature ≠ "" →
        ∃ y ∈ before, (o.add table d).2.slot x.signature = [y]) ∧
      (∀ x, Needs d x → x ∈ helpers d) ∧
      ∃ entries, unsigned before = unsigned o.toList ++ entries ∧
        List.Forall₂ (IsEntry o.statement) (unsigned (helpers d)) entries := by
  obtain ⟨htaken, hin⟩ := hstored
  rw [add_of_taken htaken]
  set o' : Outline := (helpers d).foldl insert o with ho'
  have hn : o'.signatures.Nodup := (foldl_insert_evolves (helpers d) o).unique ho.nodup
  have hstatement : o'.statement = o.statement := foldl_insert_statement (helpers d) o
  refine ⟨_, o'.stored d, toList_insert_of_takesIn hin, hstatement ▸ isEntry_stored o' d,
    fun x hx hxs => ?_, fun x hx => mem_helpers_iff.mpr hx, ?_⟩
  · have hne : x.signature ≠ d.signature := hd x hx hxs
    have hmem : x.signature ∈ o'.signatures :=
      signature_mem_foldl_insert (mem_helpers_iff.mpr hx) hxs o
    obtain ⟨y, hy⟩ := slot_eq_singleton hn hmem
    have hy' : y ∈ o'.slot x.signature := hy ▸ List.mem_singleton_self y
    obtain ⟨hyo, hysig⟩ := List.mem_filter.mp hy'
    rw [beq_iff_eq] at hysig
    refine ⟨y, List.mem_filter.mpr ⟨hyo, ?_⟩, ?_⟩
    · exact decide_eq_true (Or.inr (hysig ▸ hne))
    · rw [slot_insert_of_ne (Ne.symm hne), hy]
  · obtain ⟨entries, he, hall⟩ := unsigned_foldl_insert (helpers d) o
    refine ⟨entries, ?_, hall⟩
    rw [← he, ← ho', unsigned, List.filter_filter]
    refine List.filter_congr fun x _ => ?_
    by_cases hx : x.signature = ""
    · by_cases hds : d.signature = ""
      · simp [hx, hds]
      · simp [hx, Ne.symm hds]
    · simp [hx]

/-- A helper with a helper of its own, which has no signature. -/
def helperSample : Declaration :=
  { text := "class Callback\n", signature := "Callback"
    declarator := some { definition := some { text := "// alias\n" } } }

/-- A function that takes it. -/
def functionSample : Declaration :=
  { text := "f\n", signature := "f"
    declarator := some
      { parameters := some { declarators := [{}, { definition := some helperSample }] } } }

/-- What there is before: a comment and an earlier declaration of the helper. -/
def earlierSample : Outline :=
  (({} : Outline).add {} (.ofComment "// f")).2.add {} helperSample |>.2

theorem add_puts_helpers_first_nested :
    (Reachable earlierSample ∧ Stores earlierSample {} functionSample ∧
      (helpers functionSample).map (·.text) = ["// alias\n", "class Callback\n"]) ∧
    ∃ before e, (earlierSample.add {} functionSample).2.toList = before ++ [e] ∧
      IsEntry earlierSample.statement functionSample e ∧
      (∃ y ∈ before, (earlierSample.add {} functionSample).2.slot "Callback" = [y]) ∧
      (unsigned before).length = (unsigned earlierSample.toList).length + 1 := by
  have hreachable : Reachable earlierSample := (Reachable.empty.add _ _).add _ _
  have hstored : Stores earlierSample {} functionSample := by decide +kernel
  have hhelpers : helpers functionSample = [{ text := "// alias\n" }, helperSample] := rfl
  have hneeds : ∀ x, Needs functionSample x → x.signature ≠ "" →
      x.signature ≠ functionSample.signature := by
    intro x hx _
    rw [← mem_helpers_iff, hhelpers] at hx
    simp only [List.mem_cons, List.not_mem_nil, or_false] at hx
    rcases hx with rfl | rfl <;> decide
  obtain ⟨before, e, hlist, hentry, hsigned, -, entries, hunsigned, hall⟩ :=
    add_puts_helpers_first hreachable {} hstored hneeds
  refine ⟨⟨hreachable, hstored, by rw [hhelpers]; rfl⟩, before, e, hlist, hentry, ?_, ?_⟩
  · refine hsigned helperSample (mem_helpers_iff.mp ?_) (by decide)
    rw [hhelpers]
    exact List.mem_cons_of_mem _ List.mem_cons_self
  · rw [hunsigned, List.length_append, ← hall.length_eq, hhelpers]
    rfl

end Outline

end HeaderPeers

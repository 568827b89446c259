import HeaderPeers.Proofs.Reading.Statements

/-!
# Growth of the table of rules

Statements learn rules, in front of those for the same names or behind them,
and nothing else changes the table. So whatever was found under a key is still
found there, in the same order, with new rules in between.

- `RuleTable.Extends` — one table has all entries of another.
- `Statement.readAll_extends_table` — the table after reading, whether it
  fails or not, extends the table before.
-/

namespace HeaderPeers

namespace Layer

/-- Entries under every key of one layer are under the same key of another, in
the same order. -/
def Extends (layer layer' : Layer) : Prop :=
  ∀ key entries, layer.find? key = some entries →
    ∃ entries', layer'.find? key = some entries' ∧ entries.Sublist entries'

theorem Extends.refl (layer : Layer) : layer.Extends layer :=
  fun _ entries h => ⟨entries, h, List.Sublist.refl entries⟩

theorem Extends.trans {l₁ l₂ l₃ : Layer} (h₁ : l₁.Extends l₂) (h₂ : l₂.Extends l₃) :
    l₁.Extends l₃ := by
  intro key entries hentries
  obtain ⟨entries₂, hfind₂, hsub₂⟩ := h₁ key entries hentries
  obtain ⟨entries₃, hfind₃, hsub₃⟩ := h₂ key entries₂ hfind₂
  exact ⟨entries₃, hfind₃, hsub₂.trans hsub₃⟩

theorem lookup_alter (lists : List (String × List Entry)) (key k : String)
    (f : List Entry → List Entry) :
    (alter lists key f).lookup k =
      if k == key then some (f ((lists.lookup key).getD [])) else lists.lookup k := by
  induction lists with
  | nil => cases hk : k == key <;> simp [alter, List.lookup_cons, hk]
  | cons head more ih =>
      obtain ⟨name, list⟩ := head
      by_cases hname : name = key
      · subst hname
        cases hk : k == name <;> simp [alter, List.lookup_cons, hk]
      · have hkey : (key == name) = false := beq_false_of_ne (Ne.symm hname)
        rw [alter, if_neg (by simpa using hname)]
        cases hk : k == name with
        | false => simp [List.lookup_cons, hk, hkey, ih]
        | true =>
            have hother : (k == key) = false := by
              rw [eq_of_beq hk]
              exact beq_false_of_ne hname
            simp [List.lookup_cons, hk, hother]

/-- One more entry leaves the others in order, wherever it goes. -/
theorem sublist_place (priority : Priority) (entry : Entry) (entries : List Entry) :
    entries.Sublist (place priority entry entries) := by
  unfold place
  split
  · exact List.Sublist.refl entries
  · cases priority with
    | first => exact List.sublist_cons_self entry entries
    | last => exact List.sublist_append_left entries [entry]
    | position i =>
        have hrest : (entries.drop i).Sublist (entry :: entries.drop i) :=
          List.sublist_cons_self entry (entries.drop i)
        simpa using hrest.append_left (entries.take i)

theorem alter_extends (layer : Layer) (key : String) {f : List Entry → List Entry}
    (hf : ∀ entries : List Entry, entries.Sublist (f entries)) :
    layer.Extends { layer with lists := alter layer.lists key f } := by
  intro k entries hentries
  simp only [find?] at hentries ⊢
  rw [lookup_alter]
  by_cases hk : k = key
  · subst hk
    rw [hentries]
    exact ⟨f entries, by simp, hf entries⟩
  · exact ⟨entries, by simpa [hk] using hentries, List.Sublist.refl entries⟩

theorem putAt_extends (layer : Layer) (priority : Priority) (rule : Rule) :
    layer.Extends (layer.putAt priority rule) := by
  -- the identity the next entry gets makes no difference to what is found
  have hfold : ∀ (keys : List String) (l : Layer), l.Extends { l with
      lists := keys.foldl
        (fun lists key => alter lists key (place priority ⟨layer.fresh, rule⟩)) l.lists } := by
    intro keys
    induction keys with
    | nil => exact fun l => Extends.refl l
    | cons key keys ih =>
        intro l
        have hfirst := alter_extends l key (sublist_place priority ⟨layer.fresh, rule⟩)
        exact hfirst.trans (ih _)
  exact hfold _ layer

end Layer

namespace RuleTable

/-- The layers under the top one are the same, and the top one has all entries
of the other. -/
structure Extends (table table' : RuleTable) : Prop where
  under : table'.under = table.under
  top : table.top.Extends table'.top

theorem Extends.refl (table : RuleTable) : table.Extends table :=
  ⟨rfl, Layer.Extends.refl table.top⟩

theorem Extends.putAt {table table' : RuleTable} (h : table.Extends table')
    (priority : Priority) (rule : Rule) :
    table.Extends { table' with top := table'.top.putAt priority rule } :=
  ⟨h.under, h.top.trans (table'.top.putAt_extends priority rule)⟩

/-- Extending a table is an invariant of reading: only learning changes the
table, and it puts one rule into the top layer. -/
@[reducible]
def growth (table : RuleTable) : ReadInvariant where
  holds _ s := table.Extends s.table
  core t _ _ := table.Extends t
  place _ := True
  place_of_le _ _ := trivial
  moved hs _ := hs
  looked hs _ := hs
  warned hs := hs
  bared hs := hs
  covered _ hs' := hs'
  entered hs := hs
  left _ hs' := hs'
  anywhere _ := trivial
  learned hs := hs.putAt _ _
  printed hs := hs
  named hs := hs
  respaced hs := hs
  core_learned hs := hs.putAt _ _
  core_printed hs := hs

end RuleTable

/-- **The table only grows.** Reading the declarations of a scope, from any
state and whether it fails or not, leaves the layers under the top one as they
are and every list of entries of the top one in order. -/
theorem Statement.readAll_extends_table (scope : Scope) (s : Reading) :
    s.table.Extends (ReadM.perform (readAll scope) s).2.table := by
  let := s.table.growth
  have hkeeps : ReadM.Keeps false (readAll scope) := readAll_keeps (fun _ => trivial) scope
  exact ReadM.holds_perform hkeeps (.refl s.table)

end HeaderPeers

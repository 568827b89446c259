import HeaderPeers.Proofs.RuleKeys

/-!
# Tables in good order

Whatever way a table is put together, a list under a key holds something, holds
nothing twice, and holds only what belongs under that key. A name is looked up
in each layer by itself, so all that is found is what the layers say one after
another, and what is found first is the first of it.

- `Layer.Sound` — the lists of a layer are in order.
- `RuleTable.Reachable` — the tables that can be put together from empty ones.
- `RuleTable.reachable_lookup` — both, for every table that can be put together.
-/

namespace HeaderPeers

namespace Layer

/-- The entries belong under the key, and none is there twice. -/
structure Belongs (key : String) (list : List Entry) : Prop where
  nodup : (list.map (·.id)).Nodup
  named : ∀ entry ∈ list, ∃ name ∈ namesOf entry.rule, key ∈ keysOf name

/-- Each key has one list, which is not empty and belongs there. -/
structure Sound (layer : Layer) : Prop where
  keys : (layer.lists.map Prod.fst).Nodup
  filled : ∀ key list, (key, list) ∈ layer.lists → list ≠ []
  belongs : ∀ key list, (key, list) ∈ layer.lists → Belongs key list

/-- The keys that a name is looked up under, one after another. -/
def lookupKeys (name : String) (part : Bool) : List String :=
  [Name.normalize name false false, Name.normalize name true false]
    ++ if part then [Name.normalize name true true] else []

/-- The first of these keys that the layer has. -/
def firstKey? (layer : Layer) (name : String) (part : Bool) : Option String :=
  (lookupKeys name part).find? fun key => (layer.find? key).isSome

variable {layer other : Layer} {lists : List (String × List Entry)} {key : String}
  {list : List Entry} {f : List Entry → List Entry}

/-! ## One list -/

theorem belongs_nil (key : String) : Belongs key [] :=
  ⟨List.nodup_nil, by simp⟩

theorem place_ne_nil (priority : Priority) (entry : Entry) (list : List Entry) :
    place priority entry list ≠ [] := by
  unfold place
  split
  next h =>
    rintro rfl
    cases h
  · cases priority <;> simp

theorem Belongs.place (h : Belongs key list) (priority : Priority) {entry : Entry}
    (hentry : ∃ name ∈ namesOf entry.rule, key ∈ keysOf name) :
    Belongs key (place priority entry list) := by
  refine ⟨?_, fun other hother => ?_⟩
  · unfold Layer.place
    split
    · exact h.nodup
    next hnew =>
      have hfresh : entry.id ∉ list.map (·.id) := by
        simpa [List.any_eq_true] using hnew
      have hcons : ((entry :: list).map (·.id)).Nodup := List.nodup_cons.mpr ⟨hfresh, h.nodup⟩
      cases priority with
      | first => exact hcons
      | last =>
          refine (List.Perm.map _ ?_).nodup hcons
          exact (List.perm_append_singleton entry list).symm
      | position i =>
          refine (List.Perm.map _ ?_).nodup hcons
          have hmiddle : (list.take i ++ entry :: list.drop i).Perm
              (entry :: (list.take i ++ list.drop i)) := List.perm_middle
          rw [List.take_append_drop] at hmiddle
          exact hmiddle.symm
  · rcases mem_place hother with rfl | hold
    · exact hentry
    · exact h.named other hold

/-- Putting the entries of one list behind those of another. -/
theorem Belongs.foldl_place (h : Belongs key list) (mine : List Entry) (hmine : Belongs key mine) :
    Belongs key (list.foldl (fun l entry => Layer.place .last entry l) mine) := by
  have hnamed := h.named
  clear h
  induction list generalizing mine with
  | nil => exact hmine
  | cons entry list ih =>
      refine ih _ (hmine.place .last (hnamed entry List.mem_cons_self)) fun other hother => ?_
      exact hnamed other (List.mem_cons_of_mem _ hother)

theorem foldl_place_ne_nil (mine : List Entry) (h : mine ≠ [] ∨ list ≠ []) :
    list.foldl (fun l entry => place .last entry l) mine ≠ [] := by
  induction list generalizing mine with
  | nil => exact h.resolve_right fun h => h rfl
  | cons entry list ih => exact ih _ (Or.inl (place_ne_nil .last entry mine))

/-! ## One layer -/

theorem keys_alter (lists : List (String × List Entry)) (key : String) :
    (alter lists key f).map Prod.fst =
      if key ∈ lists.map Prod.fst then lists.map Prod.fst else lists.map Prod.fst ++ [key] := by
  induction lists with
  | nil => simp [alter]
  | cons head more ih =>
      obtain ⟨name, list⟩ := head
      by_cases hname : name = key
      · simp [alter, hname]
      · have hkey : ¬ key = name := fun h => hname h.symm
        rw [alter, if_neg (by simpa using hname), List.map_cons, ih]
        by_cases hmem : key ∈ more.map Prod.fst
        · simp only [hmem, List.map_cons, List.mem_cons, or_true, if_true]
        · simp only [hmem, hkey, List.map_cons, List.mem_cons, or_self, if_false, List.cons_append]

/-- A list that is there after a change was there before, or is the changed one. -/
theorem mem_alter {k : String} (h : (k, list) ∈ alter lists key f) :
    (k, list) ∈ lists ∨
      k = key ∧ ∃ old, (old = [] ∨ (key, old) ∈ lists) ∧ list = f old := by
  induction lists with
  | nil =>
      obtain ⟨rfl, rfl⟩ := Prod.mk.inj (List.mem_singleton.mp h)
      exact Or.inr ⟨rfl, [], Or.inl rfl, rfl⟩
  | cons head more ih =>
      obtain ⟨name, entries⟩ := head
      rw [alter] at h
      split at h
      next hname =>
        obtain rfl := eq_of_beq hname
        rcases List.mem_cons.mp h with heq | hmem
        · obtain ⟨rfl, rfl⟩ := Prod.mk.inj heq
          exact Or.inr ⟨rfl, entries, Or.inr List.mem_cons_self, rfl⟩
        · exact Or.inl (List.mem_cons_of_mem _ hmem)
      · rcases List.mem_cons.mp h with heq | hmem
        · exact Or.inl (heq ▸ List.mem_cons_self)
        · rcases ih hmem with hold | ⟨hk, old, hold, hlist⟩
          · exact Or.inl (List.mem_cons_of_mem _ hold)
          · exact Or.inr ⟨hk, old, hold.imp id (List.mem_cons_of_mem _), hlist⟩

theorem sound_empty : Sound {} :=
  ⟨List.nodup_nil, by simp, by simp⟩

/-- A change of one list that keeps it in order keeps the layer in order. -/
theorem Sound.alter (h : layer.Sound) (fresh : Nat) (hfilled : ∀ old, f old ≠ [])
    (hbelongs : ∀ old, Belongs key old → Belongs key (f old)) :
    Sound { lists := Layer.alter layer.lists key f, fresh } := by
  refine ⟨?_, fun k list hlist => ?_, fun k list hlist => ?_⟩
  · rw [keys_alter]
    split
    · exact h.keys
    next hnew => exact List.nodup_append.mpr ⟨h.keys, by simp, by grind⟩
  · rcases mem_alter hlist with hold | ⟨-, old, -, rfl⟩
    · exact h.filled k list hold
    · exact hfilled old
  · rcases mem_alter hlist with hold | ⟨rfl, old, hold, rfl⟩
    · exact h.belongs k list hold
    · refine hbelongs old ?_
      rcases hold with rfl | hmem
      · exact belongs_nil k
      · exact h.belongs k old hmem

/-- Changes of one list after another, each of which keeps its list in order. -/
theorem Sound.foldl_alter {α : Type} {keyOf : α → String} {change : α → List Entry → List Entry}
    (fresh : Nat) (as : List α) (h : layer.Sound) (hfilled : ∀ a ∈ as, ∀ old, change a old ≠ [])
    (hbelongs : ∀ a ∈ as, ∀ old, Belongs (keyOf a) old → Belongs (keyOf a) (change a old)) :
    Sound { lists := as.foldl (fun lists a => Layer.alter lists (keyOf a) (change a)) layer.lists
            fresh } := by
  induction as generalizing layer with
  | nil => exact ⟨h.keys, h.filled, h.belongs⟩
  | cons a as ih =>
      have hfirst := h.alter layer.fresh (hfilled a List.mem_cons_self)
        (hbelongs a List.mem_cons_self)
      exact ih hfirst (fun b hb => hfilled b (List.mem_cons_of_mem _ hb))
        fun b hb => hbelongs b (List.mem_cons_of_mem _ hb)

theorem Sound.putEntry (h : layer.Sound) (priority : Priority) (entry : Entry) :
    (layer.putEntry priority entry).Sound := by
  refine Sound.foldl_alter _ _ h (fun key _ old => place_ne_nil priority entry old) ?_
  intro key hkey old hold
  obtain ⟨name, hname, hkey⟩ := List.mem_flatMap.mp hkey
  exact hold.place priority ⟨name, hname, hkey⟩

theorem Sound.putAll (h : layer.Sound) (hother : other.Sound) : (layer.putAll other).Sound :=
  Sound.foldl_alter _ other.lists h
    (fun p hp _ => hother.filled p.1 p.2 hp) fun p hp _ _ => hother.belongs p.1 p.2 hp

theorem Sound.extend (h : layer.Sound) (hother : other.Sound) : (layer.extend other).Sound :=
  Sound.foldl_alter _ other.lists h
    (fun p hp old => foldl_place_ne_nil old (Or.inr (hother.filled p.1 p.2 hp)))
    fun p hp old hold => (hother.belongs p.1 p.2 hp).foldl_place old hold

/-- What a layer says of a name stands under the first key of the name that the
layer has. -/
theorem get_eq_firstKey (layer : Layer) (name : String) (part : Bool) :
    layer.get name part = ((layer.firstKey? name part).bind layer.find?).getD [] := by
  unfold get firstKey? lookupKeys
  cases hexact : layer.find? (Name.normalize name false false) with
  | some list => simp [hexact]
  | none =>
      cases hplain : layer.find? (Name.normalize name true false) with
      | some list => simp [hexact, hplain]
      | none =>
          cases part with
          | false => simp [hexact, hplain]
          | true =>
              cases hpart : layer.find? (Name.normalize name true true) <;>
                simp [hexact, hplain, hpart]

end Layer

namespace RuleTable

/-- A table that is put together from empty ones: entries are put in any place,
the lists of another such table replace those under the same keys or go behind
them, and layers are laid over each other. -/
inductive Reachable : RuleTable → Prop where
  | empty : Reachable {}
  | child {table : RuleTable} (h : Reachable table) : Reachable table.child
  | putEntry {table : RuleTable} (priority : Priority) (entry : Entry) (h : Reachable table) :
      Reachable (table.putEntry priority entry)
  | putAll {table other : RuleTable} (h : Reachable table) (hother : Reachable other) :
      Reachable (table.putAll other)
  | extend {table other : RuleTable} (h : Reachable table) (hother : Reachable other) :
      Reachable (table.extend other)

variable {table : RuleTable}

/-- A change of the top layer that keeps it in order keeps the table in order. -/
theorem forall_layers_sound {top : Layer} (h : ∀ layer ∈ table.layers, layer.Sound)
    (htop : top.Sound) : ∀ layer ∈ layers { table with top }, layer.Sound := by
  intro layer hlayer
  rcases List.mem_cons.mp hlayer with rfl | hunder
  · exact htop
  · exact h layer (List.mem_cons_of_mem _ hunder)

theorem Reachable.sound (h : Reachable table) : ∀ layer ∈ table.layers, layer.Sound := by
  induction h with
  | empty =>
      intro layer hlayer
      obtain rfl := List.mem_singleton.mp hlayer
      exact Layer.sound_empty
  | child _ ih =>
      intro layer hlayer
      rcases List.mem_cons.mp hlayer with rfl | hunder
      · exact Layer.sound_empty
      · exact ih layer hunder
  | putEntry priority entry _ ih =>
      exact forall_layers_sound ih ((ih _ List.mem_cons_self).putEntry priority entry)
  | putAll _ _ ih ihother =>
      exact forall_layers_sound ih
        ((ih _ List.mem_cons_self).putAll (ihother _ List.mem_cons_self))
  | extend _ _ ih ihother =>
      exact forall_layers_sound ih
        ((ih _ List.mem_cons_self).extend (ihother _ List.mem_cons_self))

theorem Reachable.foldl_put (h : Reachable table) (rules : List Rule) :
    Reachable (rules.foldl put table) := by
  induction rules generalizing table with
  | nil => exact h
  | cons rule rules ih => exact ih (h.putEntry .last ⟨table.top.fresh, rule⟩)

/-- What is found first is the first of all that is found. -/
theorem findWith?_eq_head? (table : RuleTable) (name : String) (part : Bool) :
    table.findWith? name part = (table.entriesWith name part).head?.map (·.rule) := by
  unfold findWith? entriesWith
  rw [List.head?_flatMap, List.map_findSome?]
  rfl

/-- **Tables in good order.** In every table that is put together from empty
ones, each list holds something, holds no entry twice, and holds only entries
with a name that has the key of the list as one of its keys. A name finds, layer
after layer, the list under its first key that the layer has, and what it finds
first is the head of all this. -/
theorem reachable_lookup (h : Reachable table) :
    (∀ layer ∈ table.layers, layer.Sound) ∧
      ∀ name part,
        table.entriesWith name part = table.layers.flatMap (fun layer =>
          ((layer.firstKey? name part).bind layer.find?).getD []) ∧
        table.findWith? name part = (table.entriesWith name part).head?.map (·.rule) := by
  refine ⟨h.sound, fun name part => ⟨?_, findWith?_eq_head? table name part⟩⟩
  unfold entriesWith
  simp only [Layer.get_eq_firstKey]

/-- A rule for all instances of a template under one for a single instance, which
is put twice and once more behind itself. -/
def instanceOverTemplate : RuleTable :=
  let template : Entry := ⟨0, { nativeNames := ["std::vector"] }⟩
  let single : Entry := ⟨1, { nativeNames := ["std::vector<int>"] }⟩
  let top := ((({} : RuleTable).putEntry .last template).child.putEntry .last single)
  (top.putEntry (.position 3) single).extend (({} : RuleTable).putEntry .first single)

theorem reachable_lookup_instanceOverTemplate :
    instanceOverTemplate.Reachable ∧ (∀ layer ∈ instanceOverTemplate.layers, layer.Sound) ∧
      (instanceOverTemplate.entriesWith "const std::vector<int>" true).map (·.id) = [1, 0] ∧
      (instanceOverTemplate.findWith? "const std::vector<int>" true).map (·.nativeNames) =
        some ["std::vector<int>"] := by
  have hreachable : instanceOverTemplate.Reachable :=
    .extend (.putEntry _ _ (.putEntry _ _ (.child (.putEntry _ _ .empty)))) (.putEntry _ _ .empty)
  obtain ⟨hsound, hlookup⟩ := reachable_lookup hreachable
  obtain ⟨hentries, hfirst⟩ := hlookup "const std::vector<int>" true
  refine ⟨hreachable, hsound, ?_, ?_⟩
  · rw [hentries]
    decide +kernel
  · rw [hfirst, hentries]
    decide +kernel

end RuleTable

end HeaderPeers

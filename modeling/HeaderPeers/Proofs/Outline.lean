import HeaderPeers.Outline
import Mathlib.Data.List.Nodup

/-!
# What an outline keeps

Declarations are added to an outline one after the other, each behind the
helper definitions it needs, and a new one may push an earlier one out. This
file says what no run of such steps can do: print two declarations of one
signature, lose a signature, or touch a declaration that has nothing against
it.

- `insert_cases` — the three things that adding one declaration can do.
- `Evolves` — what one step keeps, and hence what any run keeps.
- `run_keeps_signatures` — the statement about whole runs.
- `slot` — the declarations of one signature. Slots of different signatures
  do not see each other (`slot_insert_of_ne`).
-/

namespace HeaderPeers

namespace Outline

/-- The signatures that are stored, in order, without empty ones. -/
def signatures (o : Outline) : List String :=
  (o.toList.map (·.signature)).filter (· ≠ "")

/-- A declaration that no other one can push out. -/
def isFirm (d : Declaration) : Bool :=
  d.signature != "" && !d.inaccessible && !d.incomplete && !d.constMember

/-- The firm declarations, in order. -/
def firm (o : Outline) : List Declaration :=
  o.toList.filter isFirm

/-! ## One declaration -/

/-- What is stored for a declaration: its access is settled and its text has
got the pending spacing. -/
def stored (o : Outline) (d : Declaration) : Declaration :=
  { settle o.statement d with text := (o.rescan d.text).1 }

@[simp] theorem rescan_declarations (o : Outline) (text : String) :
    (o.rescan text).2.declarations = o.declarations := by
  unfold rescan
  cases o.spacing <;> rfl

/-- The pending spacing does not depend on what is stored. -/
@[simp] theorem rescan_text (o : Outline) (ds : Array Declaration) (text : String) :
    ({ o with declarations := ds }.rescan text).1 = (o.rescan text).1 := by
  unfold rescan
  cases o.spacing <;> rfl

@[simp] theorem stored_signature (o : Outline) (d : Declaration) :
    (o.stored d).signature = d.signature := rfl

/-- The declarations after adding one, as a list. -/
theorem toList_insert (o : Outline) (d : Declaration) :
    (o.insert d).toList =
      if d.signature = "" then o.toList ++ [o.stored d]
      else
        let kept := o.toList.filter (stays (o.stored d))
        if kept.any (·.signature == d.signature) then kept
        else kept ++ [o.stored d] := by
  have hsig : (settle o.statement d).signature = d.signature := rfl
  have hempty : d.signature.isEmpty = decide (d.signature = "") := by
    rw [Bool.eq_iff_iff]
    simp
  -- `stays` does not look at the text, so both forms of the newcomer agree
  have hstays : stays (settle o.statement d) = stays (o.stored d) := rfl
  unfold insert toList
  simp only [hsig, hempty, hstays, decide_eq_true_eq]
  by_cases hd : d.signature = ""
  · rw [if_pos hd, if_pos hd, rescan_declarations, Array.toList_push]
    rfl
  · rw [if_neg hd, if_neg hd, ← Array.toList_filter, Array.any_toList]
    split
    · rfl
    · simp only [rescan_declarations, rescan_text, Array.toList_push]
      rfl

theorem stays_eq_true_iff {new x : Declaration} :
    stays new x = true ↔ (x.signature = new.signature → yields x new = false) := by
  by_cases h : x.signature = new.signature <;> simp [stays, h]

/-- **What adding one declaration can do.** Without a signature it is put
behind the others. With one, the worse of its signature go; then either some
of its signature is left, and it is dropped, or none is, and it is put behind
the others. -/
theorem insert_cases (o : Outline) (d : Declaration) :
    (d.signature = "" ∧ (o.insert d).toList = o.toList ++ [o.stored d]) ∨
    (d.signature ≠ "" ∧
      (∃ x ∈ o.toList, x.signature = d.signature ∧ yields x (o.stored d) = false) ∧
      (o.insert d).toList = o.toList.filter (stays (o.stored d))) ∨
    (d.signature ≠ "" ∧
      (∀ x ∈ o.toList, x.signature = d.signature → yields x (o.stored d) = true) ∧
      (o.insert d).toList =
        o.toList.filter (·.signature ≠ d.signature) ++ [o.stored d]) := by
  rw [toList_insert]
  by_cases hd : d.signature = ""
  · exact Or.inl ⟨hd, if_pos hd⟩
  rw [if_neg hd]
  by_cases hkept : ∃ x ∈ o.toList,
      x.signature = d.signature ∧ yields x (o.stored d) = false
  · refine Or.inr (Or.inl ⟨hd, hkept, ?_⟩)
    obtain ⟨x, hx, hsig, hy⟩ := hkept
    refine if_pos (List.any_eq_true.mpr ⟨x, ?_, by simp [hsig]⟩)
    exact List.mem_filter.mpr ⟨hx, stays_eq_true_iff.mpr fun _ => hy⟩
  · have hall : ∀ x ∈ o.toList, x.signature = d.signature →
        yields x (o.stored d) = true := by
      intro x hx hsig
      by_contra hy
      exact hkept ⟨x, hx, hsig, by simpa using hy⟩
    have hfilter : o.toList.filter (stays (o.stored d)) =
        o.toList.filter (·.signature ≠ d.signature) := by
      refine List.filter_congr fun x hx => ?_
      by_cases hsig : x.signature = d.signature
      · simp [stays, hsig, hall x hx hsig]
      · simp [stays, hsig]
    refine Or.inr (Or.inr ⟨hd, hall, ?_⟩)
    rw [hfilter]
    refine if_neg fun h => ?_
    obtain ⟨x, hx, hsig⟩ := List.any_eq_true.mp h
    have hne := (List.mem_filter.mp hx).2
    simp only [decide_eq_true_eq, ne_eq] at hne
    exact hne (by simpa using hsig)

/-! ## What every step keeps -/

theorem mem_signatures {o : Outline} {s : String} :
    s ∈ o.signatures ↔ s ≠ "" ∧ ∃ x ∈ o.toList, x.signature = s := by
  simp [signatures, and_comm]

/-- A firm declaration gives way to none. -/
theorem yields_of_isFirm {x : Declaration} (hx : isFirm x = true)
    (new : Declaration) : yields x new = false := by
  simp only [isFirm, Bool.and_eq_true, Bool.not_eq_true'] at hx
  obtain ⟨⟨⟨-, hin⟩, hinc⟩, hconst⟩ := hx
  simp [yields, hin, hinc, hconst]

/-- What lies between two outlines of one scope: the later one has at most one
declaration of each signature if the earlier one has, it has all signatures of
the earlier one, and the firm declarations are still there, in order. -/
structure Evolves (o o' : Outline) : Prop where
  unique : o.signatures.Nodup → o'.signatures.Nodup
  signatures_subset : o.signatures ⊆ o'.signatures
  firm_prefix : o.firm <+: o'.firm

theorem Evolves.of_toList_eq {o o' : Outline} (h : o'.toList = o.toList) :
    Evolves o o' := by
  have hs : o'.signatures = o.signatures := by rw [signatures, h, signatures]
  have hf : o'.firm = o.firm := by rw [firm, h, firm]
  exact ⟨fun hn => hs ▸ hn, fun s hm => hs ▸ hm, hf ▸ List.prefix_rfl⟩

theorem Evolves.trans {o₁ o₂ o₃ : Outline} (h : Evolves o₁ o₂)
    (h' : Evolves o₂ o₃) : Evolves o₁ o₃ where
  unique hn := h'.unique (h.unique hn)
  signatures_subset := List.Subset.trans h.signatures_subset h'.signatures_subset
  firm_prefix := h.firm_prefix.trans h'.firm_prefix

/-- **One step.** Adding a declaration keeps all three. -/
theorem insert_evolves (o : Outline) (d : Declaration) :
    Evolves o (o.insert d) := by
  rcases insert_cases o d with ⟨hd, h⟩ | ⟨hd, ⟨x, hx, hsig, hy⟩, h⟩ | ⟨hd, hall, h⟩
  · have hs : (o.insert d).signatures = o.signatures := by
      simp [signatures, h, hd]
    refine ⟨fun hn => hs ▸ hn, fun s hm => hs ▸ hm, ?_⟩
    rw [firm, firm, h, List.filter_append]
    exact List.prefix_append _ _
  · -- the newcomer is dropped: what was of its signature and stays serves for it
    refine ⟨fun hn => ?_, fun s hm => ?_, ?_⟩
    · rw [signatures, h]
      exact hn.sublist ((List.filter_sublist.map _).filter _)
    · obtain ⟨hne, z, hz, rfl⟩ := mem_signatures.mp hm
      rw [mem_signatures, h]
      by_cases hzs : z.signature = d.signature
      · exact ⟨hne, x, List.mem_filter.mpr ⟨hx, stays_eq_true_iff.mpr fun _ => hy⟩,
          hsig.trans hzs.symm⟩
      · exact ⟨hne, z, List.mem_filter.mpr ⟨hz, stays_eq_true_iff.mpr
          fun e => absurd e hzs⟩, rfl⟩
    · rw [firm, firm, h, List.filter_filter]
      refine (congrArg (· <+: _) (List.filter_congr fun z _ => ?_)).mp List.prefix_rfl
      by_cases hz : isFirm z = true
      · simp [hz, stays_eq_true_iff.mpr fun _ => yields_of_isFirm hz _]
      · simp [hz]
  · -- all of its signature go, and it takes their place
    have hs : (o.insert d).signatures =
        o.signatures.filter (· ≠ d.signature) ++ [d.signature] := by
      simp [signatures, h, hd, List.filter_map, List.filter_filter,
        Function.comp_def, Bool.and_comm]
    refine ⟨fun hn => ?_, fun s hm => ?_, ?_⟩
    · rw [hs]
      refine List.Nodup.append (hn.filter _) (List.nodup_singleton _) ?_
      simp
    · rw [hs, List.mem_append, List.mem_filter, List.mem_singleton]
      by_cases e : s = d.signature
      · exact Or.inr e
      · exact Or.inl ⟨hm, by simpa using e⟩
    · rw [firm, firm, h, List.filter_append, List.filter_filter]
      refine (congrArg (· <+: _) (List.filter_congr fun z hz => ?_)).mp
        (List.prefix_append _ _)
      by_cases hf : isFirm z = true
      · have hne : z.signature ≠ d.signature := fun e => by
          have hy := hall z hz e
          rw [yields_of_isFirm hf] at hy
          exact Bool.noConfusion hy
        simp [hf, hne]
      · simp [hf]

theorem foldl_insert_evolves (ds : List Declaration) :
    ∀ o : Outline, Evolves o (ds.foldl insert o) := by
  induction ds with
  | nil => exact fun o => Evolves.of_toList_eq rfl
  | cons d ds ih => exact fun o => (insert_evolves o d).trans (ih (o.insert d))

/-- Adding a declaration with its helpers; one that is held back or skipped
changes nothing that is stored. -/
theorem add_evolves (o : Outline) (table : RuleTable) (d : Declaration) :
    Evolves o (o.add table d).2 := by
  unfold add
  split
  · refine Evolves.of_toList_eq ?_
    unfold holdBack
    split <;> rfl
  · split
    · exact Evolves.of_toList_eq rfl
    · exact foldl_insert_evolves d.unfold o

/-! ## Whole runs -/

/-- What is done to the outline of a scope. -/
inductive Edit where
  | beginStatement (inaccessible : Bool) (template : Option TemplateMap)
  | add (table : RuleTable) (d : Declaration)

def edit (o : Outline) : Edit → Outline
  | .beginStatement inaccessible template => o.beginStatement inaccessible template
  | .add table d => (o.add table d).2

/-- An outline after a number of edits. -/
def run (o : Outline) (edits : List Edit) : Outline :=
  edits.foldl edit o

theorem run_append (o : Outline) (edits later : List Edit) :
    o.run (edits ++ later) = (o.run edits).run later :=
  List.foldl_append

theorem edit_evolves (o : Outline) (e : Edit) : Evolves o (o.edit e) := by
  cases e with
  | beginStatement inaccessible template => exact Evolves.of_toList_eq rfl
  | add table d => exact add_evolves o table d

theorem run_evolves (edits : List Edit) :
    ∀ o : Outline, Evolves o (o.run edits) := by
  induction edits with
  | nil => exact fun o => Evolves.of_toList_eq rfl
  | cons e edits ih => exact fun o => (edit_evolves o e).trans (ih (o.edit e))

/-- **What a scope keeps.** Whatever is added to an empty outline, with whatever
rules: no signature is stored twice, a signature that is stored stays stored,
and a declaration that is accessible, complete and no `const` member stays as
it is, in its place among its like. -/
theorem run_keeps_signatures (edits later : List Edit) :
    let o : Outline := ({} : Outline).run edits
    let o' : Outline := ({} : Outline).run (edits ++ later)
    o.signatures.Nodup ∧ o.signatures ⊆ o'.signatures ∧ o.firm <+: o'.firm := by
  intro o o'
  have hlater : Evolves o o' := by
    have := run_evolves later o
    rwa [← run_append] at this
  exact ⟨(run_evolves edits {}).unique List.nodup_nil, hlater.signatures_subset,
    hlater.firm_prefix⟩

/-! ## Slots -/

/-- The declarations of one signature. -/
def slot (o : Outline) (signature : String) : List Declaration :=
  o.toList.filter (·.signature == signature)

/-- Slots of other signatures do not notice. -/
theorem slot_insert_of_ne {o : Outline} {d : Declaration} {s : String} (h : d.signature ≠ s) :
    (o.insert d).slot s = o.slot s := by
  have hnew : [o.stored d].filter (·.signature == s) = [] := by simp [h]
  rcases insert_cases o d with ⟨-, he⟩ | ⟨-, -, he⟩ | ⟨-, -, he⟩
  · rw [slot, slot, he, List.filter_append, hnew, List.append_nil]
  · rw [slot, slot, he, List.filter_filter]
    refine List.filter_congr fun x _ => ?_
    by_cases hx : x.signature = s
    · simp [stays, hx, h.symm]
    · simp [hx]
  · rw [slot, slot, he, List.filter_append, hnew, List.append_nil, List.filter_filter]
    refine List.filter_congr fun x _ => ?_
    by_cases hx : x.signature = s
    · simp [hx, h.symm]
    · simp [hx]

theorem slot_foldl_insert_of_ne {s : String} (ds : List Declaration) :
    ∀ o : Outline, (∀ d ∈ ds, d.signature ≠ s) → (ds.foldl insert o).slot s = o.slot s := by
  induction ds with
  | nil => exact fun o _ => rfl
  | cons d ds ih =>
      intro o h
      rw [List.foldl_cons, ih _ fun x hx => h x (List.mem_cons_of_mem d hx),
        slot_insert_of_ne (h d List.mem_cons_self)]

/-- The own slot holds one declaration afterwards, if it held one at most. -/
theorem slot_insert_self {o : Outline} {d : Declaration} (hd : d.signature ≠ "")
    (h : (o.slot d.signature).length ≤ 1) :
    (o.insert d).slot d.signature = [o.stored d] ∨
      (o.slot d.signature ≠ [] ∧ (o.insert d).slot d.signature = o.slot d.signature) := by
  rcases insert_cases o d with ⟨he, -⟩ | ⟨-, ⟨x, hx, hsig, hy⟩, he⟩ | ⟨-, -, he⟩
  · exact absurd he hd
  · right
    have hmem : x ∈ o.slot d.signature := List.mem_filter.mpr ⟨hx, by simp [hsig]⟩
    obtain ⟨z, hz⟩ := List.length_eq_one_iff.mp
      (Nat.le_antisymm h (List.length_pos_of_mem hmem))
    obtain rfl : x = z := by simpa [hz] using hmem
    refine ⟨List.ne_nil_of_mem hmem, ?_⟩
    -- the one that is there does not yield
    have hstays : stays (o.stored d) x = true := stays_eq_true_iff.mpr fun _ => hy
    have hkept : (o.insert d).slot d.signature =
        (o.slot d.signature).filter (stays (o.stored d)) := by
      rw [slot, he, List.filter_comm]
      rfl
    rw [hkept, hz, List.filter_singleton, hstays]
    rfl
  · left
    have hgone : (o.toList.filter (·.signature ≠ d.signature)).filter
        (·.signature == d.signature) = [] := by
      refine List.filter_eq_nil_iff.mpr fun x hx => ?_
      simpa using (List.mem_filter.mp hx).2
    rw [slot, he, List.filter_append, hgone, List.nil_append]
    simp

/-- The definitions that go before a declaration. -/
def helpers (d : Declaration) : List Declaration :=
  d.declarator.elim [] Declaration.helpersOf

theorem add_of_taken {o : Outline} {table : RuleTable} {d : Declaration}
    (h : (o.add table d).1 = true) :
    (o.add table d).2 = ((helpers d).foldl insert o).insert d := by
  have hunfold : d.unfold = helpers d ++ [d] := by
    obtain ⟨text, signature, type, declarator, _⟩ := d
    cases declarator <;> simp [Declaration.unfold, helpers]
  unfold add at h ⊢
  split at h
  · cases h
  · split at h
    · cases h
    · next hbound hskip =>
        rw [if_neg hbound, if_neg hskip, hunfold, List.foldl_append]
        rfl

theorem slot_add_of_ne {o : Outline} {table : RuleTable} {d : Declaration} {s : String}
    (h : (o.add table d).1 = true) (hd : d.signature ≠ s)
    (hhelpers : ∀ x ∈ helpers d, x.signature ≠ s) :
    (o.add table d).2.slot s = o.slot s := by
  rw [add_of_taken h, slot_insert_of_ne hd, slot_foldl_insert_of_ne _ _ hhelpers]

theorem slot_add_self {o : Outline} {table : RuleTable} {d : Declaration}
    (h : (o.add table d).1 = true) (hd : d.signature ≠ "")
    (hhelpers : ∀ x ∈ helpers d, x.signature ≠ d.signature)
    (hslot : (o.slot d.signature).length ≤ 1) :
    (∃ x, (o.add table d).2.slot d.signature = [x] ∧ x.declarator = d.declarator) ∨
      (o.slot d.signature ≠ [] ∧ (o.add table d).2.slot d.signature = o.slot d.signature) := by
  have hbefore := slot_foldl_insert_of_ne (helpers d) o hhelpers
  rw [add_of_taken h, ← hbefore]
  rw [← hbefore] at hslot
  rcases slot_insert_self hd hslot with hnew | hold
  · exact Or.inl ⟨_, hnew, rfl⟩
  · exact Or.inr hold

end Outline

end HeaderPeers

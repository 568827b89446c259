import HeaderPeers.Proofs.Variable.Statements

/-!
# Indices of elements

The accessors of an array take an index for each dimension. The indices are named by the letters
from `i` on, whatever the array is called, and the value that the setter takes has the name of the
array.

- `Variable.setterParameters` — what the setter of an element takes.
- `Variable.joined_setterParameters` — the parameters as they are printed.
- `Variable.readText_setter` — when the setter of an array has parameters that can be told apart.
-/

namespace HeaderPeers.Variable

open ReadM

variable {count i j : Nat} {type name : String}

/-! ## Parameters -/

/-- A parameter of an accessor. -/
structure AccessorParameter where
  type : String
  name : String

def AccessorParameter.text (p : AccessorParameter) : String :=
  p.type ++ " " ++ p.name

/-- The parameters of the setter of an element: an index for each dimension, and the value. -/
def setterParameters (count : Nat) (type name : String) : List AccessorParameter :=
  ((List.range count).map fun i => ⟨"int", (indexName i).toString⟩) ++ [⟨type, name⟩]

theorem length_setterParameters : (setterParameters count type name).length = count + 1 := by
  simp [setterParameters]

theorem joinWith_concat (separator : String) (parts : List String) (last : String) :
    Text.joinWith separator (parts ++ [last]) =
      Text.joinWith separator parts ++ (if parts.isEmpty then "" else separator) ++ last := by
  unfold Text.joinWith
  cases parts with
  | nil => simp
  | cons part parts =>
      rw [String.intercalate_append_of_ne_nil (List.cons_ne_nil _ _) (List.cons_ne_nil _ _),
        String.intercalate_singleton]
      rfl

theorem isEmpty_indexList : (indexList count).isEmpty = (count == 0) := by
  cases count with
  | zero => rfl
  | succ n =>
      have hfirst : ∃ rest, (indexList (n + 1)).toList = 'i' :: rest := by
        unfold indexList Text.joinWith
        rw [List.range_succ_eq_map, List.map_cons]
        cases (List.range n).map Nat.succ with
        | nil => exact ⟨_, rfl⟩
        | cons i is =>
            rw [List.map_cons, String.intercalate_cons_cons, String.toList_append,
              String.toList_append, String.toList_append]
            exact ⟨_, rfl⟩
      obtain ⟨rest, hrest⟩ := hfirst
      rw [beq_eq_false_iff_ne.mpr (Nat.succ_ne_zero n), Bool.eq_false_iff]
      intro hempty
      rw [String.isEmpty_iff.mp hempty] at hrest
      cases hrest

/-- The indices are printed in front of the value. -/
theorem joined_setterParameters :
    Text.joinWith ", " ((setterParameters count type name).map AccessorParameter.text) =
      indexList count ++ (if (indexList count).isEmpty then "" else ", ") ++ type ++ " " ++ name := by
  have hindices : ((List.range count).map fun i =>
      (⟨"int", (indexName i).toString⟩ : AccessorParameter)).map AccessorParameter.text =
        (List.range count).map fun i => "int " ++ (indexName i).toString := by
    rw [List.map_map]
    rfl
  rw [setterParameters, List.map_append, hindices, List.map_singleton, joinWith_concat,
    isEmpty_indexList, indexList]
  cases count with
  | zero => simp [AccessorParameter.text, String.append_assoc]
  | succ n => simp [AccessorParameter.text, String.append_assoc]

/-! ## Letters -/

/-- The index names are the letters from `i` on as long as there are any. -/
theorem toNat_indexName : ∀ i < 151, (indexName i).toNat = 'i'.toNat + i := by
  decide +kernel

theorem indexName_injective (hi : i < 151) (hj : j < 151) (h : indexName i = indexName j) :
    i = j := by
  have heq := congrArg Char.toNat h
  rw [toNat_indexName i hi, toNat_indexName j hj] at heq
  omega

/-- Up to `z` they are words. -/
theorem isWord_indexName : ∀ i < 18, Text.isWord (indexName i).toString.toList = true := by
  decide +kernel

/-- Behind `z` comes a brace. -/
theorem not_isWord_indexName : Text.isWord (indexName 18).toString.toList = false := by
  decide +kernel

/-- **The names of the parameters** are words that can be told apart as long as the letters last and
the value is called something else. -/
theorem names_setterParameters (hname : Text.isWord name.toList = true) :
    (((setterParameters count type name).map (·.name)).Nodup ∧
        ∀ p ∈ setterParameters count type name, Text.isWord p.name.toList = true) ↔
      count ≤ 18 ∧ ∀ i < count, (indexName i).toString ≠ name := by
  have hnames : (setterParameters count type name).map (·.name) =
      ((List.range count).map fun i => (indexName i).toString) ++ [name] := by
    simp [setterParameters]
  constructor
  · rintro ⟨hnodup, hwords⟩
    refine ⟨?_, fun i hi hsame => ?_⟩
    · by_contra hmany
      have hmem : (⟨"int", (indexName 18).toString⟩ : AccessorParameter) ∈
          setterParameters count type name := by
        refine List.mem_append_left _ (List.mem_map_of_mem (List.mem_range.mpr ?_))
        omega
      have hbrace := hwords _ hmem
      rw [not_isWord_indexName] at hbrace
      cases hbrace
    · rw [hnames, List.nodup_append] at hnodup
      have hmem : (indexName i).toString ∈ (List.range count).map fun i => (indexName i).toString :=
        List.mem_map_of_mem (List.mem_range.mpr hi)
      exact hnodup.2.2 _ hmem name (List.mem_singleton_self name) hsame
  · rintro ⟨hfew, hother⟩
    have hletters : ((List.range count).map fun i => (indexName i).toString).Nodup := by
      refine List.Nodup.map_on (fun i hi j hj heq => ?_) List.nodup_range
      rw [List.mem_range] at hi hj
      exact indexName_injective (by omega) (by omega) (String.singleton_inj.mp heq)
    refine ⟨?_, fun p hp => ?_⟩
    · rw [hnames, List.nodup_append]
      refine ⟨hletters, List.nodup_singleton name, fun x hx y hy => ?_⟩
      obtain ⟨i, hi, rfl⟩ := List.mem_map.mp hx
      obtain rfl := List.mem_singleton.mp hy
      exact hother i (List.mem_range.mp hi)
    · rcases List.mem_append.mp hp with hp | hp
      · obtain ⟨i, hi, rfl⟩ := List.mem_map.mp hp
        exact isWord_indexName i (Nat.lt_of_lt_of_le (List.mem_range.mp hi) hfew)
      · obtain rfl := List.mem_singleton.mp hp
        exact hname

/-- The letters are counted in one byte. -/
theorem indexNames_fit_iff :
    (∀ i < count, (indexName i).toNat = 'i'.toNat + i) ↔ count ≤ 151 := by
  constructor
  · intro hfit
    by_contra hmany
    have hlast := hfit 151 (by omega)
    revert hlast
    decide
  · intro hfew i hi
    exact toNat_indexName i (by omega)

/-! ## The setter of an array -/

/-- The setter of an element is printed behind its getter. -/
theorem elementText_setter (scope : Scope) (m : Modifiers) (n : Naming) (d : Declarator)
    (houter : outerIndices scope = 0)
    (hmutable : (d.type.constValue || scope.immutable) = false) :
    ∃ getter, elementText scope m n d = getter ++ (" " ++ n.annotations ++ m.words ++ m.setterType ++
      n.setter ++ "(" ++ Text.joinWith ", " ((setterParameters d.dims.length d.type.targetName
        n.name).map AccessorParameter.text) ++ ");\n") := by
  obtain ⟨hconst, himmutable⟩ := Bool.or_eq_false_iff.mp hmutable
  have hend : ");\n" = ");" ++ "\n" := by decide
  refine ⟨scope.namespaceText ++ n.annotations ++ m.words ++ byReference d.type.annotations ++
    d.type.targetName ++ " " ++ n.getter ++ "(" ++ indexList d.dims.length ++ ");", ?_⟩
  rw [joined_setterParameters, hend]
  unfold elementText
  rw [houter, hconst, himmutable]
  simp only [gt_iff_lt, Nat.lt_irrefl, Bool.or_self, Bool.false_eq_true, if_false,
    String.append_empty, String.append_assoc]

/-- **The setter of an array** takes an index for each dimension and the value. Their names are
words that can be told apart exactly if there are at most eighteen dimensions and the array is not
called like one of its indices; the index names are counted without overflow up to 151 dimensions. -/
theorem readText_setter {v : Subject} {number : Nat} {d : Declarator} {s s' : Reading}
    {text : String} (hread : readText v number d s = .ok text s') (hdims : d.dims ≠ [])
    (houter : outerIndices v.scope = 0)
    (hmutable : (d.type.constValue || v.scope.immutable) = false)
    (hname : Text.isWord (namingOf v.scope d).name.toList = true) :
    let n := namingOf v.scope d
    let parameters := setterParameters d.dims.length d.type.targetName n.name
    (∃ getter pointer, text = getter ++ (" " ++ n.annotations ++ v.modifiers.words ++
        v.modifiers.setterType ++ n.setter ++ "(" ++
        Text.joinWith ", " (parameters.map AccessorParameter.text) ++ ");\n") ++ pointer) ∧
      parameters.length = d.dims.length + 1 ∧
      ((parameters.map (·.name)).Nodup ∧
          (∀ p ∈ parameters, Text.isWord p.name.toList = true) ↔
        d.dims.length ≤ 18 ∧ ∀ i < d.dims.length, (indexName i).toString ≠ n.name) ∧
      ((∀ i < d.dims.length, (indexName i).toNat = 'i'.toNat + i) ↔ d.dims.length ≤ 151) := by
  obtain ⟨getter, hsetter⟩ :=
    elementText_setter v.scope v.modifiers (namingOf v.scope d) d houter hmutable
  refine ⟨⟨getter, ?_⟩, length_setterParameters, names_setterParameters hname, indexNames_fit_iff⟩
  rw [← hsetter]
  unfold readText at hread
  have helement : (outerIndices v.scope == 0 || d.dims.isEmpty) = true := by simp [houter]
  rw [if_neg (by simpa using hdims), if_pos helement] at hread
  obtain ⟨_, s₁, -, hread⟩ := bind_eq_ok hread
  obtain ⟨pointer, s₂, -, hread⟩ := bind_eq_ok hread
  cases pointer with
  | none =>
      obtain ⟨rfl, -⟩ := EStateM.Result.ok.inj hread
      exact ⟨"", (String.append_empty ..).symm⟩
  | some pointer =>
      obtain ⟨rfl, -⟩ := EStateM.Result.ok.inj hread
      exact ⟨_, rfl⟩

/-- An array of two dimensions. -/
def grid : Declarator :=
  { nativeName := "m", targetName := "m", dims := [2, 3], type := .named "int" }

/-- The setter of an array of two dimensions takes two indices and the value. -/
theorem readText_setter_grid : ∃ text s',
    readText (subject "" 0) 0 grid (.ofTokens {} (Token.ofText none "int m[2][3];")) =
        .ok text s' ∧
      ((setterParameters 2 "int" "m").map (·.name)).Nodup ∧
      ∀ p ∈ setterParameters 2 "int" "m", Text.isWord p.name.toList = true := by
  have hread : (match readText (subject "" 0) 0 grid
        (.ofTokens {} (Token.ofText none "int m[2][3];")) with
      | .ok _ _ => true
      | .error _ _ => false) = true := by
    decide +kernel
  split at hread
  next text s' hrun =>
    refine ⟨text, s', hrun, ?_⟩
    have hsetter := readText_setter hrun (by decide) rfl rfl (by decide +kernel)
    exact hsetter.2.2.1.mpr (by decide +kernel)
  · cases hread

/-- The text that a header without rules is printed as. -/
def printed? (header : String) : Option String :=
  match Statement.readAll {} (.ofTokens {} (Token.ofText none header)) with
  | .ok () s => some s.outline.text
  | .error _ _ => none

/-- The setter of an array called like an index has two parameters of one name. -/
theorem setter_repeats_name :
    printed? "int i[4];" = some ("public static native @ByRef int i(int i);" ++
      " public static native void i(int i, int i);\n@MemberGetter public static native int i();") ∧
    ¬ ((setterParameters 1 "int" "i").map (·.name)).Nodup := by
  decide +kernel

end HeaderPeers.Variable

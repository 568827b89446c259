import HeaderPeers.Template
import Mathlib.Data.List.Induction
import Mathlib.Data.List.Nodup

/-!
# Parameters of nested templates

The parameters of a template are put together step by step: templates go inside each other,
parameters are declared and types are bound to them. A parameter takes what its name is bound to
around the template as soon as it is declared, and stays bound from then on. So one that is not
bound is bound nowhere, and the parameters of the innermost template alone tell whether all of them
have a type.

- `TemplateMap.Step` — what can be done to template parameters.
- `TemplateMap.Sound` — the names of a template are distinct, and what is not bound in it is not
  bound around it.
- `TemplateMap.Innermost` — the type bound to a name in the nearest template that binds it.
- `TemplateMap.run_complete` — what is known of the parameters after any steps.
-/

namespace HeaderPeers

/-! ## The parameters of one template -/

namespace TemplateFrame

variable {parameters : List (String × Option NativeType)} {name x : String}
  {type : Option NativeType}

theorem names_set (parameters : List (String × Option NativeType)) (name : String)
    (type : Option NativeType) : (set parameters name type).map Prod.fst =
      if name ∈ parameters.map Prod.fst then parameters.map Prod.fst
      else parameters.map Prod.fst ++ [name] := by
  induction parameters with
  | nil => rfl
  | cons head more ih =>
      obtain ⟨n, t⟩ := head
      by_cases hn : n = name
      · simp [set, hn]
      · have hname : ¬ name = n := fun h => hn h.symm
        rw [set, if_neg (by simpa using hn), List.map_cons, ih]
        by_cases hmem : name ∈ more.map Prod.fst
        · simp only [hmem, List.map_cons, List.mem_cons, or_true, if_true]
        · simp only [hmem, hname, List.map_cons, List.mem_cons, or_self, if_false, List.cons_append]

theorem nodup_set (h : (parameters.map Prod.fst).Nodup) :
    ((set parameters name type).map Prod.fst).Nodup := by
  rw [names_set]
  split
  · exact h
  next hnew =>
    refine List.nodup_append.mpr ⟨h, List.nodup_singleton name, ?_⟩
    rintro a ha b hb rfl
    exact hnew (List.mem_singleton.mp hb ▸ ha)

theorem lookup_cons (n : String) (t : Option NativeType)
    (parameters : List (String × Option NativeType)) (x : String) :
    ((n, t) :: parameters).lookup x = if x = n then some t else parameters.lookup x := by
  rw [List.lookup_cons]
  by_cases hx : x = n
  · simp [hx]
  · rw [beq_false_of_ne hx, if_neg hx]

theorem lookup_set (parameters : List (String × Option NativeType)) (name x : String)
    (type : Option NativeType) : (set parameters name type).lookup x =
      if x = name then some type else parameters.lookup x := by
  induction parameters with
  | nil => exact lookup_cons name type [] x
  | cons head more ih =>
      obtain ⟨n, t⟩ := head
      by_cases hn : n = name
      · subst hn
        rw [set, if_pos (by simp), lookup_cons, lookup_cons]
        split <;> rfl
      · rw [set, if_neg (by simpa using hn), lookup_cons, lookup_cons, ih]
        by_cases hx : x = n
        · rw [if_pos hx, if_pos hx, if_neg (hx ▸ hn)]
        · rw [if_neg hx, if_neg hx]

theorem names_bindAll (parameters : List (String × Option NativeType)) (types : List NativeType) :
    (bindAll parameters types).map Prod.fst = parameters.map Prod.fst := by
  fun_induction bindAll parameters types with
  | case1 name _ parameters type types ih => simp [ih]
  | case2 => rfl

/-- What is not bound afterwards was not bound before. -/
theorem lookup_of_bindAll {types : List NativeType}
    (h : (bindAll parameters types).lookup x = some none) : parameters.lookup x = some none := by
  fun_induction bindAll parameters types with
  | case1 name _ parameters type types ih =>
      rw [lookup_cons] at h ⊢
      split at h
      · cases h
      next hx =>
        rw [if_neg hx]
        exact ih h
  | case2 => exact h

/-- A parameter has one slot. -/
theorem lookup_eq_some_iff (h : (parameters.map Prod.fst).Nodup) :
    parameters.lookup x = some type ↔ (x, type) ∈ parameters := by
  induction parameters with
  | nil => simp
  | cons head more ih =>
      obtain ⟨n, t⟩ := head
      obtain ⟨hnew, hmore⟩ := List.nodup_cons.mp h
      rw [lookup_cons, List.mem_cons]
      by_cases hx : x = n
      · subst hx
        have hother : (x, type) ∉ more := fun hmem => hnew (List.mem_map.mpr ⟨_, hmem, rfl⟩)
        simp [hother, eq_comm]
      · simp [hx, ih hmore]

theorem bound?_eq_some_iff {frame : TemplateFrame} {type : NativeType}
    (h : (frame.parameters.map Prod.fst).Nodup) :
    frame.bound? x = some type ↔ (x, some type) ∈ frame.parameters := by
  rw [bound?, Option.join_eq_some_iff, lookup_eq_some_iff h]

end TemplateFrame

/-! ## Templates inside each other -/

namespace TemplateMap

open TemplateFrame

/-- What can be done to template parameters. -/
inductive Step where
  /-- One more template inside. -/
  | nest
  | declare (name : String)
  | declarePack (name : String)
  | bind (name : String) (type : NativeType)
  | bindAll (types : List NativeType)

def Step.apply (map : TemplateMap) : Step → TemplateMap
  | nest => inside (some map)
  | declare name => map.declare name
  | declarePack name => map.declarePack name
  | bind name type => map.bind name type
  | bindAll types => map.bindAll types

/-- The parameters after some steps, from an outermost template without any. -/
def run (steps : List Step) : TemplateMap :=
  steps.foldl Step.apply (inside none)

/-- The names that are declared in the innermost template, in order. -/
def declared (steps : List Step) : List String :=
  steps.foldl (fun names step => match step with
    | .nest => []
    | .declare name | .declarePack name => names ++ [name]
    | .bind _ _ | .bindAll _ => names) []

/-- What a name is bound to by the nearest of some templates that binds it. -/
def nearest? (frames : List TemplateFrame) (name : String) : Option NativeType :=
  frames.findSome? (·.bound? name)

/-- The names of each template are distinct, and one that it declares and does not bind is not
bound around it. -/
def Sound : List TemplateFrame → Prop
  | [] => True
  | frame :: outer => (frame.parameters.map Prod.fst).Nodup ∧
      (∀ name, frame.parameters.lookup name = some none → nearest? outer name = none) ∧ Sound outer

/-- The type that is bound to the name in the nearest template that binds it. -/
inductive Innermost (name : String) : List TemplateFrame → NativeType → Prop
  | here {frame : TemplateFrame} {outer : List TemplateFrame} {type : NativeType}
      (bound : (name, some type) ∈ frame.parameters) : Innermost name (frame :: outer) type
  | around {frame : TemplateFrame} {outer : List TemplateFrame} {type : NativeType}
      (unbound : ∀ other, (name, some other) ∉ frame.parameters)
      (outside : Innermost name outer type) : Innermost name (frame :: outer) type

variable {map : TemplateMap} {frames : List TemplateFrame} {name : String}

/-! ## What a step keeps -/

theorem Sound.declare (h : Sound map.frames) (name : String) : Sound (map.declare name).frames := by
  obtain ⟨hnodup, hopen, houter⟩ := h
  refine ⟨nodup_set hnodup, fun x hx => ?_, houter⟩
  change (set map.frame.parameters name (nearest? map.outer name)).lookup x = some none at hx
  rw [lookup_set] at hx
  split at hx
  next hname =>
    -- the parameter takes what the name is bound to around
    rw [hname]
    exact Option.some.inj hx
  · exact hopen x hx

theorem Sound.bind (h : Sound map.frames) (name : String) (type : NativeType) :
    Sound (map.bind name type).frames := by
  obtain ⟨hnodup, hopen, houter⟩ := h
  unfold TemplateMap.bind TemplateFrame.bind
  split
  · refine ⟨nodup_set hnodup, fun x hx => ?_, houter⟩
    rw [lookup_set] at hx
    split at hx
    · cases hx
    · exact hopen x hx
  · exact ⟨hnodup, hopen, houter⟩

theorem Sound.bindAll (h : Sound map.frames) (types : List NativeType) :
    Sound (map.bindAll types).frames := by
  obtain ⟨hnodup, hopen, houter⟩ := h
  refine ⟨?_, fun x hx => hopen x (lookup_of_bindAll hx), houter⟩
  change ((TemplateFrame.bindAll map.frame.parameters types).map Prod.fst).Nodup
  rwa [names_bindAll]

theorem Sound.apply (h : Sound map.frames) (step : Step) : Sound (step.apply map).frames := by
  cases step with
  | nest => exact ⟨List.nodup_nil, fun _ hx => (nomatch hx), h⟩
  | declare name => exact h.declare name
  | declarePack name => exact h.declare name
  | bind name type => exact h.bind name type
  | bindAll types => exact h.bindAll types

theorem sound_run (steps : List Step) : Sound (run steps).frames := by
  induction steps using List.reverseRecOn with
  | nil => exact ⟨List.nodup_nil, fun _ hx => (nomatch hx), trivial⟩
  | append_singleton steps step ih =>
      rw [run, List.foldl_append]
      exact ih.apply step

/-! ## What is declared -/

theorem names_declare (map : TemplateMap) (name : String) : (map.declare name).names =
    if name ∈ map.names then map.names else map.names ++ [name] :=
  names_set _ _ _

theorem names_bind (map : TemplateMap) (name : String) (type : NativeType) :
    (map.bind name type).names = map.names := by
  unfold TemplateMap.bind TemplateFrame.bind names
  split
  next hparameter =>
    have hmem : name ∈ map.frame.parameters.map Prod.fst := by
      simpa [hasParameter, List.any_eq_true] using hparameter
    exact (names_set _ _ _).trans (if_pos hmem)
  · rfl

theorem names_bindAll (map : TemplateMap) (types : List NativeType) :
    (map.bindAll types).names = map.names :=
  TemplateFrame.names_bindAll _ _

theorem eraseDups_concat (names : List String) (name : String) : (names ++ [name]).eraseDups =
    if name ∈ names then names.eraseDups else names.eraseDups ++ [name] := by
  rw [List.eraseDups_append]
  have hone : [name].eraseDups = [name] := rfl
  by_cases hmem : name ∈ names <;> simp [List.removeAll, hmem, hone]

/-- The names of the innermost template stand in the order in which they are declared first. -/
theorem names_run (steps : List Step) : (run steps).names = (declared steps).eraseDups := by
  induction steps using List.reverseRecOn with
  | nil => rfl
  | append_singleton steps step ih =>
      have hdeclare (name : String) :
          ((run steps).declare name).names = (declared steps ++ [name]).eraseDups := by
        rw [names_declare, eraseDups_concat, ih]
        simp only [List.mem_eraseDups]
      rw [run, declared, List.foldl_append, List.foldl_append]
      cases step with
      | nest => rfl
      | declare name => exact hdeclare name
      | declarePack name => exact hdeclare name
      | bind name type => exact (names_bind _ _ _).trans ih
      | bindAll types => exact (names_bindAll _ _).trans ih

/-! ## What is bound -/

theorem nearest?_eq_some_iff (h : Sound frames) {type : NativeType} :
    nearest? frames name = some type ↔ Innermost name frames type := by
  induction frames with
  | nil => exact ⟨fun h => (nomatch h), fun h => (nomatch h)⟩
  | cons frame outer ih =>
      obtain ⟨hnodup, -, houter⟩ := h
      rw [nearest?, List.findSome?_cons]
      cases hbound : frame.bound? name with
      | some found =>
          have hfound := (bound?_eq_some_iff hnodup).mp hbound
          constructor
          · rintro ⟨⟩
            exact .here hfound
          · rintro (bound | ⟨unbound, -⟩)
            · rw [← (bound?_eq_some_iff hnodup).mpr bound, hbound]
            · exact absurd hfound (unbound found)
      | none =>
          have hunbound : ∀ other, (name, some other) ∉ frame.parameters := by
            intro other hother
            rw [(bound?_eq_some_iff hnodup).mpr hother] at hbound
            cases hbound
          constructor
          · exact fun hfound => .around hunbound ((ih houter).mp hfound)
          · rintro (bound | ⟨-, outside⟩)
            · exact absurd bound (hunbound type)
            · exact (ih houter).mpr outside

theorem full_iff (h : Sound map.frames) :
    map.full = true ↔ ∀ name ∈ map.names, (map.get? name).isSome = true := by
  obtain ⟨hnodup, hopen, -⟩ := h
  have hget (name : String) : (map.get? name).isSome = (nearest? map.frames name).isSome := by
    rw [get?, Option.isSome_map]
    rfl
  have hfirst (name : String) : nearest? map.frames name =
      (map.frame.bound? name).or (nearest? map.outer name) := by
    rw [nearest?, frames, List.findSome?_cons]
    cases map.frame.bound? name <;> rfl
  simp only [full, List.all_eq_true, names, List.forall_mem_map, hget, hfirst]
  refine forall₂_congr fun parameter hparameter => ?_
  obtain ⟨name, type⟩ := parameter
  have hslot := (lookup_eq_some_iff hnodup).mpr hparameter
  cases type with
  | some type => simp [bound?, hslot]
  | none => simp [bound?, hslot, hopen name hslot]

/-- **Parameters after any steps.** All parameters of the innermost template are bound in it if and
only if each of them is bound somewhere. They are distinct, in the order in which they are declared
first. A name stands for the type that the nearest template binds it to, and for nothing if there
is none. -/
theorem run_complete (steps : List Step) :
    ((run steps).full = true ↔
      ∀ name ∈ (run steps).names, ((run steps).get? name).isSome = true) ∧
    (run steps).names.Nodup ∧ (run steps).names = (declared steps).eraseDups ∧
    ∀ name text, (run steps).get? name = some text ↔
      ∃ type, Innermost name (run steps).frames type ∧ text = type.spelling := by
  have hsound := sound_run steps
  refine ⟨full_iff hsound, hsound.1, names_run steps, fun name text => ?_⟩
  have hget : (run steps).get? name = (nearest? (run steps).frames name).map (·.spelling) := rfl
  rw [hget, Option.map_eq_some_iff]
  simp only [nearest?_eq_some_iff hsound, eq_comm (a := text)]

end TemplateMap

end HeaderPeers

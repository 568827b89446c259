import HeaderPeers.Proofs.BuiltinRules
import HeaderPeers.Proofs.Constant.Types
import HeaderPeers.Proofs.NativeType.Words
import HeaderPeers.Proofs.RuleLayers

/-!
# The types of the built-in rules

A built-in rule for a fundamental type has target types for values and for pointers. Each of
its names is found, and what it finds is such a rule again.

- `Rule.fundamentalNames` — the names of the fundamental types.
- `RuleTable.exists_fundamental` — what such a name finds.
-/

namespace HeaderPeers

/-! ## Rules for fundamental types -/

/-- The rule maps its type by value and behind a pointer. -/
def Rule.isFundamental (r : Rule) : Bool :=
  r.valueTypes.isSome && r.pointerTypes.isSome

/-- The names of the fundamental types. -/
def Rule.fundamentalNames : List String :=
  (builtin.filter isFundamental).flatMap (·.nativeNames)

namespace Layer

/-- What stands first under a key stays there if a rule is put behind it. -/
theorem find?_putAt_last {layer : Layer} {key : String} {entry : Entry} {list : List Entry}
    (h : layer.find? key = some (entry :: list)) (rule : Rule) :
    ∃ list', (layer.putAt .last rule).find? key = some (entry :: list') := by
  rw [find?_putAt]
  split
  · rw [h, Option.getD_some, place]
    split
    · exact ⟨list, rfl⟩
    · exact ⟨list ++ [⟨layer.fresh, rule⟩], rfl⟩
  · exact ⟨list, h⟩

end Layer

namespace RuleTable

theorem find?_foldl_put (rules : List Rule) {table : RuleTable} {key : String} {entry : Entry}
    {list : List Entry} (h : table.top.find? key = some (entry :: list)) :
    ∃ list', (rules.foldl put table).top.find? key = some (entry :: list') := by
  induction rules generalizing table list with
  | nil => exact ⟨list, h⟩
  | cons rule rules ih =>
      obtain ⟨list', h'⟩ := Layer.find?_putAt_last h rule
      exact ih h'

/-- Something is found under all keys of the rules that are put, by induction on the rules. -/
theorem exists_find?_foldl_put {rules : List Rule} {table : RuleTable} {key : String}
    (h : ∃ rule ∈ rules, key ∈ (Layer.namesOf rule).flatMap Layer.keysOf) :
    ∃ entry list, (rules.foldl put table).top.find? key = some (entry :: list) := by
  induction rules generalizing table with
  | nil =>
      obtain ⟨rule, hrule, -⟩ := h
      cases hrule
  | cons rule rules ih =>
      obtain ⟨other, hother, hkey⟩ := h
      rcases List.mem_cons.mp hother with rfl | hother
      · have hput : (table.put other).top.find? key = some (Layer.place .last
            ⟨table.top.fresh, other⟩ ((table.top.find? key).getD [])) := by
          rw [put, Layer.find?_putAt, if_pos hkey]
        obtain ⟨entry, list, heq⟩ := List.exists_cons_of_ne_nil
          (Layer.place_ne_nil .last ⟨table.top.fresh, other⟩ ((table.top.find? key).getD []))
        obtain ⟨list', h'⟩ := find?_foldl_put rules (hput.trans (congrArg some heq))
        exact ⟨entry, list', h'⟩
      · exact ih ⟨other, hother, hkey⟩

/-- What is found under the name of one of the first rules is one of them, with a name of the same
key: the other rules are put behind. -/
theorem exists_findWith?_child (types others : List Rule) {rule : Rule} (hrule : rule ∈ types)
    {name : String} (hname : name ∈ rule.nativeNames) : ∃ r ∈ types,
      (∀ part, ((types ++ others).foldl put {}).child.findWith? name part = some r) ∧
        Name.normalize name false false ∈ (Layer.namesOf r).flatMap Layer.keysOf := by
  have hnamed : name ∈ Layer.namesOf rule := by
    unfold Layer.namesOf
    rw [if_neg (by simpa using List.ne_nil_of_mem hname)]
    exact hname
  have hkey : Name.normalize name false false ∈ (Layer.namesOf rule).flatMap Layer.keysOf :=
    List.mem_flatMap.mpr ⟨name, hnamed, by simp [Layer.keysOf]⟩
  have hempty (rules : List Rule) : ({} : RuleTable).top.Keyed rules := by
    simp [Layer.Keyed, Layer.find?]
  obtain ⟨entry, list, hfind⟩ := exists_find?_foldl_put ⟨rule, hrule, hkey⟩
  obtain ⟨hkeyed, -⟩ := keyed_foldl_put types (List.Subset.refl _) (hempty types) rfl
  obtain ⟨hmem, hshared⟩ := hkeyed _ _ hfind entry List.mem_cons_self
  obtain ⟨list', hall⟩ := find?_foldl_put others hfind
  obtain ⟨-, hunder⟩ := keyed_foldl_put (types ++ others) (List.Subset.refl _) (hempty _) rfl
  refine ⟨entry.rule, hmem, fun part => ?_, hshared⟩
  rw [← List.foldl_append] at hall
  have hget : ((types ++ others).foldl put {}).top.get name part = entry :: list' := by
    unfold Layer.get
    rw [hall]
  rw [findWith?_child hunder, hget]
  rfl

/-- **Every name of a built-in type is found**, and what it finds is a rule for types with a name of
the same key. -/
theorem exists_findWith?_standard {rule : Rule} (hrule : rule ∈ Rule.typeRules) {name : String}
    (hname : name ∈ rule.nativeNames) : ∃ r ∈ Rule.typeRules,
      (∀ part, standard.findWith? name part = some r) ∧
        Name.normalize name false false ∈ (Layer.namesOf r).flatMap Layer.keysOf := by
  unfold standard builtin Rule.builtin
  rw [List.append_assoc]
  exact exists_findWith?_child Rule.typeRules _ hrule hname

end RuleTable

namespace Rule

/-- What a rule for a fundamental type does: it only maps its type. -/
structure MapsOnly (r : Rule) : Prop where
  values : r.valueTypes.getD [] ≠ []
  pointers : r.pointerTypes.getD [] ≠ []
  native : r.nativeTypes = none
  annotations : r.annotations = none
  kept : r.skip = false

theorem mapsOnly_of_isFundamental {r : Rule} (hr : r ∈ typeRules) (h : r.isFundamental = true) :
    r.MapsOnly := by
  have hall : ∀ r ∈ typeRules, r.isFundamental = true →
      (r.valueTypes.getD []).isEmpty = false ∧ (r.pointerTypes.getD []).isEmpty = false ∧
        r.nativeTypes.isNone = true ∧ r.annotations.isNone = true ∧ r.skip = false := by
    decide +kernel
  obtain ⟨hvalues, hpointers, hnative, hannotations, hkept⟩ := hall r hr h
  exact ⟨by simpa using hvalues, by simpa using hpointers, by simpa using hnative,
    by simpa using hannotations, hkept⟩

theorem isFundamental_of_isTame {r : Rule} (hr : r ∈ typeRules) (h : r.IsTame) :
    r.isFundamental = true := by
  have hall : ∀ r ∈ typeRules, r.valueTypes.any (·.length == 1) = true →
      r.isFundamental = true := by
    decide +kernel
  obtain ⟨v, hv, -⟩ := h.value
  exact hall r hr (by simp [hv])

/-- The other rules for types have names of their own: words, or such that none of their keys is
one. -/
theorem isFundamental_or : ∀ r ∈ typeRules, r.isFundamental = true ∨
    ∀ other ∈ Layer.namesOf r,
      (Text.isWord other.toList = true ∧ other ∉ fundamentalNames) ∨
        ∀ key ∈ Layer.keysOf other, Text.isWord key.toList = false := by
  decide +kernel

/-- The names of fundamental types are those of rules for types. -/
theorem exists_of_mem_fundamentalNames {name : String} (h : name ∈ fundamentalNames) :
    ∃ rule ∈ typeRules, name ∈ rule.nativeNames := by
  obtain ⟨rule, hrule, hname⟩ := List.mem_flatMap.mp h
  obtain ⟨hbuiltin, hfundamental⟩ := List.mem_filter.mp hrule
  rw [builtin, List.append_assoc] at hbuiltin
  rcases List.mem_append.mp hbuiltin with htype | hother
  · exact ⟨rule, htype, hname⟩
  · -- a rule for an operator or a method has no target types
    rcases List.mem_append.mp hother with hother | hother
    · obtain ⟨x, -, rfl⟩ := List.mem_map.mp hother
      cases hfundamental
    · obtain ⟨x, -, rfl⟩ := List.mem_map.mp hother
      cases hfundamental

end Rule

namespace RuleTable

/-- **Fundamental types.** A fundamental name finds a rule that only maps its type. -/
theorem exists_mapsOnly {name : String} (h : name ∈ Rule.fundamentalNames)
    (hname : Name.EndsFundamental name ∨ Text.isWord name.toList = true) :
    ∃ r : Rule, (∀ part, standard.findWith? name part = some r) ∧ r.MapsOnly := by
  obtain ⟨rule, hrule, hnamed⟩ := Rule.exists_of_mem_fundamentalNames h
  obtain ⟨r, hr, hfind, hshared⟩ := exists_findWith?_standard hrule hnamed
  refine ⟨r, hfind, Rule.mapsOnly_of_isFundamental hr ?_⟩
  rcases hname with hends | hword
  · exact Rule.isFundamental_of_isTame hr (isTame_of_findWith?_standard hends (hfind false))
  · obtain ⟨other, hother, hkey⟩ := List.mem_flatMap.mp hshared
    rw [(Name.normalize_word hword).1] at hkey
    refine (Rule.isFundamental_or r hr).resolve_right fun hall => ?_
    rcases hall other hother with ⟨hisWord, hapart⟩ | hkeys
    · have hown : name ∈ Layer.keysOf name := by
        simp [Layer.keysOf, (Name.normalize_word hword).1]
      refine Layer.not_mem_keysOf hword hisWord ?_ hkey hown
      rintro rfl
      exact hapart h
    · rw [hkeys name hkey] at hword
      cases hword

/-- Neither a star nor `const` is an attribute. -/
theorem annotations_of_mark {name : String} (hname : name ∈ ["*", "const"]) {r : Rule}
    (h : standard.find? name = some r) : r.annotations = none := by
  have hall : ∀ r ∈ Rule.builtin, r.annotations.isSome = true →
      ∀ key ∈ ["*", "const", ""], key ∉ (Layer.namesOf r).flatMap Layer.keysOf := by
    decide +kernel
  have hkeys : ∀ name ∈ ["*", "const"], ∀ unconst untemplate : Bool,
      Name.normalize name unconst untemplate ∈ ["*", "const", ""] := by
    decide +kernel
  obtain ⟨hr, key, hmem, unconst, untemplate, rfl⟩ := exists_of_findWith?_standard h
  by_contra hannotated
  exact hall r hr (Option.isSome_iff_ne_none.mpr hannotated) _ (hkeys name hname _ _) hmem

end RuleTable

/-! ## Their words -/

/-- A word of a type: a name, or `const`. -/
inductive Token.OfType (t : Token) : Prop
  | name (ht : t.IsName)
  | const (kind : t.kind = .keyword .const_) (word : Text.isWord t.text.toList = true)

namespace NativeType

/-- The type with one more word; behind the name of the type only `const` and fundamental words
count. -/
def pushWord (type : NativeType) (t : Token) : NativeType :=
  if t.isKeyword .const_ || Name.fundamentalWords.contains t.text || type.isOpen then type.push t
  else type

/-- Words count by what they are. -/
theorem foldl_pushWord_of_face {ws vs : List Token} (h : ws.map Token.face = vs.map Token.face)
    (type : NativeType) : ws.foldl pushWord type = vs.foldl pushWord type := by
  induction ws generalizing vs type with
  | nil =>
      obtain rfl := List.map_eq_nil_iff.mp h.symm
      rfl
  | cons w ws ih =>
      obtain ⟨v, vs, rfl, hface, hrest⟩ := List.map_eq_cons_iff.mp h.symm
      obtain ⟨hkind, htext⟩ := Prod.mk.inj hface
      have hpush : pushWord type w = pushWord type v := by
        obtain ⟨kind, text, _, _⟩ := w
        obtain ⟨kind', text', _, _⟩ := v
        cases hkind
        cases htext
        rfl
      rw [List.foldl_cons, List.foldl_cons, hpush]
      exact ih hrest.symm _

section Words

variable {s : Reading} {readType : Scope → ReadM (Option NativeType)} {scope : Scope}
  {type : NativeType} {t u : Token} {us ws rest : List Token}

open ReadM

/-- A word behind the name of a type is passed over if another word or a star follows. -/
theorem readPart_of_passed (ht : t.IsName)
    (hnamed : Name.fundamentalWords.contains t.text = false) (hclosed : type.isOpen = false)
    (hplain : (s.table.find? t.text).any (·.isAttribute) = false)
    (hu : u.isWord = true ∨ u.is "*" = true)
    (hfollows : (s.table.find? u.text).any (·.annotations.isSome) = false)
    (h : s.Sees (t :: u :: us)) :
    Passes (readPart readType scope type) s (u :: us) (· = .again type) := by
  have hdecorates : t.isKeywordWith Keyword.decorates = false := by
    simp [Token.isKeywordWith, ht.kind]
  unfold readPart
  refine (peek_passes h).bind_eq fun j h => ?_
  simp only [ht.isEof_eq, ht.is_eq "::" (by decide), ht.isKeyword_eq, ht.is_eq "<" (by decide),
    ht.is_eq "*" (by decide), ht.is_eq "&" (by decide), ht.is_eq "&&" (by decide),
    ht.is_eq "~" (by decide), hdecorates, hnamed, ht.is_eq "[" (by decide), ht.isWord_eq,
    Bool.false_and, Bool.false_eq_true, if_false, if_true]
  rw [Passes, readWord_eq h hplain, if_neg (by simpa [isOpen] using hclosed)]
  refine (peekAt_one_passes h).bind_eq fun j h => ?_
  have hrule : rule? u.text ((s.atIndex j).atIndex j) = .ok (s.table.find? u.text) (s.atIndex j) :=
    rfl
  refine Passes.bind_eq (passes_of_eq hrule h) fun j h => ?_
  rw [hfollows, if_neg (by rcases hu with hu | hu <;> simp [Token.isAny, hu])]
  exact onward_passes h

/-- A word is taken if another one or a star follows. -/
theorem readPart_of_word (ht : t.OfType)
    (hplain : (s.table.find? t.text).any (·.isAttribute) = false)
    (hu : u.isWord = true ∨ u.is "*" = true)
    (hfollows : (s.table.find? u.text).any (·.annotations.isSome) = false)
    (h : s.Sees (t :: u :: us)) :
    Passes (readPart readType scope type) s (u :: us) (· = .again (pushWord type t)) := by
  cases ht with
  | const kind word =>
      have hconst : t.isKeyword .const_ = true := by simp [Token.isKeyword, kind]
      rw [pushWord, hconst, Bool.true_or, Bool.true_or, if_pos rfl]
      exact readPart_of_modifier kind (.inl rfl) word h
  | name ht =>
      rw [pushWord, ht.isKeyword_eq, Bool.false_or]
      by_cases htaken : (Name.fundamentalWords.contains t.text || type.isOpen) = true
      · rw [if_pos htaken]
        refine readPart_of_isName ht (fun hnamed => ⟨?_, hplain⟩) h
        rw [hnamed, Bool.false_or] at htaken
        exact htaken
      · rw [if_neg htaken]
        obtain ⟨hnamed, hclosed⟩ := Bool.or_eq_false_iff.mp (Bool.eq_false_iff.mpr htaken)
        exact readPart_of_passed ht hnamed hclosed hplain hu hfollows h

/-- The words of a type and what follows them: no attributes. -/
def Unannotated (table : RuleTable) (t : Token) : Prop :=
  (table.find? t.text).any (·.annotations.isSome) = false

theorem Unannotated.isAttribute {table : RuleTable} (h : Unannotated table t) :
    (table.find? t.text).any (·.isAttribute) = false := by
  unfold Unannotated at h
  cases hfind : table.find? t.text with
  | none => rfl
  | some r =>
      rw [hfind] at h
      simp only [Option.any_some] at h
      simp [Rule.isAttribute, h]

/-- **The words of a type** are taken one after another, by induction on them. -/
theorem iterateUpTo_typeWords {n : Nat} {last : NativeType}
    (hws : ∀ t ∈ ws, t.OfType ∧ Unannotated s.table t)
    (hu : u.isWord = true ∨ u.is "*" = true) (hfollows : Unannotated s.table u)
    (h : s.Sees (ws ++ u :: us)) (hn : ws.length < n)
    (hdone : ∀ j, (s.atIndex j).Sees (u :: us) →
      Passes (readPart readType scope (ws.foldl pushWord type)) (s.atIndex j) rest (· = .done last)) :
    Passes (iterateUpTo (readPart readType scope) n type) s rest (· = last) := by
  induction ws generalizing s type n with
  | nil =>
      obtain ⟨n, rfl⟩ := Nat.exists_eq_add_one.mpr hn
      exact iterateUpTo_done ((hdone s.window.index h).imp fun r hr => ⟨_, hr, rfl⟩)
  | cons t ws ih =>
      obtain ⟨n, rfl⟩ := Nat.exists_eq_add_one.mpr (Nat.zero_lt_of_lt hn)
      rw [List.forall_mem_cons] at hws
      obtain ⟨next, more, hnext, hword, hplain⟩ : ∃ next more, ws ++ u :: us = next :: more ∧
          (next.isWord = true ∨ next.is "*" = true) ∧ Unannotated s.table next := by
        cases ws with
        | nil => exact ⟨u, us, rfl, hu, hfollows⟩
        | cons w ws =>
            obtain ⟨hw, hplain⟩ := hws.2 w List.mem_cons_self
            refine ⟨w, ws ++ u :: us, rfl, .inl ?_, hplain⟩
            cases hw with
            | name hw => exact hw.isWord_eq
            | const kind _ => simp [Token.isWord, kind]
      rw [List.cons_append, hnext] at h
      refine iterateUpTo_again ((readPart_of_word hws.1.1 hws.1.2.isAttribute hword hplain h).imp
        fun r hr => ⟨_, hr, rfl⟩) ?_
      rintro _ j rfl h
      rw [← hnext] at h
      exact ih hws.2 hfollows h (Nat.lt_of_succ_lt_succ hn) hdone

/-- The type that some words spell, with or without a star, before it is looked up. -/
def spelled (ws : List Token) (starred : Bool) : NativeType :=
  let type := ws.foldl pushWord {}
  { type with
    nativeName := Text.trim type.nativeName
    indirections := type.indirections + starred.toNat }

/-- **Reading the words of a type** up to a mark or a name. -/
theorem read_words (starred : Bool) (hws : ∀ t ∈ ws, t.OfType ∧ Unannotated s.table t)
    (hu : u.isWord = true ∨ u.is "*" = true) (hfollows : Unannotated s.table u)
    (hoperator : (spelled ws starred).operator = false)
    (hfree : scope.group = none)
    (h : s.Sees (ws ++ u :: us)) (hdots : t.is "..." = false)
    (hdone : ∀ n j, (s.atIndex j).Sees (u :: us) →
      Passes (readPart (nestUpTo readWith n) scope (ws.foldl pushWord {})) (s.atIndex j) (t :: rest)
        (· = .done { ws.foldl pushWord {} with
          indirections := (ws.foldl pushWord {}).indirections + starred.toNat })) :
    Passes (NativeType.read scope) s (t :: rest)
      (· = some ((spelled ws starred).resolve s.table scope s.usings)) := by
  obtain ⟨first, more, hfirst⟩ : ∃ first more, ws ++ u :: us = first :: more := by
    cases ws with
    | nil => exact ⟨u, us, rfl⟩
    | cons w ws => exact ⟨w, _, rfl⟩
  refine nest_passes (hfirst ▸ h) fun n => ?_
  unfold readWith
  have hiterate : Passes (iterate {} (readPart (nestUpTo readWith n) scope)) s (t :: rest)
      (· = { ws.foldl pushWord {} with
        indirections := (ws.foldl pushWord {}).indirections + starred.toNat }) := by
    refine iterate_passes h fun m hm => iterateUpTo_typeWords hws hu hfollows h ?_ (hdone n)
    simp only [List.length_append, List.length_cons] at hm
    omega
  refine hiterate.bind_eq fun j h => (peek_passes h).bind_eq fun j h => ?_
  rw [if_neg (by simp [hdots])]
  have hnot : ¬ (spelled ws starred).operator = true := by simp [hoperator]
  refine Eq.mp (congrArg (Passes · _ _ _) (if_neg hnot).symm) ?_
  refine (finish_passes h).bind fun type j htype h => passes_pure h ?_
  exact congrArg some (htype.1 hfree)

end Words

end NativeType

end HeaderPeers

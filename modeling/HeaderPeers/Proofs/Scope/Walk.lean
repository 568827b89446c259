import HeaderPeers.Proofs.NameKeys
import HeaderPeers.Scope

/-!
# The scopes around a scope

Going one scope outwards reads a path again, to leave out the arguments of its last name, and cuts
it at its last `::`. Reading it again may make the text longer, but it never adds a colon, and each
cut takes two away.

- `Text.cutLast?_eq_some_iff` — cutting a text at the last place.
- `Scope.Walk` — the scopes around a scope, as far as there are any.
- `Scope.count_normalize_le` — reading a path again adds no colons.
- `Scope.walk_enclosing` — all scopes around are found.
-/

namespace HeaderPeers

/-! ## The last place of a text in another -/

namespace Text

/-- The first place is found, by induction on the text. -/
theorem cutChars?_eq_some_iff {needle cs before after : List Char} (hneedle : needle ≠ []) :
    cutChars? needle cs = some (before, after) ↔ cs = before ++ (needle ++ after) ∧
      ∀ b a, cs = b ++ (needle ++ a) → before.length ≤ b.length := by
  induction cs generalizing before with
  | nil => simp [cutChars?, hneedle]
  | cons c cs ih =>
      rw [cutChars?]
      by_cases hstart : needle.isPrefixOf (c :: cs) = true
      · obtain ⟨rest, hrest⟩ := List.isPrefixOf_iff_prefix.mp hstart
        rw [if_pos hstart, ← hrest, List.drop_left]
        constructor
        · intro h
          obtain ⟨rfl, rfl⟩ := Prod.mk.inj (Option.some.inj h)
          exact ⟨rfl, fun _ _ _ => Nat.zero_le _⟩
        · rintro ⟨heq, hfirst⟩
          have hnil := List.length_eq_zero_iff.mp (Nat.le_zero.mp (hfirst [] rest rfl))
          rw [hnil] at heq
          rw [hnil, List.append_cancel_left heq]
      · rw [if_neg hstart]
        have hcons {b a : List Char} (h : c :: cs = b ++ (needle ++ a)) :
            ∃ b', b = c :: b' ∧ cs = b' ++ (needle ++ a) := by
          cases b with
          | nil => exact absurd (List.isPrefixOf_iff_prefix.mpr ⟨a, h.symm⟩) hstart
          | cons d b =>
              obtain ⟨rfl, hcs⟩ := List.cons.inj h
              exact ⟨b, rfl, hcs⟩
        constructor
        · intro h
          obtain ⟨⟨b, a⟩, hcut, heq⟩ := Option.map_eq_some_iff.mp h
          obtain ⟨rfl, rfl⟩ := Prod.mk.inj heq
          obtain ⟨hcs, hfirst⟩ := ih.mp hcut
          refine ⟨congrArg (c :: ·) hcs, fun b' a' h' => ?_⟩
          obtain ⟨b', rfl, hcs'⟩ := hcons h'
          exact Nat.succ_le_succ (hfirst b' a' hcs')
        · rintro ⟨heq, hfirst⟩
          obtain ⟨before, rfl, hcs⟩ := hcons heq
          have hcut : cutChars? needle cs = some (before, after) := ih.mpr ⟨hcs, fun b a h =>
            Nat.le_of_succ_le_succ (hfirst (c :: b) a (congrArg (c :: ·) h))⟩
          rw [hcut]
          rfl

/-- The text is cut at the last place of the other one. -/
structure IsLastCut (needle s before after : String) : Prop where
  eq : s = before ++ needle ++ after
  last : ∀ b a, s = b ++ needle ++ a → after.length ≤ a.length

theorem cutLast?_eq_some_iff {needle s before after : String} (hneedle : needle ≠ "") :
    cutLast? needle s = some (before, after) ↔ IsLastCut needle s before after := by
  have hne : needle.toList.reverse ≠ [] := by
    simpa using fun h => hneedle (String.toList_eq_nil_iff.mp h)
  have hsplit (b a : String) : s = b ++ needle ++ a ↔
      s.toList.reverse = a.toList.reverse ++ (needle.toList.reverse ++ b.toList.reverse) := by
    rw [← List.reverse_append, ← List.reverse_append, List.reverse_inj, ← String.toList_append,
      ← String.toList_append, String.toList_inj]
  have hcut : cutLast? needle s = some (before, after) ↔
      cutChars? needle.toList.reverse s.toList.reverse =
        some (after.toList.reverse, before.toList.reverse) := by
    constructor
    · intro h
      obtain ⟨⟨b, a⟩, hchars, heq⟩ := Option.map_eq_some_iff.mp h
      obtain ⟨⟨a', b'⟩, hreverse, heq'⟩ := Option.map_eq_some_iff.mp hchars
      cases heq'
      cases heq
      simpa using hreverse
    · intro h
      simp [cutLast?, cutLastChars?, h]
  rw [hcut, cutChars?_eq_some_iff hne]
  constructor
  · rintro ⟨heq, hfirst⟩
    refine ⟨(hsplit before after).mpr heq, fun b a h => ?_⟩
    simpa [String.length_toList] using hfirst _ _ ((hsplit b a).mp h)
  · rintro ⟨heq, hlast⟩
    refine ⟨(hsplit before after).mp heq, fun a b h => ?_⟩
    have hle := hlast (String.ofList b.reverse) (String.ofList a.reverse)
      ((hsplit _ _).mpr (by simpa using h))
    simpa [String.length_toList] using hle

/-- What is no part of a text does not cut it. -/
theorem cutLast?_eq_none {needle s : String} (hneedle : needle ≠ "")
    (h : ¬ needle.toList <:+: s.toList) : cutLast? needle s = none := by
  by_contra hsome
  obtain ⟨⟨before, after⟩, hcut⟩ := Option.ne_none_iff_exists'.mp hsome
  have heq := ((cutLast?_eq_some_iff hneedle).mp hcut).eq
  exact h ⟨before.toList, after.toList, by simp [heq]⟩

end Text

/-! ## Colons -/

/-- The colons of a text. -/
def colons (s : String) : Nat :=
  s.toList.count ':'

@[simp] theorem colons_append (s t : String) : colons (s ++ t) = colons s + colons t := by
  simp [colons]

theorem colons_join (texts : List String) :
    colons (String.join texts) = (texts.map colons).sum := by
  induction texts with
  | nil => rfl
  | cons s texts ih => simp [String.join_cons, ih]

theorem colons_joinWith_space (texts : List String) :
    colons (Text.joinWith " " texts) = (texts.map colons).sum := by
  induction texts with
  | nil => rfl
  | cons s texts ih =>
      rcases eq_or_ne texts [] with rfl | hne
      · simp [Text.joinWith]
      · have hspace : colons " " = 0 := rfl
        rw [Name.joinWith_cons hne, colons_append, colons_append, ih, hspace, List.map_cons,
          List.sum_cons, Nat.add_zero]

theorem Spells.count_colon_le {isLast : Prop} {kind : Kind} {text source : List Char}
    (h : Spells isLast kind text source) : text.count ':' ≤ source.count ':' := by
  cases h with
  | verbatim same => exact le_of_eq (congrArg _ same)
  | number numeric rewritten =>
      obtain ⟨plain, hplain, htext⟩ := rewritten
      have hstart : plain <+: Number.withoutMarks source := by
        rcases hplain with rfl | hplain
        · exact List.prefix_rfl
        · exact ⟨_, hplain⟩
      have hle : plain.count ':' ≤ source.count ':' :=
        (hstart.sublist.trans List.filter_sublist).count_le ':'
      rcases htext with rfl | ⟨-, rfl⟩
      · exact hle
      · simpa using hle
  | continuation isComment broken shown => simp [broken, shown]
  | leftOpen quote inside atEnd literal opens unclosed closed =>
      have hquote : quote ≠ ':' := by
        rcases literal with ⟨-, rfl⟩ | ⟨-, rfl⟩ <;> decide
      simp [closed, hquote]

/-- Reading a text adds no colons. -/
theorem Token.sum_colons_scan_le (numbering : Numbering) (file : Option String) (line : Nat)
    (cs : List Char) :
    ((scan numbering file line cs).map (colons ·.spaced)).sum ≤ cs.count ':' := by
  obtain ⟨pieces, hpieces⟩ := exists_pieces numbering file line cs
  rw [← hpieces.tokens_eq, ← hpieces.text_eq, List.map_map, List.count_flatMap]
  refine List.sum_le_sum fun p hp => ?_
  obtain ⟨before, after, hsplit⟩ := List.append_of_mem hp
  have hspells := (hpieces.spells before p.1 p.2 after hsplit).count_colon_le
  simpa [colons, spaced] using hspells

theorem Text.count_colon_unifyBreaks (cs : List Char) :
    (unifyBreaks cs).count ':' = cs.count ':' := by
  fun_induction unifyBreaks cs with
  | case1 => rfl
  | case2 cs ih => simpa using ih
  | case3 cs _ ih => simpa using ih
  | case4 c cs _ _ ih => rw [List.count_cons, List.count_cons, ih]

namespace Name

theorem sum_colons_tokens_le (name : String) :
    ((tokens name).map (colons ·.spaced)).sum ≤ colons name := by
  have hscan := Token.sum_colons_scan_le .counted none 1 (Text.unifyBreaks name.toList)
  rw [Text.count_colon_unifyBreaks] at hscan
  exact ((List.filter_sublist.map _).sum_le_sum fun _ _ => Nat.zero_le _).trans hscan

theorem colons_spell_le (ts : List Token) : colons (spell ts) ≤ (ts.map (colons ·.spaced)).sum := by
  cases ts with
  | nil => exact Nat.le_refl 0
  | cons t ts =>
      rw [spell, colons_append, colons_join, List.map_map, List.map_cons, List.sum_cons]
      exact Nat.add_le_add_right (by simp [Token.spaced]) _

/-- The words of a name and what follows them are tokens of it, in order. -/
theorem parts_sublist (ts : List Token) : ((parts ts).words ++ (parts ts).rest).Sublist ts := by
  induction ts with
  | nil => exact List.Sublist.refl _
  | cons t ts ih =>
      unfold parts
      split
      · exact ih.cons t
      · split
        · exact ih.cons_cons t
        · exact List.Sublist.refl _

/-- **Reading a name again adds no colons**, though it may make the name longer. -/
theorem colons_normalize_le (name : String) (unconst untemplate : Bool) :
    colons (normalize name unconst untemplate) ≤ colons name := by
  have htrim (s : String) : colons (Text.trim s) ≤ colons s := by
    obtain ⟨before, after, hs, -⟩ := Text.exists_trim s
    rw [colons, colons, hs, List.count_append, List.count_append]
    omega
  have hdrop (s : String) : colons (dropConst s) ≤ colons s := by
    unfold dropConst
    split
    next before after hcut =>
      obtain ⟨⟨b, a⟩, hchars, heq⟩ := Option.map_eq_some_iff.mp hcut
      cases heq
      have hs := ((Text.cutChars?_eq_some_iff (by simp)).mp hchars).1
      rw [colons, colons, hs, List.count_append, List.count_append, String.toList_ofList]
      omega
    · exact Nat.le_refl _
  have hkept {ts : List Token} (h : ts.Sublist (tokens name)) :
      (ts.map (colons ·.spaced)).sum ≤ colons name :=
    ((h.map _).sum_le_sum fun _ _ => Nat.zero_le _).trans (sum_colons_tokens_le name)
  have hparts := parts_sublist (tokens name)
  have hspelling : colons (spelling name (parts (tokens name)) untemplate) ≤ colons name := by
    have hmark : colons (if (parts (tokens name)).const then "const " else "") = 0 := by
      split <;> rfl
    unfold spelling
    simp only
    split
    · rw [colons_append, hmark, Nat.zero_add, colons_joinWith_space,
        ((sortWords_perm _).map _).sum_eq, List.map_map]
      refine Nat.le_trans (List.sum_le_sum fun t _ => ?_)
        (hkept ((List.sublist_append_left _ _).trans hparts))
      simp [Token.spaced]
    · split
      · split
        · rw [colons_append, hmark, Nat.zero_add]
          exact (colons_spell_le _).trans (hkept ((List.take_sublist _ _).trans hparts))
        · exact Nat.le_refl _
      · exact Nat.le_refl _
  unfold normalize
  split
  · exact Nat.zero_le _
  · refine (htrim _).trans ?_
    split
    · exact (hdrop _).trans hspelling
    · exact hspelling

end Name

/-! ## Outwards -/

namespace Scope

/-- The paths from a path outwards, until there is none around. -/
inductive Walk : String → List String → Prop
  | last {path : String} (h : outer? path = none) : Walk path [path]
  | step {path around : String} {paths : List String} (h : outer? path = some around)
      (more : Walk around paths) : Walk path (path :: paths)

variable {path around : String}

/-- More than the number of scopes around a path can be. -/
def bound (path : String) : Nat :=
  if path = "" then 0 else colons path + 1

theorem bound_lt_of_outer? (h : outer? path = some around) : bound around < bound path := by
  have hle := Name.colons_normalize_le path false true
  have hpath : path ≠ "" := by
    rintro rfl
    have hplain : outer? "" = none := by decide +kernel
    rw [hplain] at h
    cases h
  rw [bound, bound, if_neg hpath]
  simp only [outer?] at h
  split at h
  next before after hcut =>
    cases h
    have heq := ((Text.cutLast?_eq_some_iff (by simp)).mp hcut).eq
    have htwo : colons "::" = 2 := rfl
    rw [heq, colons_append, colons_append, htwo] at hle
    split <;> omega
  · split at h
    · cases h
    · cases h
      exact Nat.succ_pos _

theorem walk_enclosing_of_bound_lt {fuel : Nat} (h : bound path < fuel) :
    Walk path (enclosing fuel path) := by
  induction fuel generalizing path with
  | zero => exact absurd h (Nat.not_lt_zero _)
  | succ fuel ih =>
      rw [enclosing]
      split
      next around hstep =>
        have hless := bound_lt_of_outer? hstep
        exact .step hstep (ih (by omega))
      next hlast => exact .last hlast

/-- **The scopes around.** Every path has a last one around it, and all up to that are found. -/
theorem walk_enclosing (path : String) : Walk path (enclosing (2 * path.length + 4) path) := by
  refine walk_enclosing_of_bound_lt ?_
  have hle : colons path ≤ path.length := List.count_le_length
  unfold bound
  split <;> omega

end Scope

end HeaderPeers

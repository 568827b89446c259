import HeaderPeers.Proofs.Window.Basic
import Mathlib.Tactic.Common

/-!
# Searches and walks

The cursor moves one position at a time, but each position is preprocessed
first, and a macro may put more tokens there than it takes away. So neither a
single call nor a walk over all tokens need end.

- `Search` — the search of one call, a position at a time. A call returns just
  if its search ends (`seek_isSome_iff`), and that is if from some position on
  the tokens grow no longer (`ends_iff_settles`).
- `Reaches` — what a number of calls leads to. A walk gets to the end just if
  its calls return and from some call on the tokens grow no longer
  (`reaches_end_iff_settles`).
-/

namespace HeaderPeers.Window

/-- A position behind the last token has nothing to preprocess. -/
theorem visit_of_size_le (table : RuleTable) {tokens : Array Token} {i : Nat}
    (h : tokens.size ≤ i) : visit table tokens i = tokens := by
  have hnone : tokens[i]? = none := Array.getElem?_eq_none h
  simp [visit, resolveAt, opensAt, expandAt, hnone]

theorem take_resolveAt (table : RuleTable) (tokens : Array Token) (i : Nat) :
    (resolveAt table tokens i).toList.take i = tokens.toList.take i := by
  by_cases hi : tokens.size ≤ i
  · have hnone : tokens[i]? = none := Array.getElem?_eq_none hi
    simp [resolveAt, opensAt, hnone]
  · unfold resolveAt
    split
    · exact take_replaceTail (Nat.le_of_not_le hi) _
    · rfl

theorem take_expandAt (table : RuleTable) (tokens : Array Token) (i : Nat) :
    (expandAt table tokens i).toList.take i = tokens.toList.take i := by
  unfold expandAt
  split
  · rfl
  next t ht =>
    have hi : i ≤ tokens.size := Nat.le_of_lt (Array.getElem?_eq_some_iff.mp ht).1
    split
    · rfl
    · split
      · exact take_replaceTail hi _
      · rfl

/-- Preprocessing changes nothing before the position. -/
theorem take_visit (table : RuleTable) (tokens : Array Token) (i : Nat) :
    (visit table tokens i).toList.take i = tokens.toList.take i := by
  rw [visit, take_expandAt, take_resolveAt]

/-! ## The search of one call -/

/-- Where a search stands: a position, and the number of visible tokens that
are still to be passed. -/
structure Search where
  tokens : Array Token
  index : Nat
  count : Nat

namespace Search

/-- The search one position further; none if it ends here. -/
def advance (table : RuleTable) (s : Search) : Option Search :=
  if s.index < s.tokens.size then
    ((visit table s.tokens s.index)[s.index]?).bind fun t =>
      if t.isComment then some ⟨visit table s.tokens s.index, s.index + 1, s.count⟩
      else match s.count with
        | 0 => none
        | count + 1 => some ⟨visit table s.tokens s.index, s.index + 1, count⟩
  else none

/-- The search a number of positions further. -/
def after (table : RuleTable) : Nat → Search → Option Search
  | 0, s => some s
  | n + 1, s => (s.advance table).bind (after table n)

/-- From some position on, preprocessing makes the tokens no longer. -/
def Settles (table : RuleTable) (s : Search) : Prop :=
  ∃ n, ∀ m ≥ n, ∀ s₁ s₂, s.after table m = some s₁ → s₁.advance table = some s₂ →
    s₂.tokens.size ≤ s₁.tokens.size

/-- What one position changes. -/
theorem advance_eq_some {table : RuleTable} {s s' : Search}
    (h : s.advance table = some s') :
    s.index < s.tokens.size ∧ s'.tokens = visit table s.tokens s.index ∧
      s'.index = s.index + 1 ∧ s'.index ≤ s'.tokens.size := by
  by_cases hi : s.index < s.tokens.size
  · rw [advance, if_pos hi] at h
    obtain ⟨t, hvisit, ht⟩ := Option.bind_eq_some_iff.mp h
    obtain ⟨hleft, -⟩ := Array.getElem?_eq_some_iff.mp hvisit
    split at ht
    · cases ht
      exact ⟨hi, rfl, rfl, hleft⟩
    · split at ht
      · cases ht
      · cases ht
        exact ⟨hi, rfl, rfl, hleft⟩
  · rw [advance, if_neg hi] at h
    cases h

/-- Where a search ends there is nothing to pass, or no token left. -/
theorem count_eq_zero_or_of_advance_eq_none {table : RuleTable} {s : Search}
    (h : s.advance table = none) :
    s.count = 0 ∨ (visit table s.tokens s.index).size ≤ s.index := by
  by_cases hi : s.index < s.tokens.size
  · rw [advance, if_pos hi] at h
    cases ht : (visit table s.tokens s.index)[s.index]? with
    | none => exact Or.inr (Array.getElem?_eq_none_iff.mp ht)
    | some t =>
        rw [ht, Option.bind_some] at h
        split at h
        · cases h
        · split at h
          next hcount => exact Or.inl hcount
          · cases h
  · have hout := Nat.le_of_not_lt hi
    rw [visit_of_size_le table hout]
    exact Or.inr hout

/-- A call goes on with its search or ends where the search does. There the
position is preprocessed once more. -/
theorem seek_succ (table : RuleTable) (fuel : Nat) (s : Search) :
    seek table (fuel + 1) s.tokens s.index s.count =
      match s.advance table with
      | some s' => seek table fuel s'.tokens s'.index s'.count
      | none => some (visit table (visit table s.tokens s.index) s.index, s.index) := by
  by_cases hi : s.index < s.tokens.size
  · rw [advance, if_pos hi, seek, if_pos hi]
    simp only
    cases (visit table s.tokens s.index)[s.index]? with
    | none => rfl
    | some t =>
        simp only [Option.bind_some]
        by_cases ht : t.isComment = true
        · simp only [if_pos ht]
        · simp only [if_neg ht]
          cases s.count <;> rfl
  · have hout := visit_of_size_le table (Nat.le_of_not_lt hi)
    rw [advance, if_neg hi, seek, if_neg hi, hout, hout]

theorem seek_isSome_iff (table : RuleTable) (fuel : Nat) : ∀ s : Search,
    (seek table fuel s.tokens s.index s.count).isSome = true ↔
      s.after table fuel = none := by
  induction fuel with
  | zero => simp [seek, after]
  | succ fuel ih =>
      intro s
      rw [seek_succ, after]
      cases s.advance table with
      | none => simp
      | some s' => simpa using ih s'

theorem after_add (table : RuleTable) (n m : Nat) : ∀ s : Search,
    s.after table (n + m) = (s.after table n).bind (after table m) := by
  induction n with
  | zero =>
      intro s
      rw [Nat.zero_add, after, Option.bind_some]
  | succ n ih =>
      intro s
      rw [Nat.add_right_comm, after, after]
      cases s.advance table with
      | none => rfl
      | some s' => simpa using ih s'

/-- A search of which the tokens do not grow ends, since there are fewer and
fewer tokens before it. -/
theorem ends_of_steady {table : RuleTable} {s : Search}
    (h : ∀ m s₁ s₂, s.after table m = some s₁ → s₁.advance table = some s₂ →
      s₂.tokens.size ≤ s₁.tokens.size) :
    ∃ n, s.after table n = none := by
  induction hk : s.tokens.size - s.index using Nat.strongRecOn generalizing s with
  | ind k ih =>
      cases hs : s.advance table with
      | none => exact ⟨1, by simp [after, hs]⟩
      | some s' =>
          obtain ⟨hi, -, hindex, -⟩ := advance_eq_some hs
          have hsize := h 0 s s' rfl hs
          have hless : s'.tokens.size - s'.index < k := by omega
          have hlater : ∀ m, s.after table (m + 1) = s'.after table m := by
            intro m
            rw [after, hs, Option.bind_some]
          obtain ⟨n, hn⟩ := ih _ hless
            (fun m s₁ s₂ h₁ h₂ => h (m + 1) s₁ s₂ (hlater m ▸ h₁) h₂) rfl
          exact ⟨n + 1, (hlater n).trans hn⟩

/-- **When a search ends.** -/
theorem ends_iff_settles (table : RuleTable) (s : Search) :
    (∃ n, s.after table n = none) ↔ s.Settles table := by
  constructor
  · rintro ⟨n, hn⟩
    refine ⟨n, fun m hm s₁ s₂ h₁ _ => ?_⟩
    rw [← Nat.add_sub_cancel' hm, after_add, hn] at h₁
    cases h₁
  · rintro ⟨n, hn⟩
    cases hs : s.after table n with
    | none => exact ⟨n, hs⟩
    | some s' =>
        have hlater : ∀ m, s.after table (n + m) = s'.after table m := by
          intro m
          rw [after_add, hs, Option.bind_some]
        obtain ⟨k, hk⟩ := ends_of_steady (s := s') fun m s₁ s₂ h₁ h₂ =>
          hn (n + m) (Nat.le_add_right n m) s₁ s₂ ((hlater m).trans h₁) h₂
        exact ⟨n + k, (hlater k).trans hk⟩

end Search

theorem seek_isSome_iff_settles (table : RuleTable) (tokens : Array Token) (i count : Nat) :
    (∃ fuel, (seek table fuel tokens i count).isSome = true) ↔
      Search.Settles table ⟨tokens, i, count⟩ := by
  rw [← Search.ends_iff_settles]
  exact exists_congr fun fuel => Search.seek_isSome_iff table fuel ⟨tokens, i, count⟩

/-! ## Walks -/

/-- One call moves the cursor from `w` to `w'`. -/
def Moves (table : RuleTable) (w w' : Window) : Prop :=
  ∃ fuel t, w.next fuel table = some (t, w')

/-- A number of calls moves the cursor from `w` to `w'`. -/
def Reaches (table : RuleTable) : Nat → Window → Window → Prop
  | 0, w, w' => w = w'
  | n + 1, w, w' => ∃ v, Moves table w v ∧ Reaches table n v w'

/-- The cursor stands behind the last token. -/
def AtEnd (w : Window) : Prop :=
  w.tokens.size ≤ w.index

/-- Every call on the way returns, and from some call on the tokens do not
grow. -/
structure WalkSettles (table : RuleTable) (w : Window) : Prop where
  calls : ∀ n w₁, Reaches table n w w₁ → Search.Settles table ⟨w₁.tokens, w₁.index, 1⟩
  lengths : ∃ n, ∀ m ≥ n, ∀ w₁ w₂, Reaches table m w w₁ → Moves table w₁ w₂ →
    w₂.tokens.size ≤ w₁.tokens.size

theorem next_eq {w : Window} (hw : w.raw = false) (fuel : Nat) (table : RuleTable) :
    w.next fuel table = (seek table fuel w.tokens w.index 1).map fun r =>
      (tokenAt r.1 r.2, { tokens := r.1, index := r.2 }) := by
  simp [next, position, hw, Function.comp_def]

theorem moves_iff {table : RuleTable} {w w' : Window} (hw : w.raw = false) :
    Moves table w w' ↔ w'.raw = false ∧
      ∃ fuel, seek table fuel w.tokens w.index 1 = some (w'.tokens, w'.index) := by
  obtain ⟨tokens', index', raw'⟩ := w'
  simp only [Moves, next_eq hw, Option.map_eq_some_iff, Prod.mk.injEq, Window.mk.injEq]
  constructor
  · rintro ⟨fuel, t, r, hr, -, rfl, rfl, rfl⟩
    exact ⟨rfl, fuel, hr⟩
  · rintro ⟨rfl, fuel, hr⟩
    exact ⟨fuel, _, _, hr, rfl, rfl, rfl, rfl⟩

/-- More steps do not change what was found. -/
theorem seek_add (table : RuleTable) {r : Array Token × Nat} (more fuel : Nat) :
    ∀ s : Search, seek table fuel s.tokens s.index s.count = some r →
      seek table (fuel + more) s.tokens s.index s.count = some r := by
  induction fuel with
  | zero =>
      intro s h
      cases h
  | succ fuel ih =>
      intro s h
      rw [Nat.add_right_comm]
      rw [Search.seek_succ] at h ⊢
      cases hs : s.advance table with
      | none => simpa [hs] using h
      | some s' =>
          simp only [hs] at h ⊢
          exact ih s' h

theorem moves_unique {table : RuleTable} {w w₁ w₂ : Window} (hw : w.raw = false)
    (h₁ : Moves table w w₁) (h₂ : Moves table w w₂) : w₁ = w₂ := by
  obtain ⟨hr₁, fuel₁, hs₁⟩ := (moves_iff hw).mp h₁
  obtain ⟨hr₂, fuel₂, hs₂⟩ := (moves_iff hw).mp h₂
  have hmore₁ := seek_add table fuel₂ fuel₁ ⟨w.tokens, w.index, 1⟩ hs₁
  have hmore₂ := seek_add table fuel₁ fuel₂ ⟨w.tokens, w.index, 1⟩ hs₂
  rw [Nat.add_comm] at hmore₂
  have heq := Option.some.inj (hmore₁.symm.trans hmore₂)
  obtain ⟨tokens₁, index₁, raw₁⟩ := w₁
  obtain ⟨tokens₂, index₂, raw₂⟩ := w₂
  cases heq
  cases hr₁
  cases hr₂
  rfl

/-- A search never goes back. If it stays where it is, there is nothing to pass
or no token left. -/
theorem index_le_of_seek (table : RuleTable) {tokens' : Array Token} {j : Nat} (fuel : Nat) :
    ∀ s : Search, seek table fuel s.tokens s.index s.count = some (tokens', j) →
      s.index ≤ j ∧ (s.index = j → s.count = 0 ∨ tokens'.size ≤ j) := by
  induction fuel with
  | zero =>
      intro s h
      cases h
  | succ fuel ih =>
      intro s h
      rw [Search.seek_succ] at h
      cases hs : s.advance table with
      | some s' =>
          simp only [hs] at h
          obtain ⟨-, -, hindex, -⟩ := Search.advance_eq_some hs
          have hle := (ih s' h).1
          exact ⟨by omega, fun he => by omega⟩
      | none =>
          simp only [hs] at h
          cases h
          refine ⟨Nat.le_refl _, fun _ => ?_⟩
          refine (Search.count_eq_zero_or_of_advance_eq_none hs).imp_right fun hsize => ?_
          rwa [visit_of_size_le table hsize]

/-- A search changes nothing before the position it starts from. -/
theorem take_of_seek (table : RuleTable) {tokens' : Array Token} {j : Nat} (fuel : Nat) :
    ∀ s : Search, seek table fuel s.tokens s.index s.count = some (tokens', j) →
      tokens'.toList.take s.index = s.tokens.toList.take s.index := by
  induction fuel with
  | zero =>
      intro s h
      cases h
  | succ fuel ih =>
      intro s h
      rw [Search.seek_succ] at h
      cases hs : s.advance table with
      | some s' =>
          simp only [hs] at h
          obtain ⟨-, htokens, hindex, -⟩ := Search.advance_eq_some hs
          have hrest := congrArg (List.take s.index) (ih s' h)
          rw [List.take_take, List.take_take, hindex, htokens,
            Nat.min_eq_left (Nat.le_succ s.index)] at hrest
          rw [hrest, take_visit]
      | none =>
          simp only [hs] at h
          cases h
          rw [take_visit, take_visit]

theorem index_le_of_position {w w' : Window} {fuel i : Nat} {table : RuleTable} {offset : Int}
    (h : w.position fuel table offset = some (i, w')) (hoffset : 0 ≤ offset) : w.index ≤ i := by
  unfold position at h
  split at h
  · cases h
    omega
  · obtain ⟨r, hr, heq⟩ := Option.map_eq_some_iff.mp h
    cases heq
    exact (index_le_of_seek table fuel ⟨w.tokens, w.index, offset.toNat⟩ hr).1

theorem Moves.raw {table : RuleTable} {w w' : Window} (hw : w.raw = false)
    (h : Moves table w w') : w'.raw = false :=
  ((moves_iff hw).mp h).1

/-- A call passes a token unless it gets to the end. -/
theorem Moves.index_lt {table : RuleTable} {w w' : Window} (hw : w.raw = false)
    (h : Moves table w w') : w.index < w'.index ∨ AtEnd w' := by
  obtain ⟨-, fuel, hs⟩ := (moves_iff hw).mp h
  obtain ⟨hle, hstay⟩ := index_le_of_seek table fuel ⟨w.tokens, w.index, 1⟩ hs
  rcases Nat.lt_or_eq_of_le hle with hlt | heq
  · exact Or.inl hlt
  · rcases hstay heq with h1 | hend
    · cases h1
    · exact Or.inr hend

/-- At the end, a call changes nothing. -/
theorem moves_self_of_atEnd (table : RuleTable) {w : Window} (hw : w.raw = false)
    (h : AtEnd w) : Moves table w w := by
  refine (moves_iff hw).mpr ⟨hw, 1, ?_⟩
  rw [seek, if_neg (Nat.not_lt.mpr h), visit_of_size_le table h]

theorem exists_moves_iff (table : RuleTable) {w : Window} (hw : w.raw = false) :
    (∃ w', Moves table w w') ↔ Search.Settles table ⟨w.tokens, w.index, 1⟩ := by
  rw [← seek_isSome_iff_settles]
  constructor
  · rintro ⟨w', h⟩
    obtain ⟨-, fuel, hs⟩ := (moves_iff hw).mp h
    exact ⟨fuel, by rw [hs]; rfl⟩
  · rintro ⟨fuel, hs⟩
    obtain ⟨⟨tokens', j⟩, hr⟩ := Option.isSome_iff_exists.mp hs
    exact ⟨⟨tokens', j, false⟩, (moves_iff hw).mpr ⟨rfl, fuel, hr⟩⟩

theorem reaches_add {table : RuleTable} {w' : Window} (n m : Nat) : ∀ {w : Window},
    Reaches table (n + m) w w' ↔ ∃ v, Reaches table n w v ∧ Reaches table m v w' := by
  induction n with
  | zero => simp [Reaches]
  | succ n ih =>
      intro w
      rw [Nat.add_right_comm]
      constructor
      · rintro ⟨u, hu, hrest⟩
        obtain ⟨v, hv, hlast⟩ := ih.mp hrest
        exact ⟨v, ⟨u, hu, hv⟩, hlast⟩
      · rintro ⟨v, ⟨u, hu, hv⟩, hlast⟩
        exact ⟨u, hu, ih.mpr ⟨v, hv, hlast⟩⟩

theorem reaches_one {table : RuleTable} {w w' : Window} :
    Reaches table 1 w w' ↔ Moves table w w' := by
  simp [Reaches]

theorem Reaches.raw {table : RuleTable} {w' : Window} (n : Nat) :
    ∀ {w : Window}, w.raw = false → Reaches table n w w' → w'.raw = false := by
  induction n with
  | zero =>
      rintro w hw rfl
      exact hw
  | succ n ih =>
      rintro w hw ⟨v, hv, hrest⟩
      exact ih (hv.raw hw) hrest

theorem reaches_unique {table : RuleTable} {w₁ w₂ : Window} (n : Nat) :
    ∀ {w : Window}, w.raw = false → Reaches table n w w₁ → Reaches table n w w₂ → w₁ = w₂ := by
  induction n with
  | zero =>
      rintro w - rfl h
      exact h
  | succ n ih =>
      rintro w hw ⟨v₁, hv₁, h₁⟩ ⟨v₂, hv₂, h₂⟩
      obtain rfl := moves_unique hw hv₁ hv₂
      exact ih (hv₁.raw hw) h₁ h₂

theorem reaches_self_of_atEnd (table : RuleTable) {w : Window} (hw : w.raw = false)
    (h : AtEnd w) (n : Nat) : Reaches table n w w := by
  induction n with
  | zero => rfl
  | succ n ih => exact ⟨w, moves_self_of_atEnd table hw h, ih⟩

/-- Calls that return can be made any number of times. -/
theorem exists_reaches {table : RuleTable} {w : Window}
    (h : ∀ n w₁, Reaches table n w w₁ → ∃ w₂, Moves table w₁ w₂) (n : Nat) :
    ∃ w', Reaches table n w w' := by
  induction n with
  | zero => exact ⟨w, rfl⟩
  | succ n ih =>
      obtain ⟨v, hv⟩ := ih
      obtain ⟨w', hw'⟩ := h n v hv
      exact ⟨w', (reaches_add n 1).mpr ⟨v, hv, reaches_one.mpr hw'⟩⟩

/-- A walk of which the tokens do not grow gets to the end. -/
theorem reaches_end_of_steady {table : RuleTable} {w : Window} (hw : w.raw = false)
    (hcalls : ∀ n w₁, Reaches table n w w₁ → ∃ w₂, Moves table w₁ w₂)
    (hsteady : ∀ n w₁ w₂, Reaches table n w w₁ → Moves table w₁ w₂ →
      w₂.tokens.size ≤ w₁.tokens.size) :
    ∃ n w', Reaches table n w w' ∧ AtEnd w' := by
  induction hk : w.tokens.size - w.index using Nat.strongRecOn generalizing w with
  | ind k ih =>
      by_cases hend : AtEnd w
      · exact ⟨0, w, rfl, hend⟩
      obtain ⟨v, hv⟩ := hcalls 0 w rfl
      rcases hv.index_lt hw with hindex | hend'
      · have hsize := hsteady 0 w v rfl hv
        have hlt : w.index < w.tokens.size := Nat.lt_of_not_le hend
        have hless : v.tokens.size - v.index < k := by omega
        obtain ⟨n, w', hreach, hw'⟩ := ih _ hless (hv.raw hw)
          (fun n w₁ h₁ => hcalls (n + 1) w₁ ⟨v, hv, h₁⟩)
          (fun n w₁ w₂ h₁ h₂ => hsteady (n + 1) w₁ w₂ ⟨v, hv, h₁⟩ h₂) rfl
        exact ⟨n + 1, w', ⟨v, hv, hreach⟩, hw'⟩
      · exact ⟨1, v, reaches_one.mpr hv, hend'⟩

/-- **When a walk gets to the end.** -/
theorem reaches_end_iff_settles (table : RuleTable) {w : Window} (hw : w.raw = false) :
    (∃ n w', Reaches table n w w' ∧ AtEnd w') ↔ WalkSettles table w := by
  constructor
  · rintro ⟨n, w', hn, hend⟩
    have hw' := Reaches.raw n hw hn
    -- at the end the walk stands still, so it can be made as long as needed
    have hlong : ∀ m, Reaches table (n + m) w w' := fun m =>
      (reaches_add n m).mpr ⟨w', hn, reaches_self_of_atEnd table hw' hend m⟩
    refine ⟨fun k w₁ h₁ => ?_, n, fun m hm w₁ w₂ h₁ h₂ => ?_⟩
    · have hk := hlong (k + 1)
      rw [Nat.add_left_comm] at hk
      obtain ⟨v, hv, u, hu, -⟩ := (reaches_add k (n + 1)).mp hk
      obtain rfl := reaches_unique k hw hv h₁
      exact (exists_moves_iff table (Reaches.raw k hw hv)).mp ⟨u, hu⟩
    · have hm' := hlong (m - n)
      rw [Nat.add_sub_cancel' hm] at hm'
      obtain rfl := reaches_unique m hw h₁ hm'
      obtain rfl := moves_unique hw' h₂ (moves_self_of_atEnd table hw' hend)
      exact Nat.le_refl _
  · rintro ⟨hcalls, n, hn⟩
    have hmoves : ∀ n w₁, Reaches table n w w₁ → ∃ w₂, Moves table w₁ w₂ := fun n w₁ h₁ =>
      (exists_moves_iff table (Reaches.raw n hw h₁)).mpr (hcalls n w₁ h₁)
    obtain ⟨v, hv⟩ := exists_reaches hmoves n
    obtain ⟨m, w', hm, hend⟩ := reaches_end_of_steady (Reaches.raw n hw hv)
      (fun m w₁ h₁ => hmoves (n + m) w₁ ((reaches_add n m).mpr ⟨v, hv, h₁⟩))
      (fun m w₁ w₂ h₁ h₂ => hn (n + m) (Nat.le_add_right n m) w₁ w₂
        ((reaches_add n m).mpr ⟨v, hv, h₁⟩) h₂)
    exact ⟨n + m, w', (reaches_add n m).mpr ⟨v, hv, hm⟩, hend⟩

end HeaderPeers.Window

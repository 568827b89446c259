import HeaderPeers.Proofs.Window.Thinning

/-!
# Looking twice

A look preprocesses the positions it passes once and the one it finds twice, so a
macro that stands for a macro, and that for another, is not followed to the end,
and the next look goes on with it. Two looks agree just if the first has left
nothing to do.

- `Window.Settled` — nothing is left to preprocess between two positions.
- `Window.get_again_of_settled` — then the next look finds the same and changes
  nothing.
- `Window.visit_eq_or_below` — with ranked macros, whatever preprocessing changes
  does not come back.
- `Window.get_again_iff_settled` — both directions.
- `Window.second_look_goes_on` — three macros in a row.
- `Window.get_again_of_plain` — without macros all looks agree.
-/

namespace HeaderPeers.Window

variable {table : RuleTable} {rank : String → Nat} {tokens tokens' : Array Token} {i j k : Nat}

/-- Nothing is left to preprocess from position `i` through `j`, and there is no
comment in position `j`. -/
structure Settled (table : RuleTable) (tokens : Array Token) (i j : Nat) : Prop where
  steady : ∀ k, i ≤ k → k ≤ j → visit table tokens k = tokens
  stops : ¬ CommentAt tokens j

/-! ## The same search again -/

/-- **One step.** A position that was passed is passed again, with as many visible
tokens to go, if it needs no more preprocessing. -/
theorem advance_again {s s' : Search} (h : s.advance table = some s')
    (hkept : tokens[s.index]? = s'.tokens[s.index]?)
    (hsteady : visit table tokens s.index = tokens) :
    Search.advance table ⟨tokens, s.index, s.count⟩ = some ⟨tokens, s'.index, s'.count⟩ := by
  obtain ⟨hi, htokens, -, hleft⟩ := Search.advance_eq_some h
  rw [htokens] at hkept
  unfold Search.advance at h ⊢
  rw [if_pos hi] at h
  obtain ⟨t, ht, hnext⟩ := Option.bind_eq_some_iff.mp h
  rw [ht] at hkept
  rw [if_pos (Array.getElem?_eq_some_iff.mp hkept).1, hsteady, hkept, Option.bind_some]
  split at hnext
  next hcomment =>
    cases hnext
    simp [hcomment]
  next hcomment =>
    split at hnext
    · cases hnext
    next count hcount =>
      cases hnext
      simp [hcomment, hcount]

/-- Where a search ended it ends again, if nothing is left to do there. -/
theorem advance_eq_none_again {s : Search} (h : s.advance table = none)
    (hsettled : Settled table (visit table (visit table s.tokens s.index) s.index) s.index
      s.index) :
    Search.advance table
      ⟨visit table (visit table s.tokens s.index) s.index, s.index, s.count⟩ = none := by
  have hend := Search.count_eq_zero_or_of_advance_eq_none h
  generalize hvisit : visit table s.tokens s.index = once at hsettled hend ⊢
  have hsteady := hsettled.steady s.index (Nat.le_refl _) (Nat.le_refl _)
  unfold Search.advance
  split
  next hi =>
    rw [hsteady]
    cases ht : (visit table once s.index)[s.index]? with
    | none => rfl
    | some t =>
        have hcomment : t.isComment = false := by
          by_contra hcomment
          exact hsettled.stops (commentAt_iff.mpr ⟨t, ht, by simpa using hcomment⟩)
        have hcount : s.count = 0 := by
          refine hend.resolve_right fun hsize => ?_
          rw [visit_of_size_le table hsize] at hi
          exact absurd hi (Nat.not_lt.mpr hsize)
        simp [hcomment, hcount]
  · rfl

theorem seek_again {fuel : Nat} : ∀ {s : Search},
    seek table fuel s.tokens s.index s.count = some (tokens, j) →
      Settled table tokens s.index j →
      seek table fuel tokens s.index s.count = some (tokens, j) := by
  induction fuel with
  | zero => exact fun h => nomatch h
  | succ fuel ih =>
      intro s h hsettled
      rw [Search.seek_succ] at h
      rw [Search.seek_succ table fuel ⟨tokens, s.index, s.count⟩]
      cases hadvance : s.advance table with
      | some s' =>
          simp only [hadvance] at h
          obtain ⟨-, -, hindex, -⟩ := Search.advance_eq_some hadvance
          have hle := (index_le_of_seek table fuel s' h).1
          have hkept : tokens[s.index]? = s'.tokens[s.index]? :=
            getElem?_of_take_eq (take_of_seek table fuel s' h) (by omega)
          rw [advance_again hadvance hkept
            (hsettled.steady s.index (Nat.le_refl _) (by omega))]
          have hrest : Settled table tokens s'.index j :=
            ⟨fun k hk => hsettled.steady k (by omega), hsettled.stops⟩
          exact ih (s := s') h hrest
      | none =>
          simp only [hadvance] at h
          obtain ⟨rfl, rfl⟩ : visit table (visit table s.tokens s.index) s.index = tokens ∧
              s.index = j := by
            simpa using h
          have hsteady := hsettled.steady s.index (Nat.le_refl _) (Nat.le_refl _)
          rw [advance_eq_none_again hadvance hsettled, hsteady, hsteady]

/-! ## What does not come back -/

theorem Below.irrefl (ts : List Token) : ¬ Below table rank ts ts :=
  fun h => (@wellFounded_below table rank).irrefl.irrefl ts h

/-- The same tokens in front make no difference. -/
theorem Below.append_left {ts ts' : List Token} (h : Below table rank ts' ts)
    (before : List Token) : Below table rank (before ++ ts') (before ++ ts) := by
  unfold Below
  rw [ranks_append, ranks_append, List.length_append, List.length_append]
  rcases h with ⟨X, Y, Z, hZ, hY, hX, hlow⟩ | ⟨hranks, hlength⟩
  · exact Or.inl ⟨ranks table rank before + X, Y, Z, hZ, by rw [hY, add_assoc],
      by rw [hX, add_assoc], hlow⟩
  · exact Or.inr ⟨add_le_add_right hranks _, by omega⟩

theorem tail_eq_append (tokens : Array Token) (h : i ≤ k) :
    tail tokens i = (tokens.toList.take k).drop i ++ tail tokens k := by
  rw [tail_eq_drop, tail_eq_drop, List.drop_take, ← Nat.add_sub_of_le h, ← List.drop_drop,
    Nat.add_sub_cancel_left, List.take_append_drop]

/-- What falls behind a position falls behind those before it. -/
theorem Below.of_take_eq (hik : i ≤ k) (htake : tokens'.toList.take k = tokens.toList.take k)
    (h : Below table rank (tail tokens' k) (tail tokens k)) :
    Below table rank (tail tokens' i) (tail tokens i) := by
  rw [tail_eq_append tokens' hik, tail_eq_append tokens hik, htake]
  exact h.append_left _

/-- **One visit** changes nothing, or lets the tokens fall. -/
theorem visit_eq_or_below (hr : Ranked table rank) (hi : i ≤ tokens.size) :
    visit table tokens i = tokens ∨
      Below table rank (tail (visit table tokens i) i) (tail tokens i) := by
  obtain ⟨hi', hexpand⟩ := expandAt_atMost hr (resolveAt_le table rank hi).1
  by_cases hopens : opensAt tokens i = true
  · -- a group becomes shorter
    refine Or.inr (hexpand.trans_below ?_)
    obtain ⟨-, hranks, -⟩ := resolveAt_le table rank hi
    refine Or.inr ⟨hranks, ?_⟩
    obtain ⟨-, hgroup⟩ := opens_tail_of_opensAt hopens
    obtain ⟨mark, word, condition, rest, heq, hless⟩ :=
      @Conditional.exists_resolve_eq table _ hgroup
    rw [resolveAt, if_pos hopens, tail_replaceTail hi, heq, List.length_cons]
    omega
  · have hresolve : resolveAt table tokens i = tokens := if_neg hopens
    rw [visit, hresolve]
    unfold expandAt
    split
    · exact Or.inl rfl
    split
    · exact Or.inl rfl
    split
    next ts hts =>
      refine Or.inr ?_
      rw [tail_replaceTail hi]
      exact Or.inl (expand_below hr hts)
    · exact Or.inl rfl

/-- **A whole search** changes nothing on its way, or lets the tokens fall. -/
theorem seek_steady_or_below (hr : Ranked table rank) (fuel : Nat) : ∀ s : Search,
    s.index ≤ s.tokens.size → seek table fuel s.tokens s.index s.count = some (tokens', j) →
      tokens' = s.tokens ∧ (∀ k, s.index ≤ k → k ≤ j → visit table s.tokens k = s.tokens) ∨
        Below table rank (tail tokens' s.index) (tail s.tokens s.index) := by
  induction fuel with
  | zero => exact fun _ _ h => nomatch h
  | succ fuel ih =>
      intro s hi h
      rw [Search.seek_succ] at h
      cases hadvance : s.advance table with
      | some s' =>
          simp only [hadvance] at h
          obtain ⟨-, htokens, hindex, hi'⟩ := Search.advance_eq_some hadvance
          have hrest := ih s' hi' h
          rw [htokens, hindex] at hrest
          have htake := take_of_seek table fuel s' h
          rw [htokens, hindex] at htake
          rcases visit_eq_or_below hr hi with hsteady | hbelow
          · rw [hsteady] at hrest htake
            refine hrest.imp (fun ⟨heq, hsteadies⟩ => ⟨heq, fun k hk hkj => ?_⟩)
              (Below.of_take_eq (Nat.le_succ _) htake)
            rcases Nat.eq_or_lt_of_le hk with rfl | hlt
            · exact hsteady
            · exact hsteadies k hlt hkj
          · -- what has fallen does not rise again
            refine Or.inr ?_
            have hatMost : AtMost table rank (tail tokens' s.index)
                (tail (visit table s.tokens s.index) s.index) := by
              rcases hrest with ⟨rfl, -⟩ | hfallen
              · exact AtMost.refl _
              · exact (hfallen.of_take_eq (Nat.le_succ _) htake).atMost
            exact hatMost.trans_below hbelow
      | none =>
          simp only [hadvance] at h
          obtain ⟨rfl, rfl⟩ : visit table (visit table s.tokens s.index) s.index = tokens' ∧
              s.index = j := by
            simpa using h
          obtain ⟨hi', -⟩ := visit_atMost hr hi
          rcases visit_eq_or_below hr hi with hsteady | hbelow
          · rw [hsteady, hsteady]
            exact Or.inl ⟨rfl, fun k hk hkj => by rwa [Nat.le_antisymm hkj hk]⟩
          · obtain ⟨-, hagain⟩ := visit_atMost hr hi'
            exact Or.inr (hagain.trans_below hbelow)

/-! ## Where the second look ends -/

/-- A search that changes nothing does not end on a comment. -/
theorem not_commentAt_of_seek {fuel : Nat} : ∀ {s : Search},
    seek table fuel s.tokens s.index s.count = some (tokens', j) →
      (∀ k, s.index ≤ k → k ≤ j → visit table s.tokens k = s.tokens) →
      ¬ CommentAt s.tokens j := by
  induction fuel with
  | zero => exact fun h => nomatch h
  | succ fuel ih =>
      intro s h hsteady
      rw [Search.seek_succ] at h
      cases hadvance : s.advance table with
      | some s' =>
          simp only [hadvance] at h
          obtain ⟨-, htokens, hindex, -⟩ := Search.advance_eq_some hadvance
          have hle := (index_le_of_seek table fuel s' h).1
          rw [hsteady s.index (Nat.le_refl _) (by omega)] at htokens
          have hrest := ih (s := s') h fun k hk => htokens ▸ hsteady k (by omega)
          rwa [htokens] at hrest
      | none =>
          simp only [hadvance] at h
          obtain ⟨-, rfl⟩ : visit table (visit table s.tokens s.index) s.index = tokens' ∧
              s.index = j := by
            simpa using h
          intro hcomment
          obtain ⟨t, ht, htcomment⟩ := commentAt_iff.mp hcomment
          obtain ⟨hi, rfl⟩ := Array.getElem?_eq_some_iff.mp ht
          simp [Search.advance, hi, hsteady s.index (Nat.le_refl _) (Nat.le_refl _),
            htcomment] at hadvance

/-- A search over what another has left passes all that this one passed. -/
theorem index_le_of_seek_again {fuel fuel' : Nat} {after : Array Token} {j' : Nat} :
    ∀ {s : Search}, seek table fuel s.tokens s.index s.count = some (tokens, j) →
      seek table fuel' tokens s.index s.count = some (after, j') →
      (∀ k, s.index ≤ k → k ≤ j' → visit table tokens k = tokens) → j ≤ j' := by
  induction fuel generalizing fuel' with
  | zero => exact fun h => nomatch h
  | succ fuel ih =>
      intro s h h' hsteady
      rw [Search.seek_succ] at h
      cases fuel' with
      | zero => cases h'
      | succ fuel' =>
        have hle' := (index_le_of_seek table (fuel' + 1) ⟨tokens, s.index, s.count⟩ h').1
        rw [Search.seek_succ table fuel' ⟨tokens, s.index, s.count⟩] at h'
        cases hadvance : s.advance table with
        | some s' =>
            simp only [hadvance] at h
            obtain ⟨-, -, hindex, -⟩ := Search.advance_eq_some hadvance
            have hkept : tokens[s.index]? = s'.tokens[s.index]? :=
              getElem?_of_take_eq (take_of_seek table fuel s' h) (by omega)
            rw [advance_again hadvance hkept (hsteady s.index (Nat.le_refl _) hle')] at h'
            exact ih (s := s') h h' fun k hk => hsteady k (by omega)
        | none =>
            simp only [hadvance, Option.some.injEq, Prod.mk.injEq] at h
            exact h.2 ▸ hle'

/-! ## Two looks -/

theorem get_eq_of_position {w w' : Window} {fuel : Nat} {offset : Int}
    (h : w.position fuel table offset = some (i, w')) :
    w.get fuel table offset = some (tokenAt w'.tokens i, w') := by
  rw [get, h, Option.map_some]

/-- The search behind a look that returned. -/
theorem seek_of_position {w w' : Window} (hw : w.raw = false) {fuel : Nat} {offset : Int}
    (h : w.position fuel table offset = some (i, w')) :
    seek table fuel w.tokens w.index offset.toNat = some (w'.tokens, i) ∧
      w'.index = w.index ∧ w'.raw = false := by
  rw [position, hw, if_neg Bool.false_ne_true] at h
  obtain ⟨⟨tokens, j⟩, hseek, heq⟩ := Option.map_eq_some_iff.mp h
  cases heq
  exact ⟨hseek, rfl, rfl⟩

theorem position_of_seek {w w' : Window} (hw : w.raw = false) {fuel : Nat} {offset : Int}
    (h : seek table fuel w.tokens w.index offset.toNat = some (w'.tokens, i))
    (hindex : w'.index = w.index) (hraw : w'.raw = false) :
    w.position fuel table offset = some (i, w') := by
  obtain ⟨tokens, index, raw⟩ := w'
  simp only at h hindex hraw
  simp [position, hw, h, hindex, hraw]

/-- Where nothing is left to do, looking again finds the same token and leaves all
tokens as they are. -/
theorem get_again_of_settled {w w' : Window} (hw : w.raw = false) {fuel : Nat} {offset : Int}
    (h : w.position fuel table offset = some (i, w'))
    (hsettled : Settled table w'.tokens w.index i) :
    w'.get fuel table offset = w.get fuel table offset := by
  obtain ⟨hseek, hindex, hraw⟩ := seek_of_position hw h
  have hagain := seek_again (s := ⟨w.tokens, w.index, offset.toNat⟩) hseek hsettled
  rw [← hindex] at hagain
  rw [get_eq_of_position h, get_eq_of_position (position_of_seek hraw hagain rfl hraw)]

theorem isComment_tokenAt (tokens : Array Token) (i : Nat) :
    (tokenAt tokens i).isComment = true ↔ CommentAt tokens i := by
  have hface : (tokenAt tokens i).isComment = ((tokenAt tokens i).face.1 == .comment) := rfl
  rw [hface, face_tokenAt, commentAt_iff_face]
  cases tokens[i]?.map Token.face <;> simp

/-- With ranked macros, looks that agree have left nothing to do. -/
theorem settled_of_get_again (hr : Ranked table rank) {w w' : Window} (hw : w.raw = false)
    {fuel : Nat} {offset : Int} (h : w.position fuel table offset = some (i, w'))
    (hagain : w'.get fuel table offset = w.get fuel table offset) :
    Settled table w'.tokens w.index i := by
  obtain ⟨hseek, hindex, hraw⟩ := seek_of_position hw h
  rw [get_eq_of_position h] at hagain
  obtain ⟨⟨i', w''⟩, hposition, heq⟩ := Option.map_eq_some_iff.mp hagain
  obtain ⟨htoken, rfl⟩ : tokenAt w''.tokens i' = tokenAt w'.tokens i ∧ w'' = w' :=
    Prod.mk.inj heq
  obtain ⟨hseek', -, -⟩ := seek_of_position hraw hposition
  rw [hindex] at hseek'
  have hsteady : ∀ k, w.index ≤ k → k ≤ i' → visit table w''.tokens k = w''.tokens := by
    by_cases hi : w.index ≤ w''.tokens.size
    · rcases seek_steady_or_below hr fuel ⟨w''.tokens, w.index, offset.toNat⟩ hi hseek' with
        ⟨-, hsteady⟩ | hbelow
      · exact hsteady
      · exact absurd hbelow (Below.irrefl _)
    · exact fun k hk _ => visit_of_size_le table (by omega)
  have hstops : ¬ CommentAt w''.tokens i' :=
    not_commentAt_of_seek (s := ⟨w''.tokens, w.index, offset.toNat⟩) hseek' hsteady
  have hle : i ≤ i' :=
    index_le_of_seek_again (s := ⟨w.tokens, w.index, offset.toNat⟩) hseek hseek' hsteady
  refine ⟨fun k hk hki => hsteady k hk (hki.trans hle), ?_⟩
  rwa [← isComment_tokenAt, ← htoken, isComment_tokenAt]

/-- **Looking twice.** A look that has returned returns again, with the same token
and the same tokens all around, if nothing is left to preprocess from the cursor to
the token that was found. With ranked macros it does so only then. -/
theorem get_again_iff_settled {w w' : Window} (hw : w.raw = false) {fuel : Nat} {offset : Int}
    (h : w.position fuel table offset = some (i, w')) :
    (Settled table w'.tokens w.index i →
        w'.get fuel table offset = w.get fuel table offset) ∧
      ((∃ rank, Ranked table rank) → w'.get fuel table offset = w.get fuel table offset →
        Settled table w'.tokens w.index i) := by
  refine ⟨get_again_of_settled hw h, ?_⟩
  rintro ⟨rank, hr⟩
  exact settled_of_get_again hr hw h

/-- What a look makes of `A y`, where `A` stands for `x x`. -/
def pairTokens : Array Token :=
  let word (text spacing : String) : Token :=
    { kind := .identifier, text, spacing, location := { line := 1 } }
  #[word "x" "", word "x" " ", word "y" " "]

/-- A macro that stands for no other. -/
theorem get_again_pair :
    let w : Window := .ofTokens (Token.ofText none "A y")
    let w' : Window := { tokens := pairTokens }
    w.position 3 pairTable 1 = some (1, w') ∧
      (∃ rank, Ranked pairTable rank) ∧ Settled pairTable pairTokens 0 1 ∧
      w'.get 3 pairTable 1 = w.get 3 pairTable 1 := by
  intro w w'
  have hseek : seek pairTable 3 w.tokens 0 1 = some (pairTokens, 1) := by
    decide +kernel
  have h : w.position 3 pairTable 1 = some (1, w') := position_of_seek rfl hseek rfl rfl
  have hsteady : ∀ k ≤ 1, visit pairTable pairTokens k = pairTokens := by
    decide +kernel
  have hsettled : Settled pairTable pairTokens 0 1 :=
    ⟨fun k _ hk => hsteady k hk, by unfold CommentAt; decide⟩
  obtain ⟨hagain, -⟩ := get_again_iff_settled rfl h
  exact ⟨h, ⟨_, ranked_pairTable⟩, hsettled, hagain hsettled⟩

/-- `A` stands for `B`, `B` for `C` and `C` for `D`. -/
def chainTable : RuleTable :=
  [("A", "#define A B"), ("B", "#define B C"), ("C", "#define C D")].foldl
    (fun table (name, text) => table.put { nativeNames := [name], nativeText := some text }) {}

/-- Each look follows two more macros. -/
theorem second_look_goes_on :
    let first := (Window.ofTokens (Token.ofText none "A")).get 2 chainTable 0
    first.map (·.1.text) = some "C" ∧
      (first.bind fun (_, w) => w.get 2 chainTable 0).map (·.1.text) = some "D" := by
  decide +kernel

/-- Without macros, whatever a look has passed stays as it is. -/
theorem opensAt_of_seek_of_plain (h : table.Plain) {fuel : Nat} : ∀ {s : Search},
    seek table fuel s.tokens s.index s.count = some (tokens, j) →
      ∀ k, s.index ≤ k → k ≤ j → opensAt tokens k = false := by
  induction fuel with
  | zero => exact fun h => nomatch h
  | succ fuel ih =>
      intro s hseek k hk hkj
      have hfaces := faces_self_of_seek h _ s hseek
      rw [Search.seek_succ] at hseek
      cases hadvance : s.advance table with
      | some s' =>
          simp only [hadvance] at hseek
          obtain ⟨-, htokens, hindex, -⟩ := Search.advance_eq_some hadvance
          rcases Nat.eq_or_lt_of_le hk with rfl | hlt
          · refine (thins_of_seek h fuel s' hseek).visited s.index (by omega) ?_
            rw [htokens]
            exact opensAt_visit_self h s.tokens s.index
          · exact ih (s := s') hseek k (by omega) hkj
      | none =>
          simp only [hadvance, Option.some.injEq, Prod.mk.injEq] at hseek
          obtain rfl : k = j := by omega
          exact hfaces.visited k (Nat.le_refl _) (Nat.le_refl _)

/-- **Without macros** all looks agree. -/
theorem get_again_of_plain (hplain : table.Plain) {w w' : Window} (hw : w.raw = false)
    {fuel : Nat} {offset : Int} (h : w.position fuel table offset = some (i, w')) :
    w'.get fuel table offset = w.get fuel table offset := by
  obtain ⟨hseek, -, -⟩ := seek_of_position hw h
  have hopens := opensAt_of_seek_of_plain hplain (s := ⟨w.tokens, w.index, offset.toNat⟩) hseek
  refine get_again_of_settled hw h ⟨fun k hk hki => ?_, ?_⟩
  · exact visit_of_not_opensAt hplain (hopens k hk hki)
  · exact (faces_self_of_seek hplain fuel ⟨w.tokens, w.index, offset.toNat⟩ hseek).stops

end HeaderPeers.Window

import HeaderPeers.Proofs.Window.Search
import Mathlib

/-!
# When preprocessing ends

A macro that leads back to itself can make the tokens grow for ever. If the
macros can be ranked, so that a body mentions lower ones only, they cannot:
each expansion takes one macro away and puts lower ones in its place, and a
multiset of ranks can fall only finitely often.

- `Ranked` — bodies mention lower macros only.
- `Below` — the tokens before the cursor fall in every step (`advance_below`).
- `returns_iff_settles` — in general, calls return and a walk gets to the end
  just if from some point on the tokens grow no longer; with ranked macros
  they always do.
-/

namespace HeaderPeers.Window

open Multiset (IsDershowitzMannaLT)

/-! ## Ranks -/

/-- Whether a token stands for the body of a definition. -/
def isMacro (table : RuleTable) (t : Token) : Bool :=
  (Expansion.ruleFor? table t).isSome

/-- No definition has parameters, and each body mentions macros of lower rank
only. -/
def Ranked (table : RuleTable) (rank : String → Nat) : Prop :=
  ∀ t rule text definition, Expansion.ruleFor? table t = some (rule, text) →
    Expansion.definition? t.location rule.nativeName text = some definition →
    definition.parameters = none ∧
      ∀ b ∈ Expansion.paste definition.body, isMacro table b = true → rank b.text < rank t.text

/-- The ranks of the macros among some tokens. -/
def ranks (table : RuleTable) (rank : String → Nat) (ts : List Token) : Multiset Nat :=
  ((ts.filter (isMacro table)).map fun t => rank t.text : List Nat)

section Order

variable (table : RuleTable) (rank : String → Nat)

/-- Some tokens come before others: their macros fall, or else there are no
more of them and fewer tokens. -/
def Below (ts' ts : List Token) : Prop :=
  IsDershowitzMannaLT (ranks table rank ts') (ranks table rank ts) ∨
    ranks table rank ts' ≤ ranks table rank ts ∧ ts'.length < ts.length

/-- Some tokens come before others or level with them. -/
def AtMost (ts' ts : List Token) : Prop :=
  IsDershowitzMannaLT (ranks table rank ts') (ranks table rank ts) ∨
    ranks table rank ts' ≤ ranks table rank ts ∧ ts'.length ≤ ts.length

end Order

variable {table : RuleTable} {rank : String → Nat}

/-- Fewer elements are smaller in the order. -/
theorem dershowitzMannaLT_of_lt {M N : Multiset Nat} (h : M < N) :
    IsDershowitzMannaLT M N := by
  obtain ⟨Z, rfl⟩ := Multiset.le_iff_exists_add.mp h.le
  refine ⟨M, 0, Z, ?_, (add_zero M).symm, rfl, by simp⟩
  rintro rfl
  exact h.ne (add_zero M).symm

theorem dershowitzMannaLT_of_le_of_lt {M N P : Multiset Nat} (h : M ≤ N)
    (h' : IsDershowitzMannaLT N P) : IsDershowitzMannaLT M P := by
  rcases h.lt_or_eq with hlt | rfl
  · exact (dershowitzMannaLT_of_lt hlt).trans h'
  · exact h'

theorem dershowitzMannaLT_of_lt_of_le {M N P : Multiset Nat}
    (h : IsDershowitzMannaLT M N) (h' : N ≤ P) : IsDershowitzMannaLT M P := by
  rcases h'.lt_or_eq with hlt | rfl
  · exact h.trans (dershowitzMannaLT_of_lt hlt)
  · exact h

theorem AtMost.trans_below {a b c : List Token} (h : AtMost table rank a b)
    (h' : Below table rank b c) : Below table rank a c := by
  rcases h with h | ⟨hm, hl⟩ <;> rcases h' with h' | ⟨hm', hl'⟩
  · exact Or.inl (h.trans h')
  · exact Or.inl (dershowitzMannaLT_of_lt_of_le h hm')
  · exact Or.inl (dershowitzMannaLT_of_le_of_lt hm h')
  · exact Or.inr ⟨hm.trans hm', by omega⟩

theorem Below.trans_atMost {a b c : List Token} (h : Below table rank a b)
    (h' : AtMost table rank b c) : Below table rank a c := by
  rcases h with h | ⟨hm, hl⟩ <;> rcases h' with h' | ⟨hm', hl'⟩
  · exact Or.inl (h.trans h')
  · exact Or.inl (dershowitzMannaLT_of_lt_of_le h hm')
  · exact Or.inl (dershowitzMannaLT_of_le_of_lt hm h')
  · exact Or.inr ⟨hm.trans hm', by omega⟩

theorem Below.atMost {a b : List Token} (h : Below table rank a b) :
    AtMost table rank a b :=
  h.imp_right fun ⟨hm, hl⟩ => ⟨hm, hl.le⟩

theorem AtMost.refl (a : List Token) : AtMost table rank a a :=
  Or.inr ⟨le_refl _, le_refl _⟩

theorem AtMost.trans {a b c : List Token} (h : AtMost table rank a b)
    (h' : AtMost table rank b c) : AtMost table rank a c := by
  rcases h' with h' | ⟨hm', hl'⟩
  · exact (h.trans_below (Or.inl h')).atMost
  · rcases h with h | ⟨hm, hl⟩
    · exact Or.inl (dershowitzMannaLT_of_lt_of_le h hm')
    · exact Or.inr ⟨hm.trans hm', hl.trans hl'⟩

/-- Tokens cannot fall for ever. -/
theorem wellFounded_below : WellFounded (Below table rank) := by
  have hlex : WellFounded (Prod.Lex (@IsDershowitzMannaLT Nat _) (· < · : Nat → Nat → Prop)) :=
    WellFounded.prod_lex Multiset.wellFounded_isDershowitzMannaLT Nat.lt_wfRel.wf
  refine Subrelation.wf (fun {a b} h => ?_)
    (InvImage.wf (fun ts : List Token => (ranks table rank ts, ts.length)) hlex)
  rcases h with h | ⟨hm, hl⟩
  · exact Prod.Lex.left _ _ h
  · rcases hm.lt_or_eq with hlt | heq
    · exact Prod.Lex.left _ _ (dershowitzMannaLT_of_lt hlt)
    · simp only [InvImage, heq]
      exact Prod.Lex.right _ hl

/-! ## One visit -/

theorem ranks_append (xs ys : List Token) :
    ranks table rank (xs ++ ys) = ranks table rank xs + ranks table rank ys := by
  simp [ranks]

theorem ranks_cons (t : Token) (ts : List Token) :
    ranks table rank (t :: ts) = ranks table rank [t] + ranks table rank ts :=
  ranks_append [t] ts

theorem ranks_singleton_of_isMacro {t : Token} (h : isMacro table t = true) :
    ranks table rank [t] = {rank t.text} := by
  simp [ranks, h]

theorem ranks_of_not_isMacro {t : Token} (h : isMacro table t = false) :
    ranks table rank [t] = 0 := by
  simp [ranks, h]

theorem mem_ranks {ts : List Token} {n : Nat} :
    n ∈ ranks table rank ts ↔ ∃ t ∈ ts, isMacro table t = true ∧ rank t.text = n := by
  simp [ranks, and_assoc]

theorem not_isMacro_remark (mark word : Token) (condition : List Token) :
    isMacro table (Conditional.remark mark word condition) = false := by
  simp [isMacro, Expansion.ruleFor?, Conditional.remark, Token.isWord]

theorem ranks_tail_le (t : Token) (ts : List Token) :
    ranks table rank ts ≤ ranks table rank (t :: ts) := by
  rw [ranks_cons]
  exact Multiset.le_add_left _ _

theorem ranks_splitCondition_le (word : Token) (ts : List Token) :
    ranks table rank (Conditional.splitCondition word ts).2 ≤ ranks table rank ts := by
  unfold Conditional.splitCondition
  split
  · exact (((List.dropWhile_sublist _).filter _).map _).subperm
  · exact le_refl _

/-- Resolving leaves out tokens and puts comments in place of directives. -/
theorem resolveFrom_le (b : Conditional.Branch) (ts : List Token) :
    ranks table rank (Conditional.resolveFrom table b ts) ≤ ranks table rank ts ∧
      (Conditional.resolveFrom table b ts).length ≤ ts.length := by
  fun_induction Conditional.resolveFrom table b ts with
  | case1 => simp
  | case2 => simp
  | case3 b t _ => exact ⟨ranks_tail_le t [], Nat.zero_le _⟩
  | case4 b mark word ts inner depth _ split next ih =>
      -- the directive becomes one comment, and its condition goes
      have hbehind : ∀ us : List Token, ranks table rank us ≤ ranks table rank split.2 →
          us.length ≤ split.2.length →
          ranks table rank (Conditional.remark mark word split.1 :: us) ≤
              ranks table rank (mark :: word :: ts) ∧
            (Conditional.remark mark word split.1 :: us).length ≤
              (mark :: word :: ts).length := by
        intro us hranks hlength
        have hcut : split.2.length ≤ ts.length := Conditional.length_splitCondition_le word ts
        refine ⟨?_, by simp only [List.length_cons]; omega⟩
        rw [ranks_cons, ranks_of_not_isMacro (not_isMacro_remark _ _ _), zero_add]
        exact (hranks.trans (ranks_splitCondition_le word ts)).trans
          ((ranks_tail_le word ts).trans (ranks_tail_le mark _))
      split
      · exact hbehind _ (le_refl _) (le_refl _)
      · exact hbehind _ ih.1 ih.2
  | case5 b mark word ts inner depth _ rest _ ih =>
      refine ⟨?_, Nat.succ_le_succ ih.2⟩
      rw [ranks_cons mark rest, ranks_cons mark (word :: ts)]
      exact add_le_add_right ih.1 _
  | case6 b mark word ts inner depth _ rest _ ih =>
      exact ⟨ih.1.trans (ranks_tail_le mark _), Nat.le_succ_of_le ih.2⟩

theorem ranks_respace (spacing : String) (ts : List Token) :
    ranks table rank (Expansion.respace spacing ts) = ranks table rank ts := by
  cases ts with
  | nil => rfl
  | cons t ts =>
      have hmacro : isMacro table { t with spacing } = isMacro table t := rfl
      rw [Expansion.respace, ranks_cons, ranks_cons t ts]
      simp [ranks, List.filter_cons, hmacro]
      split <;> rfl

/-- An expansion puts macros of lower rank in place of one. -/
theorem expand_below (hr : Ranked table rank) {ts ts' : List Token}
    (h : Expansion.expand? table ts = some ts') :
    IsDershowitzMannaLT (ranks table rank ts') (ranks table rank ts) := by
  cases ts with
  | nil => cases h
  | cons t ts =>
      simp only [Expansion.expand?, Option.bind_eq_some_iff] at h
      obtain ⟨⟨rule, text⟩, hrule, definition, hdef, h⟩ := h
      obtain ⟨hnone, hlow⟩ := hr t rule text definition hrule hdef
      simp only [hnone, Option.some.injEq] at h
      have hmacro : isMacro table t = true := by simp [isMacro, hrule]
      rw [← h, Expansion.splice, ranks_respace, ranks_append, ranks_cons t ts,
        ranks_singleton_of_isMacro hmacro]
      refine ⟨ranks table rank ts, _, {rank t.text}, Multiset.singleton_ne_zero _,
        add_comm _ _, add_comm _ _, fun n hn => ⟨_, Multiset.mem_singleton_self _, ?_⟩⟩
      obtain ⟨b, hb, hbm, rfl⟩ := mem_ranks.mp hn
      split at hb
      · cases hb
      · exact hlow b hb hbm

theorem resolveAt_le (table : RuleTable) (rank : String → Nat) {tokens : Array Token} {i : Nat}
    (h : i ≤ tokens.size) :
    i ≤ (resolveAt table tokens i).size ∧
      ranks table rank (tail (resolveAt table tokens i) i) ≤ ranks table rank (tail tokens i) ∧
      (tail (resolveAt table tokens i) i).length ≤ (tail tokens i).length := by
  unfold resolveAt
  split
  · rw [size_replaceTail h, tail_replaceTail h]
    exact ⟨Nat.le_add_right _ _, resolveFrom_le {} _⟩
  · exact ⟨h, le_refl _, le_refl _⟩

theorem expandAt_atMost (hr : Ranked table rank) {tokens : Array Token} {i : Nat}
    (h : i ≤ tokens.size) :
    i ≤ (expandAt table tokens i).size ∧
      AtMost table rank (tail (expandAt table tokens i) i) (tail tokens i) := by
  have hsame : i ≤ tokens.size ∧ AtMost table rank (tail tokens i) (tail tokens i) :=
    ⟨h, AtMost.refl _⟩
  unfold expandAt
  split
  · exact hsame
  · split
    · exact hsame
    · split
      next ts hexpand =>
        rw [size_replaceTail h, tail_replaceTail h]
        exact ⟨Nat.le_add_right _ _, Or.inl (expand_below hr hexpand)⟩
      · exact hsame

/-- **One visit** lets the tokens before the cursor fall or stay level. -/
theorem visit_atMost (hr : Ranked table rank) {tokens : Array Token} {i : Nat}
    (h : i ≤ tokens.size) :
    i ≤ (visit table tokens i).size ∧
      AtMost table rank (tail (visit table tokens i) i) (tail tokens i) := by
  obtain ⟨hi, hresolve⟩ := resolveAt_le table rank h
  obtain ⟨hi', hexpand⟩ := expandAt_atMost hr hi
  exact ⟨hi', hexpand.trans (Or.inr hresolve)⟩

/-! ## Ranked macros -/

theorem tail_succ_below {tokens : Array Token} {i : Nat} (h : i < tokens.size) :
    Below table rank (tail tokens (i + 1)) (tail tokens i) := by
  refine Or.inr ⟨?_, by rw [length_tail, length_tail]; omega⟩
  rw [tail_eq_drop, tail_eq_drop, ← List.drop_drop]
  exact (((List.drop_sublist 1 _).filter _).map _).subperm

/-- **One step of a search** lets the tokens before the cursor fall. -/
theorem advance_below (hr : Ranked table rank) {s s' : Search}
    (h : s.advance table = some s') :
    Below table rank (tail s'.tokens s'.index) (tail s.tokens s.index) := by
  obtain ⟨hi, htokens, hindex, hleft⟩ := Search.advance_eq_some h
  obtain ⟨-, hvisit⟩ := visit_atMost hr hi.le
  rw [htokens, hindex] at hleft ⊢
  exact (tail_succ_below hleft).trans_atMost hvisit

theorem ends_of_ranked (hr : Ranked table rank) (s : Search) :
    ∃ n, s.after table n = none := by
  have hwf : WellFounded (Below table rank) := wellFounded_below
  induction hts : tail s.tokens s.index using hwf.induction generalizing s with
  | _ ts ih =>
      cases hs : s.advance table with
      | none => exact ⟨1, by simp [Search.after, hs]⟩
      | some s' =>
          obtain ⟨n, hn⟩ := ih _ (hts ▸ advance_below hr hs) s' rfl
          exact ⟨n + 1, by rw [Search.after, hs, Option.bind_some, hn]⟩

/-- What a call leaves before the cursor is at most what was there, and less
unless there was nothing to pass or no token is left. -/
theorem seek_atMost (hr : Ranked table rank) {tokens' : Array Token} {j : Nat} (fuel : Nat) :
    ∀ s : Search, s.index ≤ s.tokens.size →
      seek table fuel s.tokens s.index s.count = some (tokens', j) →
      AtMost table rank (tail tokens' j) (tail s.tokens s.index) ∧
        (s.count = 0 ∨ tokens'.size ≤ j ∨
          Below table rank (tail tokens' j) (tail s.tokens s.index)) := by
  induction fuel with
  | zero =>
      intro s _ h
      cases h
  | succ fuel ih =>
      intro s hi h
      rw [Search.seek_succ] at h
      cases hs : s.advance table with
      | some s' =>
          simp only [hs] at h
          obtain ⟨-, -, -, hi'⟩ := Search.advance_eq_some hs
          have hbelow := (ih s' hi' h).1.trans_below (advance_below hr hs)
          exact ⟨hbelow.atMost, Or.inr (Or.inr hbelow)⟩
      | none =>
          simp only [hs] at h
          cases h
          obtain ⟨hi', hvisit⟩ := visit_atMost hr hi
          obtain ⟨-, hagain⟩ := visit_atMost hr hi'
          refine ⟨hagain.trans hvisit, ?_⟩
          refine (Search.count_eq_zero_or_of_advance_eq_none hs).imp_right fun hsize => ?_
          rw [visit_of_size_le table hsize]
          exact Or.inl hsize

theorem reaches_end_of_ranked (hr : Ranked table rank) (w : Window) (hw : w.raw = false) :
    ∃ n w', Reaches table n w w' ∧ AtEnd w' := by
  have hwf : WellFounded (Below table rank) := wellFounded_below
  induction hts : tail w.tokens w.index using hwf.induction generalizing w with
  | _ ts ih =>
      by_cases hend : AtEnd w
      · exact ⟨0, w, rfl, hend⟩
      have hi : w.index ≤ w.tokens.size := Nat.le_of_not_le hend
      obtain ⟨v, hv⟩ := (exists_moves_iff table hw).mpr
        ((Search.ends_iff_settles table _).mp (ends_of_ranked hr _))
      obtain ⟨hv', fuel, hseek⟩ := (moves_iff hw).mp hv
      rcases (seek_atMost hr fuel ⟨w.tokens, w.index, 1⟩ hi hseek).2 with h1 | hend' | hbelow
      · cases h1
      · exact ⟨1, v, reaches_one.mpr hv, hend'⟩
      · obtain ⟨n, w', hn, hend'⟩ := ih _ (hts ▸ hbelow) v hv' rfl
        exact ⟨n + 1, w', ⟨v, hv, hn⟩, hend'⟩

/-- **Termination.** A call returns just if from some position of its search on
preprocessing makes the tokens no longer. A walk from any position gets to the
end just if each of its calls returns and from some call on the tokens grow no
longer. With ranked macros all that is so. -/
theorem returns_iff_settles (table : RuleTable) (tokens : Array Token) (index : Nat) :
    let w : Window := { tokens, index }
    (∀ offset : Int, (∃ fuel, (w.get fuel table offset).isSome = true) ↔
      Search.Settles table ⟨tokens, index, offset.toNat⟩) ∧
    ((∃ fuel, (w.next fuel table).isSome = true) ↔
      Search.Settles table ⟨tokens, index, 1⟩) ∧
    ((∃ n w', Reaches table n w w' ∧ AtEnd w') ↔ WalkSettles table w) ∧
    ((∃ rank, Ranked table rank) →
      (∀ count, Search.Settles table ⟨tokens, index, count⟩) ∧ WalkSettles table w) := by
  intro w
  refine ⟨fun offset => ?_, ?_, reaches_end_iff_settles table rfl, ?_⟩
  · rw [← seek_isSome_iff_settles]
    simp [w, get, position]
  · rw [← seek_isSome_iff_settles]
    simp [w, next, position]
  · rintro ⟨rank, hr⟩
    exact ⟨fun count => (Search.ends_iff_settles table _).mp (ends_of_ranked hr _),
      (reaches_end_iff_settles table rfl).mp (reaches_end_of_ranked hr w rfl)⟩

/-- `A` stands for `x x`. -/
def pairTable : RuleTable :=
  ({} : RuleTable).put { nativeNames := ["A"], nativeText := some "#define A x x" }

theorem hasKey_pairTable (key : String) : pairTable.hasKey key = (key == "A") := by
  have hlists : pairTable.top.lists =
      [("A", [⟨0, { nativeNames := ["A"], nativeText := some "#define A x x" }⟩])] := by
    decide +kernel
  have hunder : pairTable.under = [] := rfl
  rw [RuleTable.hasKey, RuleTable.layers, hunder]
  simp only [List.any_cons, List.any_nil, Layer.find?, hlists, List.lookup_cons,
    List.lookup_nil]
  cases key == "A" <;> rfl

theorem ranked_pairTable : Ranked pairTable fun _ => 0 := by
  intro t rule text definition hrule hdef
  have hfind : pairTable.find? "A" =
      some { nativeNames := ["A"], nativeText := some "#define A x x" } := by decide +kernel
  have hbody : Expansion.definition? t.location "A" "#define A x x" = some ⟨none,
      [{ kind := .identifier, text := "x", spacing := " ", location := t.location },
        { kind := .identifier, text := "x", spacing := " ", location := t.location }]⟩ := by
    cbv
  rw [Expansion.ruleFor?, hasKey_pairTable] at hrule
  split at hrule
  next hkey =>
    simp only [Bool.and_eq_true, beq_iff_eq] at hkey
    simp only [hkey.2, hfind, Option.bind_some, Option.map_some, Option.some.injEq,
      Prod.mk.injEq] at hrule
    obtain ⟨rfl, rfl⟩ := hrule
    obtain rfl := Option.some.inj (hbody.symm.trans hdef)
    simp [Expansion.paste, isMacro, Expansion.ruleFor?, hasKey_pairTable]
  · cases hrule

/-- The tokens of `A A` grow, and yet the walk over them ends. -/
theorem walkSettles_pair :
    Ranked pairTable (fun _ => 0) ∧
      WalkSettles pairTable { tokens := (Token.ofText none "A A").toArray } := by
  refine ⟨ranked_pairTable, ?_⟩
  obtain ⟨-, -, -, hranked⟩ :=
    returns_iff_settles pairTable (Token.ofText none "A A").toArray 0
  exact (hranked ⟨_, ranked_pairTable⟩).2

/-! ## A macro that leads back to itself -/

namespace SelfReference

/-- `A` stands for `x A`. -/
def selfTable : RuleTable :=
  ({} : RuleTable).put { nativeNames := ["A"], nativeText := some "#define A x A" }

/-- A word of the tokens of `x A`, behind the first. -/
def word (text : String) : Token :=
  { kind := .identifier, text, spacing := " ", location := { line := 1 } }

/-- The cursor on some `x`, with `A` behind it. -/
structure Stuck (w : Window) : Prop where
  raw : w.raw = false
  tokens : ∃ before x, w.tokens = (before ++ [x, word "A"]).toArray ∧
    w.index = before.length ∧ x.kind = .identifier ∧ x.text = "x"

theorem visit_self (before : List Token) :
    visit selfTable (before ++ [word "A"]).toArray before.length =
      (before ++ [word "x", word "A"]).toArray := by
  have hrule : (Expansion.ruleFor? selfTable (word "A")).isNone = false := by decide +kernel
  have hexpand : Expansion.expand? selfTable [word "A"] = some [word "x", word "A"] := by
    decide +kernel
  have hresolve : resolveAt selfTable (before ++ [word "A"]).toArray before.length =
      (before ++ [word "A"]).toArray := by
    simp [resolveAt, opensAt]
  rw [visit, hresolve, expandAt]
  simp [hrule, tail_append, hexpand, replaceTail_append]

theorem visit_other (before : List Token) {x : Token} (hx : x.text = "x") (next : Token)
    (rest : List Token) :
    visit selfTable (before ++ x :: next :: rest).toArray before.length =
      (before ++ x :: next :: rest).toArray := by
  have hkey : selfTable.hasKey "x" = false := by decide +kernel
  have hopens : opensAt (before ++ x :: next :: rest).toArray before.length = false := by
    rw [opensAt_append]
    simp [Conditional.opens, Token.is, hx]
  rw [visit, resolveAt, hopens, if_neg Bool.false_ne_true, expandAt]
  simp [Expansion.ruleFor?, hx, hkey]

theorem advance_other (before : List Token) {x : Token} (hkind : x.kind = .identifier)
    (hx : x.text = "x") (next : Token) :
    Search.advance selfTable ⟨(before ++ [x, next]).toArray, before.length, 1⟩ =
      some ⟨(before ++ [x, next]).toArray, before.length + 1, 0⟩ := by
  rw [Search.advance, if_pos (by simp), visit_other before hx next []]
  simp [Token.isComment, hkind]

theorem advance_self (before : List Token) :
    Search.advance selfTable ⟨(before ++ [word "A"]).toArray, before.length, 0⟩ = none := by
  rw [Search.advance, if_pos (by simp), visit_self]
  simp [word, Token.isComment]

/-- **One step.** The next call finds `x` again, and again `A` behind it. -/
theorem stuck_moves {w : Window} (h : Stuck w) : ∃ w', Moves selfTable w w' ∧ Stuck w' := by
  obtain ⟨hraw, before, x, htokens, hindex, hkind, htext⟩ := h
  refine ⟨⟨(before ++ [x] ++ [word "x", word "A"]).toArray, before.length + 1, false⟩,
    (moves_iff hraw).mpr ⟨rfl, 2, ?_⟩, rfl, before ++ [x], word "x", rfl, by simp, rfl, rfl⟩
  have hsplit : before ++ [x, word "A"] = before ++ [x] ++ [word "A"] := by simp
  have hlength : before.length + 1 = (before ++ [x]).length := by simp
  rw [htokens, hindex, Search.seek_succ _ _ ⟨_, _, _⟩, advance_other before hkind htext]
  simp only
  rw [hsplit, hlength, Search.seek_succ _ _ ⟨_, _, _⟩, advance_self]
  simp only [visit_self, visit_other (before ++ [x]) (show (word "x").text = "x" from rfl)]

theorem stuck_reaches {w' : Window} (n : Nat) :
    ∀ {w : Window}, Stuck w → Reaches selfTable n w w' → Stuck w' := by
  induction n with
  | zero =>
      rintro w hw rfl
      exact hw
  | succ n ih =>
      rintro w hw ⟨v, hv, hrest⟩
      obtain ⟨v', hv', hstuck⟩ := stuck_moves hw
      obtain rfl := moves_unique hw.raw hv hv'
      exact ih hstuck hrest

theorem Stuck.not_atEnd {w : Window} (h : Stuck w) : ¬ AtEnd w := by
  obtain ⟨-, before, x, htokens, hindex, -⟩ := h
  simp [AtEnd, htokens, hindex]

theorem stuck_start : Stuck (Window.ofTokens (Token.ofText none "x A")) := by
  refine ⟨rfl, [], { word "x" with spacing := "" }, ?_, rfl, rfl, rfl⟩
  have htokens : Token.ofText none "x A" = [{ word "x" with spacing := "" }, word "A"] := by
    decide +kernel
  rw [Window.ofTokens, htokens]
  rfl

/-- From `x A`, every call returns and none gets to the end. -/
theorem self_reference_never_ends :
    let start := Window.ofTokens (Token.ofText none "x A")
    (∀ n, ∃ w, Reaches selfTable n start w) ∧
      ∀ n w, Reaches selfTable n start w → ¬ AtEnd w := by
  intro start
  have hstuck : ∀ n w, Reaches selfTable n start w → Stuck w := fun n w =>
    stuck_reaches n stuck_start
  refine ⟨exists_reaches fun n w hw => ?_, fun n w hw => (hstuck n w hw).not_atEnd⟩
  obtain ⟨w', hw', -⟩ := stuck_moves (hstuck n w hw)
  exact ⟨w', hw'⟩

end SelfReference

end HeaderPeers.Window

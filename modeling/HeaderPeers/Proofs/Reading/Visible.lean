import HeaderPeers.Comment
import HeaderPeers.Proofs.Respelling
import HeaderPeers.Proofs.WholeInput

/-!
# Reading what is visible

Where no token starts a directive and none is a macro, nothing is preprocessed,
and what a step of reading makes of the tokens depends on the visible ones only.

- `Window.Sees` — the visible tokens from a position on; the last of them may be
  the end.
- `Reading.Sees` — the same of a state in which comments are not visible.
- `ReadM.Passes` — a step succeeds, moves the cursor to the token in front of
  which the given ones stand, and changes nothing else.
-/

namespace HeaderPeers

namespace Window

/-- These are the visible tokens from a position on, as far as they are given,
and nothing is preprocessed up to the last of them. -/
inductive Sees (table : RuleTable) (tokens : Array Token) : Nat → List Token → Prop where
  | nil (i : Nat) : Sees table tokens i []
  | comment {i : Nat} {c : Token} {ts : List Token} (here : tokens[i]? = some c)
      (hidden : c.isComment = true) (unmarked : c.is "#" = false)
      (behind : Sees table tokens (i + 1) ts) : Sees table tokens i ts
  | token {i : Nat} {t : Token} {ts : List Token} (here : tokens[i]? = some t)
      (visible : t.isComment = false) (still : visit table tokens i = tokens)
      (behind : Sees table tokens (i + 1) ts) : Sees table tokens i (t :: ts)
  | done {i : Nat} (here : tokens.size ≤ i) : Sees table tokens i [endToken tokens]

variable {table : RuleTable} {tokens : Array Token} {i j : Nat} {c t u : Token} {ts us : List Token}

theorem visit_of_comment (h : tokens[i]? = some c) (hidden : c.isComment = true)
    (unmarked : c.is "#" = false) : visit table tokens i = tokens := by
  have hkind : c.kind = .comment := by simpa [Token.isComment] using hidden
  have hopens : opensAt tokens i = false := by
    unfold opensAt
    rw [h]
    cases tokens[i + 1]? with
    | none => rfl
    | some word => simp [Conditional.opens, unmarked]
  simp [visit, resolveAt, hopens, expandAt, h, Expansion.ruleFor?, Token.isWord, hkind]

/-- There is a position for each visible token but the end. -/
theorem Sees.length_le (h : Sees table tokens i ts) (hi : i ≤ tokens.size) :
    ts.length ≤ tokens.size - i + 1 := by
  induction h with
  | nil i => exact Nat.zero_le _
  | comment here hidden unmarked behind ih =>
      obtain ⟨hlt, -⟩ := Array.getElem?_eq_some_iff.mp here
      have hrest := ih hlt
      omega
  | token here visible still behind ih =>
      obtain ⟨hlt, -⟩ := Array.getElem?_eq_some_iff.mp here
      have hrest := ih hlt
      rw [List.length_cons]
      omega
  | done here => simp

/-- Behind a prefix of what is seen there is nothing to know. -/
theorem Sees.of_append (h : Sees table tokens i (ts ++ us)) : Sees table tokens i ts := by
  generalize hall : ts ++ us = all at h
  induction h generalizing ts with
  | nil i =>
      obtain ⟨rfl, -⟩ := List.append_eq_nil_iff.mp hall
      exact .nil i
  | comment here hidden unmarked behind ih => exact .comment here hidden unmarked (ih hall)
  | token here visible still behind ih =>
      cases ts with
      | nil => exact .nil _
      | cons t' ts =>
          obtain ⟨rfl, hrest⟩ := List.cons.inj hall
          exact .token here visible still (ih hrest)
  | done here =>
      cases ts with
      | nil => exact .nil _
      | cons t' ts =>
          obtain ⟨rfl, hrest⟩ := List.cons.inj hall
          obtain ⟨rfl, -⟩ := List.append_eq_nil_iff.mp hrest
          exact .done here

/-- Comments in front make no difference to what is seen. -/
theorem Sees.of_comments (h : Sees table tokens i ts) (hij : i ≤ j)
    (hcomments : ∀ k, i ≤ k → k < j → CommentAt tokens k) : Sees table tokens j ts := by
  induction h with
  | nil i => exact .nil j
  | @comment i c ts here hidden unmarked behind ih =>
      rcases Nat.eq_or_lt_of_le hij with rfl | hlt
      · exact .comment here hidden unmarked behind
      · exact ih hlt fun k hk => hcomments k (Nat.le_of_succ_le hk)
  | @token i t ts here visible still behind ih =>
      rcases Nat.eq_or_lt_of_le hij with rfl | hlt
      · exact .token here visible still behind
      · have hidden := hcomments i (Nat.le_refl i) hlt
        simp [CommentAt, here, visible] at hidden
  | done here => exact .done (Nat.le_trans here hij)

/-- The search for the token with a number of visible ones before it. -/
theorem Sees.seek (h : Sees table tokens i ts) {n fuel : Nat} (ht : ts[n]? = some t)
    (hi : i ≤ tokens.size) (hfuel : tokens.size - i + 1 ≤ fuel) :
    ∃ j, i ≤ j ∧ j ≤ tokens.size ∧ Window.seek table fuel tokens i n = some (tokens, j) ∧
      tokenAt tokens j = t ∧ Sees table tokens j (ts.drop n) := by
  obtain ⟨fuel, rfl⟩ := Nat.exists_eq_add_one.mpr (Nat.lt_of_lt_of_le (Nat.succ_pos _) hfuel)
  induction h generalizing n fuel with
  | nil i => cases ht
  | @comment i c ts here hidden unmarked behind ih =>
      obtain ⟨hlt, -⟩ := Array.getElem?_eq_some_iff.mp here
      obtain ⟨fuel, rfl⟩ := Nat.exists_eq_add_one.mpr (show 0 < fuel by omega)
      obtain ⟨j, hij, hj, hseek, hat, hsees⟩ := ih ht hlt fuel (by omega)
      refine ⟨j, Nat.le_of_succ_le hij, hj, ?_, hat, hsees⟩
      rw [Window.seek]
      simp only [if_pos hlt, visit_of_comment here hidden unmarked, here, hidden, if_true]
      exact hseek
  | @token i t' ts here visible still behind ih =>
      obtain ⟨hlt, -⟩ := Array.getElem?_eq_some_iff.mp here
      cases n with
      | zero =>
          obtain rfl : t' = t := by simpa using ht
          refine ⟨i, Nat.le_refl i, hi, ?_, ?_, .token here visible still behind⟩
          · rw [Window.seek]
            simp only [if_pos hlt, still, here, visible]
            rfl
          · rw [tokenAt, here, Option.getD_some]
      | succ n =>
          obtain ⟨fuel, rfl⟩ := Nat.exists_eq_add_one.mpr (show 0 < fuel by omega)
          obtain ⟨j, hij, hj, hseek, hat, hsees⟩ := ih ht hlt fuel (by omega)
          refine ⟨j, Nat.le_of_succ_le hij, hj, ?_, hat, hsees⟩
          rw [Window.seek]
          simp only [if_pos hlt, still, here, visible]
          exact hseek
  | @done i here =>
      obtain rfl : n = 0 := by
        cases n with
        | zero => rfl
        | succ n => cases ht
      obtain rfl : endToken tokens = t := by simpa using ht
      refine ⟨i, Nat.le_refl i, hi, Reading.Before.seek_end here (by omega) 0, ?_, .done here⟩
      rw [tokenAt, Array.getElem?_eq_none here, Option.getD_none]

/-- Where nothing is preprocessed, what is seen are the tokens that are no comments, and the end:
by induction on the number of tokens from there on. -/
theorem sees_of_visits (hi : i ≤ tokens.size)
    (hvisit : ∀ k, i ≤ k → visit table tokens k = tokens)
    (hcomments : ∀ t ∈ tokens.toList.drop i, t.isComment = true → t.is "#" = false) :
    Sees table tokens i
      ((tokens.toList.drop i).filter (!·.isComment) ++ [endToken tokens]) := by
  induction hn : tokens.size - i generalizing i with
  | zero =>
      have hdrop : tokens.toList.drop i = [] := List.drop_eq_nil_of_le (by simp; omega)
      rw [hdrop]
      exact .done (by omega)
  | succ n ih =>
      have hlt : i < tokens.size := by omega
      have hdrop : tokens.toList.drop i = tokens[i] :: tokens.toList.drop (i + 1) := by
        simp [List.drop_eq_getElem_cons, hlt]
      rw [hdrop, List.forall_mem_cons] at hcomments
      have hrest := ih hlt (fun k hk => hvisit k (Nat.le_of_succ_le hk)) hcomments.2 (by omega)
      have here : tokens[i]? = some tokens[i] := Array.getElem?_eq_getElem hlt
      rw [hdrop]
      by_cases hcomment : tokens[i].isComment = true
      · rw [List.filter_cons_of_neg (by simp [hcomment])]
        exact .comment here hcomment (hcomments.1 hcomment) hrest
      · rw [List.filter_cons_of_pos (by simp [hcomment])]
        exact .token here (Bool.not_eq_true _ ▸ hcomment) (hvisit i (Nat.le_refl i)) hrest

/-- A look at a position changes nothing where neither a group opens nor a macro stands. -/
theorem visit_of_quiet (hopens : opensAt tokens i = false)
    (hrule : ∀ t, tokens[i]? = some t → Expansion.ruleFor? table t = none) :
    visit table tokens i = tokens := by
  cases h : tokens[i]? with
  | none => simp [visit, resolveAt, hopens, expandAt, h]
  | some t => simp [visit, resolveAt, hopens, expandAt, h, hrule t h]

theorem opens_of_unmarked (h : ∀ t ∈ ts.head?, t.is "#" = false) :
    Conditional.opens ts = false := by
  unfold Conditional.opens
  split
  · simp [h _ rfl]
  · rfl

theorem sees_of_still (hi : i ≤ tokens.size)
    (h : ∀ t ∈ tokens.toList.drop i, t.is "#" = false ∧ Expansion.ruleFor? table t = none) :
    Sees table tokens i
      ((tokens.toList.drop i).filter (!·.isComment) ++ [endToken tokens]) := by
  have hstill (k : Nat) (hk : i ≤ k) (t : Token) (ht : tokens[k]? = some t) :
      t.is "#" = false ∧ Expansion.ruleFor? table t = none := by
    refine h t (List.mem_iff_getElem?.mpr ⟨k - i, ?_⟩)
    rw [List.getElem?_drop, Nat.add_sub_cancel' hk, Array.getElem?_toList, ht]
  have hopens (k : Nat) (hk : i ≤ k) : opensAt tokens k = false := by
    rw [opensAt_eq_opens]
    refine opens_of_unmarked fun t ht => (hstill k hk t ?_).1
    rwa [List.head?_drop, Array.getElem?_toList] at ht
  exact sees_of_visits hi (fun k hk => visit_of_quiet (hopens k hk) fun t ht => (hstill k hk t ht).2)
    fun t ht _ => (h t ht).1

end Window

/-- These are the visible tokens from the cursor on, as far as they are given, and
nothing is preprocessed up to the last of them. -/
structure Reading.Sees (s : Reading) (ts : List Token) : Prop where
  cooked : s.window.raw = false
  fueled : 0 < s.fuel
  inside : s.window.index ≤ s.window.tokens.size
  ahead : Window.Sees s.table s.window.tokens s.window.index ts

namespace Reading.Sees

variable {s : Reading} {t u : Token} {ts us : List Token}

theorem of_append (h : s.Sees (ts ++ us)) : s.Sees ts :=
  ⟨h.cooked, h.fueled, h.inside, h.ahead.of_append⟩

/-- Loops have a turn for each visible token. -/
theorem length_le (h : s.Sees ts) : ts.length ≤ s.bound := by
  have hlength := h.ahead.length_le h.inside
  have hfuel := h.fueled
  have hsize : s.bound = s.fuel + s.window.tokens.size := rfl
  omega

theorem seek (h : s.Sees ts) {n : Nat} (ht : ts[n]? = some t) :
    ∃ j, Window.seek s.table s.bound s.window.tokens s.window.index n =
        some (s.window.tokens, j) ∧
      Window.tokenAt s.window.tokens j = t ∧ (s.atIndex j).Sees (ts.drop n) := by
  have hfuel : s.window.tokens.size - s.window.index + 1 ≤ s.bound := by
    have hfueled := h.fueled
    have hsize : s.bound = s.fuel + s.window.tokens.size := rfl
    omega
  obtain ⟨j, -, hj, hseek, hat, hsees⟩ := h.ahead.seek ht h.inside hfuel
  exact ⟨j, hseek, hat, h.cooked, h.fueled, hj, hsees⟩

end Reading.Sees

/-- **Tokens without comments, conditional groups and macros** are seen as they are. -/
theorem Reading.ofTokens_sees_of_opens {table : RuleTable} {ts : List Token}
    (hopens : ∀ us, us <:+ ts → Conditional.opens us = false)
    (h : ∀ t ∈ ts, t.isComment = false ∧ Expansion.ruleFor? table t = none) :
    (Reading.ofTokens table ts).Sees (ts ++ [Window.endToken ts.toArray]) := by
  have hvisit (i : Nat) : Window.visit table ts.toArray i = ts.toArray := by
    refine Window.visit_of_quiet ?_ fun t ht => ?_
    · rw [Window.opensAt_eq_opens]
      exact hopens _ (List.drop_suffix i ts)
    · rw [← Array.getElem?_toList] at ht
      exact (h t (List.mem_of_getElem? ht)).2
  have hcomments : ∀ t ∈ ts.toArray.toList.drop 0, t.isComment = true → t.is "#" = false := by
    intro t ht hcomment
    rw [(h t ht).1] at hcomment
    cases hcomment
  have hsees := Window.sees_of_visits (Nat.zero_le _) (fun i _ => hvisit i) hcomments
  have hfilter : ts.filter (!·.isComment) = ts :=
    List.filter_eq_self.mpr fun t ht => by simp [(h t ht).1]
  rw [List.drop_zero, hfilter] at hsees
  have hfuel : (Reading.ofTokens table ts).fuel = 1000000 + 1000 * ts.length := rfl
  exact ⟨rfl, by omega, Nat.zero_le _, hsees⟩

/-- Tokens without comments, directives and macros are seen as they are. -/
theorem Reading.ofTokens_sees {table : RuleTable} {ts : List Token}
    (h : ∀ t ∈ ts, t.isComment = false ∧ t.is "#" = false ∧ Expansion.ruleFor? table t = none) :
    (Reading.ofTokens table ts).Sees (ts ++ [Window.endToken ts.toArray]) := by
  refine ofTokens_sees_of_opens (fun us hsuffix => Window.opens_of_unmarked fun t ht => ?_)
    fun t ht => ⟨(h t ht).1, (h t ht).2.2⟩
  exact (h t (hsuffix.subset (List.mem_of_head? ht))).2.1

namespace ReadM

variable {α β σ : Type} {s : Reading} {t u : Token} {ts us : List Token}

/-- The step succeeds with such a result; it moves the cursor, so that these
tokens are seen from there, and changes nothing else. -/
def Passes (step : ReadM α) (s : Reading) (ts : List Token) (P : α → Prop) : Prop :=
  ∃ a j, step s = .ok a (s.atIndex j) ∧ (s.atIndex j).Sees ts ∧ P a

namespace Passes

variable {step : ReadM α} {next : α → ReadM β} {P Q : α → Prop} {R : β → Prop}

theorem imp (h : Passes step s ts P) (himp : ∀ a, P a → Q a) : Passes step s ts Q := by
  obtain ⟨a, j, hstep, hsees, ha⟩ := h
  exact ⟨a, j, hstep, hsees, himp a ha⟩

/-- A sequence goes on from where its first step gets. -/
theorem bind (h : Passes step s ts P)
    (hnext : ∀ a j, P a → (s.atIndex j).Sees ts → Passes (next a) (s.atIndex j) us R) :
    Passes (step >>= next) s us R := by
  obtain ⟨a, j, hstep, hsees, ha⟩ := h
  obtain ⟨b, k, hrest, hsees', hb⟩ := hnext a j ha hsees
  exact ⟨b, k, (bind_of_ok hstep next).trans hrest, hsees', hb⟩

/-- A first step with one result only. -/
theorem bind_eq {a : α} (h : Passes step s ts (· = a))
    (hnext : ∀ j, (s.atIndex j).Sees ts → Passes (next a) (s.atIndex j) us R) :
    Passes (step >>= next) s us R :=
  h.bind fun _ j ha hsees => ha ▸ hnext j hsees

end Passes

theorem passes_pure {a : α} {P : α → Prop} (h : s.Sees ts) (ha : P a) :
    Passes (pure a) s ts P :=
  ⟨a, s.window.index, rfl, h, ha⟩

/-- A step that only asks. -/
theorem passes_of_eq {step : ReadM α} {a : α} (h : step s = .ok a s) (hsees : s.Sees ts) :
    Passes step s ts (· = a) :=
  ⟨a, s.window.index, h, hsees, rfl⟩

theorem peekAt_of_sees (h : s.Sees ts) {n : Nat} (ht : ts[n]? = some t) :
    peekAt n s = .ok t s := by
  obtain ⟨j, hseek, hat, -⟩ := h.seek ht
  have hget : s.window.get s.bound s.table (n : Int) = some (t, s.window) := by
    simp only [Window.get, Window.position, h.cooked]
    simp only [Bool.false_eq_true, if_false, Int.toNat_natCast, hseek, Option.map_some, hat]
    rw [← h.cooked]
  simp only [peekAt, hget]

theorem peek_of_sees (h : s.Sees (t :: ts)) : peek s = .ok t s :=
  peekAt_of_sees h (n := 0) rfl

theorem peek_passes (h : s.Sees (t :: ts)) : Passes peek s (t :: ts) (· = t) :=
  passes_of_eq (peek_of_sees h) h

theorem peekAt_passes (h : s.Sees ts) {n : Nat} (ht : ts[n]? = some t) :
    Passes (peekAt n) s ts (· = t) :=
  passes_of_eq (peekAt_of_sees h ht) h

theorem peekAt_one_passes (h : s.Sees (t :: u :: ts)) :
    Passes (peekAt 1) s (t :: u :: ts) (· = u) :=
  peekAt_passes h (n := 1) rfl

theorem peekAt_two_passes {v : Token} (h : s.Sees (t :: u :: v :: ts)) :
    Passes (peekAt 2) s (t :: u :: v :: ts) (· = v) :=
  peekAt_passes h (n := 2) rfl

theorem advance_passes (h : s.Sees (t :: u :: ts)) : Passes advance s (u :: ts) (· = u) := by
  obtain ⟨j, hseek, hat, hsees⟩ := h.seek (n := 1) (t := u) rfl
  have hnext : s.window.next s.bound s.table = some (u, { s.window with index := j }) := by
    simp only [Window.next, Window.position, h.cooked]
    simp only [Bool.false_eq_true, if_false, Int.toNat_one, hseek, Option.map_some, hat]
  refine ⟨u, j, ?_, hsees, rfl⟩
  unfold advance
  rw [hnext]
  rfl

theorem advance_to (h : s.Sees (t :: ts)) (hts : ts.head? = some u) :
    Passes advance s ts (· = u) := by
  cases ts with
  | nil => cases hts
  | cons v ts =>
      obtain rfl := Option.some.inj hts
      exact advance_passes h

/-! ## Loops -/

section Loops

variable {turn : σ → ReadM (Turn σ β)} {a : σ} {n : Nat} {P : σ → Prop} {R : β → Prop}

theorem iterateUpTo_again
    (hturn : Passes (turn a) s ts fun r => ∃ a', r = .again a' ∧ P a')
    (hrest : ∀ a' j, P a' → (s.atIndex j).Sees ts →
      Passes (iterateUpTo turn n a') (s.atIndex j) us R) :
    Passes (iterateUpTo turn (n + 1) a) s us R := by
  refine hturn.bind ?_
  rintro _ j ⟨a', rfl, ha'⟩ hsees
  exact hrest a' j ha' hsees

theorem iterateUpTo_done (hturn : Passes (turn a) s us fun r => ∃ b, r = .done b ∧ R b) :
    Passes (iterateUpTo turn (n + 1) a) s us R := by
  refine hturn.bind ?_
  rintro _ j ⟨b, rfl, hb⟩ hsees
  exact passes_pure hsees hb

/-- A loop has as many turns as it needs, if these are no more than there are
visible tokens. -/
theorem iterate_passes (h : s.Sees ts)
    (hloop : ∀ n, ts.length ≤ n → Passes (iterateUpTo turn n a) s us R) :
    Passes (iterate a turn) s us R :=
  hloop s.bound h.length_le

/-- A loop that takes one token in each turn, up to a token where it may stop: by
induction on the tokens. -/
theorem iterateUpTo_tokens {turn : σ × Token → ReadM (Turn (σ × Token) β)}
    (step : σ → Token → σ) {stop : Token} {rest : List Token} :
    ∀ {ts : List Token} {s : Reading} {v : σ} {first : Token},
      (∀ t ∈ ts, ∀ v j u us, (s.atIndex j).Sees (t :: u :: us) →
        Passes (turn (v, t)) (s.atIndex j) (u :: us) (· = .again (step v t, u))) →
      (∀ j, (s.atIndex j).Sees (stop :: rest) →
        Passes (iterateUpTo turn n (ts.foldl step v, stop)) (s.atIndex j) us R) →
      s.Sees (ts ++ stop :: rest) → (ts ++ stop :: rest).head? = some first →
      Passes (iterateUpTo turn (ts.length + n) (v, first)) s us R := by
  intro ts
  induction ts with
  | nil =>
      intro s v first _ hstop h hfirst
      obtain rfl := Option.some.inj hfirst
      rw [List.length_nil, Nat.zero_add]
      exact hstop s.window.index h
  | cons t ts ih =>
      intro s v first hturn hstop h hfirst
      obtain rfl := Option.some.inj hfirst
      obtain ⟨u, us', hnext⟩ : ∃ u us', ts ++ stop :: rest = u :: us' := by
        cases ts with
        | nil => exact ⟨stop, rest, rfl⟩
        | cons u ts => exact ⟨u, ts ++ stop :: rest, rfl⟩
      rw [List.cons_append, hnext] at h
      have hfirstTurn := hturn t List.mem_cons_self v s.window.index u us' h
      rw [List.length_cons, Nat.add_right_comm]
      refine iterateUpTo_again (hfirstTurn.imp fun r hr => ⟨(step v t, u), hr, rfl⟩) ?_
      rintro _ j rfl hsees
      refine ih (fun t' ht' => ?_) ?_ (hnext ▸ hsees) (by rw [hnext]; rfl)
      · exact hturn t' (List.mem_cons_of_mem _ ht')
      · exact hstop

end Loops

/-- A nested step passes tokens if it does so at every depth. -/
theorem nest_passes {body : (α → ReadM β) → α → ReadM β} {a : α} {P : β → Prop}
    (h : s.Sees (t :: ts)) (hbody : ∀ n, Passes (body (nestUpTo body n) a) s us P) :
    Passes (nest body a) s us P := by
  obtain ⟨n, hn⟩ := Nat.exists_eq_add_one.mpr (Nat.lt_of_lt_of_le (Nat.succ_pos _) h.length_le)
  have hget : (get : ReadM Reading) s = .ok s s := rfl
  have hnest : nest body a s = body (nestUpTo body n) a s := by
    unfold nest
    rw [bind_of_ok hget, hn]
    rfl
  obtain ⟨b, j, hrun, hrest⟩ := hbody n
  exact ⟨b, j, hnest.trans hrun, hrest⟩

/-! ## Comments -/

/-- Taking the comments around the cursor moves it behind them. -/
theorem takeRun_passes (h : s.Sees ts) : Passes Comment.takeRun s ts fun _ => True := by
  obtain ⟨hstart, hbefore⟩ := Comment.comments_runStart s.window.tokens s.window.index
  generalize hfirst : Comment.runStart s.window.tokens s.window.index = start at hstart hbefore
  obtain ⟨hrun, hend⟩ := Comment.comments_runFrom s.window.tokens start
  generalize hcomments : Comment.runFrom s.window.tokens start = run at hrun hend
  have hinside : start + run.length ≤ s.window.tokens.size := by
    have hindex := h.inside
    by_contra hout
    have hlast := hrun (start + run.length - 1) (by omega) (by omega)
    rw [Window.CommentAt, Array.getElem?_eq_none (by omega)] at hlast
    cases hlast
  have hbehind : s.window.index ≤ start + run.length := by
    by_contra hlt
    exact hend (hbefore _ (Nat.le_add_right _ _) (Nat.lt_of_not_le hlt))
  have hsees : (s.atIndex (start + run.length)).Sees ts :=
    ⟨h.cooked, h.fueled, hinside, h.ahead.of_comments hbehind fun k hk hlt =>
      hrun k (Nat.le_trans hstart hk) hlt⟩
  refine ⟨run, start + run.length, ?_, hsees, trivial⟩
  rw [← hcomments, ← hfirst]
  rfl

theorem takeBefore_passes (h : s.Sees ts) : Passes Comment.takeBefore s ts fun _ => True :=
  (takeRun_passes h).bind fun _ _ _ hsees => passes_pure hsees trivial

theorem takeAfter_passes (h : s.Sees ts) : Passes Comment.takeAfter s ts fun _ => True :=
  (takeRun_passes h).bind fun _ _ _ hsees => passes_pure hsees trivial

/-- Without comments there are none around the cursor. -/
theorem takeRun_of_bare (h : ∀ t ∈ s.window.tokens, t.isComment = false) :
    Comment.takeRun s = .ok [] s := by
  have hat (i : Nat) : (s.window.tokens[i]?).any Token.isComment = false := by
    cases hget : s.window.tokens[i]? with
    | none => rfl
    | some t => exact h t (Array.mem_of_getElem? hget)
  have hstart (i : Nat) : Comment.runStart s.window.tokens i = i := by
    cases i with
    | zero => rfl
    | succ i => rw [Comment.runStart, hat i, if_neg (by simp)]
  have hrun (i : Nat) : Comment.runFrom s.window.tokens i = [] := by
    unfold Comment.runFrom
    split
    next hlt => rw [if_neg (by simp [h _ (Array.getElem_mem hlt)])]
    · rfl
  unfold Comment.takeRun
  change EStateM.Result.ok (Comment.runFrom _ (Comment.runStart _ _))
    (s.atIndex (Comment.runStart _ _ + (Comment.runFrom _ (Comment.runStart _ _)).length)) = _
  rw [hstart, hrun]
  rfl

theorem takeBefore_of_bare (h : ∀ t ∈ s.window.tokens, t.isComment = false) :
    Comment.takeBefore s = .ok "" s := by
  unfold Comment.takeBefore
  rw [bind_of_ok (takeRun_of_bare h)]
  rfl

theorem takeAfter_of_bare (h : ∀ t ∈ s.window.tokens, t.isComment = false) :
    Comment.takeAfter s = .ok "" s := by
  unfold Comment.takeAfter
  rw [bind_of_ok (takeRun_of_bare h)]
  rfl

/-! ## What is asked of a token -/

theorem expect_passes {texts : List String} (h : s.Sees ts) (ht : t.isAny texts = true) :
    Passes (expect t texts) s ts fun _ => True :=
  ⟨(), s.window.index, by rw [expect, if_pos ht]; rfl, h, trivial⟩

theorem expectWord_passes (h : s.Sees ts) (ht : t.isWord = true) :
    Passes (expectWord t) s ts fun _ => True :=
  ⟨(), s.window.index, by rw [expectWord, if_pos ht]; rfl, h, trivial⟩

end ReadM

end HeaderPeers

import HeaderPeers.Proofs.Function.Declarators
import HeaderPeers.Reading.Skip

/-!
# Reading what stands ahead

Comments are passed over where nothing else is visible, and a body or a list of
arguments is passed over with the comments in it. So where the cursor gets depends
on where the comments stand, which what is visible does not tell.

- `Reading.Faces` — all tokens from the cursor on.
- `Front`, `Fronts` — the first visible tokens of a text, and what stands behind them.
- `ReadM.Moves` — a step succeeds, moves the cursor in front of the given text, and
  changes nothing else.
- `Nested` — a text in which one pair of marks is balanced.
-/

namespace HeaderPeers

open ReadM

/-- The first visible token of a text, if it is read as it stands, and the text behind it. -/
inductive Front (table : RuleTable) : List Token → Token → List Token → Prop where
  | here {t : Token} {ts : List Token} (calm : t.Calm table) : Front table (t :: ts) t ts
  | behind {c t : Token} {ts us : List Token} (hidden : c.isComment = true)
      (unmarked : c.is "#" = false) (more : Front table ts t us) : Front table (c :: ts) t us

/-- The first visible tokens of a text, if they are read as they stand, and the text behind
them. -/
inductive Fronts (table : RuleTable) : List Token → List Token → List Token → Prop where
  | nil (ts : List Token) : Fronts table ts [] ts
  | cons {t : Token} {ts us vs ws : List Token} (first : Front table ts t us)
      (more : Fronts table us vs ws) : Fronts table ts (t :: vs) ws

/-- A text in which the two marks are balanced. -/
inductive Nested (opening closing : String) : List Token → Prop where
  | nil : Nested opening closing []
  | token {t : Token} {ts : List Token} (inside : t.isEof = false) (opens : t.is opening = false)
      (closes : t.is closing = false) (more : Nested opening closing ts) :
      Nested opening closing (t :: ts)
  | group {o c : Token} {ts us : List Token} (opens : o.IsMark opening)
      (inside : Nested opening closing ts) (closes : c.IsMark closing)
      (more : Nested opening closing us) : Nested opening closing (o :: (ts ++ c :: us))

/-- These are the tokens from the cursor on, and comments are not visible. -/
structure Reading.Faces (s : Reading) (ts : List Token) : Prop where
  cooked : s.window.raw = false
  fueled : 0 < s.fuel
  inside : s.window.index ≤ s.window.tokens.size
  ahead : s.window.tokens.toList.drop s.window.index = ts

variable {table : RuleTable} {tokens : Array Token} {s : Reading} {o c t u : Token}
  {ts us vs ws inner : List Token} {i : Nat}

/-! ## The text ahead -/

theorem Front.calm (h : Front table ts t us) : t.Calm table := by
  induction h with
  | here calm => exact calm
  | behind _ _ _ ih => exact ih

theorem Front.length_lt (h : Front table ts t us) : us.length < ts.length := by
  induction h with
  | here => simp
  | behind _ _ _ ih => exact Nat.lt_succ_of_lt ih

theorem Fronts.length_le (h : Fronts table ts vs us) : vs.length + us.length ≤ ts.length := by
  induction h with
  | nil ts => simp
  | cons first _ ih =>
      have hlt := first.length_lt
      rw [List.length_cons]
      omega

/-- A text has one first visible token. -/
theorem Front.unique (h : Front table ts t us) (h' : Front table ts u vs) : t = u ∧ us = vs := by
  induction h with
  | here calm =>
      cases h' with
      | here => exact ⟨rfl, rfl⟩
      | behind hidden _ _ => exact absurd calm.visible (by simp [hidden])
  | behind hidden _ _ ih =>
      cases h' with
      | here calm => exact absurd calm.visible (by simp [hidden])
      | behind _ _ more => exact ih more

/-- A visible token with nothing in front of it. -/
theorem Fronts.of_first (h : Fronts table (t :: ts) (t :: vs) us) :
    t.Calm table ∧ Fronts table ts vs us := by
  cases h with
  | cons first more =>
      have hcalm := first.calm
      cases first with
      | here => exact ⟨hcalm, more⟩
      | behind hidden => exact absurd hcalm.visible (by simp [hidden])

theorem Fronts.append (h : Fronts table ts vs us) (h' : Fronts table us ws inner) :
    Fronts table ts (vs ++ ws) inner := by
  induction h with
  | nil ts => exact h'
  | cons first _ ih => exact .cons first (ih h')

namespace Window

theorem getElem?_of_drop (h : tokens.toList.drop i = t :: ts) : tokens[i]? = some t := by
  have hhead := congrArg List.head? h
  rwa [List.head?_drop, List.head?_cons, Array.getElem?_toList] at hhead

theorem drop_succ (h : tokens.toList.drop i = t :: ts) : tokens.toList.drop (i + 1) = ts := by
  simpa [List.drop_drop] using congrArg List.tail h

theorem length_of_drop (h : tokens.toList.drop i = ts) : ts.length = tokens.size - i := by
  rw [← h, List.length_drop, Array.length_toList]

/-- The search for the first visible token, by induction on the comments in front of it. -/
theorem seek_front (h : Front table ts t us) (hahead : tokens.toList.drop i = ts) {fuel : Nat}
    (hfuel : ts.length ≤ fuel) :
    ∃ j, i ≤ j ∧ tokens.toList.drop j = t :: us ∧
      Window.seek table fuel tokens i 0 = some (tokens, j) ∧
      ∀ n, ∃ fuel', us.length + fuel = fuel' + ts.length ∧
        Window.seek table fuel tokens i (n + 1) = Window.seek table fuel' tokens (j + 1) n := by
  obtain ⟨fuel, rfl⟩ := Nat.exists_eq_add_one.mpr
    (Nat.lt_of_lt_of_le (Nat.lt_of_le_of_lt (Nat.zero_le _) h.length_lt) hfuel)
  induction h generalizing i fuel with
  | @here t ts calm =>
      have here := getElem?_of_drop hahead
      obtain ⟨hlt, -⟩ := Array.getElem?_eq_some_iff.mp here
      refine ⟨i, Nat.le_refl i, hahead, seek_of_calm here calm (by simp), fun n => ⟨fuel, ?_, ?_⟩⟩
      · rw [List.length_cons]
        omega
      · rw [Window.seek]
        simp only [if_pos hlt, visit_of_calm here calm, here, calm.visible]
        rfl
  | @behind c t ts us hidden unmarked more ih =>
      have here := getElem?_of_drop hahead
      obtain ⟨hlt, -⟩ := Array.getElem?_eq_some_iff.mp here
      rw [List.length_cons] at hfuel
      obtain ⟨fuel, rfl⟩ := Nat.exists_eq_add_one.mpr (show 0 < fuel by
        have := more.length_lt
        omega)
      obtain ⟨j, hij, hj, hfirst, hnext⟩ := ih (drop_succ hahead) fuel (by omega)
      have hstep (n : Nat) : Window.seek table (fuel + 1 + 1) tokens i n =
          Window.seek table (fuel + 1) tokens (i + 1) n := by
        rw [Window.seek]
        simp only [if_pos hlt, visit_of_comment here hidden unmarked, here, hidden, if_true]
      refine ⟨j, Nat.le_of_succ_le hij, hj, (hstep 0).trans hfirst, fun n => ?_⟩
      obtain ⟨fuel', hfuel', hseek⟩ := hnext n
      refine ⟨fuel', ?_, (hstep (n + 1)).trans hseek⟩
      rw [List.length_cons]
      omega

end Window

namespace Reading.Faces

theorem length_lt_bound (h : s.Faces ts) : ts.length < s.bound := by
  have hlength := Window.length_of_drop h.ahead
  have hfuel := h.fueled
  have hbound : s.bound = s.fuel + s.window.tokens.size := rfl
  omega

/-- The text ahead tells where the cursor is. -/
theorem index_eq (h : s.Faces ts) {j : Nat} (h' : (s.atIndex j).Faces ts) :
    s.window.index = j := by
  have hlength := Window.length_of_drop h.ahead
  have hlength' := Window.length_of_drop h'.ahead
  have hinside := h.inside
  have hinside' : j ≤ s.window.tokens.size := h'.inside
  change ts.length = s.window.tokens.size - j at hlength'
  omega

theorem append (h : s.Faces (us ++ ts)) : (s.atIndex (s.window.index + us.length)).Faces ts := by
  have hlength := Window.length_of_drop h.ahead
  have hinside := h.inside
  rw [List.length_append] at hlength
  refine ⟨h.cooked, h.fueled, ?_, ?_⟩
  · change s.window.index + us.length ≤ s.window.tokens.size
    by_cases hus : us.length = 0
    · omega
    · omega
  · change s.window.tokens.toList.drop (s.window.index + us.length) = ts
    rw [← List.drop_drop, h.ahead, List.drop_left]

theorem tail (h : s.Faces (t :: ts)) : (s.atIndex (s.window.index + 1)).Faces ts := by
  rw [← List.singleton_append] at h
  exact h.append

/-- The position of the first visible token. -/
theorem front (h : s.Faces ts) (hfront : Front s.table ts t us) :
    ∃ j, (s.atIndex j).Faces (t :: us) ∧
      Window.seek s.table s.bound s.window.tokens s.window.index 0 = some (s.window.tokens, j) := by
  obtain ⟨j, -, hj, hseek, -⟩ := Window.seek_front hfront h.ahead (Nat.le_of_lt h.length_lt_bound)
  obtain ⟨hlt, -⟩ := Array.getElem?_eq_some_iff.mp (Window.getElem?_of_drop hj)
  exact ⟨j, ⟨h.cooked, h.fueled, Nat.le_of_lt hlt, hj⟩, hseek⟩

/-- The position of the second visible token. -/
theorem second (h : s.Faces ts) (hfronts : Fronts s.table ts [t, u] us) :
    ∃ j, (s.atIndex j).Faces (u :: us) ∧
      Window.seek s.table s.bound s.window.tokens s.window.index 1 = some (s.window.tokens, j) := by
  cases hfronts with
  | cons first more =>
      cases more with
      | @cons _ _ behind _ _ second more =>
          cases more
          have hfuel := h.length_lt_bound
          obtain ⟨i, -, hi, -, hnext⟩ := Window.seek_front first h.ahead (Nat.le_of_lt hfuel)
          obtain ⟨fuel, hfuel', hseek⟩ := hnext 0
          obtain ⟨j, -, hj, hseek', -⟩ := Window.seek_front second (Window.drop_succ hi)
            (show _ ≤ fuel by omega)
          obtain ⟨hlt, -⟩ := Array.getElem?_eq_some_iff.mp (Window.getElem?_of_drop hj)
          exact ⟨j, ⟨h.cooked, h.fueled, Nat.le_of_lt hlt, hj⟩, hseek.trans hseek'⟩

theorem tokenAt_eq (h : s.Faces (t :: ts)) :
    Window.tokenAt s.window.tokens s.window.index = t := by
  rw [Window.tokenAt, Window.getElem?_of_drop h.ahead, Option.getD_some]

end Reading.Faces

/-! ## Steps -/

namespace ReadM

variable {α β σ : Type}

/-- The step succeeds with such a result; it moves the cursor in front of this text and changes
nothing else. -/
def Moves (step : ReadM α) (s : Reading) (ts : List Token) (P : α → Prop) : Prop :=
  ∃ a j, step s = .ok a (s.atIndex j) ∧ (s.atIndex j).Faces ts ∧ P a

namespace Moves

variable {step : ReadM α} {next : α → ReadM β} {P Q : α → Prop} {R : β → Prop}

theorem imp (h : Moves step s ts P) (himp : ∀ a, P a → Q a) : Moves step s ts Q := by
  obtain ⟨a, j, hstep, hfaces, ha⟩ := h
  exact ⟨a, j, hstep, hfaces, himp a ha⟩

/-- A sequence goes on from where its first step gets. -/
theorem bind (h : Moves step s ts P)
    (hnext : ∀ a j, P a → (s.atIndex j).Faces ts → Moves (next a) (s.atIndex j) us R) :
    Moves (step >>= next) s us R := by
  obtain ⟨a, j, hstep, hfaces, ha⟩ := h
  obtain ⟨b, k, hrest, hfaces', hb⟩ := hnext a j ha hfaces
  exact ⟨b, k, (bind_of_ok hstep next).trans hrest, hfaces', hb⟩

/-- A first step that only asks. -/
theorem of_ok {a : α} (h : step s = .ok a s) (hnext : Moves (next a) s us R) :
    Moves (step >>= next) s us R := by
  obtain ⟨b, k, hrest, hfaces, hb⟩ := hnext
  exact ⟨b, k, (bind_of_ok h next).trans hrest, hfaces, hb⟩

/-- A first step with one result only. -/
theorem bind_eq {a : α} (h : Moves step s ts (· = a))
    (hnext : ∀ j, (s.atIndex j).Faces ts → Moves (next a) (s.atIndex j) us R) :
    Moves (step >>= next) s us R :=
  h.bind fun _ j ha hfaces => ha ▸ hnext j hfaces

end Moves

theorem moves_pure {a : α} {P : α → Prop} (h : s.Faces ts) (ha : P a) : Moves (pure a) s ts P :=
  ⟨a, s.window.index, rfl, h, ha⟩

theorem peek_of_faces (h : s.Faces ts) (hfront : Front s.table ts t us) : peek s = .ok t s := by
  obtain ⟨j, hfaces, hseek⟩ := h.front hfront
  have hat : Window.tokenAt s.window.tokens j = t := hfaces.tokenAt_eq
  have hget : s.window.get s.bound s.table 0 = some (t, s.window) := by
    simp only [Window.get, Window.position, h.cooked]
    simp only [Bool.false_eq_true, if_false, Int.toNat_zero, hseek, Option.map_some, hat]
    rw [← h.cooked]
  simp only [peek, peekAt, hget]

/-- The cursor stands exactly in front of the token it moves to. -/
theorem advance_moves (h : s.Faces ts) (hfronts : Fronts s.table ts [t, u] us) :
    Moves advance s (u :: us) (· = u) := by
  obtain ⟨j, hfaces, hseek⟩ := h.second hfronts
  have hat : Window.tokenAt s.window.tokens j = u := hfaces.tokenAt_eq
  have hnext : s.window.next s.bound s.table = some (u, { s.window with index := j }) := by
    simp only [Window.next, Window.position, h.cooked]
    simp only [Bool.false_eq_true, if_false, Int.toNat_one, hseek, Option.map_some, hat]
  exact ⟨u, j, by unfold advance; rw [hnext]; rfl, hfaces, rfl⟩

/-- The same with more to be seen. -/
theorem advance_fronts (h : s.Faces ts) (hfronts : Fronts s.table ts (t :: vs) us)
    (hvs : vs.head? = some u) :
    ∃ ws, Moves advance s (u :: ws) (· = u) ∧ Fronts s.table (u :: ws) vs us := by
  cases hfronts with
  | cons first more =>
      cases more with
      | nil => cases hvs
      | cons second more =>
          obtain rfl := Option.some.inj hvs
          exact ⟨_, advance_moves h (.cons first (.cons second (.nil _))),
            .cons (.here second.calm) more⟩

/-! ## Loops -/

section Loops

variable {turn : σ → ReadM (Turn σ β)} {a : σ} {n : Nat} {P : σ → Prop} {R : β → Prop}

theorem iterateUpTo_moves (hturn : Moves (turn a) s ts fun r => ∃ a', r = .again a' ∧ P a')
    (hrest : ∀ a' j, P a' → (s.atIndex j).Faces ts →
      Moves (iterateUpTo turn n a') (s.atIndex j) us R) :
    Moves (iterateUpTo turn (n + 1) a) s us R := by
  refine hturn.bind ?_
  rintro _ j ⟨a', rfl, ha'⟩ hfaces
  exact hrest a' j ha' hfaces

/-- A turn after which the loop goes on in one state only. -/
theorem iterateUpTo_goes {b : σ} (hturn : Moves (turn a) s ts (· = .again b))
    (hrest : ∀ j, (s.atIndex j).Faces ts → Moves (iterateUpTo turn n b) (s.atIndex j) us R) :
    Moves (iterateUpTo turn (n + 1) a) s us R :=
  hturn.bind_eq hrest

theorem iterateUpTo_stops (hturn : Moves (turn a) s us fun r => ∃ b, r = .done b ∧ R b) :
    Moves (iterateUpTo turn (n + 1) a) s us R := by
  refine hturn.bind ?_
  rintro _ j ⟨b, rfl, hb⟩ hfaces
  exact moves_pure hfaces hb

/-- A loop has as many turns as it needs, if these are no more than there are tokens, and one. -/
theorem iterate_moves (h : s.Faces ts)
    (hloop : ∀ n, ts.length < n → Moves (iterateUpTo turn n a) s us R) :
    Moves (iterate a turn) s us R :=
  hloop s.bound h.length_lt_bound

end Loops

/-! ## Bodies and arguments -/

end ReadM

namespace Attribute

variable {opening closing : String} {depth depth' depth'' j k : Nat}

/-- The depth behind a token. -/
def depthPast (opening closing : String) (depth : Nat) (t : Token) : Nat :=
  if t.is opening then depth + 1 else if t.is closing then depth - 1 else depth

/-- With comments visible, the loop gets from one position and depth to others. -/
def Gets (opening closing : String) (s : Reading) (i depth j depth' : Nat) : Prop :=
  i ≤ j ∧ ∀ text, ∃ text', ∀ n,
    iterateUpTo (passTurn opening closing) (j - i + n)
        (depth, text, Window.tokenAt s.window.tokens i) (s.atIndex i) =
      iterateUpTo (passTurn opening closing) n
        (depth', text', Window.tokenAt s.window.tokens j) (s.atIndex j)

theorem Gets.refl (s : Reading) (i depth : Nat) : Gets opening closing s i depth i depth :=
  ⟨Nat.le_refl i, fun text => ⟨text, fun n => by rw [Nat.sub_self, Nat.zero_add]⟩⟩

theorem Gets.trans (h : Gets opening closing s i depth j depth')
    (h' : Gets opening closing s j depth' k depth'') : Gets opening closing s i depth k depth'' := by
  obtain ⟨hij, hfirst⟩ := h
  obtain ⟨hjk, hsecond⟩ := h'
  refine ⟨Nat.le_trans hij hjk, fun text => ?_⟩
  obtain ⟨text₁, hfirst⟩ := hfirst text
  obtain ⟨text₂, hsecond⟩ := hsecond text₁
  refine ⟨text₂, fun n => ?_⟩
  have hturns : k - i + n = j - i + (k - j + n) := by omega
  rw [hturns, hfirst, hsecond]

/-- One turn takes one token. -/
theorem gets_token (opening closing : String) (hraw : s.window.raw = true) (hahead : s.window.tokens.toList.drop i = t :: ts)
    (hdepth : depth ≠ 0) (ht : t.isEof = false) :
    Gets opening closing s i depth (i + 1) (depthPast opening closing depth t) := by
  refine ⟨Nat.le_succ i, fun text => ?_⟩
  have hat : Window.tokenAt s.window.tokens i = t := by
    rw [Window.tokenAt, Window.getElem?_of_drop hahead, Option.getD_some]
  have hturn : ∃ text', passTurn opening closing (depth, text, t) (s.atIndex i) =
      .ok (.again (depthPast opening closing depth t, text',
        Window.tokenAt s.window.tokens (i + 1))) (s.atIndex (i + 1)) := by
    have hadvance := advance_raw (s := s.atIndex i) hraw
    unfold passTurn depthPast
    dsimp only
    rw [if_neg (by simp [ht, hdepth]), bind_of_ok hadvance]
    by_cases hopens : t.is opening = true
    · exact ⟨text, by simp [hopens]; rfl⟩
    · by_cases hcloses : t.is closing = true
      · exact ⟨text, by simp [hopens, hcloses]; rfl⟩
      · exact ⟨text ++ t.spaced, by simp [hopens, hcloses]; rfl⟩
  obtain ⟨text', hturn⟩ := hturn
  refine ⟨text', fun n => ?_⟩
  rw [Nat.add_sub_cancel_left, Nat.add_comm 1 n, hat, iterateUpTo, bind_of_ok hturn]

/-- A balanced text leaves the depth as it is, by induction on the text. -/
theorem gets_nested (hne : closing ≠ opening) (h : Nested opening closing inner)
    (hraw : s.window.raw = true) (hahead : s.window.tokens.toList.drop i = inner ++ ts)
    (hdepth : depth ≠ 0) : Gets opening closing s i depth (i + inner.length) depth := by
  induction h generalizing i depth ts with
  | nil => exact .refl s i depth
  | @token t us inside opens closes more ih =>
      have hfirst := gets_token opening closing hraw hahead hdepth inside
      rw [depthPast, if_neg (by simp [opens]), if_neg (by simp [closes])] at hfirst
      have hrest := ih (Window.drop_succ hahead) hdepth
      rw [List.length_cons, Nat.add_comm us.length 1, ← Nat.add_assoc]
      exact hfirst.trans hrest
  | @group o c us vs opens inside closes more ihinside ihmore =>
      rw [List.cons_append, List.append_assoc, List.cons_append] at hahead
      have hopening := gets_token opening closing hraw hahead hdepth
        opens.isEof_eq
      rw [depthPast, opens.is_eq, if_pos (by simp)] at hopening
      have hbehind := Window.drop_succ hahead
      have hinside := ihinside hbehind (Nat.succ_ne_zero depth)
      have hclosed : s.window.tokens.toList.drop (i + 1 + us.length) = c :: (vs ++ ts) := by
        rw [← List.drop_drop, hbehind, List.drop_left]
      have hclosing := gets_token opening closing hraw hclosed
        (Nat.succ_ne_zero depth) closes.isEof_eq
      rw [depthPast, closes.is_eq, closes.is_eq, if_neg (by simpa using hne), if_pos (by simp),
        Nat.succ_sub_one] at hclosing
      have hrest := ihmore (Window.drop_succ hclosed) hdepth
      have hend : i + (o :: (us ++ c :: vs)).length = i + 1 + us.length + 1 + vs.length := by
        simp only [List.length_cons, List.length_append]
        omega
      rw [hend]
      exact hopening.trans (hinside.trans (hclosing.trans hrest))

/-- **A balanced group is passed over,** from its opening mark to the token behind the closing
one, comments and all. -/
theorem passOver_moves (hne : closing ≠ opening) (h : Nested opening closing inner)
    (hc : c.IsMark closing) (hfaces : s.Faces (o :: (inner ++ c :: ts))) :
    Moves (passOver opening closing) s ts fun _ => True := by
  let bare : Reading := { s with window.raw := true }
  have hbehind := Window.drop_succ hfaces.ahead
  have hclosed : s.window.tokens.toList.drop (s.window.index + 1 + inner.length) = c :: ts := by
    rw [← List.drop_drop, hbehind, List.drop_left]
  have hinside : Gets opening closing bare (s.window.index + 1) 1
      (s.window.index + 1 + inner.length) 1 :=
    gets_nested hne h rfl hbehind Nat.one_ne_zero
  have hclosing : Gets opening closing bare (s.window.index + 1 + inner.length) 1
      (s.window.index + 1 + inner.length + 1) (depthPast opening closing 1 c) :=
    gets_token opening closing rfl hclosed Nat.one_ne_zero hc.isEof_eq
  rw [depthPast, hc.is_eq, hc.is_eq, if_neg (by simpa using hne), if_pos (by simp),
    Nat.sub_self] at hclosing
  obtain ⟨-, hruns⟩ := hinside.trans hclosing
  obtain ⟨text, hruns⟩ := hruns ""
  have hlength := Window.length_of_drop hfaces.ahead
  rw [List.length_cons, List.length_append, List.length_cons] at hlength
  have hlt : s.window.index < s.window.tokens.size := by omega
  have hfuel := hfaces.fueled
  obtain ⟨n, hn⟩ : ∃ n, bare.bound =
      s.window.index + 1 + inner.length + 1 - (s.window.index + 1) + (n + 1) := by
    have hbound : bare.bound = s.fuel + s.window.tokens.size := rfl
    exact ⟨bare.bound - (inner.length + 2), by omega⟩
  have hfirst : advance bare = _ := advance_raw rfl
  have hstep : (do
      let first ← advance
      iterate (1, "", first) (passTurn opening closing)) bare =
        .ok text (bare.atIndex (s.window.index + 1 + inner.length + 1)) := by
    rw [bind_of_ok hfirst]
    change iterateUpTo _ bare.bound _ _ = _
    rw [hn]
    refine (hruns (n + 1)).trans ?_
    have hdone (t : Token) (s : Reading) :
        passTurn opening closing (0, text, t) s = .ok (.done text) s := by
      unfold passTurn
      dsimp only
      rw [if_pos (by simp)]
      rfl
    rw [iterateUpTo, bind_of_ok (hdone _ _)]
    rfl
  refine ⟨text, s.window.index + 1 + inner.length + 1, ?_, ?_, trivial⟩
  · rw [passOver_eq_raw, raw, around, hstep]
    rfl
  · refine ⟨hfaces.cooked, hfaces.fueled, ?_, ?_⟩
    · change s.window.index + 1 + inner.length + 1 ≤ s.window.tokens.size
      omega
    · exact Window.drop_succ hclosed

end Attribute

namespace ReadM

/-- There is no body. -/
theorem skipBody_absent (h : s.Faces ts) (hfront : Front s.table ts t us)
    (ht : t.is "\x7b" = false) : Moves skipBody s ts (· = false) := by
  unfold skipBody
  refine .of_ok (peek_of_faces h hfront) ?_
  rw [if_pos (by simp [ht])]
  exact moves_pure h rfl

/-- A body is passed over if the cursor stands right in front of it. -/
theorem skipBody_moves (hinner : Nested "\x7b" "\x7d" inner) (ho : o.IsMark "\x7b")
    (hc : c.IsMark "\x7d") (h : s.Faces (o :: (inner ++ c :: ts))) :
    Moves skipBody s ts (· = true) := by
  unfold skipBody
  refine .of_ok (peek_of_faces h (.here (ho.calm (by decide)))) ?_
  rw [if_neg (by simp [ho.is_eq])]
  exact (Attribute.passOver_moves (by decide) hinner hc h).bind fun _ k _ h => moves_pure h rfl

end ReadM

end HeaderPeers

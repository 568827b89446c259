import HeaderPeers.Proofs.Window.Thinning

/-!
# Steps that end

Loops and recursions are bounded, and reaching the bound is a failure of its own.
Here is how to tell that it is never reached. A step that is given no macros
leaves the tokens as they are or makes them fewer, so what is left behind the
cursor can be counted: a loop ends because each turn goes on to another token,
and a recursion because each call inside starts further on.

- `Reading.Steady` — no macros, and a few steps besides one for each token.
- `Reading.To` — the cursor has not gone back, and tokens have only been left out.
- `ReadM.Ends` — a step does not reach its bound, and how far it gets.
- `ReadM.iterate_ends`, `ReadM.nest_ends` — the rules for loops and recursions.
-/

set_option mvcgen.warning false

namespace HeaderPeers

open Std.Do

namespace Reading

/-- There are no macros, the tokens are those of a text, and loops have some
steps besides one for each token. -/
structure Steady (s : Reading) : Prop where
  plain : s.table.Plain
  sound : ∀ t ∈ s.window.tokens.toList, t.Sound
  fuel : 4 ≤ s.fuel

/-- The cursor is not further back, and of the tokens from where it was some may
have been left out. -/
structure To (s s' : Reading) : Prop where
  index_le : s.window.index ≤ s'.window.index
  raw : s'.window.raw = s.window.raw
  thins : Window.Thins s.window.index s.window.tokens s'.window.tokens

/-- How many tokens are left. -/
def rest (s : Reading) : Nat :=
  s.window.size - s.window.index

/-- There is a token left. -/
def Live (s : Reading) : Prop :=
  s.window.index < s.window.size

/-- The visible token at the cursor has been looked at, and is like this one. -/
def Shows (s : Reading) (t : Token) : Prop :=
  s.window.raw = false ∧ ∃ j, Window.Faces s.window.tokens s.window.index j ∧
    (Window.tokenAt s.window.tokens j).face = t.face

/-- It has been seen that no visible token is left. -/
def Ended (s : Reading) : Prop :=
  ∃ t, s.Shows t ∧ t.isEof = true

/-- The state with comments visible. -/
def bare (s : Reading) : Reading :=
  { s with window.raw := true }

variable {s s' s'' : Reading} {t u : Token} {i : Nat}

/-! ## Where the cursor gets -/

@[refl]
theorem To.refl (s : Reading) : s.To s :=
  ⟨Nat.le_refl _, rfl, .refl _ _⟩

grind_pattern To.refl => s.To s

@[grind →]
theorem To.trans (h : s.To s') (h' : s'.To s'') : s.To s'' :=
  ⟨Nat.le_trans h.index_le h'.index_le, h'.raw.trans h.raw,
    h.thins.trans (h'.thins.mono h.index_le)⟩

theorem To.of_window_eq (h : s'.window = s.window) : s.To s' := by
  refine ⟨?_, ?_, ?_⟩
  · rw [h]
  · rw [h]
  · rw [h]
    exact .refl _ _

@[grind →]
theorem To.index_mono (h : s.To s') : s.window.index ≤ s'.window.index :=
  h.index_le

@[grind →]
theorem To.not_raw (h : s.To s') (hraw : s.window.raw = false) : s'.window.raw = false :=
  h.raw.trans hraw

@[grind →]
theorem To.size_le (h : s.To s') : s'.window.size ≤ s.window.size :=
  h.thins.size_le

/-- A token that was left at the cursor is still there. -/
@[grind →]
theorem To.lt_size (h : s.To s') : s.window.index < s.window.size →
    s.window.index < s'.window.size :=
  h.thins.lt_size _ (Nat.le_refl _)

@[grind =]
theorem live_iff : s.Live ↔ s.window.index < s.window.size := Iff.rfl

@[grind =]
theorem rest_eq : s.rest = s.window.size - s.window.index := rfl

theorem To.atIndex (h : s.To s') (hi : s.window.index ≤ i) : s.To (s'.atIndex i) :=
  ⟨hi, h.raw, h.thins⟩

grind_pattern To.atIndex => s.To s', s'.atIndex i

/-- From a place that was passed. -/
theorem To.ofIndex (s : Reading) (hi : i ≤ s.window.index) : (s.atIndex i).To s :=
  ⟨hi, rfl, .refl _ _⟩

theorem Steady.atIndex (h : s.Steady) (i : Nat) : (s.atIndex i).Steady :=
  ⟨h.plain, h.sound, h.fuel⟩

grind_pattern Steady.atIndex => s.Steady, s.atIndex i

@[grind →]
theorem Steady.bound_gt (h : s.Steady) : s.window.size + 4 ≤ s.bound := by
  have hfuel := h.fuel
  unfold bound
  omega

/-! ## What the cursor sees -/

theorem Shows.congr (h : s.Shows t) (hface : t.face = u.face) : s.Shows u := by
  obtain ⟨hraw, j, hfaces, ht⟩ := h
  exact ⟨hraw, j, hfaces, ht.trans hface⟩

@[grind →]
theorem Shows.raw_eq (h : s.Shows t) : s.window.raw = false :=
  h.1

@[grind →]
theorem Shows.face_eq (h : s.Shows t) (h' : s.Shows u) : t.face = u.face := by
  obtain ⟨-, j, hfaces, ht⟩ := h
  obtain ⟨-, j', hfaces', hu⟩ := h'
  obtain rfl := hfaces.unique hfaces'
  exact ht.symm.trans hu

theorem Shows.is_eq (h : s.Shows t) (h' : s.Shows u) (text : String) : t.is text = u.is text := by
  obtain ⟨hkind, htext⟩ := Prod.mk.injEq .. ▸ h.face_eq h'
  simp only [Token.is, hkind, htext]

grind_pattern Shows.is_eq => s.Shows t, s.Shows u, t.is text

theorem Shows.isEof_eq (h : s.Shows t) (h' : s.Shows u) : t.isEof = u.isEof := by
  obtain ⟨hkind, -⟩ := Prod.mk.injEq .. ▸ h.face_eq h'
  simp only [Token.isEof, hkind]

grind_pattern Shows.isEof_eq => s.Shows t, s.Shows u, t.isEof

theorem Shows.isWord_eq (h : s.Shows t) (h' : s.Shows u) : t.isWord = u.isWord := by
  obtain ⟨hkind, -⟩ := Prod.mk.injEq .. ▸ h.face_eq h'
  simp only [Token.isWord, hkind]

grind_pattern Shows.isWord_eq => s.Shows t, s.Shows u, t.isWord

/-- What was seen is seen again when the cursor comes back. -/
theorem To.shows (h : s.To s') (hshows : s.Shows t) (hindex : s'.window.index = s.window.index) :
    s'.Shows t := by
  obtain ⟨hraw, j, hfaces, ht⟩ := hshows
  obtain ⟨hfaces', hkind, htext⟩ := h.thins.faces _ (Nat.le_refl _) j hfaces
  refine ⟨h.raw.trans hraw, j, hindex ▸ hfaces', ?_⟩
  rw [← ht]
  exact Prod.ext hkind htext

grind_pattern To.shows => s.To s', s.Shows t

@[grind →]
theorem Shows.live (h : s.Shows t) (ht : t.isEof = false) : s.Live := by
  obtain ⟨-, j, hfaces, hface⟩ := h
  refine Nat.lt_of_le_of_lt hfaces.le ?_
  by_contra hge
  rw [Window.face_tokenAt, Array.getElem?_eq_none (Nat.le_of_not_lt hge)] at hface
  have hkind : Kind.eof = t.kind := congrArg Prod.fst hface
  simp [Token.isEof, ← hkind] at ht

/-- A word that is seen is not empty. -/
theorem Shows.text_ne (hs : s.Steady) (h : s.Shows t) (ht : t.isWord = true) : t.text ≠ "" := by
  obtain ⟨-, j, -, hface⟩ := h
  rw [Window.face_tokenAt] at hface
  obtain ⟨hkind, htext⟩ := Prod.mk.injEq .. ▸ hface
  cases hj : s.window.tokens[j]? with
  | none =>
      have heof : t.kind = .eof := by simpa [hj] using hkind.symm
      simp [Token.isWord, heof] at ht
  | some u =>
      have hu : u.face = t.face := by simpa [hj] using hface
      exact ((Token.sound_of_face_eq hu (hs.sound u (Array.mem_toList_iff.mpr
        (Array.mem_of_getElem? hj)))).2 ht).1

grind_pattern Shows.text_ne => s.Shows t, t.isWord, s.Steady

@[grind →]
theorem Ended.raw_eq (h : s.Ended) : s.window.raw = false := by
  obtain ⟨t, hshows, -⟩ := h
  exact hshows.1

theorem Ended.isEof (h : s.Ended) (hshows : s.Shows u) : u.isEof = true := by
  obtain ⟨t, ht, heof⟩ := h
  rw [hshows.isEof_eq ht, heof]

grind_pattern Ended.isEof => s.Ended, s.Shows u

theorem ended_of_shows (h : s.Shows t) (ht : t.isEof = true) : s.Ended :=
  ⟨t, h, ht⟩

grind_pattern ended_of_shows => s.Shows t, t.isEof

/-- At the end the position faced is behind the last token. -/
theorem Ended.exists_faces (hs : s.Steady) (h : s.Ended) :
    ∃ j, Window.Faces s.window.tokens s.window.index j ∧ s.window.tokens.size ≤ j := by
  obtain ⟨t, ⟨-, j, hfaces, hface⟩, ht⟩ := h
  refine ⟨j, hfaces, ?_⟩
  by_contra hlt
  rw [Nat.not_le] at hlt
  rw [Window.face_tokenAt, Array.getElem?_eq_getElem hlt] at hface
  have hkind : s.window.tokens[j].kind = t.kind := congrArg Prod.fst hface
  rw [Token.isEof, beq_iff_eq, ← hkind] at ht
  exact (hs.sound _ (Array.mem_toList_iff.mpr (Array.getElem_mem hlt))).1 ht

theorem ended_of_faces (hraw : s.window.raw = false) {j : Nat}
    (hfaces : Window.Faces s.window.tokens s.window.index j) (hj : s.window.tokens.size ≤ j) :
    s.Ended := by
  refine ⟨Window.tokenAt s.window.tokens j, ⟨hraw, j, hfaces, rfl⟩, ?_⟩
  have hface := Window.face_tokenAt s.window.tokens j
  rw [Array.getElem?_eq_none hj] at hface
  have hkind : (Window.tokenAt s.window.tokens j).kind = .eof := congrArg Prod.fst hface
  simp [Token.isEof, hkind]

/-- Where no token is left nothing is visible. -/
theorem faces_of_size_le {tokens : Array Token} (h : tokens.size ≤ i) :
    Window.Faces tokens i i := by
  have hnone : tokens[i]? = none := Array.getElem?_eq_none h
  refine ⟨Nat.le_refl _, fun k hk hlt => absurd hlt (Nat.not_lt.mpr hk), fun k hk hle => ?_, ?_⟩
  · obtain rfl := Nat.le_antisymm hle hk
    simp [Window.opensAt, hnone]
  · simp [Window.CommentAt, hnone]

theorem To.raw_of_shows (h : s.To s') (hshows : s.Shows t) : s'.window.raw = false :=
  h.raw.trans hshows.1

/-- Behind the end there is only the end. -/
theorem To.ended (h : s.To s') (hs : s.Steady) (hended : s.Ended) : s'.Ended := by
  obtain ⟨j, hfaces, hj⟩ := hended.exists_faces hs
  obtain ⟨t, hshows, -⟩ := hended
  have hraw := h.raw_of_shows hshows
  obtain ⟨hfaces', -, -⟩ := h.thins.faces _ (Nat.le_refl _) j hfaces
  have hj' : s'.window.tokens.size ≤ j := Nat.le_trans h.thins.size_le hj
  by_cases hle : s'.window.index ≤ j
  · refine ended_of_faces hraw ⟨hle, fun k hk => ?_, fun k hk => ?_, hfaces'.stops⟩ hj'
    · exact hfaces'.comments k (Nat.le_trans h.index_le hk)
    · exact hfaces'.visited k (Nat.le_trans h.index_le hk)
  · have hsize : s'.window.tokens.size ≤ s'.window.index := by omega
    exact ended_of_faces hraw (faces_of_size_le hsize) hsize

grind_pattern To.ended => s.To s', s.Ended

theorem ended_of_not_live (hraw : s.window.raw = false) (h : ¬ s.Live) : s.Ended :=
  ended_of_faces hraw (faces_of_size_le (Nat.le_of_not_lt h)) (Nat.le_of_not_lt h)

end Reading

namespace ReadM

open Reading

variable {α β σ : Type} {s₀ : Reading}

/-- From the state `s₀` the step does not reach its bound; if it does not fail,
what it gives and where it gets have the property, and it has not gone back
behind `b`. -/
abbrev EndsIn (b s₀ : Reading) (step : ReadM α) (Q : α → Reading → Prop) : Prop :=
  ⦃fun s => ⌜s = s₀⌝⦄ step
  ⦃post⟨fun a s => ⌜s.Steady ∧ b.To s ∧ Q a s⌝, fun e _ => ⌜e ≠ .exhausted⌝⟩⦄

/-- From this state the step does not reach its bound; if it does not fail, it has
not gone back, and what it gives and where it gets have the property. -/
abbrev Ends (s₀ : Reading) (step : ReadM α) (Q : α → Reading → Prop) : Prop :=
  EndsIn s₀ s₀ step Q

theorem endsIn_iff {b : Reading} {step : ReadM α} {Q : α → Reading → Prop} :
    EndsIn b s₀ step Q ↔ match step s₀ with
      | .ok a s => s.Steady ∧ b.To s ∧ Q a s
      | .error e _ => e ≠ .exhausted := by
  rw [EndsIn, triple_iff]
  constructor
  · exact fun h => h s₀ rfl
  · rintro h s rfl
    exact h

theorem ends_iff {step : ReadM α} {Q : α → Reading → Prop} :
    Ends s₀ step Q ↔ match step s₀ with
      | .ok a s => s.Steady ∧ s₀.To s ∧ Q a s
      | .error e _ => e ≠ .exhausted :=
  endsIn_iff

theorem EndsIn.imp {b b' : Reading} {step : ReadM α} {Q R : α → Reading → Prop}
    (h : EndsIn b s₀ step Q)
    (himp : ∀ a s, s.Steady → b.To s → Q a s → b'.To s ∧ R a s) : EndsIn b' s₀ step R := by
  rw [endsIn_iff] at h ⊢
  split at h
  next a s _ => exact ⟨h.1, himp a s h.1 h.2.1 h.2.2⟩
  · exact h

theorem Ends.imp {step : ReadM α} {Q R : α → Reading → Prop} (h : Ends s₀ step Q)
    (himp : ∀ a s, s.Steady → s₀.To s → Q a s → R a s) : Ends s₀ step R :=
  EndsIn.imp h fun a s hs hto hQ => ⟨hto, himp a s hs hto hQ⟩

/-- What is known of a step, and what else is known of it in several cases. -/
theorem Ends.and_forall {ι : Type} {step : ReadM α} {Q : α → Reading → Prop} {P : ι → Prop}
    {R : ι → α → Reading → Prop} (h : Ends s₀ step Q) (h' : ∀ i, P i → Ends s₀ step (R i)) :
    Ends s₀ step fun a s => Q a s ∧ ∀ i, P i → R i a s := by
  simp only [ends_iff] at h h' ⊢
  split
  next a s hrun =>
    simp only [hrun] at h h'
    exact ⟨h.1, h.2.1, h.2.2, fun i hi => (h' i hi).2.2⟩
  next e s hrun =>
    simp only [hrun] at h
    exact h

/-- What is to be shown of the result can be left open while the step is gone
through. (`mvcgen` else takes the state before the last step to be that before
the first.) -/
theorem Ends.intro {step : ReadM α} {Q : α → Reading → Prop}
    (h : ∀ P : α → Reading → Prop, (∀ a s, s.Steady → s₀.To s → Q a s → P a s) →
      ⦃fun s => ⌜s = s₀⌝⦄ step
      ⦃post⟨fun a s => ⌜P a s⌝, fun e _ => ⌜e ≠ .exhausted⌝⟩⦄) : Ends s₀ step Q :=
  h _ fun _ _ hs hto hQ => ⟨hs, hto, hQ⟩

/-- A sequence, of which no part goes back behind `b`. -/
theorem EndsIn.bind {b : Reading} {step : ReadM α} {next : α → ReadM β} {Q : α → Reading → Prop}
    {R : β → Reading → Prop} (h : EndsIn b s₀ step Q)
    (hnext : ∀ a s, s.Steady → b.To s → Q a s → EndsIn b s (next a) R) :
    EndsIn b s₀ (step >>= next) R := by
  rw [endsIn_iff] at h ⊢
  split at h
  next a s hr =>
    rw [bind_of_ok hr]
    exact endsIn_iff.mp (hnext a s h.1 h.2.1 h.2.2)
  next e s hr =>
    rw [bind_of_error hr]
    exact h

theorem Ends.bind {step : ReadM α} {next : α → ReadM β} {Q : α → Reading → Prop}
    {R : β → Reading → Prop} (h : Ends s₀ step Q)
    (hnext : ∀ a s, s.Steady → s₀.To s → Q a s → Ends s (next a) R) :
    Ends s₀ (step >>= next) R :=
  EndsIn.bind h fun a s hs hto hQ =>
    EndsIn.imp (hnext a s hs hto hQ) fun _ _ _ hto' hR => ⟨hto.trans hto', hR⟩

theorem Ends.pure {a : α} {Q : α → Reading → Prop} (hs : s₀.Steady) (hQ : Q a s₀) :
    Ends s₀ (Pure.pure a) Q :=
  ends_iff.mpr ⟨hs, .refl s₀, hQ⟩

theorem get_ends (hs : s₀.Steady) : Ends s₀ get fun r s => s = s₀ ∧ r = s₀ :=
  ends_iff.mpr ⟨hs, .refl s₀, rfl, rfl⟩

/-! ## Looking at tokens -/

/-- A place is found within the bound. -/
theorem exists_position (hs : s₀.Steady) (offset : Int) :
    ∃ i w, s₀.window.position s₀.bound s₀.table offset = some (i, w) ∧
      w.index = s₀.window.index ∧ w.raw = s₀.window.raw ∧
      Window.Thins s₀.window.index s₀.window.tokens w.tokens ∧
      (0 ≤ offset → s₀.window.index ≤ i) ∧
      (s₀.window.raw = true → i = (s₀.window.index + offset).toNat) ∧
      (s₀.window.raw = false → Window.Faces w.tokens i i ∧
        (offset ≤ 0 → Window.Faces w.tokens s₀.window.index i) ∧
        (0 < offset → s₀.window.index < w.tokens.size → s₀.window.index < i)) := by
  cases hraw : s₀.window.raw with
  | true =>
      refine ⟨(s₀.window.index + offset).toNat, s₀.window, ?_, rfl, hraw, .refl _ _, by omega,
        fun _ => rfl, by simp⟩
      simp [Window.position, hraw]
  | false =>
      have hbound := hs.bound_gt
      have hsome := Window.seek_isSome_of_plain hs.plain s₀.bound
        ⟨s₀.window.tokens, s₀.window.index, offset.toNat⟩ (by
          have hsize : s₀.window.tokens.size = s₀.window.size := rfl
          dsimp only
          omega)
      obtain ⟨⟨tokens, i⟩, hseek⟩ := Option.isSome_iff_exists.mp hsome
      obtain ⟨hle, hsame⟩ := Window.index_le_of_seek s₀.table s₀.bound ⟨_, _, _⟩ hseek
      refine ⟨i, { tokens, index := s₀.window.index, raw := s₀.window.raw }, ?_, rfl, hraw,
        Window.thins_of_seek hs.plain s₀.bound ⟨_, _, _⟩ hseek, fun _ => hle, by simp,
        fun _ => ⟨Window.faces_self_of_seek hs.plain s₀.bound ⟨_, _, _⟩ hseek, fun hoffset => ?_,
          fun hoffset hlt => ?_⟩⟩
      · simp [Window.position, hraw, hseek]
      · exact Window.faces_of_seek hs.plain s₀.bound ⟨_, _, _⟩
          (Int.toNat_of_nonpos hoffset) hseek
      · refine Nat.lt_of_le_of_ne hle fun heq => ?_
        rcases hsame heq with hzero | hsize
        · dsimp only at hzero
          omega
        · dsimp only at heq hlt
          omega

/-- No visible token lies behind the end. -/
theorem not_lt_of_ended (hs : s₀.Steady) (hended : s₀.Ended) {i : Nat} {tokens : Array Token}
    (hthins : Window.Thins s₀.window.index s₀.window.tokens tokens)
    (hle : s₀.window.index ≤ i) (hfaces : Window.Faces tokens i i) : ¬ i < tokens.size := by
  intro hlt
  obtain ⟨j, hfaces₀, hj⟩ := hended.exists_faces hs
  obtain ⟨hfaces', -, -⟩ := hthins.faces _ (Nat.le_refl _) j hfaces₀
  exact hfaces.stops (hfaces'.comments i hle
    (Nat.lt_of_lt_of_le hlt (Nat.le_trans hthins.size_le hj)))

theorem isEof_tokenAt {tokens : Array Token} {i : Nat} (h : tokens.size ≤ i) :
    (Window.tokenAt tokens i).isEof = true := by
  have hface := Window.face_tokenAt tokens i
  rw [Array.getElem?_eq_none h] at hface
  have hkind : (Window.tokenAt tokens i).kind = .eof := congrArg Prod.fst hface
  simp [Token.isEof, hkind]

theorem lt_of_not_isEof_tokenAt {tokens : Array Token} {i : Nat}
    (h : (Window.tokenAt tokens i).isEof = false) : i < tokens.size := by
  by_contra hge
  rw [isEof_tokenAt (Nat.le_of_not_lt hge)] at h
  cases h

@[spec high]
theorem peekAt_ends (hs : s₀.Steady) (offset : Int) :
    Ends s₀ (peekAt offset) fun t s => s.window.index = s₀.window.index ∧
      (0 ≤ offset → t.isEof = false → s.Live) ∧
      (0 ≤ offset → s₀.Ended → t.isEof = true) := by
  obtain ⟨i, w, hposition, hindex, hraw, hthins, hle, -, hfaces⟩ := exists_position hs offset
  rw [ends_iff]
  simp only [peekAt, Window.get, hposition, Option.map_some]
  refine ⟨⟨hs.plain, hthins.sound hs.sound, hs.fuel⟩, ⟨?_, hraw, hthins⟩, hindex, ?_, ?_⟩
  · exact hindex.ge
  · intro hoffset ht
    have hlt := lt_of_not_isEof_tokenAt ht
    have hle' := hle hoffset
    simp only [live_iff, hindex]
    exact Nat.lt_of_le_of_lt hle' hlt
  · intro hoffset hended
    obtain ⟨t, hshows, -⟩ := id hended
    refine isEof_tokenAt (Nat.le_of_not_lt ?_)
    exact not_lt_of_ended hs hended hthins (hle hoffset) (hfaces hshows.1).1

@[spec high]
theorem peek_ends (hs : s₀.Steady) :
    Ends s₀ peek fun t s => s.window.index = s₀.window.index ∧
      (t.isEof = false → s.Live) ∧ (s₀.window.raw = false → s.Shows t) := by
  obtain ⟨i, w, hposition, hindex, hraw, hthins, hle, -, hfaces⟩ := exists_position hs 0
  rw [ends_iff]
  simp only [peek, peekAt, Window.get, hposition, Option.map_some]
  refine ⟨⟨hs.plain, hthins.sound hs.sound, hs.fuel⟩, ⟨?_, hraw, hthins⟩, hindex, ?_, ?_⟩
  · exact hindex.ge
  · intro ht
    have hlt := lt_of_not_isEof_tokenAt ht
    have hle' := hle (Int.le_refl 0)
    simp only [live_iff, hindex]
    exact Nat.lt_of_le_of_lt hle' hlt
  · intro hraw₀
    obtain ⟨-, hfront, -⟩ := hfaces hraw₀
    exact ⟨hraw.trans hraw₀, i, hindex ▸ hfront (Int.le_refl 0), rfl⟩

@[spec high]
theorem advance_ends (hs : s₀.Steady) :
    Ends s₀ advance fun t s => (s₀.Live → s₀.window.index < s.window.index) ∧
      (t.isEof = false → s.Live) ∧ (s₀.window.raw = false → s.Shows t) := by
  obtain ⟨i, w, hposition, hindex, hraw, hthins, hle, hbare, hfaces⟩ := exists_position hs 1
  rw [ends_iff]
  simp only [advance, Window.next, hposition, Option.map_some]
  refine ⟨⟨hs.plain, hthins.sound hs.sound, hs.fuel⟩, ⟨?_, hraw, hthins⟩, ?_, ?_, ?_⟩
  · exact hle (by decide)
  · intro hlive
    cases hraw₀ : s₀.window.raw with
    | true =>
        have hi := hbare hraw₀
        omega
    | false =>
        exact (hfaces hraw₀).2.2 (by decide) (hthins.lt_size _ (Nat.le_refl _) hlive)
  · exact lt_of_not_isEof_tokenAt
  · intro hraw₀
    exact ⟨hraw.trans hraw₀, i, (hfaces hraw₀).1, rfl⟩

@[spec high]
theorem setSpacing_ends (hs : s₀.Steady) (spacing : String) :
    Ends s₀ (setSpacing spacing) fun _ s => s.window.index = s₀.window.index := by
  obtain ⟨i, w, hposition, hindex, hraw, hthins, -⟩ := exists_position hs 0
  have hthins' := hthins.trans (.respace _ i w.tokens spacing)
  rw [ends_iff]
  simp only [setSpacing, Window.setSpacing, hposition, Option.map_some]
  exact ⟨⟨hs.plain, hthins'.sound hs.sound, hs.fuel⟩, ⟨hindex.ge, hraw, hthins'⟩, hindex⟩

/-- A step that changes neither the window nor the rules. -/
theorem modify_ends (hs : s₀.Steady) {f : Reading → Reading} (hwindow : (f s₀).window = s₀.window)
    (htable : (f s₀).table = s₀.table) (hfuel : (f s₀).fuel = s₀.fuel) :
    Ends s₀ (modify f) fun _ s => s.window = s₀.window := by
  rw [ends_iff]
  refine ⟨⟨htable ▸ hs.plain, hwindow ▸ hs.sound, hfuel ▸ hs.fuel⟩, .of_window_eq hwindow,
    hwindow⟩

@[spec high]
theorem warn_ends (hs : s₀.Steady) (location : Location) (message : String) :
    Ends s₀ (warn location message) fun _ s => s.window = s₀.window := by
  refine modify_ends hs ?_ ?_ ?_ <;> (dsimp only; split <;> rfl)

attribute [local spec] cursor

@[spec high]
theorem moveTo_atIndex (s₀ : Reading) (i : Nat) :
    ⦃fun s => ⌜s = s₀⌝⦄ moveTo i
    ⦃post⟨fun _ s => ⌜s = s₀.atIndex i⌝, fun _ _ => ⌜False⌝⟩⦄ := by
  rw [triple_iff]
  rintro s rfl
  rfl

/-! ## Failures -/

@[spec high]
theorem refuse_ends (t : Token) :
    Ends s₀ (refuse t : ReadM α) fun _ _ => False := by
  rw [ends_iff]
  simp [refuse, Token.unexpected, throw, throwThe, MonadExceptOf.throw, EStateM.throw]

@[spec high]
theorem expect_ends (hs : s₀.Steady) (t : Token) (texts : List String) :
    Ends s₀ (expect t texts) fun _ s => s = s₀ ∧ t.isAny texts = true := by
  unfold expect
  mvcgen
  all_goals grind -linarith

@[spec high]
theorem expectWord_ends (hs : s₀.Steady) (t : Token) :
    Ends s₀ (expectWord t) fun _ s => s = s₀ ∧ t.isWord = true := by
  unfold expectWord
  mvcgen
  all_goals grind -linarith

/-! ## Loops -/

theorem iterateUpTo_ends {b : Reading} {I : σ → Reading → Prop} (measure : σ → Reading → Nat)
    {Q : β → Reading → Prop} {turn : σ → ReadM (Turn σ β)}
    (hturn : ∀ state s, s.Steady → b.To s → I state s → EndsIn b s (turn state) fun r s' =>
      match r with
      | .again state' => I state' s' ∧ measure state' s' < measure state s
      | .done b => Q b s')
    (n : Nat) : ∀ state s, s.Steady → b.To s → I state s → measure state s < n →
      EndsIn b s (iterateUpTo turn n state) Q := by
  induction n with
  | zero =>
      intro state s _ _ _ hlt
      cases hlt
  | succ n ih =>
      intro state s hs hto hI hlt
      have hrun := endsIn_iff.mp (hturn state s hs hto hI)
      rw [endsIn_iff, iterateUpTo]
      split at hrun
      next r s' hr =>
        rw [bind_of_ok hr]
        obtain ⟨hs', hto', hr'⟩ := hrun
        cases r with
        | done b => exact ⟨hs', hto', hr'⟩
        | again state' =>
            exact endsIn_iff.mp (ih state' s' hs' hto' hr'.1 (by omega))
      next e s' hr =>
        rw [bind_of_error hr]
        exact hrun

/-- **Loops.** A loop ends if each turn that goes on makes a measure smaller that
is within the bound at the start. The turns may go back, but not behind `b`. -/
theorem iterate_endsIn {b : Reading} {I : σ → Reading → Prop} (measure : σ → Reading → Nat)
    {Q : β → Reading → Prop} {start : σ} {turn : σ → ReadM (Turn σ β)} (hs : s₀.Steady)
    (hb : b.To s₀) (hstart : I start s₀) (hmeasure : measure start s₀ < s₀.bound)
    (hturn : ∀ state s, s.Steady → b.To s → I state s → EndsIn b s (turn state) fun r s' =>
      match r with
      | .again state' => I state' s' ∧ measure state' s' < measure state s
      | .done b => Q b s') :
    EndsIn b s₀ (iterate start turn) Q := by
  have hrun := endsIn_iff.mp
    (iterateUpTo_ends measure hturn s₀.bound start s₀ hs hb hstart hmeasure)
  have heq : iterate start turn s₀ = iterateUpTo turn s₀.bound start s₀ := rfl
  rw [endsIn_iff, heq]
  exact hrun

/-- A loop whose turns do not go back. -/
theorem iterate_ends {I : σ → Reading → Prop} (measure : σ → Reading → Nat)
    {Q : β → Reading → Prop} {start : σ} {turn : σ → ReadM (Turn σ β)} (hs : s₀.Steady)
    (hstart : I start s₀) (hmeasure : measure start s₀ < s₀.bound)
    (hturn : ∀ state s, s.Steady → s₀.To s → I state s → Ends s (turn state) fun r s' =>
      match r with
      | .again state' => I state' s' ∧ measure state' s' < measure state s
      | .done b => Q b s') :
    Ends s₀ (iterate start turn) Q :=
  iterate_endsIn measure hs (.refl s₀) hstart hmeasure fun state s hs hto hI =>
    EndsIn.imp (hturn state s hs hto hI) fun _ _ _ hto' hQ => ⟨hto.trans hto', hQ⟩

/-- A loop that hands on the token at the cursor. -/
class Carries (σ : Type) where
  token : σ → Token

instance : Carries Token := ⟨id⟩

instance [Carries σ] : Carries (α × σ) := ⟨fun state => Carries.token state.2⟩

@[simp, grind =]
theorem token_self (t : Token) : Carries.token t = t := rfl

@[simp, grind =]
theorem token_pair [Carries σ] (a : α) (state : σ) :
    Carries.token (a, state) = Carries.token state := rfl

/-- **Loops over tokens.** Each turn that goes on goes on to another token. -/
@[spec high]
theorem iterate_carries [Carries σ] {start : σ} {turn : σ → ReadM (Turn σ β)} (hs : s₀.Steady)
    (hstart : (Carries.token start).isEof = false → s₀.Live)
    (hturn : ∀ state s, s.Steady → s₀.To s → ((Carries.token state).isEof = false → s.Live) →
      Ends s (turn state) fun r s' => match r with
        | .again state' => ((Carries.token state').isEof = false → s'.Live) ∧ s'.rest < s.rest
        | .done _ => True) :
    Ends s₀ (iterate start turn) fun _ _ => True :=
  iterate_ends (I := fun state s => (Carries.token state).isEof = false → s.Live)
    (fun _ s => s.rest) hs hstart (by grind -linarith) hturn

/-! ## Recursions -/

/-- What is known of a step that is called inside: it ends where fewer than `m`
tokens are left. -/
def EndsWithin (m : Nat) (inner : α → ReadM β) (Q : α → Reading → β → Reading → Prop) : Prop :=
  ∀ a s, s.Steady → s.rest < m → Ends s (inner a) (Q a s)

/-- **Recursions.** A recursion ends if what is called inside is called further
on. -/
theorem nest_ends {Q : α → Reading → β → Reading → Prop} {body : (α → ReadM β) → α → ReadM β}
    (hbody : ∀ inner m, EndsWithin m inner Q →
      ∀ a s, s.Steady → s.rest ≤ m → Ends s (body inner a) (Q a s))
    (hs : s₀.Steady) (a : α) : Ends s₀ (nest body a) (Q a s₀) := by
  have hdepth : ∀ n, EndsWithin n (nestUpTo body n) Q := by
    intro n
    induction n with
    | zero =>
        intro a s _ hlt
        cases hlt
    | succ n ih => exact fun a s hs hlt => hbody _ n ih a s hs (Nat.le_of_lt_succ hlt)
  have hrun := ends_iff.mp (hdepth s₀.bound a s₀ hs (by grind -linarith))
  have heq : nest body a s₀ = nestUpTo body s₀.bound a s₀ := rfl
  rw [ends_iff, heq]
  exact hrun

/-! ## Steps put together -/

theorem raw_ends {step : ReadM α} {Q : α → Reading → Prop} (h : Ends s₀.bare step Q) :
    Ends s₀ (ReadM.raw step) fun a s => Q a s.bare := by
  have hrun := ends_iff.mp h
  rw [ends_iff]
  have heq : ReadM.raw step s₀ = match step s₀.bare with
      | .ok a s => .ok a { s with window.raw := s₀.window.raw }
      | .error e s => .error e { s with window.raw := s₀.window.raw } := rfl
  rw [heq]
  cases hr : step s₀.bare with
  | error e s =>
      rw [hr] at hrun
      exact hrun
  | ok a s =>
      rw [hr] at hrun
      obtain ⟨hs, hto, hQ⟩ := hrun
      refine ⟨⟨hs.plain, hs.sound, hs.fuel⟩, ⟨hto.index_le, rfl, hto.thins⟩, ?_⟩
      have hraw : s.window.raw = true := hto.raw
      have hbare : bare { s with window.raw := s₀.window.raw } = s := by
        unfold bare
        rw [← hraw]
      rwa [hbare]

@[simp, grind =]
theorem bare_index (s : Reading) : s.bare.window.index = s.window.index := rfl

@[simp, grind =]
theorem bare_size (s : Reading) : s.bare.window.size = s.window.size := rfl

theorem Steady.bare {s : Reading} (h : s.Steady) : s.bare.Steady :=
  ⟨h.plain, h.sound, h.fuel⟩

/-- A step on another text leaves the cursor alone. -/
@[spec high]
theorem fragment_ends {text : String} {step : ReadM α} (hs : s₀.Steady)
    (h : ∀ s, s.Steady → s.window.raw = false → Ends s step fun _ _ => True) :
    Ends s₀ (fragment text step) fun _ s => s.window.index = s₀.window.index := by
  have hpeek := ends_iff.mp (peek_ends hs)
  rw [ends_iff, fragment]
  cases hlook : peek s₀ with
  | error e s =>
      rw [hlook] at hpeek
      rw [bind_of_error hlook]
      exact hpeek
  | ok t s =>
      rw [hlook] at hpeek
      obtain ⟨hs₁, hto, hindex, -⟩ := hpeek
      rw [bind_of_ok hlook]
      let inner : Reading := { s with
        window := .ofTokens (Token.ofTextAt t.location text)
        flattened := [], constructors := [], warnings := #[] }
      have hinner : inner.Steady :=
        ⟨hs₁.plain, Token.sound_scan _ _ _ _, hs₁.fuel⟩
      have hrun := ends_iff.mp (h inner hinner rfl)
      dsimp only [around]
      cases hstep : step inner with
      | error e s' =>
          rw [hstep] at hrun
          exact hrun
      | ok a s' =>
          rw [hstep] at hrun
          exact ⟨⟨hrun.1.plain, hs₁.sound, hrun.1.fuel⟩, ⟨hto.index_le, hto.raw, hto.thins⟩,
            hindex⟩

@[spec high]
theorem attempt_ends {step : ReadM Bool} {Q : Bool → Reading → Prop} (h : Ends s₀ step Q) :
    Ends s₀ (attempt step) fun matched s =>
      if matched then Q true s else s.window.index = s₀.window.index := by
  unfold attempt
  mvcgen [h]
  all_goals grind -linarith

end ReadM

/-- No type is bound to a template parameter without a name. -/
def Scope.Named (scope : Scope) : Prop :=
  ∀ map ∈ scope.template, map.binding? "" = none

namespace TemplateMap

/-- The parameters have names, and no type is bound to a name that is empty around them. -/
structure Worded (map : TemplateMap) : Prop where
  names : ∀ p ∈ map.frame.parameters, p.1 ≠ ""
  outer : ∀ frame ∈ map.outer, frame.bound? "" = none

variable {map : TemplateMap}

theorem Worded.binding?_eq_none (h : map.Worded) : map.binding? "" = none := by
  have hlookup : map.frame.parameters.lookup "" = none := by
    rw [List.lookup_eq_none_iff]
    exact fun p hp => by simpa using (h.names p hp).symm
  have hframe : map.frame.bound? "" = none := by
    rw [TemplateFrame.bound?, hlookup]
    rfl
  rw [binding?, frames, List.findSome?_eq_none_iff]
  exact List.forall_mem_cons.mpr ⟨hframe, h.outer⟩

theorem worded_inside {scope : Scope} (h : scope.Named) : (inside scope.template).Worded where
  names _ hp := by cases hp
  outer frame hframe := by
    cases htemplate : scope.template with
    | none => simp [inside, htemplate] at hframe
    | some map =>
        have hbinding := h map htemplate
        rw [binding?, List.findSome?_eq_none_iff] at hbinding
        exact hbinding frame (by simpa [inside, htemplate] using hframe)

theorem mem_set {parameters : List (String × Option NativeType)} {name : String}
    {type : Option NativeType} {p : String × Option NativeType}
    (h : p ∈ TemplateFrame.set parameters name type) : p ∈ parameters ∨ p.1 = name := by
  induction parameters with
  | nil => simp_all [TemplateFrame.set]
  | cons q parameters ih =>
      unfold TemplateFrame.set at h
      grind

theorem Worded.declare (h : map.Worded) {name : String} (hname : name ≠ "") :
    (map.declare name).Worded where
  names p hp := by
    obtain hold | hnew := mem_set hp
    · exact h.names p hold
    · exact hnew ▸ hname
  outer := h.outer

theorem Worded.declarePack (h : map.Worded) {name : String} (hname : name ≠ "") :
    (map.declarePack name).Worded :=
  ⟨(h.declare hname).names, h.outer⟩

end TemplateMap

end HeaderPeers

import HeaderPeers.Proofs.Instances
import HeaderPeers.Proofs.Reading.Visible
import HeaderPeers.Proofs.ScopeLoop

/-!
# What starts with plain words

Most declarations start with a word of their own, some of them behind other words. So
they are not recognized where only plain words stand, up to some mark.

- `Statement.StartsPlain` — plain words in front of a mark.
- `Statement.StartsPlain.attempts` — neither a directive, a block, an enumeration, a class nor
  an alias is recognized there.
-/

namespace HeaderPeers

open ReadM

variable {s : Reading} {t u stop : Token} {ts us ws : List Token}

/-- Words that start a declaration, and those that may stand in front of one. -/
def Keyword.starts : Keyword → Bool
  | .extern_ | .inline_ | .namespace_ | .enum_ | .class_ | .struct_ | .union_ | .friend_
  | .typedef_ | .using_ | .template_ | .private_ | .protected_ | .public_ => true
  | _ => false

theorem Token.isKeyword_of_isKeywordWith {p : Keyword → Bool} (h : t.isKeywordWith p = false)
    (word : Keyword) (hword : p word = true) : t.isKeyword word = false := by
  by_contra hkeyword
  have hkind : t.kind = .keyword word := by simpa [isKeyword] using hkeyword
  simp [isKeywordWith, hkind, hword] at h

theorem Token.isAnyKeyword_of_isKeywordWith {p : Keyword → Bool} (h : t.isKeywordWith p = false)
    (words : List Keyword) (hwords : ∀ word ∈ words, p word = true) :
    t.isAnyKeyword words = false := by
  by_contra hany
  unfold isAnyKeyword isKeywordWith at hany
  split at hany
  next word hkind =>
    have hp := hwords word (by simpa using hany)
    simp [isKeywordWith, hkind, hp] at h
  · simp at hany

theorem Token.isKeywordWith_of_isWord (h : t.isWord = false) (p : Keyword → Bool) :
    t.isKeywordWith p = false := by
  unfold isWord at h
  unfold isKeywordWith
  split at h
  · cases h
  · cases h
  next hkeyword =>
    split
    next word hkind => exact absurd hkind (hkeyword word)
    · rfl

namespace Statement

variable {readScope : Class.ScopeReader} {scope : Scope}

/-- What recognizes nothing leaves no trace. -/
theorem attempt_of_passes {step : ReadM Bool} (us : List Token)
    (h : Passes step s us (· = false)) :
    attempt step s = .ok false s := by
  obtain ⟨_, j, hstep, -, rfl⟩ := h
  have hcursor : cursor s = .ok s.window.index s := rfl
  unfold attempt
  rw [bind_of_ok hcursor, bind_of_ok hstep]
  rfl

theorem tryAll_append {steps : List (ReadM Bool)} (more : List (ReadM Bool))
    (h : ∀ step ∈ steps, attempt step s = .ok false s) :
    tryAll (steps ++ more) s = tryAll more s := by
  induction steps with
  | nil => rfl
  | cons step steps ih =>
      rw [List.cons_append, tryAll_of_false (h step List.mem_cons_self)]
      exact ih fun step hstep => h step (List.mem_cons_of_mem _ hstep)

/-- Where the first of two questions is answered with no, the second is not asked. -/
theorem passes_andM_of_false {first second : ReadM Bool} (h : Passes first s us (· = false)) :
    Passes (first <&&> second) s us (· = false) :=
  h.bind_eq fun _ hsees => passes_pure hsees rfl

/-- Plain words up to a token that is none: they start no declaration by themselves. -/
structure StartsPlain (ws : List Token) (stop : Token) : Prop where
  words : ∀ t ∈ ws, t.isWord = true ∧ t.is "#" = false ∧ t.isKeywordWith Keyword.starts = false
  isEof : stop.isEof = false
  isWord : stop.isWord = false
  isHash : stop.is "#" = false

namespace StartsPlain

theorem tail (h : StartsPlain (t :: ws) stop) : StartsPlain ws stop :=
  ⟨fun u hu => h.words u (List.mem_cons_of_mem _ hu), h.isEof, h.isWord, h.isHash⟩

/-- The first token starts no declaration. -/
theorem exists_first (h : StartsPlain ws stop) (ts : List Token) :
    ∃ first rest, ws ++ stop :: ts = first :: rest ∧ first.isEof = false ∧
      first.is "#" = false ∧ first.isKeywordWith Keyword.starts = false := by
  cases ws with
  | nil =>
      exact ⟨stop, ts, rfl, h.isEof, h.isHash, Token.isKeywordWith_of_isWord h.isWord _⟩
  | cons w ws =>
      obtain ⟨hword, hrest⟩ := h.words w List.mem_cons_self
      exact ⟨w, ws ++ stop :: ts, rfl, Token.isEof_of_isWord hword, hrest⟩

/-- A loop that passes plain words stops behind them, by induction on them. -/
theorem iterateUpTo_passes {σ β : Type} {turn : σ → ReadM (Turn σ β)} (state : Token → σ) {result : β}
    (h : StartsPlain ws stop)
    (hword : ∀ t u s us, t.isWord = true → t.isKeywordWith Keyword.starts = false →
      s.Sees (t :: u :: us) → Passes (turn (state t)) s (u :: us) (· = .again (state u)))
    (hstop : ∀ s, s.Sees (stop :: ts) →
      Passes (turn (state stop)) s (stop :: ts) (· = .done result))
    {first : Token} {n : Nat} (hsees : s.Sees (ws ++ stop :: ts))
    (hfirst : (ws ++ stop :: ts).head? = some first) (hn : ws.length < n) :
    Passes (iterateUpTo turn n (state first)) s (stop :: ts) (· = result) := by
  induction ws generalizing s first n with
  | nil =>
      obtain rfl := Option.some.inj hfirst
      obtain ⟨n, rfl⟩ := Nat.exists_eq_add_one.mpr hn
      exact iterateUpTo_done ((hstop s hsees).imp fun r hr => ⟨_, hr, rfl⟩)
  | cons t ws ih =>
      obtain rfl := Option.some.inj hfirst
      obtain ⟨n, rfl⟩ := Nat.exists_eq_add_one.mpr (Nat.zero_lt_of_lt hn)
      obtain ⟨u, us, hnext⟩ : ∃ u us, ws ++ stop :: ts = u :: us := by
        cases ws with
        | nil => exact ⟨stop, ts, rfl⟩
        | cons w ws => exact ⟨w, _, rfl⟩
      rw [List.cons_append, hnext] at hsees
      obtain ⟨hisWord, -, hplain⟩ := h.words t List.mem_cons_self
      refine iterateUpTo_again ((hword t u s us hisWord hplain hsees).imp fun r hr => ⟨_, hr, rfl⟩) ?_
      rintro _ j rfl hsees
      exact ih h.tail (hnext ▸ hsees) (by rw [hnext]; rfl) (Nat.lt_of_succ_lt_succ hn)

theorem toEnum_passes (h : StartsPlain ws stop) (hsees : s.Sees (ws ++ stop :: ts)) :
    Passes Enumeration.toEnum s (stop :: ts) (· = false) := by
  obtain ⟨first, rest, hfirst, -⟩ := h.exists_first ts
  unfold Enumeration.toEnum
  rw [hfirst] at hsees
  refine (peek_passes hsees).bind_eq fun j hsees => iterate_passes hsees fun n hn => ?_
  have hlength : ws.length < n := by
    rw [← hfirst, List.length_append, List.length_cons] at hn
    omega
  refine iterateUpTo_passes id h ?_ ?_ (hfirst ▸ hsees) (by rw [hfirst]; rfl) hlength
  · intro t u s us hword hplain hsees
    dsimp only [id]
    rw [if_neg (by simp [Token.isEof_of_isWord hword]),
      if_neg (by simp [Token.isKeyword_of_isKeywordWith hplain .enum_ rfl]),
      if_neg (by simp [hword])]
    exact (advance_passes hsees).bind_eq fun j hsees => passes_pure hsees rfl
  · intro s hsees
    have hplain := Token.isKeywordWith_of_isWord h.isWord Keyword.starts
    dsimp only [id]
    rw [if_neg (by simp [h.isEof]),
      if_neg (by simp [Token.isKeyword_of_isKeywordWith hplain .enum_ rfl]),
      if_pos (by simp [h.isWord])]
    exact passes_pure hsees rfl

theorem toKeyword_passes (h : StartsPlain ws stop) (hsees : s.Sees (ws ++ stop :: ts)) :
    Passes Class.toKeyword s (stop :: ts) (· = none) := by
  obtain ⟨first, rest, hfirst, -⟩ := h.exists_first ts
  unfold Class.toKeyword
  rw [hfirst] at hsees
  refine (peek_passes hsees).bind_eq fun j hsees => iterate_passes hsees fun n hn => ?_
  have hlength : ws.length < n := by
    rw [← hfirst, List.length_append, List.length_cons] at hn
    omega
  refine iterateUpTo_passes (fun t => (false, t)) h ?_ ?_ (hfirst ▸ hsees)
    (by rw [hfirst]; rfl) hlength
  · intro t u s us hword hplain hsees
    dsimp only
    rw [if_neg (by simp [Token.isEof_of_isWord hword]),
      if_neg (by simp [Token.isAnyKeyword_of_isKeywordWith hplain [.class_, .struct_, .union_]
        (by simp [Keyword.starts])]),
      if_neg (by simp [Token.isKeyword_of_isKeywordWith hplain .friend_ rfl]),
      if_neg (by simp [hword])]
    exact (advance_passes hsees).bind_eq fun j hsees => passes_pure hsees rfl
  · intro s hsees
    have hplain := Token.isKeywordWith_of_isWord h.isWord Keyword.starts
    dsimp only
    rw [if_neg (by simp [h.isEof]),
      if_neg (by simp [Token.isAnyKeyword_of_isKeywordWith hplain [.class_, .struct_, .union_]
        (by simp [Keyword.starts])]),
      if_neg (by simp [Token.isKeyword_of_isKeywordWith hplain .friend_ rfl]),
      if_pos (by simp [h.isWord])]
    exact passes_pure hsees rfl

section Attempts

variable (h : StartsPlain ws stop) (hsees : s.Sees (ws ++ stop :: ts))
include h hsees

/-- A question for a word that starts a declaration is answered with no. -/
theorem peek_isKeyword_passes {word : Keyword} (hword : word.starts = true) :
    Passes (do return (← peek).isKeyword word) s (ws ++ stop :: ts) (· = false) := by
  obtain ⟨first, rest, hfirst, -, -, hplain⟩ := h.exists_first ts
  rw [hfirst] at hsees ⊢
  exact (peek_passes hsees).bind_eq fun _ hsees =>
    passes_pure hsees (Token.isKeyword_of_isKeywordWith hplain word hword)

theorem attempt_directive : attempt (Directive.read scope) s = .ok false s := by
  obtain ⟨first, rest, hfirst, -, hhash, -⟩ := h.exists_first ts
  rw [hfirst] at hsees
  refine attempt_of_passes (first :: rest) ?_
  unfold Directive.read
  refine (peek_passes hsees).bind_eq fun j hsees => ?_
  rw [if_pos (by simp [hhash])]
  exact passes_pure hsees rfl

theorem attempt_linkage : attempt (Namespace.readLinkageWith readScope scope) s = .ok false s := by
  refine attempt_of_passes (ws ++ stop :: ts) ?_
  unfold Namespace.readLinkageWith
  refine (passes_andM_of_false (h.peek_isKeyword_passes hsees rfl)).bind_eq fun j hsees => ?_
  exact passes_pure hsees rfl

theorem attempt_namespace : attempt (Namespace.readWith readScope scope) s = .ok false s := by
  obtain ⟨first, rest, hfirst, -, -, hplain⟩ := h.exists_first ts
  refine attempt_of_passes (ws ++ stop :: ts) ?_
  unfold Namespace.readWith
  refine (passes_andM_of_false (h.peek_isKeyword_passes hsees rfl)).bind_eq fun j hsees => ?_
  rw [if_neg (by simp)]
  rw [hfirst] at hsees ⊢
  refine (peek_passes hsees).bind_eq fun j hsees => ?_
  rw [if_pos (by simp [Token.isKeyword_of_isKeywordWith hplain .namespace_ rfl])]
  exact passes_pure hsees rfl

theorem attempt_enumeration : attempt (Enumeration.read scope) s = .ok false s := by
  obtain ⟨first, rest, hfirst, -⟩ := h.exists_first ts
  refine attempt_of_passes (stop :: ts) ?_
  rw [hfirst] at hsees
  unfold Enumeration.read
  refine (peek_passes hsees).bind_eq fun j hsees => (peek_passes hsees).bind_eq fun j hsees => ?_
  rw [← hfirst] at hsees
  exact (h.toEnum_passes hsees).bind_eq fun j hsees => passes_pure hsees rfl

theorem attempt_class : attempt (Class.readWith readScope scope) s = .ok false s := by
  obtain ⟨first, rest, hfirst, -⟩ := h.exists_first ts
  refine attempt_of_passes (stop :: ts) ?_
  have hhead : Passes (Class.readHead scope) s (stop :: ts) (· = none) := by
    rw [hfirst] at hsees
    unfold Class.readHead
    refine (peek_passes hsees).bind_eq fun j hsees => (peek_passes hsees).bind_eq fun j hsees => ?_
    rw [← hfirst] at hsees
    exact (h.toKeyword_passes hsees).bind_eq fun j hsees => passes_pure hsees rfl
  unfold Class.readWith
  exact hhead.bind_eq fun j hsees => passes_pure hsees rfl

theorem attempt_typedef : attempt (Alias.readTypedef scope) s = .ok false s := by
  obtain ⟨first, rest, hfirst, -, -, hplain⟩ := h.exists_first ts
  rw [hfirst] at hsees
  refine attempt_of_passes (first :: rest) ?_
  unfold Alias.readTypedef
  refine (peek_passes hsees).bind_eq fun j hsees => (peek_passes hsees).bind_eq fun j hsees => ?_
  rw [if_pos (by simp [Token.isKeyword_of_isKeywordWith hplain .typedef_ rfl])]
  exact passes_pure hsees rfl

theorem attempt_using : attempt (Alias.readUsing scope) s = .ok false s := by
  obtain ⟨first, rest, hfirst, -, -, hplain⟩ := h.exists_first ts
  rw [hfirst] at hsees
  refine attempt_of_passes (first :: rest) ?_
  unfold Alias.readUsing
  refine (peek_passes hsees).bind_eq fun j hsees => ?_
  rw [if_pos (by simp [Token.isKeyword_of_isKeywordWith hplain .using_ rfl])]
  exact passes_pure hsees rfl

/-- **Plain words** are left to functions and variables. -/
theorem tryAll_eq : tryAll (recognizers readScope scope) s =
    tryAll [Function.read scope, Variable.read scope] s := by
  change tryAll ([Directive.read scope, Namespace.readLinkageWith readScope scope,
    Namespace.readWith readScope scope, Enumeration.read scope, Class.readWith readScope scope,
    Alias.readTypedef scope, Alias.readUsing scope] ++ _) s = _
  refine tryAll_append _ fun step hstep => ?_
  simp only [List.mem_cons, List.not_mem_nil, or_false] at hstep
  obtain rfl | rfl | rfl | rfl | rfl | rfl | rfl := hstep
  · exact h.attempt_directive hsees
  · exact h.attempt_linkage hsees
  · exact h.attempt_namespace hsees
  · exact h.attempt_enumeration hsees
  · exact h.attempt_class hsees
  · exact h.attempt_typedef hsees
  · exact h.attempt_using hsees

end Attempts

end StartsPlain

end Statement

end HeaderPeers

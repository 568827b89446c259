import HeaderPeers.Proofs.Instances

/-!
# The loop over a scope

The declarations of a scope are read in a loop, one statement in each turn. The
turns decide whether the scope is read: what is done before and behind them
does not fail.
-/

namespace HeaderPeers.Statement

open ReadM

/-- One turn of the loop over the declarations of a scope. -/
def scopeTurn (readScope : Class.ScopeReader) (scope : Scope) : ReadM (Turn Scope Unit) := do
  let t ← peek
  if t.isEof || t.is "\x7d" then return .done ()
  let scope ← readAccess scope t
  read readScope scope
  return .again scope

variable {readScope : Class.ScopeReader} {scope : Scope} {s s' : Reading}

/-- The state in which the first turn starts. -/
def opened (s : Reading) : Reading :=
  { s with outline.statement := {} }

/-- A number of turns of the loop over a scope. -/
inductive Turns (readScope : Class.ScopeReader) : Nat → Scope → Reading → Scope → Reading → Prop
  | none (scope : Scope) (s : Reading) : Turns readScope 0 scope s scope s
  | turn {n : Nat} {scope scope₁ scope' : Scope} {s s₁ s' : Reading}
      (first : scopeTurn readScope scope s = .ok (.again scope₁) s₁)
      (more : Turns readScope n scope₁ s₁ scope' s') : Turns readScope (n + 1) scope s scope' s'

theorem Turns.iterateUpTo_eq {n : Nat} {scope' : Scope} {s' : Reading}
    (h : Turns readScope n scope s scope' s') (m : Nat) :
    iterateUpTo (scopeTurn readScope) (n + m) scope s =
      iterateUpTo (scopeTurn readScope) m scope' s' := by
  induction h with
  | none => rw [Nat.zero_add]
  | turn first more ih =>
      rw [Nat.add_right_comm, iterateUpTo, bind_of_ok first]
      exact ih

/-- The last comment of a scope changes the cursor and the outline only. -/
theorem readLastComment_ok (s : Reading) :
    ∃ i outline, readLastComment s = .ok () { s.atIndex i with outline } := by
  have htake : ∃ comment i, Comment.takeBefore s = .ok comment (s.atIndex i) := ⟨_, _, rfl⟩
  obtain ⟨comment, i, htake⟩ := htake
  unfold readLastComment
  rw [bind_of_ok htake]
  by_cases hempty : (Text.trim comment).isEmpty = true
  · refine ⟨i, s.outline, ?_⟩
    rw [if_neg (by simp [hempty])]
    rfl
  · refine ⟨i, (s.outline.add s.table (.ofComment comment)).2, ?_⟩
    rw [if_pos (by simpa using hempty)]
    rfl

/-- A scope is read if its turns are. -/
theorem readAllWith_eq_ok
    (h : iterateUpTo (scopeTurn readScope) (opened s).bound scope (opened s) = .ok () s') :
    ∃ i outline, readAllWith readScope scope s = .ok () { s'.atIndex i with outline } := by
  obtain ⟨i, outline, hlast⟩ := readLastComment_ok s'
  refine ⟨i, { outline with statement := s.outline.statement }, ?_⟩
  have hloop : iterate scope (scopeTurn readScope) (opened s) = .ok () s' := h
  change (iterate scope (scopeTurn readScope) >>= _) (opened s) = _
  rw [bind_of_ok hloop, bind_of_ok hlast]
  rfl

/-- A failure of the turns is a failure of the scope. -/
theorem readAllWith_eq_error {e : Failure}
    (h : iterateUpTo (scopeTurn readScope) (opened s).bound scope (opened s) = .error e s') :
    readAllWith readScope scope s = .error e s' := by
  have hloop : iterate scope (scopeTurn readScope) (opened s) = .error e s' := h
  change (iterate scope (scopeTurn readScope) >>= _) (opened s) = _
  exact bind_of_error hloop _

/-- A token that is no access label changes no access. -/
theorem readAccess_of_not_label {t : Token} (hbound : 0 < s.bound)
    (h : t.isAnyKeyword [.private_, .protected_, .public_] = false) :
    readAccess scope t s = .ok scope s := by
  obtain ⟨n, hn⟩ := Nat.exists_eq_add_one.mpr hbound
  unfold readAccess iterate
  have hget : (get : ReadM Reading) s = .ok s s := rfl
  rw [bind_of_ok hget, hn]
  simp only [iterateUpTo, h]
  rfl

/-- Where no semicolon is seen, none is passed. -/
theorem skipSemicolons_of_not {t : Token} (hbound : 0 < s.bound) (hpeek : peek s = .ok t s)
    (h : t.is ";" = false) : skipSemicolons s = .ok () s := by
  obtain ⟨n, hn⟩ := Nat.exists_eq_add_one.mpr hbound
  have hget : (get : ReadM Reading) s = .ok s s := rfl
  have hturn : (do
      if !(← peek).is ";" then return .done ()
      let _ ← advance
      return .again () : ReadM (Turn Unit Unit)) s = .ok (.done ()) s := by
    rw [bind_of_ok hpeek, h]
    rfl
  unfold skipSemicolons iterate
  rw [bind_of_ok hget, hn, iterateUpTo, bind_of_ok hturn]
  rfl

/-- What stands in front of a statement without template parameters changes the outline only. -/
theorem readOpening_eq_none {comment : String} {t : Token} (scope : Scope)
    (hcomment : Comment.takeBefore s = .ok comment s') (hpeek : peek s' = .ok t s')
    (ht : t.isKeyword .template_ = false) :
    ∃ outline, readOpening scope s = .ok none { s' with outline } := by
  have htemplate : TemplateMap.read scope s' = .ok none s' := by
    unfold TemplateMap.read
    rw [bind_of_ok hpeek, ht]
    rfl
  have hfront : readFront scope s = .ok (comment, none) s' := by
    unfold readFront
    rw [bind_of_ok hcomment, bind_of_ok hpeek, bind_of_ok htemplate]
    rfl
  unfold readOpening
  rw [bind_of_ok hfront]
  by_cases hempty : comment.isEmpty = true
  · refine ⟨s'.outline.beginStatement scope.inaccessible none, ?_⟩
    simp only [openWith, hempty]
    rfl
  · refine ⟨((s'.outline.beginStatement scope.inaccessible none).add s'.table
      (.ofComment comment)).2, ?_⟩
    simp only [openWith, hempty]
    rfl

end HeaderPeers.Statement

import HeaderPeers.Reading.Basic

/-!
# What a step of reading gives

A step may fail, and it may run out of fuel. `Yields` speaks of what it gives
if it gives anything, whatever the state it starts in, and follows the way
steps are put together: sequences, loops and recursions.
-/

namespace HeaderPeers

namespace Reading

/-- The state with the cursor elsewhere. -/
def atIndex (s : Reading) (i : Nat) : Reading :=
  { s with window.index := i }

variable {s : Reading} {i : Nat}

@[simp, grind =]
theorem atIndex_index : (s.atIndex i).window.index = i := rfl

@[simp, grind =]
theorem atIndex_size : (s.atIndex i).window.size = s.window.size := rfl

end Reading

namespace ReadM

variable {α β σ : Type}

/-- What a sequence gives, its second step gives. -/
theorem bind_eq_ok {step : ReadM α} {next : α → ReadM β} {s s' : Reading} {b : β}
    (h : (step >>= next) s = .ok b s') :
    ∃ a s₁, step s = .ok a s₁ ∧ next a s₁ = .ok b s' := by
  change EStateM.bind step next s = _ at h
  unfold EStateM.bind at h
  split at h
  next a s₁ ha => exact ⟨a, s₁, ha, h⟩
  · cases h

/-- A sequence goes on where its first step ends. -/
theorem bind_of_ok {step : ReadM α} {s s₁ : Reading} {a : α} (h : step s = .ok a s₁)
    (next : α → ReadM β) : (step >>= next) s = next a s₁ := by
  change EStateM.bind step next s = _
  rw [EStateM.bind, h]

/-- A sequence depends on what its first step does only. -/
theorem bind_congr_run {step step' : ReadM α} {s s' : Reading} (h : step s = step' s')
    (next : α → ReadM β) : (step >>= next) s = (step' >>= next) s' := by
  change EStateM.bind step next s = EStateM.bind step' next s'
  rw [EStateM.bind, EStateM.bind, h]

theorem bind_of_error {step : ReadM α} {s s₁ : Reading} {e : Failure}
    (h : step s = .error e s₁) (next : α → ReadM β) : (step >>= next) s = .error e s₁ := by
  change EStateM.bind step next s = _
  rw [EStateM.bind, h]

/-- An attempt moves the cursor back, and does nothing else. -/
theorem attempt_eq_ok {step : ReadM Bool} {s s' : Reading} {b : Bool}
    (h : attempt step s = .ok b s') :
    ∃ s₁, step s = .ok b s₁ ∧
      s' = if b then s₁ else { s₁ with window.index := s.window.index } := by
  obtain ⟨back, _, hback, h⟩ := bind_eq_ok h
  cases hback
  obtain ⟨matched, s₁, hstep, h⟩ := bind_eq_ok h
  cases matched <;> cases h <;> exact ⟨_, hstep, rfl⟩

/-- Whether a step gives something. -/
def gives (step : ReadM α) (s : Reading) : Bool :=
  match step s with
  | .ok _ _ => true
  | .error _ _ => false

/-- What a step gives. -/
def given [Inhabited α] (step : ReadM α) (s : Reading) : α :=
  match step s with
  | .ok a _ => a
  | .error _ _ => default

/-- The state behind a step. -/
def behind (step : ReadM α) (s : Reading) : Reading :=
  match step s with
  | .ok _ s' => s'
  | .error _ s' => s'

/-- A run on a closed input, by what can be computed of it. -/
theorem eq_ok_of_gives [Inhabited α] {step : ReadM α} {s : Reading} (h : gives step s = true) :
    step s = .ok (given step s) (behind step s) := by
  unfold gives at h
  unfold given behind
  split at h
  next a s' hstep => rw [hstep]
  · cases h

theorem given_of_eq_ok [Inhabited α] {step : ReadM α} {s s' : Reading} {a : α}
    (h : step s = .ok a s') : given step s = a := by
  unfold given
  rw [h]

/-- Whatever the step gives has the property. -/
def Yields (step : ReadM α) (P : α → Prop) : Prop :=
  ∀ s a s', step s = .ok a s' → P a

theorem yields_pure {a : α} {P : α → Prop} (h : P a) : Yields (pure a) P := by
  intro s b s' hb
  cases hb
  exact h

theorem yields_none {P : α → Prop} : Yields (pure none) fun r => ∀ a ∈ r, P a :=
  yields_pure (by simp)

theorem yields_some {a : α} {P : α → Prop} (h : P a) :
    Yields (pure (some a)) fun r => ∀ b ∈ r, P b :=
  yields_pure (by simpa using h)

theorem yields_throw {e : Failure} {P : α → Prop} : Yields (throw e) P := by
  intro s a s' h
  cases h

/-- A sequence gives what its second step gives, for what the first one gave. -/
theorem Yields.bind {step : ReadM α} {next : α → ReadM β} {P : α → Prop} {Q : β → Prop}
    (h : Yields step P) (hnext : ∀ a, P a → Yields (next a) Q) :
    Yields (step >>= next) Q := by
  intro s b s' hrun
  obtain ⟨a, s₁, ha, hb⟩ := bind_eq_ok hrun
  exact hnext a (h s a s₁ ha) s₁ b s' hb

theorem yields_bind {step : ReadM α} {next : α → ReadM β} {Q : β → Prop}
    (hnext : ∀ a, Yields (next a) Q) : Yields (step >>= next) Q :=
  Yields.bind (P := fun _ => True) (fun _ _ _ _ => trivial) fun a _ => hnext a

/-- What is asked of a turn: `I` if the loop goes on, `P` of what it gives. -/
def Turn.Meets (I : σ → Prop) (P : β → Prop) : Turn σ β → Prop
  | .again state => I state
  | .done result => P result

theorem yields_iterateUpTo {I : σ → Prop} {P : β → Prop} {turn : σ → ReadM (Turn σ β)}
    (hturn : ∀ state, I state → Yields (turn state) (Turn.Meets I P)) (n : Nat) :
    ∀ state, I state → Yields (iterateUpTo turn n state) P := by
  induction n with
  | zero => exact fun state _ => yields_throw
  | succ n ih =>
      intro state hstate
      rw [iterateUpTo]
      refine (hturn state hstate).bind fun r hr => ?_
      cases r with
      | again state' => exact ih state' hr
      | done result => exact yields_pure hr

/-- **Loops.** If each turn keeps `I` and each result of the last one has the
property, so has what the loop gives. -/
theorem yields_iterate {I : σ → Prop} {P : β → Prop} {start : σ}
    {turn : σ → ReadM (Turn σ β)} (hstart : I start)
    (hturn : ∀ state, I state → Yields (turn state) (Turn.Meets I P)) :
    Yields (iterate start turn) P :=
  yields_bind fun s => yields_iterateUpTo hturn s.bound start hstart

/-- **Recursions.** Nothing need be known of the inner calls. -/
theorem yields_nest {body : (α → ReadM β) → α → ReadM β} {a : α} {P : β → Prop}
    (h : ∀ inner, Yields (body inner a) P) : Yields (nest body a) P := by
  refine yields_bind fun s => ?_
  cases s.bound with
  | zero => exact yields_throw
  | succ n => exact h (nestUpTo body n)

end ReadM

end HeaderPeers

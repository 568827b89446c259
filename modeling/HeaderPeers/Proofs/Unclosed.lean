import HeaderPeers.Proofs.Class.Body
import HeaderPeers.Proofs.Declarator.Front
import HeaderPeers.Proofs.EndOfInput
import HeaderPeers.Proofs.Function.Parameters
import HeaderPeers.Proofs.Instances
import HeaderPeers.Proofs.ScopeLoop

/-!
# Bodies that are not closed

A body can be open where the input ends. The bodies of namespaces, of linkage
specifications and of enumerations then make reading fail, at the end of the input
and from any depth. The body of a class is read as if it had been closed.

- `Statement.toStatement`, `Namespace.toBlock`, `Namespace.toLinkage`,
  `Enumeration.toBody` — the steps that lead to a statement and into its body.
- `Statement.Comes` — reading a scope comes to a statement, maybe in a block inside.
- `Statement.Cut` — the input ends in the body of a statement.
- `Statement.unclosed_bodies` — what becomes of bodies that are not closed.
-/

set_option mvcgen.warning false

namespace HeaderPeers

open ReadM

variable {readScope : Class.ScopeReader} {scope inner : Scope} {s s₁ s' : Reading} {t : Token}
  {e : Failure}

/-- Nothing that is expected is found at the end of the input. -/
theorem ReadM.expect_at_end (hend : s.SeesEnd t) (texts : List String) :
    expect t texts s = .error t.unexpected s := by
  have hnone : t.isAny texts = false := by
    rw [Token.isAny, List.any_eq_false]
    exact fun text _ => by simp [Token.is_of_isEof hend.isEof]
  rw [expect, hnone]
  rfl

/-! ## Blocks -/

namespace Namespace

/-- Goes into the body of a namespace and gives its scope; none if there is no body to be
read. -/
def toBlock (scope : Scope) : ReadM (Option Scope) := do
  let isInline ← (do return (← peek).isKeyword .inline_) <&&>
    (do return (← peekAt 1).isKeyword .namespace_)
  if isInline then let _ ← advance
  if !(← peek).isKeyword .namespace_ then return none
  let _ ← peek
  let first ← advance
  let (name, t) ← iterate ("", first) fun (name, t) => do
    if !(t.isWord || t.is "::") then return .done (name, t)
    return .again (name ++ t.text, ← advance)
  if t.is "=" then return none
  expect t ["\x7b"]
  if name.isEmpty then return none
  let _ ← advance
  return some (if isInline then scope else innerScope scope name)

/-- Goes into the braces of a linkage specification; tells whether there are any. -/
def toLinkage : ReadM Bool := do
  let isLinkage ← (do return (← peek).isKeyword .extern_) <&&>
    (do return (← peekAt 1).kind == .string)
  if !isLinkage then return false
  expect (← advance) ["\"C\"", "\"C++\""]
  if !(← advance).is "\x7b" then return false
  let _ ← advance
  return true

theorem readWith_of_toBlock (h : toBlock scope s = .ok (some inner) s₁) :
    readWith readScope scope s = (readBlock readScope inner >>= leaveSpacing) s₁ := by
  unfold toBlock at h
  obtain ⟨isInline, s₂, hinline, h⟩ := bind_eq_ok h
  unfold readWith
  rw [bind_of_ok hinline]
  -- what follows does not depend on whether a word was passed over in front
  have hmore : ∀ {s₃ : Reading}, (do
      if !(← peek).isKeyword .namespace_ then return none
      let _ ← peek
      let first ← advance
      let (name, t) ← iterate ("", first) fun (name, t) => do
        if !(t.isWord || t.is "::") then return .done (name, t)
        return .again (name ++ t.text, ← advance)
      if t.is "=" then return none
      expect t ["\x7b"]
      if name.isEmpty then return none
      let _ ← advance
      return some (if isInline then scope else innerScope scope name) : ReadM (Option Scope)) s₃ =
        .ok (some inner) s₁ → (do
      if !(← peek).isKeyword .namespace_ then return false
      let spacing := (← peek).spacing
      let first ← advance
      let (name, t) ← iterate ("", first) fun (name, t) => do
        if !(t.isWord || t.is "::") then return .done (name, t)
        return .again (name ++ t.text, ← advance)
      if t.is "=" then
        skipStatement
        return ← leaveSpacing spacing
      expect t ["\x7b"]
      if name.isEmpty then
        let _ ← skipBody
        return ← leaveSpacing spacing
      let _ ← advance
      leaveSpacing (← readBlock readScope
        (if isInline then scope else innerScope scope name)) : ReadM Bool) s₃ =
        (readBlock readScope inner >>= leaveSpacing) s₁ := by
    intro s₃ h
    obtain ⟨word, s₄, hword, h⟩ := bind_eq_ok h
    rw [bind_of_ok hword]
    split at h
    · cases h
    next hnamespace =>
      obtain ⟨same, s₅, hsame, h⟩ := bind_eq_ok h
      obtain ⟨first, s₆, hfirst, h⟩ := bind_eq_ok h
      obtain ⟨⟨name, t⟩, s₇, hname, h⟩ := bind_eq_ok h
      rw [if_neg hnamespace, bind_of_ok hsame, bind_of_ok hfirst, bind_of_ok hname]
      dsimp only at h ⊢
      split at h
      · cases h
      next halias =>
        obtain ⟨_, s₈, hbrace, h⟩ := bind_eq_ok h
        rw [if_neg halias, bind_of_ok hbrace]
        split at h
        · cases h
        next hnamed =>
          obtain ⟨_, s₉, hadvance, h⟩ := bind_eq_ok h
          cases h
          rw [if_neg hnamed, bind_of_ok hadvance]
  cases isInline with
  | false => exact hmore h
  | true =>
      obtain ⟨_, s₃, hadvance, h⟩ := bind_eq_ok h
      simp only [if_true]
      rw [bind_of_ok hadvance]
      exact hmore h

theorem readLinkageWith_of_toLinkage (h : toLinkage s = .ok true s₁) :
    readLinkageWith readScope scope s =
      (readBlock readScope scope >>= fun _ => leaveSpacing "") s₁ := by
  unfold toLinkage at h
  obtain ⟨isLinkage, s₂, hlinkage, h⟩ := bind_eq_ok h
  unfold readLinkageWith
  rw [bind_of_ok hlinkage]
  cases isLinkage with
  | false => cases h
  | true =>
      simp only [Bool.not_true, Bool.false_eq_true, if_false] at h ⊢
      obtain ⟨language, s₃, hlanguage, h⟩ := bind_eq_ok h
      obtain ⟨_, s₄, hexpect, h⟩ := bind_eq_ok h
      obtain ⟨brace, s₅, hbrace, h⟩ := bind_eq_ok h
      rw [bind_of_ok hlanguage, bind_of_ok hexpect, bind_of_ok hbrace]
      split at h
      · cases h
      next hopen =>
        obtain ⟨_, s₆, hadvance, h⟩ := bind_eq_ok h
        cases h
        rw [if_neg hopen, bind_of_ok hadvance]

/-- A block that is open at the end of the input fails there. -/
theorem readBlock_fails_at_end (hbody : readScope scope s = .ok () s') (hend : s'.SeesEnd t) :
    readBlock readScope scope s = .error t.unexpected s' := by
  unfold readBlock
  rw [bind_of_ok hbody, bind_of_ok hend.seen]
  exact bind_of_error (expect_at_end hend _) _

theorem readBlock_fails (h : readScope scope s = .error e s') :
    readBlock readScope scope s = .error e s' :=
  bind_of_error h _

end Namespace

/-! ## Enumerations -/

namespace Enumeration

/-- Goes to the body of an enumeration; none if this is no enumeration with a body. -/
def toBody (scope : Scope) : ReadM (Option Head) := do
  let spacing := (← peek).spacing
  let isTypedef := (← peek).isKeyword .typedef_
  if !(← toEnum) then return none
  match ← readHead scope spacing isTypedef with
  | none => return none
  | some (head, t) =>
    if t.is ";" && !head.name.isEmpty && !head.isTypedef then return none
    if !t.is "\x7b" then return none
    return some head

/-- What stands in front of the names of the enumerators. -/
def Head.path (head : Head) (scope : Scope) : String :=
  if head.isScoped then scope.qualifyLocal head.name ++ "::"
  else (scope.path.map (· ++ "::")).getD ""

theorem read_of_toBody {head : Head} (h : toBody scope s = .ok (some head) s₁) :
    read scope s = readBody scope head s₁ := by
  unfold toBody at h
  obtain ⟨t₁, s₂, hfirst, h⟩ := bind_eq_ok h
  obtain ⟨t₂, s₃, hsecond, h⟩ := bind_eq_ok h
  obtain ⟨isEnum, s₄, henum, h⟩ := bind_eq_ok h
  unfold read
  rw [bind_of_ok hfirst, bind_of_ok hsecond, bind_of_ok henum]
  cases isEnum with
  | false => cases h
  | true =>
      simp only [Bool.not_true, Bool.false_eq_true, if_false] at h ⊢
      obtain ⟨found, s₅, hhead, h⟩ := bind_eq_ok h
      rw [bind_of_ok hhead]
      cases found with
      | none => cases h
      | some found =>
          obtain ⟨head', t⟩ := found
          dsimp only at h ⊢
          split at h
          · cases h
          next hdeclared =>
            split at h
            · cases h
            next hbrace =>
              cases h
              rw [if_neg hdeclared, if_neg hbrace]

/-- An enumeration that is open at the end of the input fails there. -/
theorem readBody_fails_at_end {head : Head} {entries : List EnumEntry}
    (hentries : readEntries scope (head.path scope) s = .ok entries s') (hend : s'.SeesEnd t) :
    ∃ s'', readBody scope head s = .error t.unexpected s'' := by
  obtain ⟨comment, i, hcomment, hatEnd⟩ := hend.takeBefore
  have hends : (s'.atIndex i).SeesEnd t :=
    hend.eq_endToken ▸ Reading.seesEnd_of_atEnd hend.cooked hend.bound_pos hatEnd
  have hadvance : advance (s'.atIndex i) = .ok t (s'.atIndex i) :=
    hend.eq_endToken ▸ Reading.advance_of_atEnd hend.cooked hend.bound_pos hatEnd
  refine ⟨s'.atIndex i, ?_⟩
  unfold readBody
  change (readEntries scope (head.path scope) >>= _) s = _
  rw [bind_of_ok hentries, bind_of_ok hcomment, bind_of_ok hadvance]
  simp only [Token.isWord_of_isEof hend.isEof, Bool.false_eq_true, if_false]
  exact bind_of_error (expect_at_end hends _) _

end Enumeration

/-! ## Classes -/

namespace Class

/-- Behind the last token the end of a class is found at once. -/
theorem readEnd_at_end (hraw : s.window.raw = false) (hbound : 0 < s.bound)
    (hend : s.window.AtEnd) : readEnd s = .ok "" s := by
  obtain ⟨n, hn⟩ := Nat.exists_eq_add_one.mpr hbound
  have hadvance := Reading.advance_of_atEnd hraw hbound hend
  unfold readEnd
  rw [bind_of_ok hadvance]
  have hloop : iterate (Window.endToken s.window.tokens) (fun t => do
      if t.isEof then return .done ""
      if t.is ";" then return .done t.spacing
      return .again (← advance)) s = .ok "" s := by
    have hget : (get : ReadM Reading) s = .ok s s := rfl
    unfold iterate
    rw [bind_of_ok hget, hn, iterateUpTo]
    simp only [Window.isEof_endToken, if_true]
    rfl
  rw [bind_of_ok hloop, bind_of_ok hadvance]
  rfl

theorem remember_ok (nativeName text : String) (rule : Option Rule) (members : List Declaration)
    (s : Reading) : ∃ s', remember nativeName rule text members s = .ok () s' ∧
      s'.window = s.window ∧ s'.fuel = s.fuel := by
  unfold remember
  by_cases hflatten : rule.any (·.flatten) = true <;>
    by_cases hmembers : (members.filter (·.isConstructor)).isEmpty = true <;>
    simp only [hflatten, hmembers] <;> exact ⟨_, rfl, rfl, rfl⟩

/-- **Classes at the end.** A class of which the body is open at the end of the input is read as if
it had been closed there. -/
theorem Body.read_at_end {c : Body} {u : Token} {members : Outline}
    (hadvance : advance s = .ok u s₁)
    (hmembers : readInside readScope c.scope (c.inner s₁.table) c.vars s₁ = .ok members s')
    (hraw : s'.window.raw = false) (hbound : 0 < s'.bound) (hend : s'.window.AtEnd) :
    ∃ s'', c.read readScope s = .ok true s'' ∧ s''.window = s'.window := by
  have hadd {text : String} {s₂ : Reading} (hwindow : s₂.window = s'.window)
      (hfuel : s₂.fuel = s'.fuel) : ∃ s'', (do
        let ending ← readEnd
        let _ ← add (c.declaration (text ++ ending))
        return true : ReadM Bool) s₂ = .ok true s'' ∧ s''.window = s'.window := by
    have hends : readEnd s₂ = .ok "" s₂ := by
      refine readEnd_at_end (hwindow ▸ hraw) ?_ (hwindow ▸ hend)
      rwa [Reading.bound, hwindow, hfuel]
    rw [bind_of_ok hends]
    exact ⟨_, rfl, hwindow⟩
  unfold Body.read readBody
  rw [bind_of_ok hadvance]
  have htable : (table : ReadM RuleTable) s₁ = .ok s₁.table s₁ := rfl
  rw [bind_of_ok htable]
  dsimp only
  rw [show innerScope c.scope s₁.table c.type c.rule c.head.isPrivate c.isAnonymous =
    c.inner s₁.table from rfl, bind_of_ok hmembers]
  have hinherited : ∃ text, inheritedText c.scope (c.base :: c.others) s' = .ok text s' := ⟨_, rfl⟩
  obtain ⟨text, hinherited⟩ := hinherited
  rw [bind_of_ok hinherited]
  obtain ⟨s₂, hremember, hwindow, hfuel⟩ := remember_ok c.type.nativeName
    (memberText (makingOf members.toList c.rule c.scope.cOnly) members.toList ++ text) c.rule
    members.toList s'
  rw [bind_of_ok hremember]
  cases hanonymous : c.isAnonymous with
  | true =>
      simp only [if_true]
      exact hadd hwindow hfuel
  | false =>
      obtain ⟨start, outline, hindent⟩ : ∃ start outline, indent c.head.spacing
          (c.head.type.annotations ++ headText c.scope c.name c.type.nativeName c.base.targetName
            (c.inner s₁.table).virtualize c.head.isDerived
            (makingOf members.toList c.rule c.scope.cOnly)
            ++ String.join (c.others.map (castText c.type.targetName)) ++ "\n") s₂ =
          .ok start { s₂ with outline } := ⟨_, _, rfl⟩
      have hpeek : peek { s₂ with outline } =
          .ok (Window.endToken s₂.window.tokens) { s₂ with outline } := by
        refine Reading.peek_of_atEnd (hwindow ▸ hraw) ?_ (hwindow ▸ hend)
        rwa [Reading.bound, hwindow, hfuel]
      simp only [Bool.false_eq_true, if_false]
      rw [bind_of_ok hindent, bind_of_ok hpeek]
      exact hadd hwindow hfuel

end Class

/-! ## Lists of parameters -/

/-- A number of turns of a loop, none of which ends it. -/
inductive ReadM.Laps {σ β : Type} (turn : σ → ReadM (Turn σ β)) :
    Nat → σ → Reading → σ → Reading → Prop
  | none (a : σ) (s : Reading) : Laps turn 0 a s a s
  | lap {n : Nat} {a b c : σ} {s s₁ s' : Reading} (first : turn a s = .ok (.again b) s₁)
      (more : Laps turn n b s₁ c s') : Laps turn (n + 1) a s c s'

theorem ReadM.Laps.iterateUpTo_eq {σ β : Type} {turn : σ → ReadM (Turn σ β)} {n : Nat} {a b : σ}
    (h : Laps turn n a s b s') (m : Nat) :
    iterateUpTo turn (n + m) a s = iterateUpTo turn m b s' := by
  induction h with
  | none => rw [Nat.zero_add]
  | lap first more ih =>
      rw [Nat.add_right_comm, iterateUpTo, bind_of_ok first]
      exact ih

/-- A loop goes on where its first turns lead. -/
theorem ReadM.Laps.iterate_eq {σ β : Type} {turn : σ → ReadM (Turn σ β)} {n : Nat} {a b : σ}
    (h : Laps turn n a s b s') (hn : n < s.bound) :
    ∃ m, iterate a turn s = iterateUpTo turn (m + 1) b s' := by
  obtain ⟨m, hm⟩ := Nat.exists_eq_add_of_lt hn
  have hget : (get : ReadM Reading) s = .ok s s := rfl
  refine ⟨m, ?_⟩
  rw [iterate, bind_of_ok hget, hm, Nat.add_assoc, h.iterateUpTo_eq]

namespace Parameters

variable {readDeclarator : DeclaratorReader} {choice : Int} {keep : Option Nat}
  {p q : Progress}

/-- The list at the cursor is read up to a token that starts a parameter or stands in its place:
complete parameters come before it. -/
structure Enters (readDeclarator : DeclaratorReader) (scope : Scope) (choice : Int)
    (keep : Option Nat) (s : Reading) (p : Progress) (t : Token) (s' : Reading) : Prop where
  reads : ∃ opening front first start n, peek s = .ok opening front ∧ opening.is "(" = true ∧
    advance front = .ok first start ∧
    Laps (listTurn readDeclarator scope choice keep) n ({}, first) start (p, t) s' ∧ n < start.bound

/-- A list that is open behind a parameter at the end of the input fails there. -/
theorem Enters.fails (h : Enters readDeclarator scope choice keep s p t s₁)
    (hstarts : t.isEof = false ∧ t.is ")" = false)
    (hone : readOne readDeclarator scope choice keep p t s₁ = .ok (some q) s') {u : Token}
    (hend : s'.SeesEnd u) :
    readWith readDeclarator scope choice keep s = .error u.unexpected s' := by
  obtain ⟨opening, front, first, start, n, hopening, hparen, hadvance, hlaps, hn⟩ := h.reads
  obtain ⟨m, hloop⟩ := hlaps.iterate_eq hn
  have hturn : listTurn readDeclarator scope choice keep (p, t) s₁ = .error u.unexpected s' := by
    unfold listTurn
    simp only [hstarts.1, hstarts.2, Bool.false_eq_true, if_false]
    rw [bind_of_ok hone]
    dsimp only
    rw [bind_of_ok hend.seen]
    exact bind_of_error (expect_at_end hend _) _
  have hlist : readList readDeclarator scope choice keep front = .error u.unexpected s' := by
    change (advance >>= fun first =>
      iterate (({} : Progress), first) (listTurn readDeclarator scope choice keep)) front = _
    rw [bind_of_ok hadvance, hloop, iterateUpTo]
    exact bind_of_error hturn _
  have hcursor : cursor front = .ok front.window.index front := rfl
  unfold readWith
  rw [bind_of_ok hopening, if_neg (by simp [hparen]), bind_of_ok hcursor]
  exact bind_of_error hlist _

/-- A list that is open behind its parenthesis or a comma is read as if it had been closed there. -/
theorem Enters.readWith_at_end (h : Enters readDeclarator scope choice keep s p t s')
    (hend : t.isEof = true) (hkeep : keep = none ∨ p.namesSkipped = false) :
    ∃ parameters, readWith readDeclarator scope choice keep s = .ok (some parameters) s' := by
  obtain ⟨opening, front, first, start, n, hopening, hparen, hadvance, hlaps, hn⟩ := h.reads
  obtain ⟨m, hloop⟩ := hlaps.iterate_eq hn
  have hturn : listTurn readDeclarator scope choice keep (p, t) s' = .ok (.done (some p)) s' := by
    unfold listTurn
    simp only [hend, if_true]
    rfl
  have hlist : readList readDeclarator scope choice keep front = .ok (some p) s' := by
    change (advance >>= fun first =>
      iterate (({} : Progress), first) (listTurn readDeclarator scope choice keep)) front = _
    rw [bind_of_ok hadvance, hloop, iterateUpTo, bind_of_ok hturn]
    rfl
  have hcursor : cursor front = .ok front.window.index front := rfl
  unfold readWith
  rw [bind_of_ok hopening, if_neg (by simp [hparen]), bind_of_ok hcursor, bind_of_ok hlist]
  dsimp only
  cases hskipped : p.namesSkipped with
  | false => exact ⟨_, rfl⟩
  | true =>
      obtain rfl : keep = none := hkeep.resolve_right (by simp [hskipped])
      exact ⟨_, rfl⟩

end Parameters

namespace Declarator

variable {request : DeclaratorRequest} {f : Front} {d : Draft} {reader : DeclaratorReader}

/-- Goes from the name of a declarator to its parameters. -/
def toList (request : DeclaratorRequest) (f : Front) : ReadM Draft := do
  let dims ← DeclaredName.readDims f.name.dims
  let d ← (f.shaped request dims).readBitfield
  let d ← d.readMapping request f.isTypedef f.isUsing
  let s ← get
  let n := f.named request dims
  let d := { d with declarator.nativeName := n.name }
  return d.nameBy s.table request.scope s.usings f.hint n.isOperator request.defaultName.isSome

theorem readRest_fails (h : toList request f s = .ok d s₁)
    (hlist : Parameters.readWith reader request.scope request.choice request.keepDefaults s₁ =
      .error e s') : readRest reader request f s = .error e s' := by
  unfold toList at h
  obtain ⟨dims, s₂, hdims, h⟩ := bind_eq_ok h
  obtain ⟨d₁, s₃, hbitfield, h⟩ := bind_eq_ok h
  obtain ⟨d₂, s₄, hmapping, h⟩ := bind_eq_ok h
  obtain ⟨_, s₅, hget, h⟩ := bind_eq_ok h
  cases hget
  cases h
  have hget : (get : ReadM Reading) s₁ = .ok s₁ s₁ := rfl
  unfold readRest
  rw [bind_of_ok hdims, bind_of_ok hbitfield, bind_of_ok hmapping, bind_of_ok hget]
  refine bind_of_error ?_ _
  exact bind_of_error hlist _

/-- Where a list of parameters fails, the declarator does. -/
theorem read_fails {n : Nat} (hbound : s.bound = n + 1) {front : Reading}
    (hfront : readFront request s = .ok (some f) front) (h : toList request f front = .ok d s₁)
    (hlist : Parameters.readWith (nestUpTo readWith n) request.scope request.choice
      request.keepDefaults s₁ = .error e s') : read request s = .error e s' := by
  have hget : (get : ReadM Reading) s = .ok s s := rfl
  unfold read nest
  rw [bind_of_ok hget, hbound]
  change readWith (nestUpTo readWith n) request s = _
  rw [readWith_eq, bind_of_ok hfront]
  exact bind_of_error (readRest_fails h hlist) _

end Declarator

namespace Function

/-- Goes behind the type of a function: its start, the type, and whether parentheses follow. -/
def toBehind (scope : Scope) : ReadM (Option (Nat × NativeType × Bool)) := do
  let _ ← peek
  let isFriend := (← peek).isKeyword .friend_
  if isFriend then let _ ← advance
  let start ← cursor
  match ← NativeType.read scope with
  | none => return none
  | some type => return some (start, type, (← peek).is "(")

/-- Reading a function comes to its list of parameters: right behind the type, as for a constructor,
or behind the name. -/
inductive ComesToList (scope : Scope) (s : Reading) : DeclaratorReader → Reading → Prop
  | behindType {start : Nat} {type : NativeType} {isInvocation : Bool} {s' : Reading}
      (front : toBehind scope s = .ok (some (start, type, isInvocation)) s') :
      ComesToList scope s Declarator.read s'
  | behindName {start n : Nat} {type again : NativeType} {isInvocation : Bool}
      {parameters : Option Parameters} {f : Declarator.Front} {d : Draft}
      {s₁ s₂ s₃ s₄ s' : Reading}
      (front : toBehind scope s = .ok (some (start, type, isInvocation)) s₁)
      (looked : Parameters.read scope 0 none s₁ = .ok parameters s₂)
      (named : type.targetName.isEmpty = false)
      (inside : (scope.group.isNone && !type.operator && isInvocation) = false)
      (retyped : NativeType.read scope (s₂.atIndex start) = .ok (some again) s₃)
      (plain : (again.constructor || again.destructor || again.operator) = false)
      (bound : (s₃.atIndex start).bound = n + 1)
      (named' : Declarator.readFront { scope } (s₃.atIndex start) = .ok (some f) s₄)
      (shaped : Declarator.toList { scope } f s₄ = .ok d s') :
      ComesToList scope s (nestUpTo Declarator.readWith n) s'

theorem behind_eq_ok {start : Nat} {type : NativeType} {isInvocation : Bool} {s₂ : Reading}
    (front : (do
      let start ← cursor
      match ← NativeType.read scope with
      | none => return none
      | some type => return some (start, type, (← peek).is "(") :
        ReadM (Option (Nat × NativeType × Bool))) s = .ok (some (start, type, isInvocation)) s₂) :
    cursor s = .ok start s ∧
      ∃ s₁ paren, NativeType.read scope s = .ok (some type) s₁ ∧ peek s₁ = .ok paren s₂ ∧
        paren.is "(" = isInvocation := by
  obtain ⟨at', s₁, hcursor, front⟩ := bind_eq_ok front
  cases hcursor
  obtain ⟨found, s₁, htype, front⟩ := bind_eq_ok front
  cases found with
  | none => cases front
  | some found =>
      obtain ⟨paren, s₂, hparen, front⟩ := bind_eq_ok front
      cases front
      exact ⟨rfl, s₁, paren, htype, hparen, rfl⟩

/-- Up to the type both lists are read alike. -/
theorem exists_read_eq {start : Nat} {type : NativeType} {isInvocation : Bool} {s₂ : Reading}
    (front : toBehind scope s = .ok (some (start, type, isInvocation)) s₂) :
    ∃ spacing isFriend, read scope s = (do
      let parameters ← Parameters.read scope 0 none
      if type.targetName.isEmpty then return false
      if scope.group.isNone && !type.operator && isInvocation then
        if parameters.isNone then skipParentheses
        skipTail
        return ← leaveSpacing spacing
      moveTo start
      match ← readDeclarator scope 0 none with
      | none => return false
      | some d =>
        match d.parameters with
        | none => return false
        | some parameters =>
          if d.nativeName.isEmpty || d.type.targetName.isEmpty then return false
          readFound scope spacing start isFriend type.staticMember d parameters) s₂ := by
  unfold toBehind at front
  obtain ⟨t, s₃, hfirst, front⟩ := bind_eq_ok front
  obtain ⟨u, s₄, hagain, front⟩ := bind_eq_ok front
  refine ⟨t.spacing, u.isKeyword .friend_, ?_⟩
  unfold read
  rw [bind_of_ok hfirst, bind_of_ok hagain]
  cases hfriend : u.isKeyword .friend_ with
  | false =>
      rw [hfriend] at front
      obtain ⟨hcursor, s₅, paren, htype, hparen, rfl⟩ := behind_eq_ok front
      simp only [Bool.false_eq_true, if_false]
      rw [bind_of_ok hcursor, bind_of_ok htype]
      exact bind_of_ok hparen _
  | true =>
      rw [hfriend] at front
      obtain ⟨_, s₅, hadvance, front⟩ := bind_eq_ok front
      obtain ⟨hcursor, s₆, paren, htype, hparen, rfl⟩ := behind_eq_ok front
      simp only [if_true]
      rw [bind_of_ok hadvance, bind_of_ok hcursor, bind_of_ok htype]
      exact bind_of_ok hparen _

/-- Where its list of parameters fails, a function does. -/
theorem ComesToList.fails {reader : DeclaratorReader} (h : ComesToList scope s reader s₁)
    (hlist : Parameters.readWith reader scope 0 none s₁ = .error e s') :
    read scope s = .error e s' := by
  cases h with
  | behindType front =>
      obtain ⟨spacing, isFriend, hread⟩ := exists_read_eq front
      rw [hread]
      exact bind_of_error hlist _
  | behindName front looked named inside retyped plain bound named' shaped =>
      obtain ⟨spacing, isFriend, hread⟩ := exists_read_eq front
      have hmove (start : Nat) (s : Reading) : moveTo start s = .ok () (s.atIndex start) := rfl
      have hdeclarator := Declarator.read_fails bound named' shaped hlist
      rw [hread, bind_of_ok looked, named, inside]
      simp only [Bool.false_eq_true, if_false]
      rw [bind_of_ok (hmove _ _)]
      refine bind_of_error ?_ _
      have hcursor (s : Reading) : cursor s = .ok s.window.index s := rfl
      unfold readDeclarator
      rw [bind_of_ok (hcursor _), bind_of_ok retyped]
      dsimp only
      rw [plain]
      simp only [Bool.false_eq_true, if_false]
      rw [bind_of_ok (hmove _ _)]
      exact bind_of_error hdeclarator _

end Function

/-! ## Statements -/

namespace Statement

/-- Goes to the next statement of a scope, and tells in which scope it is read first; none if
there is nothing to be read. -/
def toStatement (scope : Scope) : ReadM (Option Scope) := do
  let t ← peek
  if t.isEof || t.is "\x7d" then return none
  let scope ← readAccess scope t
  let template ← readOpening scope
  let start ← cursor
  let _ ← peek
  match ← nextPass scope (under scope template) template start with
  | .read scope => return some scope
  | .skip => return none

/-- Where the recognizers of a statement fail, the loop over the scope does. -/
theorem scopeTurn_fails (h : toStatement scope s = .ok (some inner) s₁)
    (hfails : tryAll (recognizers readScope inner) s₁ = .error e s') :
    scopeTurn readScope scope s = .error e s' := by
  unfold toStatement at h
  obtain ⟨t, s₂, hpeek, h⟩ := bind_eq_ok h
  unfold scopeTurn
  rw [bind_of_ok hpeek]
  split at h
  · cases h
  next hgoes =>
    obtain ⟨scope₁, s₃, haccess, h⟩ := bind_eq_ok h
    obtain ⟨template, s₄, hopening, h⟩ := bind_eq_ok h
    obtain ⟨start, s₅, hcursor, h⟩ := bind_eq_ok h
    obtain ⟨first, s₆, hfirst, h⟩ := bind_eq_ok h
    obtain ⟨pass, s₇, hpass, h⟩ := bind_eq_ok h
    cases pass with
    | skip => cases h
    | read scope₂ =>
        cases h
        have hone : readOne readScope inner first s₁ = .error e s' := bind_of_error hfails _
        have hread : readPass readScope scope₁ (under scope₁ template) template start first s₆ =
            .error e s' := by
          unfold readPass
          rw [bind_of_ok hpass]
          exact bind_of_error hone _
        rw [if_neg hgoes, bind_of_ok haccess, read_eq]
        refine bind_of_error ?_ _
        rw [bind_of_ok hopening]
        unfold readPasses
        rw [bind_of_ok hcursor, bind_of_ok hfirst]
        exact bind_of_error hread _

/-- Recognizers that find nothing leave it to those behind them. -/
theorem tryAll_behind {steps : List (ReadM Bool)} (k : Nat) :
    ∀ {s : Reading}, tryAll (steps.take k) s = .ok false s₁ →
      tryAll steps s = tryAll (steps.drop k) s₁ := by
  induction k generalizing steps with
  | zero =>
      intro s h
      cases h
      rfl
  | succ k ih =>
      intro s h
      cases steps with
      | nil =>
          cases h
          rfl
      | cons step steps =>
          obtain ⟨⟨⟩, -⟩ | ⟨s₂, hfirst, hrest⟩ := tryAll_cons_eq_ok h
          rw [tryAll_of_false hfirst, ih hrest]
          rfl

/-- The first recognizer that fails ends the attempts. -/
theorem tryAll_fails {step : ReadM Bool} {steps : List (ReadM Bool)}
    (h : step s = .error e s') : tryAll (step :: steps) s = .error e s' := by
  have hcursor : cursor s = .ok s.window.index s := rfl
  have hattempt : attempt step s = .error e s' := by
    unfold attempt
    rw [bind_of_ok hcursor]
    exact bind_of_error h _
  exact bind_of_error hattempt _

/-- The recognizers of a statement come to a block with this scope. -/
inductive OpensBlock (readScope : Class.ScopeReader) (scope : Scope) (s : Reading) :
    Scope → Reading → Prop
  | linkage {s₁ s' : Reading}
      (refused : tryAll ((recognizers readScope scope).take 1) s = .ok false s₁)
      (opened : Namespace.toLinkage s₁ = .ok true s') : OpensBlock readScope scope s scope s'
  | namespace {inner : Scope} {s₁ s' : Reading}
      (refused : tryAll ((recognizers readScope scope).take 2) s = .ok false s₁)
      (opened : Namespace.toBlock scope s₁ = .ok (some inner) s') :
      OpensBlock readScope scope s inner s'

theorem OpensBlock.fails (h : OpensBlock readScope scope s inner s₁)
    (hblock : Namespace.readBlock readScope inner s₁ = .error e s') :
    tryAll (recognizers readScope scope) s = .error e s' := by
  cases h with
  | linkage refused opened =>
      rw [tryAll_behind 1 refused]
      refine tryAll_fails ?_
      rw [Namespace.readLinkageWith_of_toLinkage opened]
      exact bind_of_error hblock _
  | «namespace» refused opened =>
      rw [tryAll_behind 2 refused]
      refine tryAll_fails ?_
      rw [Namespace.readWith_of_toBlock opened]
      exact bind_of_error hblock _

/-- Reading a scope comes to a statement, there or in a block inside: to this depth, this scope
and this state. -/
inductive Comes : Nat → Scope → Reading → Nat → Scope → Reading → Prop
  | statement {depth n : Nat} {scope scope₁ inner : Scope} {s s₁ s' : Reading}
      (turns : Turns (nestUpTo readAllWith depth) n scope (opened s) scope₁ s₁)
      (count : n < (opened s).bound) (reached : toStatement scope₁ s₁ = .ok (some inner) s') :
      Comes (depth + 1) scope s depth inner s'
  | inside {depth depth₁ depth' : Nat} {scope scope₁ inner scope' : Scope}
      {s s₁ s₂ s' : Reading} (outer : Comes depth scope s depth₁ scope₁ s₁)
      (opens : OpensBlock (nestUpTo readAllWith depth₁) scope₁ s₁ inner s₂)
      (within : Comes depth₁ inner s₂ depth' scope' s') : Comes depth scope s depth' scope' s'

/-- A statement that fails makes all scopes around it fail, by induction on the way to it. -/
theorem Comes.fails {depth depth' : Nat} {scope' : Scope}
    (h : Comes depth scope s depth' scope' s₁) : ∀ {s' : Reading},
      tryAll (recognizers (nestUpTo readAllWith depth') scope') s₁ = .error e s' →
      nestUpTo readAllWith depth scope s = .error e s' := by
  induction h with
  | statement turns count reached =>
      intro s' hfails
      obtain ⟨m, hm⟩ := Nat.exists_eq_add_of_lt count
      refine readAllWith_eq_error ?_
      rw [hm, Nat.add_assoc, turns.iterateUpTo_eq, iterateUpTo]
      exact bind_of_error (scopeTurn_fails reached hfails) _
  | inside outer opens within ih ih' =>
      exact fun hfails => ih (opens.fails (Namespace.readBlock_fails (ih' hfails)))

/-- The input ends in the body of a statement, or in its list of parameters behind one of these:
what is inside is complete, only comments are left, and nothing has closed it. -/
inductive Cut (readScope : Class.ScopeReader) (scope : Scope) (s s' : Reading) (t : Token) : Prop
  | block {inner : Scope} {s₁ : Reading} (opens : OpensBlock readScope scope s inner s₁)
      (body : readScope inner s₁ = .ok () s') (ends : s'.SeesEnd t)
  | enumeration {head : Enumeration.Head} {entries : List EnumEntry} {s₁ s₂ : Reading}
      (refused : tryAll ((recognizers readScope scope).take 3) s = .ok false s₁)
      (opened : Enumeration.toBody scope s₁ = .ok (some head) s₂)
      (body : Enumeration.readEntries scope (head.path scope) s₂ = .ok entries s')
      (ends : s'.SeesEnd t)
  | parameters {reader : DeclaratorReader} {p q : Parameters.Progress} {u : Token}
      {s₁ s₂ s₃ : Reading}
      (refused : tryAll ((recognizers readScope scope).take 7) s = .ok false s₁)
      (comes : Function.ComesToList scope s₁ reader s₂)
      (enters : Parameters.Enters reader scope 0 none s₂ p u s₃)
      (starts : u.isEof = false ∧ u.is ")" = false)
      (parameter : Parameters.readOne reader scope 0 none p u s₃ = .ok (some q) s')
      (ends : s'.SeesEnd t)

theorem Cut.seesEnd (h : Cut readScope scope s s' t) : s'.SeesEnd t := by
  cases h <;> assumption

/-- Each of them fails at the end. -/
theorem Cut.fails (h : Cut readScope scope s s' t) :
    ∃ s'', tryAll (recognizers readScope scope) s = .error t.unexpected s'' := by
  cases h with
  | block opens body ends => exact ⟨_, opens.fails (Namespace.readBlock_fails_at_end body ends)⟩
  | enumeration refused opened body ends =>
      obtain ⟨s'', hbody⟩ := Enumeration.readBody_fails_at_end body ends
      refine ⟨s'', ?_⟩
      rw [tryAll_behind 3 refused]
      exact tryAll_fails ((Enumeration.read_of_toBody opened).trans hbody)
  | parameters refused comes enters starts parameter ends =>
      refine ⟨s', ?_⟩
      rw [tryAll_behind 7 refused]
      exact tryAll_fails (comes.fails (enters.fails starts parameter ends))

/-- **What becomes of bodies that are not closed.** If the input ends in the body of a namespace, a
linkage specification or an enumeration, or behind a parameter of a list, reading fails at the end,
from any depth of blocks and whatever was read before. The end is on the last line of the text while
the last token of the text is still there. The body of a class, and a list of parameters behind its
parenthesis or a comma, are read as if they had been closed at the end. -/
theorem unclosed_bodies (file : Option String) (text : String) (table : RuleTable)
    (outline : Outline) (scope : Scope) :
    (∀ (depth : Nat) (inner : Scope) (s₁ s' : Reading) (t : Token),
      let s := { Reading.ofTokens table (Token.ofText file text) with outline }
      Comes s.bound scope s depth inner s₁ → Cut (nestUpTo readAllWith depth) inner s₁ s' t →
      (∃ s'', readAll scope s = .error t.unexpected s'') ∧
        ∀ last, (Token.ofText file text).getLast? = some last →
          s'.window.tokens.back? = some last → t.location.line =
            1 + (Text.replace "\r" "\n" (Text.replace "\r\n" "\n" text)).toList.count '\n') ∧
    (∀ (readScope : Class.ScopeReader) (c : Class.Body) (u : Token) (members : Outline)
      (s s₁ s' : Reading), advance s = .ok u s₁ →
      Class.readInside readScope c.scope (c.inner s₁.table) c.vars s₁ = .ok members s' →
      s'.window.raw = false → 0 < s'.bound → s'.window.AtEnd →
      ∃ s'', c.read readScope s = .ok true s'' ∧ s''.window = s'.window) ∧
    ∀ (reader : DeclaratorReader) (choice : Int) (p : Parameters.Progress) (t : Token)
      (s s' : Reading), Parameters.Enters reader scope choice none s p t s' → t.isEof = true →
      ∃ parameters, Parameters.readWith reader scope choice none s = .ok (some parameters) s' := by
  refine ⟨fun depth inner s₁ s' t hcomes hcut => ⟨?_, fun last hlast htokens => ?_⟩,
    fun readScope c u members s s₁ s' hadvance hmembers hraw hbound hend =>
      Class.Body.read_at_end hadvance hmembers hraw hbound hend,
    fun reader choice p t s s' henters hend => henters.readWith_at_end hend (Or.inl rfl)⟩
  · obtain ⟨s'', hfails⟩ := hcut.fails
    exact ⟨s'', hcomes.fails hfails⟩
  · rw [hcut.seesEnd.eq_endToken]
    exact Token.line_of_endToken hlast htokens

/-- The enumeration behind the variable is read up to the end. -/
theorem enumeration_reaches_end (text : String) (s : Reading)
    (htext : text = "int a;\nenum E \x7b\n  A,")
    (hs : s = Reading.ofTokens {} (Token.ofText none text)) :
    (match scopeTurn (nestUpTo readAllWith (s.bound - 1)) {} (opened s) with
      | .ok (.again scope₁) s₁ => match toStatement scope₁ s₁ with
        | .ok (some inner) s₂ =>
          match tryAll ((recognizers (nestUpTo readAllWith (s.bound - 1)) inner).take 3) s₂ with
          | .ok false s₃ => match Enumeration.toBody inner s₃ with
            | .ok (some head) s₄ => match Enumeration.readEntries inner (head.path inner) s₄ with
              | .ok _ s₅ => !s₅.window.raw && decide (0 < s₅.bound) &&
                  decide (s₅.window.size ≤ s₅.window.index) &&
                  decide (s₅.window.tokens.back? = (Token.ofText none text).getLast?)
              | _ => false
            | _ => false
          | _ => false
        | _ => false
      | _ => false) = true := by
  subst hs htext
  decide +kernel

/-- An enumeration without its brace, behind a variable. -/
theorem unclosed_enumeration :
    let text := "int a;\nenum E \x7b\n  A,"
    let s := Reading.ofTokens {} (Token.ofText none text)
    ∃ depth inner s₁ s' t s'', Comes s.bound {} s depth inner s₁ ∧
      Cut (nestUpTo readAllWith depth) inner s₁ s' t ∧
      readAll {} s = .error t.unexpected s'' ∧ t.location.line = 3 := by
  intro text s
  have hrun := enumeration_reaches_end text s rfl rfl
  have hbound : s.bound = s.bound - 1 + 1 := by decide +kernel
  split at hrun
  · next scope₁ s₁ hturn =>
    split at hrun
    · next inner s₂ hreached =>
      split at hrun
      · next s₃ hrefused =>
        split at hrun
        · next head s₄ hopened =>
          split at hrun
          · next entries s₅ hentries =>
            simp only [Bool.and_eq_true, Bool.not_eq_true', decide_eq_true_eq] at hrun
            obtain ⟨⟨⟨hraw, hpositive⟩, hend⟩, hlast⟩ := hrun
            have hcut := Cut.enumeration hrefused hopened hentries
              (Reading.seesEnd_of_atEnd hraw hpositive hend)
            have hcomes : Comes s.bound {} s (s.bound - 1) inner s₂ := by
              rw [hbound]
              exact .statement (.turn hturn (.none _ _)) (by decide +kernel) hreached
            obtain ⟨⟨s'', hfails⟩, hline⟩ :=
              (unclosed_bodies none text {} {} {}).1 (s.bound - 1) inner s₂ s₅ _ hcomes hcut
            obtain ⟨last, hsome⟩ : ∃ last, (Token.ofText none text).getLast? = some last :=
              Option.isSome_iff_exists.mp (by decide +kernel)
            refine ⟨_, _, _, _, _, s'', hcomes, hcut, hfails, ?_⟩
            rw [hline last hsome (hlast.trans hsome)]
            decide +kernel
          · cases hrun
        · cases hrun
      · cases hrun
    · cases hrun
  · cases hrun

/-- The members of a class are read, and so are the parameters of a function, although nothing
closes them. -/
theorem unclosed_class_is_read :
    (perform (readAll {}) (.ofTokens {} (Token.ofText none "struct S \x7b int a;"))).1.toOption =
        some () ∧
      (perform (readAll {}) (.ofTokens {} (Token.ofText none "int f(int a,"))).1.toOption =
        some () ∧
      (perform (readAll {}) (.ofTokens {} (Token.ofText none "int f(int a"))).1.toOption = none := by
  decide +kernel

end Statement

end HeaderPeers

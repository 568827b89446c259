import HeaderPeers.Function.Reader
import HeaderPeers.Proofs.Function.Written
import HeaderPeers.Proofs.Reading.Ahead

/-!
# What stands behind the parameters

Qualifiers, a type that is returned, a value, member initializers, and a body or a
semicolon: the tail of a function is read where the function is printed, and passed
over where it is left out.

- `Function.Tail` — the tails of functions.
- `Function.readTrailer_skipDefinition` — the main statement: both get behind the
  tail, unless a type stands in it; then the tail is left where it does.
- `Function.returned_type_stays`, `Function.comment_takes_body` — texts that are not
  passed over.
-/

namespace HeaderPeers

open ReadM

variable {table : RuleTable} {s : Reading} {c e last m o t u v w : Token}
  {ts us vs ws inner rest : List Token} {n : Nat}

/-! ## Qualifiers -/

/-- A word as it is read from a text. -/
structure Token.IsLexedWord (t : Token) : Prop where
  isWord : t.isWord = true
  word : Text.isWord t.text.toList = true

namespace Token.IsLexedWord

theorem isEof_eq (h : t.IsLexedWord) : t.isEof = false := by
  have hword := h.isWord
  by_contra heof
  have hkind : t.kind = .eof := by simpa [isEof] using heof
  simp [Token.isWord, hkind] at hword

theorem is_eq (h : t.IsLexedWord) (text : String) (htext : Text.isWord text.toList = false) :
    t.is text = false := by
  have hne : t.text ≠ text := by
    rintro rfl
    rw [h.word] at htext
    cases htext
  simp [is, hne]

end Token.IsLexedWord

namespace Function

/-- Words behind the parameters, some of them with arguments in parentheses; and what stands
behind them. -/
inductive Qualifiers (table : RuleTable) : List Token → List Token → Prop where
  | nil (ts : List Token) : Qualifiers table ts ts
  | word {w u : Token} {ts us vs : List Token} (fronts : Fronts table ts [w, u] us)
      (isWord : w.IsLexedWord) (alone : u.is "(" = false) (more : Qualifiers table (u :: us) vs) :
      Qualifiers table ts vs
  | call {w o c : Token} {ts inner us vs : List Token}
      (fronts : Fronts table ts [w, o] (inner ++ c :: us)) (isWord : w.IsLexedWord)
      (opens : o.IsMark "(") (inside : Nested "(" ")" inner) (closes : c.IsMark ")")
      (more : Qualifiers table us vs) : Qualifiers table ts vs

/-- Member initializers, or what stands behind a mark, up to the semicolon or the body. The last
token before is known: braces behind a word or a closing bracket belong to an initializer. -/
inductive Initializers (table : RuleTable) : Token → List Token → List Token → Prop where
  | semicolon {last t : Token} {ts us : List Token} (front : Front table ts t us)
      (ends : t.IsMark ";") : Initializers table last ts ts
  | body {last t : Token} {ts us : List Token} (front : Front table ts t us)
      (opens : t.IsMark "\x7b") (behind : (last.isWord || last.is ">") = false) :
      Initializers table last ts ts
  | token {last t u : Token} {ts us vs : List Token} (fronts : Fronts table ts [t, u] us)
      (inside : t.isEof = false) (plain : t.isAny [";", "(", "\x7b"] = false)
      (more : Initializers table t (u :: us) vs) : Initializers table last ts vs
  | parentheses {last o c u : Token} {ts inner us vs ws : List Token}
      (fronts : Fronts table ts (o :: (inner ++ [c])) us) (opens : o.IsMark "(")
      (inside : Nested "(" ")" inner) (closes : c.IsMark ")") (front : Front table us u vs)
      (more : Initializers table c (u :: vs) ws) : Initializers table last ts ws
  | braces {last o c u : Token} {inner us vs ws : List Token} (opens : o.IsMark "\x7b")
      (behind : (last.isWord || last.is ">") = true) (inside : Nested "\x7b" "\x7d" inner)
      (closes : c.IsMark "\x7d") (front : Front table us u vs)
      (more : Initializers table u us ws) : Initializers table last (o :: (inner ++ c :: us)) ws

/-- Member initializers or none, up to the semicolon or the body. -/
inductive Initialized (table : RuleTable) : List Token → List Token → Prop where
  | none {t : Token} {ts us : List Token} (front : Front table ts t us)
      (ends : t.IsMark ";" ∨ t.IsMark "\x7b") : Initialized table ts ts
  | some {m u : Token} {ts us vs : List Token} (fronts : Fronts table ts [m, u] us)
      (colon : m.IsMark ":") (inside : Initializers table m (u :: us) vs) : Initialized table ts vs

/-- A value or none, then initializers. A word that is the value has no body right behind it. -/
inductive Valued (table : RuleTable) : List Token → List Token → Prop where
  | none {ts us : List Token} (h : Initialized table ts us) : Valued table ts us
  | some {m v u : Token} {ts us vs : List Token} (fronts : Fronts table ts [m, v, u] us)
      (equals : m.IsMark "=") (inside : v.isEof = false)
      (single : v.isAny [";", "(", "\x7b"] = false)
      (apart : (v.isWord || v.is ">") = true → u.is "\x7b" = false)
      (h : Initialized table (u :: us) vs) : Valued table ts vs

/-- The end of a tail: its last token, and the text behind it. A body stands where what is in
front of it ends, without comments between. -/
inductive Ending (table : RuleTable) : List Token → Token → List Token → Prop where
  | semicolon {t : Token} {ts us : List Token} (front : Front table ts t us) (ends : t.IsMark ";") :
      Ending table ts t us
  | body {o c : Token} {inner us : List Token} (opens : o.IsMark "\x7b")
      (inside : Nested "\x7b" "\x7d" inner) (closes : c.IsMark "\x7d") :
      Ending table (o :: (inner ++ c :: us)) c us

/-- What stands behind the parameters of a function up to its last token, and whether a type
that is returned is part of it. -/
inductive Tail (table : RuleTable) : Bool → List Token → Token → List Token → Prop where
  | plain {last : Token} {ts us vs ws : List Token} (qualifiers : Qualifiers table ts us)
      (valued : Valued table us vs) (ending : Ending table vs last ws) :
      Tail table false ts last ws
  | returning {a u last : Token} {ts us type vs ws rest : List Token}
      (qualifiers : Qualifiers table ts us) (fronts : Fronts table us (a :: (type ++ [u])) vs)
      (arrow : a.IsMark "->")
      (inside : ∀ t ∈ type, t.isEof = false ∧ t.isAny ["\x7b", ";", "="] = false)
      (stop : u.isAny ["\x7b", ";", "="] = true) (valued : Valued table (u :: vs) ws)
      (ending : Ending table ws last rest) : Tail table true ts last rest

/-- Goes behind the last token of a tail. Behind a body, comments and directives are not
looked at. -/
def leave (last : Token) : ReadM Unit :=
  if last.is "\x7d" then do let _ ← raw advance else do let _ ← advance

/-! ## Reading qualifiers -/

/-- Goes to what ends a type that is returned. -/
def typeTurn : Token → ReadM (Turn Token Unit) := fun t => do
  if t.isEof || t.isAny ["\x7b", ";", "="] then return .done ()
  return .again (← advance)

/-- One turn of reading qualifiers. -/
def qualifierTurn : Bool → ReadM (Turn Bool Bool) := fun isConst => do
  let t ← peek
  if t.isEof then return .done isConst
  let isConst := isConst || t.isKeyword .const_
  if t.is "->" then
    let first ← advance
    iterate first typeTurn
    return .done isConst
  if (← Attribute.read).isNone then return .done isConst
  return .again isConst

theorem readQualifiers_eq : readQualifiers = iterate false qualifierTurn := rfl

/-- One turn of passing over qualifiers. -/
def skippedTurn : Unit → ReadM (Turn Unit Unit) := fun () => do
  if (← peek).isWord then
    if (← Attribute.read).isSome then return .again ()
  return .done ()

theorem skipDefinition_eq : skipDefinition = (do iterate () skippedTurn; skipTail) := rfl


theorem readAttribute_none (h : s.Faces ts) (front : Front s.table ts t us)
    (ht : t.isWord = false) : Moves Attribute.read s ts (·.isNone = true) := by
  unfold Attribute.read
  refine .of_ok (peek_of_faces h front) ?_
  rw [if_pos (by simp [ht])]
  exact moves_pure h rfl

theorem readAttribute_word (h : s.Faces ts) (fronts : Fronts s.table ts [w, u] us)
    (hw : w.isWord = true) (hu : u.is "(" = false) :
    Moves Attribute.read s (u :: us) (·.isNone = false) := by
  unfold Attribute.read
  cases fronts with
  | cons first more =>
      refine .of_ok (peek_of_faces h first) ?_
      rw [if_neg (by simp [hw])]
      have hrule : ReadM.rule? w.text s = .ok (s.table.find? w.text) s := rfl
      refine .of_ok hrule ?_
      refine (advance_moves h (.cons first more)).bind_eq fun l h => ?_
      rw [if_pos (by simp [hu])]
      exact moves_pure h rfl

theorem readAttribute_call (h : s.Faces ts) (fronts : Fronts s.table ts [w, o] (inner ++ c :: us))
    (hw : w.isWord = true) (ho : o.IsMark "(") (inside : Nested "(" ")" inner)
    (hc : c.IsMark ")") : Moves Attribute.read s us (·.isNone = false) := by
  unfold Attribute.read
  cases fronts with
  | cons first more =>
      refine .of_ok (peek_of_faces h first) ?_
      rw [if_neg (by simp [hw])]
      have hrule : ReadM.rule? w.text s = .ok (s.table.find? w.text) s := rfl
      refine .of_ok hrule ?_
      refine (advance_moves h (.cons first more)).bind_eq fun l h => ?_
      rw [if_neg (by simp [ho.is_eq])]
      exact (Attribute.passOver_moves (by decide) inside hc h).bind fun _ m _ h => moves_pure h rfl

theorem Qualifiers.length_le (h : Qualifiers table ts us) : us.length ≤ ts.length := by
  induction h with
  | nil ts => exact Nat.le_refl _
  | word fronts isWord alone more ih =>
      have hlength := fronts.length_le
      simp only [List.length_cons, List.length_nil] at hlength ih
      omega
  | call fronts isWord opens inside closes more ih =>
      have hlength := fronts.length_le
      simp only [List.length_cons, List.length_append, List.length_nil] at hlength
      omega

/-- A loop that reads attributes gets to the end of the qualifiers, by induction on them. -/
theorem iterate_qualifiers {σ β : Type} {turn : σ → ReadM (Turn σ β)} {a : σ} {R : β → Prop}
    (hagain : ∀ {a s ts w us vs}, s.Faces ts → Front s.table ts w us → w.IsLexedWord →
      Moves Attribute.read s vs (·.isNone = false) →
      Moves (turn a) s vs fun r => ∃ a', r = .again a' ∧ True)
    (h : s.Faces ts) (qualifiers : Qualifiers s.table ts us)
    (hstop : ∀ a j n, (s.atIndex j).Faces us →
      Moves (iterateUpTo turn (n + 1) a) (s.atIndex j) ws R) :
    Moves (iterate a turn) s ws R := by
  refine iterate_moves h fun n hn => ?_
  generalize htable : s.table = table at qualifiers
  obtain ⟨n, rfl⟩ := Nat.exists_eq_add_one.mpr (Nat.zero_lt_of_lt hn)
  induction qualifiers generalizing s n a with
  | nil ts => exact hstop a s.window.index n h
  | @word w u ts us vs fronts isWord alone more ih =>
      have hlength := fronts.length_le
      simp only [List.length_cons, List.length_nil] at hlength
      obtain ⟨n, rfl⟩ := Nat.exists_eq_add_one.mpr (show 0 < n by omega)
      subst htable
      have hread := readAttribute_word h fronts isWord.isWord alone
      cases fronts with
      | cons first _ =>
          refine iterateUpTo_moves (hagain h first isWord hread) fun a' j _ h => ?_
          exact ih h hstop rfl n (by rw [List.length_cons]; omega)
  | @call w o c ts inner us vs fronts isWord opens inside closes more ih =>
      have hlength := fronts.length_le
      simp only [List.length_cons, List.length_append, List.length_nil] at hlength
      obtain ⟨n, rfl⟩ := Nat.exists_eq_add_one.mpr (show 0 < n by omega)
      subst htable
      have hread := readAttribute_call h fronts isWord.isWord opens inside closes
      cases fronts with
      | cons first _ =>
          refine iterateUpTo_moves (hagain h first isWord hread) fun a' j _ h => ?_
          exact ih h hstop rfl n (by omega)

/-- Qualifiers are read up to a token that is none. -/
theorem readQualifiers_moves (h : s.Faces ts) (qualifiers : Qualifiers s.table ts us)
    (hstop : ∀ isConst j, (s.atIndex j).Faces us →
      Moves (qualifierTurn isConst) (s.atIndex j) ws fun r => ∃ b, r = .done b ∧ True) :
    Moves readQualifiers s ws fun _ => True := by
  rw [readQualifiers_eq]
  refine iterate_qualifiers ?_ h qualifiers fun isConst j n h => ?_
  · intro isConst s ts w us vs h front hw hread
    unfold qualifierTurn
    refine .of_ok (peek_of_faces h front) ?_
    dsimp only
    rw [hw.isEof_eq, if_neg (by simp), hw.is_eq "->" (by decide), if_neg (by simp)]
    refine hread.bind fun found j hfound h => ?_
    rw [if_neg (by simp [hfound])]
    exact moves_pure h ⟨_, rfl, trivial⟩
  · exact iterateUpTo_stops (hstop isConst j h)

/-- Qualifiers are passed over up to a token that is no word. -/
theorem skipQualifiers_moves (h : s.Faces ts) (qualifiers : Qualifiers s.table ts us)
    (front : Front s.table us m vs) (hm : m.isWord = false) :
    Moves (iterate () skippedTurn) s us fun _ => True := by
  refine iterate_qualifiers ?_ h qualifiers fun _ j n h => ?_
  · intro _ s ts w us vs h front hw hread
    unfold skippedTurn
    refine .of_ok (peek_of_faces h front) ?_
    rw [if_pos hw.isWord]
    refine hread.bind fun found j hfound h => ?_
    rw [if_pos (by simpa [Option.isSome_iff_ne_none] using hfound)]
    exact moves_pure h ⟨(), rfl, trivial⟩
  · refine iterateUpTo_stops ?_
    unfold skippedTurn
    refine .of_ok (peek_of_faces h front) ?_
    rw [if_neg (by simp [hm])]
    exact moves_pure h ⟨(), rfl, trivial⟩

/-- A token that is no word ends the qualifiers. -/
theorem qualifierTurn_stops {isConst : Bool} (h : s.Faces us) (front : Front s.table us m vs)
    (hm : m.isWord = false) (heof : m.isEof = false) (harrow : m.is "->" = false) :
    Moves (qualifierTurn isConst) s us fun r => ∃ b, r = .done b ∧ True := by
  unfold qualifierTurn
  refine .of_ok (peek_of_faces h front) ?_
  dsimp only
  rw [heof, if_neg (by simp), harrow, if_neg (by simp)]
  refine (readAttribute_none h front hm).bind fun found j hfound h => ?_
  rw [if_pos hfound]
  exact moves_pure h ⟨_, rfl, trivial⟩

/-- A type that is returned is passed over, by induction on its tokens. -/
theorem iterateUpTo_type {type : List Token} {first : Token}
    (inside : ∀ t ∈ type, t.isEof = false ∧ t.isAny ["\x7b", ";", "="] = false)
    (stop : u.isAny ["\x7b", ";", "="] = true) (h : s.Faces (first :: ts))
    (fronts : Fronts s.table (first :: ts) (type ++ [u]) us)
    (hfirst : (type ++ [u]).head? = some first) :
    Moves (iterateUpTo typeTurn (type.length + (n + 1)) first) s (u :: us) fun _ => True := by
  induction type generalizing s ts first with
  | nil =>
      obtain rfl := Option.some.inj hfirst
      obtain ⟨-, hrest⟩ := fronts.of_first
      cases hrest
      rw [List.length_nil, Nat.zero_add]
      refine iterateUpTo_stops ?_
      unfold typeTurn
      rw [if_pos (by simp [stop])]
      exact moves_pure h ⟨(), rfl, trivial⟩
  | cons t type ih =>
      obtain rfl := Option.some.inj hfirst
      obtain ⟨heof, hplain⟩ := inside t List.mem_cons_self
      obtain ⟨v, hv⟩ : ∃ v, (type ++ [u]).head? = some v := by
        cases type with
        | nil => exact ⟨u, rfl⟩
        | cons v type => exact ⟨v, rfl⟩
      obtain ⟨ws, hadvance, hrest⟩ := advance_fronts h fronts hv
      rw [List.length_cons, Nat.add_right_comm]
      have hturn : Moves (typeTurn t) s (v :: ws) (· = .again v) := by
        unfold typeTurn
        rw [if_neg (by simp [heof, hplain])]
        exact hadvance.bind_eq fun j h => moves_pure h rfl
      exact iterateUpTo_goes hturn fun j h =>
        ih (fun t ht => inside t (List.mem_cons_of_mem _ ht)) h hrest hv

/-- An arrow is the last qualifier, and the type behind it is passed over. -/
theorem qualifierTurn_arrow {a : Token} {type : List Token} {isConst : Bool} (h : s.Faces us)
    (fronts : Fronts s.table us (a :: (type ++ [u])) vs) (arrow : a.IsMark "->")
    (inside : ∀ t ∈ type, t.isEof = false ∧ t.isAny ["\x7b", ";", "="] = false)
    (stop : u.isAny ["\x7b", ";", "="] = true) :
    Moves (qualifierTurn isConst) s (u :: vs) fun r => ∃ b, r = .done b ∧ True := by
  have hlength := fronts.length_le
  obtain ⟨first, hfirst⟩ : ∃ first, (type ++ [u]).head? = some first := by
    cases type with
    | nil => exact ⟨u, rfl⟩
    | cons v type => exact ⟨v, rfl⟩
  obtain ⟨ws, hadvance, hrest⟩ := advance_fronts h fronts hfirst
  unfold qualifierTurn
  cases fronts with
  | cons front more =>
      refine .of_ok (peek_of_faces h front) ?_
      dsimp only
      rw [arrow.isEof_eq, if_neg (by simp), arrow.is_eq, if_pos (by simp)]
      refine hadvance.bind_eq fun j h => ?_
      suffices htype : Moves (iterate first typeTurn) (s.atIndex j) (u :: vs) fun _ => True from
        htype.bind fun _ k _ h => moves_pure h ⟨_, rfl, trivial⟩
      refine iterate_moves h fun n hn => ?_
      obtain ⟨n, rfl⟩ : ∃ k, n = type.length + (k + 1) := by
        have hrestLength := hrest.length_le
        simp only [List.length_append, List.length_cons, List.length_nil] at hrestLength hn
        exact ⟨n - type.length - 1, by omega⟩
      exact iterateUpTo_type inside stop h hrest hfirst

/-! ## Passing over initializers -/

/-- The depth behind a token. -/
def closingDepth (depth : Int) (t : Token) : Int :=
  if t.is "(" then depth + 1 else if t.is ")" then depth - 1 else depth

/-- One turn of going to the parenthesis that closes the current one. -/
def closingTurn : Int × Token → ReadM (Turn (Int × Token) Token) := fun (depth, t) => do
  if t.isEof then return .done t
  let depth := closingDepth depth t
  if t.is ")" && depth == 0 then return .done t
  return .again (depth, ← advance)

theorem toClosing_eq (first : Token) : toClosing first = iterate ((0 : Int), first) closingTurn := rfl

/-- A token that does not end the group is passed. -/
theorem iterateUpTo_closing_token {depth : Int} {R : Token → Prop} (h : s.Faces ts)
    (fronts : Fronts s.table ts (t :: vs) us) (hu : vs.head? = some u) (inside : t.isEof = false)
    (goes : (t.is ")" && closingDepth depth t == 0) = false)
    (hrest : ∀ j ws, (s.atIndex j).Faces (u :: ws) → Fronts s.table (u :: ws) vs us →
      Moves (iterateUpTo closingTurn n (closingDepth depth t, u)) (s.atIndex j) rest R) :
    Moves (iterateUpTo closingTurn (n + 1) (depth, t)) s rest R := by
  obtain ⟨ws, hadvance, hfronts⟩ := advance_fronts h fronts hu
  have hturn : Moves (closingTurn (depth, t)) s (u :: ws)
      (· = .again (closingDepth depth t, u)) := by
    unfold closingTurn
    dsimp only
    rw [if_neg (by simp [inside]), if_neg (by simp [goes])]
    exact hadvance.bind_eq fun j h => moves_pure h rfl
  exact iterateUpTo_goes hturn fun j h => hrest j ws h hfronts

/-- Inside of the parentheses nothing closes them, by induction on what stands there. -/
theorem iterateUpTo_closing_nested (inside : Nested "(" ")" inner) {depth : Int}
    (hdepth : 0 < depth) {first : Token} {R : Token → Prop} (h : s.Faces (first :: ts))
    (fronts : Fronts s.table (first :: ts) (inner ++ v :: vs) us)
    (hfirst : (inner ++ v :: vs).head? = some first)
    (hrest : ∀ j ws, (s.atIndex j).Faces (v :: ws) → Fronts s.table (v :: ws) (v :: vs) us →
      Moves (iterateUpTo closingTurn n (depth, v)) (s.atIndex j) rest R) :
    Moves (iterateUpTo closingTurn (inner.length + n) (depth, first)) s rest R := by
  have hnext (ts : List Token) (v : Token) (vs : List Token) :
      ∃ u, (ts ++ v :: vs).head? = some u := by
    cases ts with
    | nil => exact ⟨v, rfl⟩
    | cons u ts => exact ⟨u, rfl⟩
  induction inside generalizing s depth first ts v vs n with
  | nil =>
      obtain rfl := Option.some.inj hfirst
      rw [List.length_nil, Nat.zero_add]
      exact hrest s.window.index ts h fronts
  | @token t inner inside opens closes more ih =>
      obtain rfl := Option.some.inj hfirst
      have hpast : closingDepth depth t = depth := by
        rw [closingDepth, if_neg (by simp [opens]), if_neg (by simp [closes])]
      obtain ⟨u, hu⟩ := hnext inner v vs
      rw [List.length_cons, Nat.add_right_comm]
      refine iterateUpTo_closing_token h fronts hu inside (by simp [closes]) fun j ws h fronts => ?_
      rw [hpast]
      exact ih hdepth h fronts hu hrest
  | @group o c inner more opens inside closes _ ihinside ihmore =>
      obtain rfl := Option.some.inj hfirst
      have hopen : closingDepth depth o = depth + 1 := by
        rw [closingDepth, opens.is_eq, if_pos (by simp)]
      have hclose : closingDepth (depth + 1) c = depth := by
        rw [closingDepth, closes.is_eq, closes.is_eq, if_neg (by simp), if_pos (by simp)]
        omega
      have hshape : o :: (inner ++ c :: more) ++ v :: vs = o :: (inner ++ c :: (more ++ v :: vs)) := by
        simp
      have hturns : (o :: (inner ++ c :: more)).length + n = inner.length + (more.length + n + 1) + 1 := by
        simp only [List.length_cons, List.length_append]
        omega
      rw [hshape] at fronts
      rw [hturns]
      obtain ⟨u, hu⟩ := hnext inner c (more ++ v :: vs)
      refine iterateUpTo_closing_token h fronts hu opens.isEof_eq (by simp [opens.is_eq])
        fun j ws h fronts => ?_
      rw [hopen]
      refine ihinside (by omega) h fronts hu fun j ws h fronts => ?_
      obtain ⟨u, hu⟩ := hnext more v vs
      refine iterateUpTo_closing_token h fronts hu closes.isEof_eq ?_ fun j ws h fronts => ?_
      · rw [hclose]
        simp
        omega
      · rw [hclose]
        exact ihmore hdepth h fronts hu hrest

/-- A group in parentheses is passed over up to its last token. -/
theorem toClosing_moves (h : s.Faces ts) (fronts : Fronts s.table ts (o :: (inner ++ [c])) us)
    (opens : o.IsMark "(") (inside : Nested "(" ")" inner) (closes : c.IsMark ")") :
    Moves (toClosing o) s (c :: us) (· = c) := by
  have hlength := fronts.length_le
  rw [toClosing_eq]
  refine iterate_moves h fun n hn => ?_
  obtain ⟨n, rfl⟩ : ∃ k, n = inner.length + (k + 1) + 1 := by
    simp only [List.length_cons, List.length_append, List.length_nil] at hlength
    exact ⟨n - inner.length - 2, by omega⟩
  obtain ⟨u, hu⟩ : ∃ u, (inner ++ [c]).head? = some u := by
    cases inner with
    | nil => exact ⟨c, rfl⟩
    | cons u inner => exact ⟨u, rfl⟩
  have hopen : closingDepth 0 o = 1 := by rw [closingDepth, opens.is_eq, if_pos (by simp)]; rfl
  refine iterateUpTo_closing_token h fronts hu opens.isEof_eq (by simp [opens.is_eq])
    fun j ws h fronts => ?_
  rw [hopen]
  refine iterateUpTo_closing_nested inside (by decide) h fronts hu fun j ws h fronts => ?_
  obtain ⟨-, hrest⟩ := fronts.of_first
  cases hrest
  have hclose : closingDepth 1 c = 0 := by
    rw [closingDepth, closes.is_eq, closes.is_eq, if_neg (by simp), if_pos (by simp)]
    rfl
  refine iterateUpTo_stops ?_
  unfold closingTurn
  dsimp only
  rw [closes.isEof_eq, if_neg (by simp), hclose, closes.is_eq, if_pos (by simp)]
  exact moves_pure h ⟨c, rfl, rfl⟩

/-- One turn of passing over initializers. -/
def initializerTurn : Token × Token → ReadM (Turn (Token × Token) Unit) := fun (last, t) => do
  if t.isEof || t.is ";" then return .done ()
  if t.is "(" then
    let t ← toClosing t
    return .again (t, ← advance)
  else if t.is "\x7b" then
    if !(last.isWord || last.is ">") then return .done ()
    let _ ← skipBody
    let last ← peekAt (-1)
    return .again (last, ← peek)
  else return .again (t, ← advance)

theorem skipInitializers_eq (mark : Token) :
    skipInitializers mark = (advance >>= fun first => iterate (mark, first) initializerTurn) := rfl

/-- Where comments are not visible, there is nothing behind the cursor. -/
theorem peekAt_negative (h : s.window.raw = false) : peekAt (-1) s = peek s := by
  have hposition : s.window.position s.bound s.table (-1) =
      s.window.position s.bound s.table 0 := by
    simp only [Window.position, h, Bool.false_eq_true, if_false]
    rfl
  simp only [peek, peekAt, Window.get, hposition]

/-- Initializers are passed over up to the semicolon or the body, by induction on them. -/
theorem iterateUpTo_initializers {vs : List Token} (h : s.Faces ts)
    (inside : Initializers s.table last ts us) (front : Front s.table ts t vs)
    (hn : ts.length < n) :
    Moves (iterateUpTo initializerTurn n (last, t)) s us fun _ => True := by
  generalize htable : s.table = table at inside
  obtain ⟨n, rfl⟩ := Nat.exists_eq_add_one.mpr (Nat.zero_lt_of_lt hn)
  induction inside generalizing s n t vs with
  | semicolon front' ends =>
      subst htable
      obtain ⟨rfl, rfl⟩ := front.unique front'
      refine iterateUpTo_stops ?_
      unfold initializerTurn
      dsimp only
      rw [if_pos (by simp [ends.is_eq])]
      exact moves_pure h ⟨(), rfl, trivial⟩
  | body front' opens behind =>
      subst htable
      obtain ⟨rfl, rfl⟩ := front.unique front'
      refine iterateUpTo_stops ?_
      unfold initializerTurn
      dsimp only
      rw [if_neg (by simp [opens.is_eq, opens.isEof_eq]), if_neg (by simp [opens.is_eq]),
        if_pos (by simp [opens.is_eq]), if_pos (by simp [behind])]
      exact moves_pure h ⟨(), rfl, trivial⟩
  | @token last t' u ts us ws fronts inside plain more ih =>
      have hlength := fronts.length_le
      simp only [List.length_cons, List.length_nil] at hlength
      obtain ⟨n, rfl⟩ := Nat.exists_eq_add_one.mpr (show 0 < n by omega)
      subst htable
      have hadvance := advance_moves h fronts
      cases fronts with
      | cons first more' =>
          obtain ⟨rfl, rfl⟩ := front.unique first
          cases more' with
          | cons second _ =>
              simp only [Token.isAny, List.any_cons, List.any_nil, Bool.or_false,
                Bool.or_eq_false_iff] at plain
              obtain ⟨hsemicolon, hopening, hbrace⟩ := plain
              have hturn : Moves (initializerTurn (last, t)) s (u :: us) (· = .again (t, u)) := by
                unfold initializerTurn
                dsimp only
                rw [if_neg (by simp [inside, hsemicolon]), if_neg (by simp [hopening]),
                  if_neg (by simp [hbrace])]
                exact hadvance.bind_eq fun j h => moves_pure h rfl
              exact iterateUpTo_goes hturn fun j h =>
                ih h (.here second.calm) rfl n (by rw [List.length_cons]; omega)
  | @parentheses last o c u ts inner us vs' ws fronts opens inside closes front' more ih =>
      have hlength := fronts.length_le
      have hbehind := front'.length_lt
      simp only [List.length_cons, List.length_append, List.length_nil] at hlength
      obtain ⟨n, rfl⟩ := Nat.exists_eq_add_one.mpr (show 0 < n by omega)
      subst htable
      have hclosing := toClosing_moves h fronts opens inside closes
      cases fronts with
      | cons first _ =>
          obtain ⟨rfl, rfl⟩ := front.unique first
          have hturn : Moves (initializerTurn (last, t)) s (u :: vs') (· = .again (c, u)) := by
            unfold initializerTurn
            dsimp only
            rw [if_neg (by simp [opens.is_eq, opens.isEof_eq]), if_pos (by simp [opens.is_eq])]
            refine hclosing.bind_eq fun j h => ?_
            have hfronts : Fronts s.table (c :: us) [c, u] vs' :=
              .cons (.here (closes.calm (by decide))) (.cons front' (.nil _))
            exact (advance_moves h hfronts).bind_eq fun k h => moves_pure h rfl
          exact iterateUpTo_goes hturn fun j h =>
            ih h (.here front'.calm) rfl n (by rw [List.length_cons]; omega)
  | @braces last o c u inner us vs' ws opens behind inside closes front' more ih =>
      have hlength := hn
      simp only [List.length_cons, List.length_append] at hlength
      obtain ⟨n, rfl⟩ := Nat.exists_eq_add_one.mpr (show 0 < n by omega)
      subst htable
      obtain ⟨rfl, rfl⟩ := front.unique (.here (opens.calm (by decide)))
      have hturn : Moves (initializerTurn (last, t)) s us (· = .again (u, u)) := by
        unfold initializerTurn
        dsimp only
        rw [if_neg (by simp [opens.is_eq, opens.isEof_eq]), if_neg (by simp [opens.is_eq]),
          if_pos (by simp [opens.is_eq]), if_neg (by simp [behind])]
        refine (skipBody_moves inside opens closes h).bind fun _ j _ h => ?_
        have hpeek : peek (s.atIndex j) = .ok u (s.atIndex j) := peek_of_faces h front'
        exact .of_ok ((peekAt_negative h.cooked).trans hpeek) (.of_ok hpeek (moves_pure h rfl))
      exact iterateUpTo_goes hturn fun j h => ih h front' rfl n (by omega)

/-! ## Passing over the end -/

/-- Goes behind the body or the semicolon. -/
def skipEnd : ReadM Unit := do
  if !(← skipBody) then
    if (← peek).is ";" then let _ ← advance

theorem skipTail_eq : skipTail = (do
    let t ← peek
    if t.isAny [":", "="] then skipInitializers t
    skipEnd) := rfl

/-- A semicolon is the last token, or the brace that closes the body. -/
theorem skipEnd_eq_leave (h : s.Faces ts) (ending : Ending s.table ts last us) :
    ∃ j vs, (s.atIndex j).Faces vs ∧ Front s.table vs last us ∧
      skipEnd s = leave last (s.atIndex j) := by
  cases ending with
  | semicolon front ends =>
      obtain ⟨found, j, hbody, hfaces, rfl⟩ := skipBody_absent h front (by simp [ends.is_eq])
      refine ⟨j, ts, hfaces, front, ?_⟩
      unfold skipEnd leave
      rw [bind_of_ok hbody, if_pos (by simp), bind_of_ok (peek_of_faces hfaces front),
        ends.is_eq, if_pos (by simp), ends.is_eq, if_neg (by simp)]
  | @body o _ inner _ opens inside closes =>
      obtain ⟨found, j, hbody, hfaces, rfl⟩ := skipBody_moves inside opens closes h
      rw [← List.cons_append] at h
      have hlast := h.append
      generalize s.window.index + (o :: inner).length = k at hlast
      refine ⟨k, _, hlast, .here (closes.calm (by decide)), ?_⟩
      have hnext : ((s.atIndex k).atIndex (k + 1)).Faces us := hlast.tail
      obtain rfl : k + 1 = j := hnext.index_eq hfaces
      have hleave : leave last (s.atIndex k) = .ok () (s.atIndex (k + 1)) := by
        have hraw : raw advance (s.atIndex k) =
            .ok (Window.tokenAt s.window.tokens (k + 1)) (s.atIndex (k + 1)) := by
          let bare : Reading := { s.atIndex k with window.raw := true }
          have hadvance : advance bare = _ := Attribute.advance_raw rfl
          rw [raw, around, hadvance]
          rfl
        unfold leave
        rw [closes.is_eq, if_pos (by simp)]
        exact bind_of_ok hraw _
      unfold skipEnd
      rw [bind_of_ok hbody, if_neg (by simp), hleave]
      rfl

/-- The step gets in front of the text that ends a tail, and goes on from there. -/
def Reaches {α : Type} (step : ReadM α) (s : Reading) (ts : List Token) : Prop :=
  ∃ a j, (s.atIndex j).Faces ts ∧ step s = (do skipEnd; return a) (s.atIndex j)

theorem reaches_skipEnd (h : s.Faces ts) : Reaches skipEnd s ts :=
  ⟨(), s.window.index, h, congrFun (bind_pure_unit (x := skipEnd)).symm s⟩

theorem Reaches.of_moves {α β : Type} {step : ReadM α} {next : α → ReadM β}
    {P : α → Prop} (h : Moves step s ts P)
    (hnext : ∀ a j, P a → (s.atIndex j).Faces ts → Reaches (next a) (s.atIndex j) us) :
    Reaches (step >>= next) s us := by
  obtain ⟨a, j, hstep, hfaces, ha⟩ := h
  obtain ⟨b, k, hfaces', hrest⟩ := hnext a j ha hfaces
  exact ⟨b, k, hfaces', (bind_of_ok hstep next).trans hrest⟩

theorem Reaches.bind_pure {α β : Type} {step : ReadM α} (h : Reaches step s ts) (b : β) :
    Reaches (do let _ ← step; return b) s ts := by
  obtain ⟨a, j, hfaces, hstep⟩ := h
  exact ⟨b, j, hfaces, (bind_congr_run hstep _).trans (by rw [bind_assoc]; rfl)⟩

theorem Reaches.of_ok {α β : Type} {step : ReadM α} {next : α → ReadM β} {a : α}
    (h : step s = .ok a s) (hnext : Reaches (next a) s us) : Reaches (step >>= next) s us := by
  obtain ⟨b, k, hfaces, hrest⟩ := hnext
  exact ⟨b, k, hfaces, (bind_of_ok h next).trans hrest⟩

/-- Initializers behind a mark get to the end of the tail. -/
theorem skipInitializers_moves (h : s.Faces ts) (fronts : Fronts s.table ts [m, u] us)
    (inside : Initializers s.table m (u :: us) vs) :
    Moves (skipInitializers m) s vs fun _ => True := by
  rw [skipInitializers_eq]
  refine (advance_moves h fronts).bind_eq fun j h => iterate_moves h fun n hn => ?_
  cases fronts with
  | cons _ more =>
      cases more with
      | cons second _ => exact iterateUpTo_initializers h inside (.here second.calm) hn

theorem skipTail_reaches_initializers (h : s.Faces ts) (fronts : Fronts s.table ts [m, u] us)
    (hm : m.isAny [":", "="] = true) (inside : Initializers s.table m (u :: us) vs) :
    Reaches skipTail s vs := by
  rw [skipTail_eq]
  cases fronts with
  | cons first more =>
      refine .of_ok (peek_of_faces h first) ?_
      rw [if_pos hm]
      exact .of_moves (skipInitializers_moves h (.cons first more) inside)
        fun _ j _ h => reaches_skipEnd h

/-- Where nothing or member initializers stand. -/
theorem skipTail_reaches (h : s.Faces ts) (initialized : Initialized s.table ts us) :
    Reaches skipTail s us := by
  cases initialized with
  | none front ends =>
      rw [skipTail_eq]
      refine .of_ok (peek_of_faces h front) ?_
      rw [if_neg (by rcases ends with ht | ht <;> simp [Token.isAny, ht.is_eq])]
      exact reaches_skipEnd h
  | some fronts colon inside =>
      exact skipTail_reaches_initializers h fronts (by simp [Token.isAny, colon.is_eq]) inside

theorem Initialized.exists_front (h : Initialized table ts us) :
    ∃ t vs, Front table ts t vs ∧ ∃ text ∈ [";", "\x7b", ":"], t.IsMark text := by
  cases h with
  | none front ends =>
      rcases ends with ends | ends
      · exact ⟨_, _, front, _, by simp, ends⟩
      · exact ⟨_, _, front, _, by simp, ends⟩
  | some fronts colon inside =>
      cases fronts with
      | cons first _ => exact ⟨_, _, first, _, by simp, colon⟩

theorem Valued.exists_front (h : Valued table ts us) :
    ∃ t vs, Front table ts t vs ∧ ∃ text ∈ [";", "\x7b", ":", "="], t.IsMark text := by
  cases h with
  | none initialized =>
      obtain ⟨t, vs, front, text, htext, ht⟩ := initialized.exists_front
      exact ⟨t, vs, front, text, List.mem_append_left ["="] htext, ht⟩
  | some fronts equals =>
      cases fronts with
      | cons first _ => exact ⟨_, _, first, _, by simp, equals⟩

/-- Behind a value, the initializers or none are what a mark in front of the value starts. -/
theorem Initialized.behind (h : Initialized table (u :: us) vs) (hu : u.isComment = false)
    (apart : (v.isWord || v.is ">") = true → u.is "\x7b" = false) :
    Initializers table v (u :: us) vs := by
  cases h with
  | none front ends =>
      rcases ends with ends | opens
      · exact .semicolon front ends
      · refine .body front opens ?_
        cases front with
        | here =>
            by_contra hlast
            have hbrace := apart (Bool.eq_true_of_not_eq_false hlast)
            rw [opens.is_eq] at hbrace
            simp at hbrace
        | behind hidden => exact absurd hu (by simp [hidden])
  | some fronts colon inside =>
      exact .token fronts colon.isEof_eq (by simp [Token.isAny, colon.is_eq]) inside

/-- A value is passed over like initializers. -/
theorem skipTail_reaches_valued (h : s.Faces ts) (valued : Valued s.table ts us) :
    Reaches skipTail s us := by
  cases valued with
  | none initialized => exact skipTail_reaches h initialized
  | some fronts equals inside single apart initialized =>
      cases fronts with
      | cons first more =>
          cases more with
          | cons second more' =>
              cases more' with
              | cons third more'' =>
                  cases more''
                  refine skipTail_reaches_initializers h (.cons first (.cons second (.nil _)))
                    (by simp [Token.isAny, equals.is_eq]) ?_
                  exact .token (.cons (.here second.calm) (.cons third (.nil _))) inside single
                    (initialized.behind third.calm.visible apart)

/-- What is read behind the qualifiers. -/
def readValue (isConst : Bool) : ReadM Trailer := do
  let trailer ←
    if (← peek).is "=" then
      let value ← advance
      let _ ← advance
      pure { isConst, isAbstract := value.is "0", isDeleted := value.isKeyword .delete_ }
    else pure { isConst }
  skipTail
  return trailer

theorem readTrailer_eq : readTrailer = readQualifiers >>= readValue := rfl

theorem readValue_reaches {isConst : Bool} (h : s.Faces ts) (valued : Valued s.table ts us) :
    Reaches (readValue isConst) s us := by
  unfold readValue
  cases valued with
  | none initialized =>
      obtain ⟨t, vs, front, text, htext, ht⟩ := initialized.exists_front
      have hvalue : t.is "=" = false := by
        rw [ht.is_eq]
        simp only [List.mem_cons, List.not_mem_nil, or_false] at htext
        rcases htext with rfl | rfl | rfl <;> rfl
      refine .of_ok (peek_of_faces h front) ?_
      rw [hvalue, if_neg (by simp)]
      exact (skipTail_reaches h initialized).bind_pure _
  | some fronts equals inside single apart initialized =>
      cases fronts with
      | cons first more =>
          cases more with
          | cons second more' =>
              refine .of_ok (peek_of_faces h first) ?_
              rw [equals.is_eq, if_pos (by simp)]
              refine .of_moves (advance_moves h (.cons first (.cons second (.nil _))))
                fun _ j _ h => ?_
              refine .of_moves (advance_moves h (.cons (.here second.calm) more'))
                fun _ k _ h => ?_
              exact (skipTail_reaches h initialized).bind_pure _

/-- Behind the qualifiers, what is read gets to the end of the tail. -/
theorem readTrailer_reaches (h : s.Faces ts) (qualifiers : Qualifiers s.table ts us)
    (valued : Valued s.table us vs) : Reaches readTrailer s vs := by
  obtain ⟨t, ws, front, text, htext, ht⟩ := valued.exists_front
  have harrow : t.is "->" = false := by
    rw [ht.is_eq]
    simp only [List.mem_cons, List.not_mem_nil, or_false] at htext
    rcases htext with rfl | rfl | rfl | rfl <;> rfl
  rw [readTrailer_eq]
  refine .of_moves (readQualifiers_moves h qualifiers fun isConst j h => ?_)
    fun isConst j _ h => readValue_reaches h valued
  exact qualifierTurn_stops h front ht.isWord_eq ht.isEof_eq harrow

theorem skipDefinition_reaches (h : s.Faces ts) (qualifiers : Qualifiers s.table ts us)
    (valued : Valued s.table us vs) : Reaches skipDefinition s vs := by
  obtain ⟨t, ws, front, text, -, ht⟩ := valued.exists_front
  rw [skipDefinition_eq]
  exact .of_moves (skipQualifiers_moves h qualifiers front ht.isWord_eq)
    fun _ j _ h => skipTail_reaches_valued h valued

/-- In front of an arrow, nothing is passed over. -/
theorem skipDefinition_arrow {a : Token} (h : s.Faces ts) (qualifiers : Qualifiers s.table ts us)
    (front : Front s.table us a vs) (arrow : a.IsMark "->") :
    Moves skipDefinition s us fun _ => True := by
  rw [skipDefinition_eq]
  refine (skipQualifiers_moves h qualifiers front arrow.isWord_eq).bind fun _ j _ h => ?_
  rw [skipTail_eq]
  refine .of_ok (peek_of_faces h front) ?_
  rw [if_neg (by simp [Token.isAny, arrow.is_eq])]
  refine (skipBody_absent h front (by simp [arrow.is_eq])).bind_eq fun k h => ?_
  rw [if_pos (by simp)]
  refine .of_ok (peek_of_faces h front) ?_
  rw [arrow.is_eq, if_neg (by simp)]
  exact moves_pure h trivial

/-- **Reading the tail of a function and passing over it get behind the same token,** its last
one, if no returned type is part of it. A returned type is passed over where the tail is read;
where it is left out, the tail is left in front of the arrow. -/
theorem readTrailer_skipDefinition {arrow : Bool} (h : s.Faces ts)
    (tail : Tail s.table arrow ts last rest) :
    ∃ trailer j us, (s.atIndex j).Faces us ∧ Front s.table us last rest ∧
      readTrailer s = (do leave last; return trailer) (s.atIndex j) ∧
      (arrow = false → skipDefinition s = leave last (s.atIndex j)) ∧
      (arrow = true → ∃ k vs t ws, skipDefinition s = .ok () (s.atIndex k) ∧
        (s.atIndex k).Faces vs ∧ Front s.table vs t ws ∧ t.IsMark "->") := by
  cases tail with
  | plain qualifiers valued ending =>
      obtain ⟨trailer, j, hfaces, hread⟩ := readTrailer_reaches h qualifiers valued
      obtain ⟨_, k, hfaces', hskip⟩ := skipDefinition_reaches h qualifiers valued
      obtain rfl : j = k := hfaces.index_eq hfaces'
      obtain ⟨i, us, hus, front, hend⟩ := skipEnd_eq_leave hfaces ending
      refine ⟨trailer, i, us, hus, front, hread.trans (bind_congr_run hend _), fun _ => ?_, nofun⟩
      exact hskip.trans ((congrFun (bind_pure_unit (x := skipEnd)) _).trans hend)
  | @returning _ _ _ _ us _ _ vs _ qualifiers fronts isArrow inside stop valued ending =>
      have hread : Reaches readTrailer s vs := by
        rw [readTrailer_eq]
        refine .of_moves (readQualifiers_moves h qualifiers fun isConst j h => ?_)
          fun isConst j _ h => readValue_reaches h valued
        exact qualifierTurn_arrow h fronts isArrow inside stop
      obtain ⟨trailer, j, hfaces, hread⟩ := hread
      obtain ⟨i, us, hus, front, hend⟩ := skipEnd_eq_leave hfaces ending
      refine ⟨trailer, i, us, hus, front, hread.trans (bind_congr_run hend _), nofun, fun _ => ?_⟩
      cases fronts with
      | cons first _ =>
          obtain ⟨_, k, hskip, hstays, -⟩ := skipDefinition_arrow h qualifiers first isArrow
          exact ⟨k, _, _, _, hskip, hstays, first, isArrow⟩

theorem sampleWord_calm {text : String} (h : Text.isWord text.toList = true) :
    (sampleWord text).Calm {} where
  visible := rfl
  unmarked := Token.IsName.is_eq ⟨rfl, h⟩ "#" (by decide)
  unexpanded := rfl

/-- A constructor has arguments behind a qualifier, braces in an initializer and a body. -/
theorem readTrailer_skipDefinition_constructor :
    let body := [sampleMark "\x7b", sampleWord "x", sampleMark "\x7d"]
    let initializers := [sampleMark ":", sampleWord "a"] ++ body
    let ts := [sampleWord "noexcept", sampleMark "(", sampleWord "x", sampleMark ")"] ++
      initializers ++ body
    let s := Reading.ofTokens {} ts
    s.Faces ts ∧ Tail s.table false ts (sampleMark "\x7d") [] ∧
      ∃ trailer j us, (s.atIndex j).Faces us ∧ Front s.table us (sampleMark "\x7d") [] ∧
        readTrailer s = (do leave (sampleMark "\x7d"); return trailer) (s.atIndex j) ∧
        (false = false → skipDefinition s = leave (sampleMark "\x7d") (s.atIndex j)) ∧
        (false = true → ∃ k vs t ws, skipDefinition s = .ok () (s.atIndex k) ∧
          (s.atIndex k).Faces vs ∧ Front s.table vs t ws ∧ t.IsMark "->") := by
  intro body initializers ts s
  have hmark (text : String) : (sampleMark text).IsMark text := ⟨Or.inl rfl, rfl⟩
  have hcalm {text : String} (h : text ≠ "#") : (sampleMark text).Calm {} := (hmark text).calm h
  have hword {text : String} (h : Text.isWord text.toList = true) : (sampleWord text).Calm {} :=
    sampleWord_calm h
  have hnested {opening closing : String} (h : (sampleWord "x").is opening = false)
      (h' : (sampleWord "x").is closing = false) : Nested opening closing [sampleWord "x"] :=
    .token rfl h h' .nil
  have hfaces : s.Faces ts := ⟨rfl, by decide, by decide, rfl⟩
  have hbody : Ending {} body (sampleMark "\x7d") [] :=
    .body (hmark "\x7b") (hnested rfl rfl) (hmark "\x7d")
  have hbraces : Initializers {} (sampleWord "a")
      (sampleMark "\x7b" :: ([sampleWord "x"] ++ sampleMark "\x7d" :: body)) body :=
    .braces (hmark "\x7b") rfl (hnested rfl rfl) (hmark "\x7d") (.here (hcalm (by decide)))
      (.body (.here (hcalm (by decide))) (hmark "\x7b") rfl)
  have hinitializers : Initialized {} (initializers ++ body) body := by
    refine .some (.cons (.here (hcalm (by decide))) (.cons (.here (hword (by decide))) (.nil _)))
      (hmark ":") ?_
    exact .token (.cons (.here (hword (by decide))) (.cons (.here (hcalm (by decide))) (.nil _)))
      rfl rfl hbraces
  have hqualifiers : Qualifiers {} ts (initializers ++ body) := by
    have hinside : Nested "(" ")" [sampleWord "x"] := hnested rfl rfl
    have hfronts : Fronts {} ts [sampleWord "noexcept", sampleMark "("]
        ([sampleWord "x"] ++ sampleMark ")" :: (initializers ++ body)) :=
      .cons (.here (hword (by decide))) (.cons (.here (hcalm (by decide))) (.nil _))
    exact .call hfronts ⟨rfl, by decide⟩ (hmark "(") hinside (hmark ")") (.nil _)
  have htail : Tail s.table false ts (sampleMark "\x7d") [] :=
    .plain hqualifiers (.none hinitializers) hbody
  exact ⟨hfaces, htail, readTrailer_skipDefinition hfaces htail⟩

/-- The token in front of which a step leaves the cursor in a text. -/
def stopsAt? {α : Type} (step : ReadM α) (text : String) : Option String :=
  match (do let _ ← step; peek) (.ofTokens {} (Token.ofText none text)) with
  | .ok t _ => some t.shown
  | .error _ _ => none

/-- A returned type is read, and not passed over. Neither passes a body behind arguments and a
comment: the brace that opens it is counted twice. -/
theorem tail_is_left :
    stopsAt? readTrailer "-> int; next" = some "next" ∧
      stopsAt? skipDefinition "-> int; next" = some "->" ∧
      stopsAt? readTrailer "noexcept(true) /* why */ \x7b \x7d next" = some "EOF" ∧
      stopsAt? skipDefinition "noexcept(true) /* why */ \x7b \x7d next" = some "EOF" := by
  decide +kernel

end Function

end HeaderPeers

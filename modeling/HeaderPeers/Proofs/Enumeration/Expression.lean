import HeaderPeers.Proofs.NameRules
import HeaderPeers.Token.Number
import Mathlib.Data.Int.Bitwise
import Mathlib.Data.List.SplitBy
import Mathlib.Tactic.Common

/-!
# Integer expressions on the target side

The value of an enumerator is printed as a text, which the target language reads
by the precedence of its operators. Values are integers of any size.

- `value?` — what a text is worth: it is cut into words, and a machine with a
  stack of what is pending takes them one by one.
- `Expression` — the trees of such texts, `Ranked` if no operand binds looser
  than the operator it belongs to.
- `Expression.value?_eq` — the machine reads the words of a ranked tree as the
  tree.
- `Expression.plus` — where a sum that is written behind an expression ends up:
  at its right end, under all operators that bind looser.
-/

namespace HeaderPeers.Arithmetic

/-! ## Words -/

/-- Binary operators that have the same meaning and rank in C and on the target
side. -/
inductive Operator where
  | or
  | xor
  | and
  | shiftLeft
  | shiftRight
  | add
  | sub
  | mul
deriving DecidableEq, Repr

namespace Operator

def all : List Operator :=
  [or, xor, and, shiftLeft, shiftRight, add, sub, mul]

/-- How tight the operator binds. -/
def level : Operator → Nat
  | or => 0
  | xor => 1
  | and => 2
  | shiftLeft | shiftRight => 3
  | add | sub => 4
  | mul => 5

/-- The characters of the operator. -/
def symbol : Operator → List Char
  | or => ['|']
  | xor => ['^']
  | and => ['&']
  | shiftLeft => ['<', '<']
  | shiftRight => ['>', '>']
  | add => ['+']
  | sub => ['-']
  | mul => ['*']

def apply : Operator → Int → Int → Int
  | or => Int.lor
  | xor => Int.xor
  | and => Int.land
  | shiftLeft => fun a b => a * 2 ^ b.toNat
  | shiftRight => fun a b => a / 2 ^ b.toNat
  | add => (· + ·)
  | sub => (· - ·)
  | mul => (· * ·)

theorem level_le (op : Operator) : op.level ≤ 5 := by
  cases op <;> decide

end Operator

/-- The words of an expression. -/
inductive Word where
  | literal (digits : List Char)
  | name (chars : List Char)
  | operator (op : Operator)
  | opening
  | closing
deriving DecidableEq, Repr

/-- What names and literals are made of; a name may be qualified by dots. -/
def isNameChar (c : Char) : Bool :=
  Text.isWordChar c || c == '.'

/-- Marks that make another word when they are doubled. -/
def doubles : List Char :=
  ['+', '-', '<', '>', '&', '|']

/-- Whether two characters next to each other belong to one word. -/
def joins (c d : Char) : Bool :=
  (isNameChar c && isNameChar d) || (c == d && doubles.contains c)

/-- The word with these characters. -/
def Word.ofPiece? (cs : List Char) : Option Word :=
  if cs.all isNameChar then
    some (if cs.head?.any Char.isDigit then .literal cs else .name cs)
  else if cs = ['('] then some .opening
  else if cs = [')'] then some .closing
  else (Operator.all.find? (·.symbol == cs)).map .operator

/-- A text in the largest pieces that are not cut within a word, without blanks. -/
def pieces (cs : List Char) : List (List Char) :=
  (cs.splitBy joins).filter (!·.all Text.isBlank)

/-- The words of a text, if it is made of nothing else. -/
def words? (cs : List Char) : Option (List Word) :=
  (pieces cs).mapM Word.ofPiece?

/-- The value of an integer literal without marks of its width: `0x` is
hexadecimal, another leading zero octal. -/
def magnitude? : List Char → Option Nat
  | '0' :: 'x' :: hex => Number.natural? 16 hex
  | '0' :: 'X' :: hex => Number.natural? 16 hex
  | '0' :: c :: octal => Number.natural? 8 (c :: octal)
  | cs => Number.natural? 10 cs

/-- The value of an integer literal of the target language, where `L` marks a wide one. -/
def literal? (cs : List Char) : Option Nat :=
  magnitude? (Text.dropEndWhile Number.isLongMark cs)

/-! ## Values -/

/-- What waits for an operand, the last first. -/
inductive Pending where
  | sign (negative : Bool)
  | left (value : Int) (op : Operator)
  | group
deriving DecidableEq, Repr

/-- What was read of an expression; it ends with a value or waits for one. -/
structure Machine where
  stack : List Pending := []
  value? : Option Int := none
deriving DecidableEq, Repr

/-- The number with the sign. -/
def signed (negative : Bool) (v : Int) : Int :=
  if negative then -v else v

/-- An operand is complete: the signs in front of it apply. -/
def complete : List Pending → Int → Machine
  | .sign negative :: stack, v => complete stack (signed negative v)
  | stack, v => { stack, value? := some v }

/-- Applies the pending operators that bind at least this tight. -/
def reduce (level : Nat) : List Pending → Int → List Pending × Int
  | .left a op :: stack, v =>
    if level ≤ op.level then reduce level stack (op.apply a v) else (.left a op :: stack, v)
  | stack, v => (stack, v)

namespace Machine

/-- Takes a word where a value is awaited. -/
def stepOperand (names : List Char → Option Int) (stack : List Pending) : Word → Option Machine
  | .literal digits => (literal? digits).map fun n => complete stack n
  | .name chars => (names chars).map (complete stack)
  | .operator .add => some { stack := .sign false :: stack }
  | .operator .sub => some { stack := .sign true :: stack }
  | .opening => some { stack := .group :: stack }
  | _ => none

/-- Takes a word behind a value. -/
def stepValue (stack : List Pending) (v : Int) : Word → Option Machine
  | .operator op =>
    let (stack, v) := reduce op.level stack v
    some { stack := .left v op :: stack }
  | .closing =>
    match reduce 0 stack v with
    | (.group :: stack, v) => some (complete stack v)
    | _ => none
  | _ => none

/-- Takes one word. -/
def step (names : List Char → Option Int) (m : Machine) (w : Word) : Option Machine :=
  match m.value? with
  | none => stepOperand names m.stack w
  | some v => stepValue m.stack v w

/-- Takes words one after another. -/
def run (names : List Char → Option Int) (m : Machine) (ws : List Word) : Option Machine :=
  ws.foldlM (step names) m

/-- The value when everything was read. -/
def result? (m : Machine) : Option Int :=
  m.value?.bind fun v =>
    match reduce 0 m.stack v with
    | ([], v) => some v
    | _ => none

theorem run_append (names : List Char → Option Int) (m : Machine) (ws ws' : List Word) :
    m.run names (ws ++ ws') = (m.run names ws).bind (·.run names ws') := by
  unfold run
  rw [List.foldlM_append]
  rfl

theorem run_cons (names : List Char → Option Int) (m : Machine) (w : Word) (ws : List Word) :
    m.run names (w :: ws) = (m.step names w).bind (·.run names ws) :=
  rfl

@[simp]
theorem run_nil (names : List Char → Option Int) (m : Machine) : m.run names [] = some m :=
  rfl

end Machine

/-- The value of words. -/
def valueOf? (names : List Char → Option Int) (ws : List Word) : Option Int :=
  (({} : Machine).run names ws).bind Machine.result?

/-- **The value of a text** on the target side, where names have values. -/
def value? (names : List Char → Option Int) (text : String) : Option Int :=
  (words? text.toList).bind (valueOf? names)

/-! ## Trees -/

/-- Integer expressions. -/
inductive Expression where
  | literal (digits : List Char)
  | name (chars : List Char)
  | sign (negative : Bool) (e : Expression)
  | group (e : Expression)
  | binary (op : Operator) (left right : Expression)
deriving Repr

namespace Expression

/-- The level of the outermost operator; operands bind tighter than all operators. -/
def level : Expression → Nat
  | binary op _ _ => op.level
  | _ => 6

/-- No operand binds looser than the operator it belongs to, and operators of one
level group from the left. -/
def Ranked : Expression → Prop
  | literal _ | name _ => True
  | sign _ e => e.level = 6 ∧ e.Ranked
  | group e => e.Ranked
  | binary op l r => op.level ≤ l.level ∧ op.level < r.level ∧ l.Ranked ∧ r.Ranked

/-- The operator that a sign looks like. -/
def signOperator (negative : Bool) : Operator :=
  if negative then .sub else .add

/-- The words of an expression, from the left. -/
def words : Expression → List Word
  | literal digits => [.literal digits]
  | name chars => [.name chars]
  | sign negative e => .operator (signOperator negative) :: e.words
  | group e => .opening :: e.words ++ [.closing]
  | binary op l r => l.words ++ .operator op :: r.words

/-- The value of an expression, where names have values. -/
def value? (names : List Char → Option Int) : Expression → Option Int
  | literal digits => (literal? digits).map Int.ofNat
  | name chars => names chars
  | sign negative e => (e.value? names).map (signed negative)
  | group e => e.value? names
  | binary op l r => (l.value? names).bind fun a => (r.value? names).map (op.apply a)

theorem level_le (e : Expression) : e.level ≤ 6 := by
  cases e with
  | binary op l r => exact Nat.le_succ_of_le op.level_le
  | _ => exact Nat.le_refl 6

end Expression

/-! ## Reading the words of a tree -/

/-- Operators that are applied at a tighter level have been applied at a looser one. -/
theorem reduce_reduce {loose tight : Nat} (h : loose ≤ tight) (stack : List Pending) (v : Int) :
    reduce loose (reduce tight stack v).1 (reduce tight stack v).2 = reduce loose stack v := by
  induction stack generalizing v with
  | nil => rfl
  | cons p stack ih =>
      cases p with
      | sign negative => rfl
      | group => rfl
      | left a op =>
          by_cases htight : tight ≤ op.level
          · have hloose : loose ≤ op.level := Nat.le_trans h htight
            simpa [reduce, htight, hloose] using ih (op.apply a v)
          · simp [reduce, htight]

theorem reduce_of_reduce {loose tight : Nat} (h : loose ≤ tight) {stack stack' : List Pending}
    {v v' : Int} (hreduce : reduce tight stack v = (stack', v')) :
    reduce loose stack v = reduce loose stack' v' := by
  rw [← reduce_reduce h, hreduce]

/-- Whatever is pending waits for more than an expression of this level: no sign
applies to it, and no operator takes its first operand. -/
def Awaits (level : Nat) : List Pending → Prop
  | .sign _ :: _ => False
  | .left _ op :: _ => op.level < level
  | _ => True

theorem Awaits.mono {level level' : Nat} (h : level ≤ level') {stack : List Pending}
    (hstack : Awaits level stack) : Awaits level' stack := by
  cases stack with
  | nil => trivial
  | cons p stack =>
      cases p with
      | sign negative => exact hstack
      | left a op => exact Nat.lt_of_lt_of_le hstack h
      | group => trivial

theorem Awaits.reduce_eq {level : Nat} {stack : List Pending} (h : Awaits level stack) (v : Int) :
    reduce level stack v = (stack, v) := by
  cases stack with
  | nil => rfl
  | cons p stack =>
      cases p with
      | left a op => exact if_neg (Nat.not_le.mpr h)
      | _ => rfl

theorem Awaits.complete_eq {level : Nat} {stack : List Pending} (h : Awaits level stack) (v : Int) :
    complete stack v = { stack, value? := some v } := by
  cases stack with
  | nil => rfl
  | cons p stack =>
      cases p with
      | sign negative => exact h.elim
      | _ => rfl

namespace Expression

variable {names : List Char → Option Int}

/-- What the machine makes of the words of an expression: an operand is complete,
whatever is pending; of another expression operators may be left, all of them
at least as tight as its level. -/
structure Runs (names : List Char → Option Int) (e : Expression) (v : Int) : Prop where
  operand : e.level = 6 → ∀ stack,
    Machine.run names { stack } e.words = some (complete stack v)
  reduces : ∀ stack, Awaits e.level stack → ∃ stack' v',
    Machine.run names { stack } e.words = some { stack := stack', value? := some v' } ∧
      reduce e.level stack' v' = (stack, v)

/-- An operand that is complete leaves no operators. -/
theorem runs_of_operand {e : Expression} {v : Int}
    (h : ∀ stack, Machine.run names { stack } e.words = some (complete stack v)) :
    e.Runs names v where
  operand _ := h
  reduces stack hstack :=
    ⟨stack, v, by rw [h, hstack.complete_eq], hstack.reduce_eq v⟩

theorem Runs.sign {e : Expression} {v : Int} (h : e.Runs names v) (hlevel : e.level = 6)
    (negative : Bool) : (Expression.sign negative e).Runs names (signed negative v) := by
  refine runs_of_operand fun stack => ?_
  have hsign : Machine.step names { stack } (.operator (signOperator negative)) =
      some { stack := .sign negative :: stack } := by
    cases negative <;> rfl
  rw [words, Machine.run_cons, hsign, Option.bind_some, h.operand hlevel]
  rfl

theorem Runs.group {e : Expression} {v : Int} (h : e.Runs names v) :
    (Expression.group e).Runs names v := by
  refine runs_of_operand fun stack => ?_
  have hopening : Machine.step names { stack } .opening = some { stack := .group :: stack } := rfl
  obtain ⟨stack', v', hrun, hreduce⟩ := h.reduces (.group :: stack) trivial
  have hreduced : reduce 0 stack' v' = (.group :: stack, v) :=
    reduce_of_reduce (Nat.zero_le _) hreduce
  have hclosing : Machine.step names { stack := stack', value? := some v' } .closing =
      some (complete stack v) := by
    simp only [Machine.step, Machine.stepValue, hreduced]
  rw [words, List.cons_append, Machine.run_cons, hopening, Option.bind_some, Machine.run_append,
    hrun, Option.bind_some, Machine.run_cons, hclosing]
  rfl

theorem Runs.binary {op : Operator} {l r : Expression} {a b : Int} (hl : l.Runs names a)
    (hr : r.Runs names b) (hleft : op.level ≤ l.level) (hright : op.level < r.level) :
    (Expression.binary op l r).Runs names (op.apply a b) where
  operand hlevel := by
    have hle := op.level_le
    simp only [level] at hlevel
    omega
  reduces stack hstack := by
    obtain ⟨stack₁, a', hrunl, hreducel⟩ := hl.reduces stack (hstack.mono hleft)
    have hoperands : reduce op.level stack₁ a' = (stack, a) :=
      (reduce_of_reduce hleft hreducel).trans (hstack.reduce_eq a)
    have hoperator : Machine.step names { stack := stack₁, value? := some a' } (.operator op) =
        some { stack := .left a op :: stack } := by
      simp only [Machine.step, Machine.stepValue, hoperands]
    obtain ⟨stack₂, b', hrunr, hreducer⟩ := hr.reduces (.left a op :: stack) hright
    refine ⟨stack₂, b', ?_, ?_⟩
    · rw [words, Machine.run_append, hrunl, Option.bind_some, Machine.run_cons, hoperator,
        Option.bind_some, hrunr]
    · calc reduce op.level stack₂ b'
          = reduce op.level (.left a op :: stack) b :=
            reduce_of_reduce (Nat.le_of_lt hright) hreducer
        _ = reduce op.level stack (op.apply a b) := if_pos (Nat.le_refl _)
        _ = (stack, op.apply a b) := hstack.reduce_eq _

/-- By induction on the tree; only parentheses and signs make an operand of it. -/
theorem runs_of_ranked {e : Expression} (he : e.Ranked) {v : Int}
    (hv : e.value? names = some v) : e.Runs names v := by
  induction e generalizing v with
  | literal digits =>
      obtain ⟨n, hn, rfl⟩ := Option.map_eq_some_iff.mp hv
      refine runs_of_operand fun stack => ?_
      simp [words, Machine.run_cons, Machine.step, Machine.stepOperand, hn]
  | name chars =>
      refine runs_of_operand fun stack => ?_
      have hname : names chars = some v := hv
      simp [words, Machine.run_cons, Machine.step, Machine.stepOperand, hname]
  | sign negative e ih =>
      obtain ⟨u, hu, rfl⟩ := Option.map_eq_some_iff.mp hv
      exact (ih he.2 hu).sign he.1 negative
  | group e ih => exact (ih he hv).group
  | binary op l r ihl ihr =>
      obtain ⟨hleft, hright, hrankedl, hrankedr⟩ := he
      obtain ⟨a, ha, hright'⟩ := Option.bind_eq_some_iff.mp hv
      obtain ⟨b, hb, rfl⟩ := Option.map_eq_some_iff.mp hright'
      exact (ihl hrankedl ha).binary (ihr hrankedr hb) hleft hright

/-- **The words of a ranked tree are read as the tree.** -/
theorem valueOf?_words {e : Expression} (he : e.Ranked) {v : Int}
    (hv : e.value? names = some v) : valueOf? names e.words = some v := by
  obtain ⟨stack, v', hrun, hreduce⟩ := (runs_of_ranked he hv).reduces [] trivial
  have hreduced : reduce 0 stack v' = ([], v) := reduce_of_reduce (Nat.zero_le _) hreduce
  unfold valueOf?
  rw [hrun, Option.bind_some]
  simp only [Machine.result?, Option.bind_some, hreduced]

/-! ## Adding behind an expression -/

/-- The expression with a number added behind it: operators that bind looser than
the sum take it as part of their right operand. -/
def plus (digits : List Char) : Expression → Expression
  | binary op l r =>
    if op.level < Operator.add.level then binary op l (r.plus digits)
    else binary .add (binary op l r) (literal digits)
  | e => binary .add e (literal digits)

/-- The sum binds looser than all of the expression outside of parentheses. -/
def Tight (e : Expression) : Prop :=
  Operator.add.level ≤ e.level

theorem plus_of_tight {e : Expression} (h : e.Tight) (digits : List Char) :
    e.plus digits = binary .add e (literal digits) := by
  cases e with
  | binary op l r => exact if_neg (Nat.not_lt.mpr h)
  | _ => rfl

theorem le_level_plus {k : Nat} (hk : k ≤ Operator.add.level) {e : Expression}
    (h : k ≤ e.level) (digits : List Char) : k ≤ (e.plus digits).level := by
  cases e with
  | binary op l r =>
      unfold plus
      split
      · exact h
      · exact hk
  | _ => exact hk

theorem words_plus (e : Expression) (digits : List Char) :
    (e.plus digits).words = e.words ++ [Word.operator .add, Word.literal digits] := by
  induction e with
  | binary op l r ihl ihr =>
      unfold plus
      split
      · simp [words, ihr]
      · simp [words]
  | _ => simp [plus, words]

theorem Ranked.plus {e : Expression} (he : e.Ranked) (digits : List Char) :
    (e.plus digits).Ranked := by
  have hsum (e : Expression) (he : e.Ranked) (h : e.Tight) :
      (binary .add e (literal digits)).Ranked :=
    ⟨h, show 4 < 6 from by decide, he, trivial⟩
  induction e with
  | binary op l r ihl ihr =>
      unfold Expression.plus
      split
      next hloose =>
        obtain ⟨hleft, hright, hrankedl, hrankedr⟩ := he
        exact ⟨hleft, le_level_plus hloose hright digits, hrankedl, ihr hrankedr⟩
      next htight => exact hsum _ he (Nat.le_of_not_lt htight)
  | _ => exact hsum _ he (show 4 ≤ 6 from by decide)

/-- Behind a tight expression, the number is added to its value. -/
theorem value?_plus_of_tight {e : Expression} (h : e.Tight) {digits : List Char} {n : Nat}
    (hn : literal? digits = some n) :
    (e.plus digits).value? names = (e.value? names).map (· + (n : Int)) := by
  rw [plus_of_tight h]
  cases hv : e.value? names <;> simp [value?, hv, hn, Operator.apply]

end Expression

/-! ## Texts -/

/-- No word goes on from the first text to the second. -/
def Apart (cs ds : List Char) : Prop :=
  ∀ c ∈ cs.getLast?, ∀ d ∈ ds.head?, joins c d = false

theorem joins_eq_false {c d : Char} (hname : isNameChar c = false ∨ isNameChar d = false)
    (hmark : c ≠ d ∨ c ∉ doubles) : joins c d = false := by
  have hnames : (isNameChar c && isNameChar d) = false := by
    rcases hname with h | h <;> simp [h]
  have hmarks : (c == d && doubles.contains c) = false := by
    rcases hmark with h | h <;> simp [h]
  rw [joins, hnames, hmarks]
  rfl

/-- A mark and a name or a number behind it are two words. -/
theorem apart_of_head {cs ds : List Char} (hcs : ∀ c ∈ cs.getLast?, isNameChar c = false)
    (hds : ∀ d ∈ ds.head?, isNameChar d = true) : Apart cs ds := by
  intro c hc d hd
  refine joins_eq_false (Or.inl (hcs c hc)) (Or.inl ?_)
  rintro rfl
  have hname := hds c hd
  rw [hcs c hc] at hname
  cases hname

theorem joins_comm (c d : Char) : joins c d = joins d c := by
  rw [joins, joins, Bool.and_comm (isNameChar c)]
  by_cases h : c = d
  · rw [h]
  · have hcd : (c == d) = false := by simpa using h
    have hdc : (d == c) = false := by simpa using Ne.symm h
    rw [hcd, hdc]
    rfl

theorem pieces_append {cs ds : List Char} (h : Apart cs ds) :
    pieces (cs ++ ds) = pieces cs ++ pieces ds := by
  unfold pieces
  rw [List.splitBy_append h, List.filter_append]

theorem words?_append {cs ds : List Char} {ws ws' : List Word} (h : Apart cs ds)
    (hcs : words? cs = some ws) (hds : words? ds = some ws') :
    words? (cs ++ ds) = some (ws ++ ws') := by
  unfold words? at hcs hds ⊢
  rw [pieces_append h, List.mapM_append, hcs, hds]
  rfl

/-- Characters that are one piece are one word. -/
theorem words?_of_piece {cs : List Char} {w : Word} (hchain : cs.IsChain fun c d => joins c d)
    (hvisible : cs.all Text.isBlank = false) (hw : Word.ofPiece? cs = some w) :
    words? cs = some [w] := by
  have hne : cs ≠ [] := by
    rintro rfl
    cases hvisible
  unfold words? pieces
  rw [List.splitBy_of_isChain hne hchain, List.filter_singleton, hvisible]
  simp [hw]

theorem pieces_of_blank {cs : List Char} (h : ∀ c ∈ cs, Text.isBlank c = true) :
    pieces cs = [] := by
  refine List.filter_eq_nil_iff.mpr fun piece hpiece => ?_
  have hsub : ∀ c ∈ piece, c ∈ cs := fun c hc => by
    rw [← List.flatten_splitBy joins cs]
    exact List.mem_flatten.mpr ⟨piece, hpiece, hc⟩
  simpa using fun c hc => h c (hsub c hc)

theorem words?_of_blank {cs : List Char} (h : ∀ c ∈ cs, Text.isBlank c = true) :
    words? cs = some [] := by
  rw [words?, pieces_of_blank h]
  rfl

theorem isBlank_of_isNameChar {c : Char} (h : isNameChar c = true) : Text.isBlank c = false := by
  rcases Bool.or_eq_true_iff.mp h with hword | hdot
  · exact Text.isBlank_of_isWordChar hword
  · rw [eq_of_beq hdot]
    decide

/-- A word ends at white space. -/
theorem joins_blank {c d : Char} (hd : Text.isBlank d = true) : joins c d = false := by
  have hname : isNameChar d = false := by
    by_contra h
    rw [isBlank_of_isNameChar (Bool.of_not_eq_false h)] at hd
    cases hd
  refine joins_eq_false (Or.inr hname) ?_
  by_cases hc : c ∈ doubles
  · refine Or.inl ?_
    rintro rfl
    simp only [doubles, List.mem_cons, List.not_mem_nil, or_false] at hc
    rcases hc with rfl | rfl | rfl | rfl | rfl | rfl <;> cases hd
  · exact Or.inr hc

/-- Characters of names and literals next to each other are one piece. -/
theorem isChain_of_isNameChar {cs : List Char} (h : ∀ c ∈ cs, isNameChar c = true) :
    cs.IsChain fun c d => joins c d := by
  induction cs with
  | nil => exact .nil
  | cons c cs ih =>
      cases cs with
      | nil => exact .singleton c
      | cons d cs =>
          refine .cons_cons ?_ (ih fun x hx => h x (by simp [hx]))
          simp [joins, h c (by simp), h d (by simp)]

/-! ## Numbers that are printed -/

theorem isNameChar_of_isDigit {c : Char} (h : c.isDigit = true) : isNameChar c = true := by
  have hsmall : c.toNat < 0x80 := by
    simp only [Char.isDigit, Bool.and_eq_true, decide_eq_true_eq] at h
    exact Nat.lt_of_le_of_lt h.2 (by decide)
  simp [isNameChar, Text.isWordChar, Text.isNumeral, hsmall, h]

theorem digitValue?_of_isDigit {c : Char} (h : c.isDigit = true) :
    Number.digitValue? 10 c = some (c.toNat - '0'.toNat) := by
  simp only [Char.isDigit, Bool.and_eq_true, decide_eq_true_eq] at h
  have hlow : 48 ≤ c.toNat := h.1
  have hhigh : c.toNat ≤ 57 := h.2
  have hrange : '0' ≤ c ∧ c ≤ '9' := ⟨h.1, h.2⟩
  have hvalue : c.toNat - '0'.toNat < 10 := by
    have hzero : '0'.toNat = 48 := rfl
    omega
  simp only [Number.digitValue?, if_pos hrange, Option.filter_some, hvalue, decide_true, if_true]

theorem digitsValue?_of_isDigit {cs : List Char} (h : ∀ c ∈ cs, c.isDigit = true) (acc : Nat) :
    Number.digitsValue? 10 acc cs = some (Nat.ofDigitChars 10 cs acc) := by
  induction cs generalizing acc with
  | nil => rfl
  | cons c cs ih =>
      rw [Number.digitsValue?, digitValue?_of_isDigit (h c (by simp)), Option.bind_some,
        ih (fun x hx => h x (by simp [hx])), Nat.ofDigitChars_cons, Nat.mul_comm]

/-- What is printed for a number that is not zero does not start with a zero. -/
theorem head?_toDigits {n : Nat} (hn : n ≠ 0) : (Nat.toDigits 10 n).head? ≠ some '0' := by
  induction n using Nat.strongRecOn with
  | ind n ih =>
      by_cases hsmall : n < 10
      · rw [Nat.toDigits_of_lt_base hsmall]
        have hcases : ∀ m < 10, m ≠ 0 → Nat.digitChar m ≠ '0' := by decide
        simpa using hcases n hsmall hn
      · rw [Nat.toDigits_of_base_le (by decide) (Nat.le_of_not_lt hsmall)]
        have hless : n / 10 < n := Nat.div_lt_self (Nat.pos_of_ne_zero hn) (by decide)
        have hrest := ih (n / 10) hless (by omega)
        rw [List.head?_append_of_ne_nil _ Nat.toDigits_ne_nil]
        exact hrest

/-- A literal that does not start with a zero is decimal. -/
theorem magnitude?_of_head {cs : List Char} (h : cs.head? ≠ some '0' ∨ cs = ['0']) :
    magnitude? cs = Number.natural? 10 cs := by
  rcases h with h | rfl
  · unfold magnitude?
    split
    · simp at h
    · simp at h
    · simp at h
    · rfl
  · rfl

theorem dropEndWhile_of_forall {p : Char → Bool} {cs : List Char} (h : ∀ c ∈ cs, p c = false) :
    Text.dropEndWhile p cs = cs := by
  unfold Text.dropEndWhile
  cases hcs : cs.reverse with
  | nil => simpa using hcs
  | cons c ds =>
      have hc : p c = false := h c (by rw [← List.mem_reverse, hcs]; exact List.mem_cons_self)
      rw [List.dropWhile_cons_of_neg (by simp [hc]), ← hcs, List.reverse_reverse]

theorem isLongMark_of_isDigit {c : Char} (h : c.isDigit = true) :
    Number.isLongMark c = false := by
  have hne (d : Char) (hd : d.isDigit = false) : (c == d) = false := by
    rw [beq_eq_false_iff_ne]
    rintro rfl
    rw [h] at hd
    cases hd
  simp [Number.isLongMark, hne 'l' rfl, hne 'L' rfl]

theorem isDigit_toDigits {n : Nat} : ∀ c ∈ Nat.toDigits 10 n, c.isDigit = true := fun _ hc =>
  Nat.isDigit_of_mem_toDigits (by decide) (Nat.le_refl 10) hc

/-- A number that is printed is read as the number. -/
theorem literal?_toDigits (n : Nat) : literal? (Nat.toDigits 10 n) = some n := by
  have hdigits := isDigit_toDigits (n := n)
  have hhead : (Nat.toDigits 10 n).head? ≠ some '0' ∨ Nat.toDigits 10 n = ['0'] := by
    by_cases hn : n = 0
    · exact Or.inr (by rw [hn]; rfl)
    · exact Or.inl (head?_toDigits hn)
  rw [literal?, dropEndWhile_of_forall fun c hc => isLongMark_of_isDigit (hdigits c hc),
    magnitude?_of_head hhead, Number.natural?, if_neg (by simp [Nat.toDigits_ne_nil]),
    digitsValue?_of_isDigit hdigits, Nat.ofDigitChars_ten_toDigits]

/-- Name characters that start with a digit are a literal. -/
theorem words?_literal {cs : List Char} (hdigit : cs.head?.any Char.isDigit = true)
    (h : ∀ c ∈ cs, isNameChar c = true) : words? cs = some [.literal cs] := by
  obtain ⟨c, rest, rfl⟩ : ∃ c rest, cs = c :: rest := by
    cases cs with
    | nil => cases hdigit
    | cons c rest => exact ⟨c, rest, rfl⟩
  refine words?_of_piece (isChain_of_isNameChar h) ?_ ?_
  · simp [isBlank_of_isNameChar (h c List.mem_cons_self)]
  · rw [Word.ofPiece?, if_pos (List.all_eq_true.mpr h), if_pos hdigit]

theorem words?_toDigits (n : Nat) :
    words? (Nat.toDigits 10 n) = some [.literal (Nat.toDigits 10 n)] := by
  refine words?_literal ?_ fun c hc => isNameChar_of_isDigit (isDigit_toDigits c hc)
  cases hdigits : Nat.toDigits 10 n with
  | nil => exact absurd hdigits Nat.toDigits_ne_nil
  | cons c cs => exact isDigit_toDigits c (by rw [hdigits]; exact List.mem_cons_self)

theorem toList_toString (n : Int) : (toString n).toList =
    if 0 ≤ n then Nat.toDigits 10 n.toNat else ['-'] ++ Nat.toDigits 10 (-n).toNat := by
  rw [Int.toString_eq_repr, Int.repr_eq_if]
  split
  · rw [Nat.repr_eq_ofList_toDigits, String.toList_ofList]
  · simp [Nat.repr_eq_ofList_toDigits]

/-- The text of a number is worth the number. -/
theorem value?_toString (names : List Char → Option Int) (n : Int) :
    value? names (toString n) = some n := by
  unfold value?
  rw [toList_toString]
  by_cases hn : 0 ≤ n
  · have hvalue : (Expression.literal (Nat.toDigits 10 n.toNat)).value? names = some n := by
      simp [Expression.value?, literal?_toDigits, Int.toNat_of_nonneg hn]
    rw [if_pos hn, words?_toDigits]
    exact Expression.valueOf?_words (e := .literal _) trivial hvalue
  · have hapart : Apart ['-'] (Nat.toDigits 10 (-n).toNat) := by
      refine apart_of_head (fun c hc => ?_) fun d hd => ?_
      · obtain rfl : '-' = c := by simpa using hc
        decide
      · exact isNameChar_of_isDigit (isDigit_toDigits d (List.mem_of_mem_head? hd))
    have hvalue : (Expression.sign true (.literal (Nat.toDigits 10 (-n).toNat))).value? names =
        some n := by
      have hneg : ((-n).toNat : Int) = -n := Int.toNat_of_nonneg (by omega)
      simp [Expression.value?, literal?_toDigits, hneg, signed]
    have hmark : words? ['-'] = some [.operator .sub] := by decide
    rw [if_neg hn, words?_append hapart hmark (words?_toDigits _)]
    exact Expression.valueOf?_words (e := .sign true (.literal _)) ⟨rfl, trivial⟩ hvalue

/-- A sum written behind a text is read at the right end of its tree. -/
theorem value?_append_plus {names : List Char → Option Int} {e : Expression} (he : e.Ranked)
    {text : String} (htext : words? text.toList = some e.words) (n : Nat) {v : Int}
    (hv : (e.plus (Nat.toDigits 10 n)).value? names = some v) :
    value? names (text ++ " + " ++ toString (n : Int)) = some v := by
  have hsum : words? " + ".toList = some [.operator .add] := by decide
  have hfirst : Apart text.toList " + ".toList := by
    rintro c - d hd
    obtain rfl : ' ' = d := by simpa using hd
    exact joins_blank (by decide)
  have hsecond : Apart (text.toList ++ " + ".toList) (Nat.toDigits 10 n) := by
    rintro c hc d -
    obtain rfl : ' ' = c := by simpa using hc
    rw [joins_comm]
    exact joins_blank (by decide)
  have hdigits : (toString (n : Int)).toList = Nat.toDigits 10 n := by
    rw [toList_toString, if_pos (Int.natCast_nonneg n), Int.toNat_natCast]
  unfold value?
  rw [String.toList_append, String.toList_append, hdigits,
    words?_append hsecond (words?_append hfirst htext hsum) (words?_toDigits n), List.append_assoc]
  exact Expression.words_plus e _ ▸ Expression.valueOf?_words (he.plus _) hv

end HeaderPeers.Arithmetic

import HeaderPeers.Proofs.MacroLines
import HeaderPeers.Proofs.Outline

/-!
# Lines that define constants

A line that defines a name as a value, and what reading it does. If nothing is known
of the name, a constant is printed and its type is written down.

- `ConstantLine` — the tokens of such a line.
- `ConstantLine.read_eq` — the state behind the line.
-/

namespace HeaderPeers

open ReadM

/-! ## Tokens ahead -/

namespace Reading

/-- The tokens from the cursor on. -/
def ahead (s : Reading) : List Token :=
  s.window.tokens.toList.drop s.window.index

variable {s : Reading} {t : Token} {ts us : List Token}

theorem ahead_add (h : s.ahead = ts ++ us) :
    (s.atIndex (s.window.index + ts.length)).ahead = us := by
  have hdrop := congrArg (List.drop ts.length) h
  rwa [List.drop_left, ahead, List.drop_drop] at hdrop

theorem ahead_succ (h : s.ahead = t :: ts) : (s.atIndex (s.window.index + 1)).ahead = ts := by
  have hone : s.ahead = [t] ++ ts := h
  exact ahead_add hone

theorem getElem?_of_ahead (h : s.ahead = ts) (n : Nat) :
    s.window.tokens[s.window.index + n]? = ts[n]? := by
  rw [← h, ahead, List.getElem?_drop, Array.getElem?_toList]

theorem tokenAt_of_ahead (h : s.ahead = ts) {n : Nat} (ht : ts[n]? = some t) :
    Window.tokenAt s.window.tokens (s.window.index + n) = t := by
  rw [Window.tokenAt, getElem?_of_ahead h, ht, Option.getD_some]

theorem length_ahead (h : s.ahead = ts) (hne : ts ≠ []) :
    s.window.tokens.size = s.window.index + ts.length := by
  have hlength := congrArg List.length h
  have hpos := List.length_pos_iff.mpr hne
  simp only [ahead, List.length_drop, Array.length_toList] at hlength
  omega

end Reading

/-! ## Steps with comments visible -/

section Raw

variable {s : Reading} {t : Token} {ts us : List Token}

theorem ReadM.moveTo_index (i : Nat) (s : Reading) : moveTo i s = .ok () (s.atIndex i) := rfl

theorem ReadM.peek_of_ahead (hraw : s.window.raw = true) (h : s.ahead = t :: ts) :
    peek s = .ok t s := by
  rw [peek_raw hraw]
  exact congrArg (EStateM.Result.ok · s) (Reading.tokenAt_of_ahead h (n := 0) rfl)

theorem ReadM.advance_of_ahead {u : Token} (hraw : s.window.raw = true)
    (h : s.ahead = t :: u :: ts) :
    advance s = .ok u (s.atIndex (s.window.index + 1)) := by
  rw [advance_raw hraw]
  exact congrArg (EStateM.Result.ok · _) (Reading.tokenAt_of_ahead h (n := 1) rfl)

/-- A step that does not ask where a token is. -/
theorem Directive.foldl_zipIdx {α : Type} (step : α → Token → α) (ts : List Token) (i : Nat)
    (a : α) : (ts.zipIdx i).foldl (fun a (t, _) => step a t) a = ts.foldl step a := by
  induction ts generalizing i a with
  | nil => rfl
  | cons t ts ih =>
      rw [List.zipIdx_cons, List.foldl_cons, List.foldl_cons]
      exact ih (i + 1) _

/-- One turn of stepping through tokens. -/
def Directive.foldTurn {α : Type} (stop : Nat) (step : α → Nat → Token → α) :
    α × Token → ReadM (Turn (α × Token) α) :=
  fun (a, t) => do
    let i ← cursor
    if i < stop && !t.isEof then return .again (step a i t, ← advance)
    return .done a

/-- Stepping through tokens up to a position takes each of them. -/
theorem Directive.foldTo_eq {α : Type} {step : α → Nat → Token → α} {a : α}
    (hraw : s.window.raw = true) (hfuel : 0 < s.fuel) (h : s.ahead = ts ++ us)
    (hts : ∀ t ∈ ts, t.isEof = false) :
    foldTo (s.window.index + ts.length) a step s =
      .ok ((ts.zipIdx s.window.index).foldl (fun a (t, i) => step a i t) a)
        (s.atIndex (s.window.index + ts.length)) := by
  have hbound : ts.length < s.bound := by
    have hlength := congrArg List.length h
    simp only [Reading.ahead, List.length_drop, Array.length_toList, List.length_append] at hlength
    simp only [Reading.bound, Window.size]
    omega
  have hfold : foldTo (s.window.index + ts.length) a step s =
      iterateUpTo (foldTurn (s.window.index + ts.length) step) s.bound
        (a, Window.tokenAt s.window.tokens s.window.index) s := by
    unfold foldTo
    rw [bind_of_ok (peek_raw hraw)]
    rfl
  rw [hfold]
  clear hfold
  generalize s.bound = n at hbound
  generalize hstop : s.window.index + ts.length = stop
  induction ts generalizing s a n with
  | nil =>
      obtain ⟨n, rfl⟩ := Nat.exists_eq_add_one.mpr hbound
      obtain rfl : s.window.index = stop := by simpa using hstop
      have hturn : foldTurn s.window.index step
          (a, Window.tokenAt s.window.tokens s.window.index) s = .ok (.done a) s := by
        have hcursor : cursor s = .ok s.window.index s := rfl
        simp only [foldTurn, bind_of_ok hcursor, Nat.lt_irrefl, decide_false, Bool.false_and]
        rfl
      rw [iterateUpTo, bind_of_ok hturn]
      rfl
  | cons t ts ih =>
      obtain ⟨n, rfl⟩ := Nat.exists_eq_add_one.mpr (Nat.zero_lt_of_lt hbound)
      simp only [List.length_cons] at hstop hbound
      have ht : Window.tokenAt s.window.tokens s.window.index = t :=
        Reading.tokenAt_of_ahead h (n := 0) rfl
      let next := s.atIndex (s.window.index + 1)
      have hturn : foldTurn stop step (a, t) s =
          .ok (.again (step a s.window.index t,
            Window.tokenAt next.window.tokens next.window.index)) next := by
        have hcursor : cursor s = .ok s.window.index s := rfl
        have hgo : (decide (s.window.index < stop) && !t.isEof) = true := by
          simp only [hts t List.mem_cons_self, Bool.not_false, Bool.and_true, decide_eq_true_eq]
          omega
        simp only [foldTurn, bind_of_ok hcursor, hgo, if_true, bind_of_ok (advance_raw hraw)]
        rfl
      rw [ht, iterateUpTo, bind_of_ok hturn]
      exact ih (s := next) hraw hfuel (Reading.ahead_succ h)
        (fun u hu => hts u (List.mem_cons_of_mem _ hu)) n (by omega)
        (by simp only [next, Reading.atIndex_index]; omega)

end Raw

/-! ## Where a line ends -/

namespace Directive

variable {tokens : Array Token} {i : Nat} {ts us : List Token}

theorem lineEnd_eq (h : tokens.toList.drop i = ts ++ us)
    (hts : ∀ t ∈ ts, Conditional.startsLine t = false)
    (hus : ∀ t ∈ us.head?, Conditional.startsLine t = true) :
    lineEnd tokens i = i + ts.length := by
  induction ts generalizing i with
  | nil =>
      unfold lineEnd
      split
      next hlt =>
        have hhead : us.head? = some tokens[i] := by
          rw [List.nil_append] at h
          rw [← h, List.head?_drop, Array.getElem?_toList, Array.getElem?_eq_getElem hlt]
        rw [if_pos (by exact hus _ hhead)]
        rfl
      · rfl
  | cons t ts ih =>
      have hlt : i < tokens.toList.length := by
        by_contra hge
        rw [List.drop_eq_nil_of_le (Nat.le_of_not_lt hge)] at h
        cases h
      rw [List.drop_eq_getElem_cons hlt, List.cons_append] at h
      obtain ⟨ht, hrest⟩ := List.cons.inj h
      have hsame := hts t List.mem_cons_self
      rw [← ht, Array.getElem_toList] at hsame
      unfold lineEnd
      rw [dif_pos (by simpa using hlt), if_neg (by rw [Bool.not_eq_true]; exact hsame),
        ih hrest fun u hu => hts u (List.mem_cons_of_mem _ hu), List.length_cons]
      omega

/-- Comments at the end of a line are not counted. -/
theorem lastBehind_eq {start : Nat} (hstart : start < i)
    (hclosed : (tokens[i - 1]?).any Token.isComment = false) {n : Nat}
    (hcomments : ∀ k < n, (tokens[i + k]?).any Token.isComment = true) :
    lastBehind tokens start (i + n) = i := by
  induction n with
  | zero =>
      obtain ⟨j, rfl⟩ := Nat.exists_eq_add_one.mpr (Nat.zero_lt_of_lt hstart)
      rw [Nat.add_sub_cancel] at hclosed
      rw [Nat.add_zero, lastBehind, if_neg (by simp [hclosed])]
  | succ n ih =>
      rw [← Nat.add_assoc, lastBehind, if_pos (by
        rw [hcomments n (Nat.lt_succ_self n), Bool.and_true, decide_eq_true_eq]
        omega)]
      exact ih fun k hk => hcomments k (Nat.lt_succ_of_lt hk)

end Directive

/-- The comments from a position on. -/
theorem Comment.runFrom_eq (tokens : Array Token) (i : Nat) :
    runFrom tokens i = (tokens.toList.drop i).takeWhile Token.isComment := by
  fun_induction runFrom tokens i with
  | case1 i hlt hcomment ih =>
      rw [List.drop_eq_getElem_cons (by simpa using hlt), Array.getElem_toList,
        List.takeWhile_cons_of_pos hcomment, ih]
  | case2 i hlt hcomment =>
      rw [List.drop_eq_getElem_cons (by simpa using hlt), Array.getElem_toList,
        List.takeWhile_cons_of_neg hcomment]
  | case3 i hge => rw [List.drop_eq_nil_of_le (by simpa using hge), List.takeWhile_nil]

/-! ## Lines -/

/-- The tokens of a line that defines a name as a value: the value from behind the name through its
last token that is no comment, and comments behind it. -/
structure ConstantLine where
  mark : Token
  word : Token
  name : Token
  value : List Token
  remarks : List Token := []
  isMark : (mark.kind == .punct && mark.text == "#") = true
  isDefine : word.isKeyword .define_ = true
  isName : name.isWord = true
  named : Text.isWord name.text.toList = true
  oneLine : ∀ t ∈ name :: (value ++ remarks), Conditional.startsLine t = false
  ongoing : ∀ t ∈ value, t.isEof = false
  hidden : ∀ t ∈ remarks, t.isComment = true
  closed : value.getLast?.any (!·.isComment) = true
  /-- A parenthesis next to the name would start parameters. -/
  apart : ∀ t ∈ value.head?, (t.spacing.isEmpty && t.is "(") = false

namespace ConstantLine

def tokens (line : ConstantLine) : List Token :=
  line.mark :: line.word :: line.name :: (line.value ++ line.remarks)

/-- The value without its comments. -/
def visible (line : ConstantLine) : List Token :=
  line.value.filter (!·.isComment)

/-- What the tokens of the value say. -/
def found (line : ConstantLine) (table : RuleTable) : ConstantValue :=
  line.value.foldl (ConstantValue.push table) {}

/-- The value as it is written, with a sign behind each token but the last if strings are put
together. -/
def written (concatenates : Bool) : List Token → String
  | [] => ""
  | [t] => t.spaced
  | t :: u :: ts =>
    t.spaced ++ (if concatenates then " + " else "") ++ written concatenates (u :: ts)

/-- What is printed behind the sign of equality. -/
def initializer (line : ConstantLine) (table : RuleTable) : String :=
  if (line.found table).isPlain then
    table.translateName (written (line.found table).concatenates line.visible)
  else " " ++ line.name.text ++ "()"

/-- The constant that is printed. -/
def constant (line : ConstantLine) (table : RuleTable) : String :=
  let type := (line.found table).type.target
  (if (line.found table).isPlain then ""
    else "public static native @MemberGetter " ++ type ++ " " ++ line.name.text ++ "();\n")
  ++ if (line.initializer table).isEmpty then ""
    else "public static final " ++ type ++ " " ++ line.name.text ++ " ="
      ++ line.initializer table ++ ";\n"

/-- The line as a comment, for a value that nothing is left of. -/
def asComment (line : ConstantLine) : String :=
  (line.name :: line.value).foldl
    (fun text t => text ++ (if t.isContinuation then "\n// " else t.spaced))
    ("// " ++ (Text.throughLastBreak line.mark.spacing).2 ++ "#" ++ line.word.spaced)

/-- What is printed for the line, and the white space in front of it. -/
def shown (line : ConstantLine) (table : RuleTable) : String × String :=
  if (line.constant table).isEmpty then
    (line.asComment, (Text.throughLastBreak line.mark.spacing).1)
  else (line.constant table, line.mark.spacing)

/-- What is written down for the name. -/
def rule (line : ConstantLine) (table : RuleTable) : Rule :=
  { nativeNames := [line.name.text], nativeTypes := some [(line.found table).type.native]
    translate := (line.found table).isPlain, define := true }

/-- The comments behind the value, also on lines behind it. -/
def comments (line : ConstantLine) (rest : List Token) : List Token :=
  (line.remarks ++ rest).takeWhile Token.isComment

/-- The declaration of the line. -/
def declaration (line : ConstantLine) (rest : List Token) (table : RuleTable) : Declaration :=
  { text := Comment.after (line.comments rest) ++ (line.shown table).1
    signature := line.name.text }

/-- The outline with what is printed for the line. -/
def print (line : ConstantLine) (rest : List Token) (table : RuleTable) (outline : Outline) :
    Outline :=
  let spaced : Outline := { outline with spacing := some (line.shown table).2 }
  { (spaced.add (table.put (line.rule table)) (line.declaration rest table)).2 with
    spacing := none }

/-- The state behind the line and the comments that follow it. -/
def behind (line : ConstantLine) (rest : List Token) (s : Reading) : Reading :=
  { s with
    window.index := s.window.index + 3 + line.value.length + (line.comments rest).length
    table := s.table.put (line.rule s.table)
    outline := line.print rest s.table s.outline }

variable {line : ConstantLine} {s : Reading} {rest : List Token}

theorem value_ne_nil (line : ConstantLine) : line.value ≠ [] := by
  intro hnil
  have hclosed := line.closed
  rw [hnil] at hclosed
  cases hclosed

theorem written_cons (concatenates : Bool) (t : Token) {ts : List Token} (h : ts ≠ []) :
    written concatenates (t :: ts) =
      t.spaced ++ (if concatenates then " + " else "") ++ written concatenates ts := by
  cases ts with
  | nil => exact absurd rfl h
  | cons u ts => rfl

theorem visible_ne_nil_of_closed {ts : List Token}
    (hclosed : ts.getLast?.any (!·.isComment) = true) : ts.filter (!·.isComment) ≠ [] := by
  cases hlast : ts.getLast? with
  | none =>
      rw [hlast] at hclosed
      cases hclosed
  | some t =>
      rw [hlast] at hclosed
      exact List.ne_nil_of_mem (List.mem_filter.mpr ⟨List.mem_of_getLast? hlast, hclosed⟩)

theorem visible_ne_nil (line : ConstantLine) : line.visible ≠ [] :=
  visible_ne_nil_of_closed line.closed

/-- The text of a value, token by token. -/
theorem foldl_pushValue {span : Directive.Span} {concatenates : Bool} {ts : List Token} {i : Nat}
    (hlast : span.last = i + ts.length) (hclosed : ts.getLast?.any (!·.isComment) = true)
    (text : String) :
    (ts.zipIdx i).foldl (fun text (t, i) => Directive.pushValue span concatenates text i t) text =
      text ++ written concatenates (ts.filter (!·.isComment)) := by
  induction ts generalizing i text with
  | nil => cases hclosed
  | cons t ts ih =>
      rw [List.length_cons] at hlast
      rw [List.zipIdx_cons, List.foldl_cons]
      cases hts : ts with
      | nil =>
          subst hts
          have ht : t.isComment = false := by simpa using hclosed
          have hlt : ¬ i + 1 < span.last := by rw [hlast]; simp
          simp [Directive.pushValue, ht, hlt, written]
      | cons u us =>
          rw [hts, List.getLast?_cons_cons, ← hts] at hclosed
          rw [← hts, ih (by omega) hclosed]
          by_cases ht : t.isComment = true
          · simp [Directive.pushValue, ht]
          · have hlt : i + 1 < span.last := by rw [hlast, hts, List.length_cons]; omega
            rw [List.filter_cons_of_pos (by simp [ht]),
              written_cons _ _ (visible_ne_nil_of_closed hclosed)]
            simp [Directive.pushValue, ht, hlt, String.append_assoc]

theorem isEof_of_mem (line : ConstantLine) {t : Token} (ht : t ∈ line.name :: line.value) :
    t.isEof = false := by
  rcases List.mem_cons.mp ht with rfl | hvalue
  · have hname := line.isName
    unfold Token.isWord at hname
    unfold Token.isEof
    split at hname <;> simp_all
  · exact line.ongoing t hvalue

/-- Strings are put together just if the type is that of strings. -/
theorem concatenates_foldl (table : RuleTable) (ts : List Token) {v : ConstantValue}
    (h : v.concatenates = (v.type == .string)) :
    (ts.foldl (ConstantValue.push table) v).concatenates =
      ((ts.foldl (ConstantValue.push table) v).type == .string) := by
  have hmax : ∀ a b : Literal, ((a == .string) || (b == .string)) = (a.max b == .string) := by
    intro a b
    cases a <;> cases b <;> rfl
  induction ts generalizing v with
  | nil => exact h
  | cons t ts ih =>
      rw [List.foldl_cons]
      refine ih ?_
      unfold ConstantValue.push
      split
      · simp only [h, hmax]
      · exact h

theorem concatenates_found (line : ConstantLine) (table : RuleTable) :
    (line.found table).concatenates = ((line.found table).type == .string) :=
  concatenates_foldl table line.value rfl

/-! ### What reading a line does -/

/-- The positions of the line. -/
theorem spanAt_eq (h : s.ahead = line.tokens ++ rest)
    (hrest : ∀ t ∈ rest.head?, Conditional.startsLine t = true) :
    Directive.spanAt s.window.tokens s.window.index =
      { start := s.window.index + 2
        stop := s.window.index + 3 + line.value.length + line.remarks.length
        last := s.window.index + 3 + line.value.length } := by
  have hname : s.window.tokens.toList.drop (s.window.index + 2) =
      (line.name :: (line.value ++ line.remarks)) ++ rest := by
    have hshape : s.ahead = [line.mark, line.word] ++
        ((line.name :: (line.value ++ line.remarks)) ++ rest) := h
    exact Reading.ahead_add hshape
  have hstop : Directive.lineEnd s.window.tokens (s.window.index + 2) =
      s.window.index + 3 + line.value.length + line.remarks.length := by
    rw [Directive.lineEnd_eq hname line.oneLine hrest, List.length_cons, List.length_append]
    omega
  have hat (n : Nat) : s.window.tokens[s.window.index + 3 + n]? =
      (line.value ++ (line.remarks ++ rest))[n]? := by
    have hvalue := Reading.getElem?_of_ahead h (3 + n)
    rw [← Nat.add_assoc] at hvalue
    rw [hvalue]
    simp [tokens, Nat.add_comm 3 n]
  have hpos := List.length_pos_iff.mpr line.value_ne_nil
  have hlast : Directive.lastBehind s.window.tokens (s.window.index + 2)
      (s.window.index + 3 + line.value.length + line.remarks.length) =
        s.window.index + 3 + line.value.length := by
    refine Directive.lastBehind_eq (by omega) ?_ fun k hk => ?_
    · have hprevious : s.window.index + 3 + line.value.length - 1 =
          s.window.index + 3 + (line.value.length - 1) := by omega
      rw [hprevious, hat, List.getElem?_append_left (by omega), ← List.getLast?_eq_getElem?]
      have hclosed := line.closed
      cases hvalue : line.value.getLast? with
      | none => rfl
      | some t => simpa [hvalue] using hclosed
    · rw [Nat.add_assoc, hat, List.getElem?_append_right (Nat.le_add_right _ _),
        Nat.add_sub_cancel_left, List.getElem?_append_left hk, List.getElem?_eq_getElem hk]
      exact line.hidden _ (List.getElem_mem hk)
  simp only [Directive.spanAt, hstop, hlast]

/-- The line read without preprocessing, wherever the cursor is on it. -/
structure Reads (line : ConstantLine) (start : Nat) (rest : List Token) (s : Reading) : Prop where
  bare : s.window.raw = true
  fueled : 0 < s.fuel
  here : (s.atIndex start).ahead = line.tokens ++ rest
  behind : ∀ t ∈ rest.head?, Conditional.startsLine t = true

/-- The positions of the line. -/
def span (line : ConstantLine) (start : Nat) : Directive.Span where
  start := start + 2
  stop := start + 3 + line.value.length + line.remarks.length
  last := start + 3 + line.value.length

namespace Reads

variable {start : Nat} {scope : Scope}

theorem value (h : line.Reads start rest s) :
    (s.atIndex (start + 3)).ahead = line.value ++ (line.remarks ++ rest) := by
  have hshape : line.tokens ++ rest =
      [line.mark, line.word, line.name] ++ (line.value ++ (line.remarks ++ rest)) := by
    simp [tokens]
  exact Reading.ahead_add (h.here.trans hshape)

/-- Stepping through the value. -/
theorem foldTo_eq (h : line.Reads start rest s) {α : Type} (a : α)
    (step : α → Nat → Token → α) :
    Directive.foldTo (line.span start).last a step (s.atIndex (start + 3)) =
      .ok ((line.value.zipIdx (start + 3)).foldl (fun a (t, i) => step a i t) a)
        (s.atIndex (line.span start).last) :=
  Directive.foldTo_eq (s := s.atIndex (start + 3)) h.bare h.fueled h.value line.ongoing

/-- A constant without rules is printed and written down. -/
theorem readConstant_eq (scope : Scope) (h : line.Reads start rest s) :
    ∃ i, Directive.readConstant scope line.name.text none (line.span start) {} s =
      .ok { text := line.constant s.table, signature := line.name.text }
        { s.atIndex i with table := s.table.put (line.rule s.table) } := by
  have htable : ReadM.table (s.atIndex (start + 3)) = .ok s.table (s.atIndex (start + 3)) := rfl
  have hfound : Directive.foldTo (line.span start).last ({} : ConstantValue)
      (fun v _ => v.push s.table) (s.atIndex (start + 3)) =
        .ok (line.found s.table) (s.atIndex (line.span start).last) := by
    rw [h.foldTo_eq, Directive.foldl_zipIdx (ConstantValue.push s.table)]
    rfl
  have hshort : ∀ type : Literal, Text.lastWord type.target = type.target := by
    intro type
    cases type <;> decide
  have hnative : ∀ type : Literal, (Literal.ofTarget type.target).native = type.native := by
    intro type
    cases type <;> decide
  unfold Directive.readConstant
  rw [bind_of_ok (moveTo_index _ s)]
  change ∃ i, (ReadM.table >>= _) (s.atIndex (start + 3)) = _
  rw [bind_of_ok htable, bind_of_ok hfound]
  simp only [Directive.readConstantType, Option.bind_none, pure_bind, hshort, hnative]
  rw [bind_of_ok (moveTo_index _ _)]
  have hback : (s.atIndex (line.span start).last).atIndex ((line.span start).start + 1) =
      s.atIndex (start + 3) := rfl
  rw [hback]
  by_cases hplain : (line.found s.table).isPlain = true
  · have hvalue := h.foldTo_eq "" (Directive.pushValue (line.span start)
      (line.found s.table).concatenates)
    rw [foldl_pushValue rfl line.closed, String.empty_append] at hvalue
    refine ⟨(line.span start).last, ?_⟩
    rw [if_pos hplain, bind_of_ok hvalue]
    simp only [constant, initializer, rule, hplain, if_true]
    rfl
  · refine ⟨start + 3, ?_⟩
    rw [if_neg hplain]
    simp only [constant, initializer, rule, hplain]
    rfl

/-- A name without rules is defined as a constant. -/
theorem readDefinition_eq (scope : Scope) (h : line.Reads start rest s)
    (hrules : s.table.rules line.name.text = []) :
    ∃ i, Directive.readDefinition scope start (line.span start) s =
      .ok { text := line.constant s.table, signature := line.name.text }
        { s.atIndex i with table := s.table.put (line.rule s.table) } := by
  obtain ⟨t, ts, hvalue⟩ := List.exists_cons_of_ne_nil line.value_ne_nil
  have hname : (s.atIndex (start + 2)).ahead =
      line.name :: t :: (ts ++ line.remarks ++ rest) := by
    have hshape : line.tokens ++ rest = [line.mark, line.word] ++
        (line.name :: t :: (ts ++ line.remarks ++ rest)) := by
      simp [tokens, hvalue]
    exact Reading.ahead_add (h.here.trans hshape)
  have hpeek := peek_of_ahead (s := s.atIndex (start + 2)) h.bare hname
  have hadvance := advance_of_ahead (s := s.atIndex (start + 2)) h.bare hname
  have hrule : ReadM.rules line.name.text (s.atIndex (start + 3)) = .ok [] (s.atIndex (start + 3)) :=
    congrArg (EStateM.Result.ok · _) hrules
  have happly : (t.spacing.isEmpty && t.is "(") = false := line.apart t (by rw [hvalue]; rfl)
  have huse : ((line.span start).start + 1 == (line.span start).last) = false := by
    have hpos := List.length_pos_iff.mpr line.value_ne_nil
    simp only [span, beq_eq_false_iff_ne]
    omega
  obtain ⟨i, hread⟩ := readConstant_eq (s := s.atIndex (start + 3)) scope
    ⟨h.bare, h.fueled, h.here, h.behind⟩
  refine ⟨i, ?_⟩
  unfold Directive.readDefinition
  rw [bind_of_ok (moveTo_index _ s)]
  change (peek >>= _) (s.atIndex (start + 2)) = _
  rw [bind_of_ok hpeek, bind_of_ok hadvance]
  change (ReadM.rules _ >>= _) (s.atIndex (start + 3)) = _
  rw [bind_of_ok hrule]
  simp only [happly, List.isEmpty_nil, if_true]
  unfold Directive.applyRules
  simp only [Option.any_none, Bool.false_eq_true, if_false, Directive.useOf, huse, Bool.or_self]
  rw [bind_of_ok hread]
  rfl

/-- The line as a comment. -/
theorem readAsComment_eq (h : line.Reads start rest s) :
    Directive.readAsComment line.mark.spacing line.word (line.span start) s =
      .ok line.asComment (s.atIndex (line.span start).last) := by
  have hname : (s.atIndex (start + 2)).ahead =
      (line.name :: line.value) ++ (line.remarks ++ rest) := by
    have hshape : line.tokens ++ rest =
        [line.mark, line.word] ++ ((line.name :: line.value) ++ (line.remarks ++ rest)) := by
      simp [tokens]
    exact Reading.ahead_add (h.here.trans hshape)
  have hlast : (line.span start).last = start + 2 + (line.name :: line.value).length := by
    simp only [span, List.length_cons]
    omega
  let push (text : String) (t : Token) : String :=
    text ++ (if t.isContinuation then "\n// " else t.spaced)
  have hfold (text : String) : Directive.foldTo (line.span start).last text (fun text _ => push text)
      (s.atIndex (start + 2)) =
        .ok ((line.name :: line.value).foldl push text) (s.atIndex (line.span start).last) := by
    rw [hlast]
    have hsteps : Directive.foldTo (start + 2 + (line.name :: line.value).length) text
        (fun text _ => push text) (s.atIndex (start + 2)) = _ :=
      Directive.foldTo_eq (s := s.atIndex (start + 2)) h.bare h.fueled hname
        fun t => line.isEof_of_mem
    rw [hsteps, Directive.foldl_zipIdx push]
    rfl
  unfold Directive.readAsComment
  rw [bind_of_ok (moveTo_index _ s)]
  exact hfold _

/-- The comments behind the value are taken. -/
theorem takeAfter_eq (h : line.Reads start rest s) :
    Comment.takeAfter (s.atIndex (line.span start).last) =
      .ok (Comment.after (line.comments rest))
        (s.atIndex ((line.span start).last + (line.comments rest).length)) := by
  obtain ⟨n, hlength⟩ := Nat.exists_eq_add_one.mpr (List.length_pos_iff.mpr line.value_ne_nil)
  have hlast : (line.span start).last = start + 3 + n + 1 := by
    simp only [span, hlength]
    omega
  have hclosed : (s.window.tokens[start + 3 + n]?).any Token.isComment = false := by
    have htoken := Reading.getElem?_of_ahead h.value n
    rw [Reading.atIndex_index, List.getElem?_append_left (by omega)] at htoken
    have hvalue := line.closed
    rw [List.getLast?_eq_getElem?, hlength, Nat.add_sub_cancel] at hvalue
    change s.window.tokens[start + 3 + n]? = line.value[n]? at htoken
    rw [htoken]
    cases hn : line.value[n]? with
    | none => rfl
    | some t => simpa [hn] using hvalue
  have hstart : Comment.runStart s.window.tokens (line.span start).last = (line.span start).last := by
    rw [hlast, Comment.runStart, if_neg (by simp [hclosed])]
  have hbehind : s.window.tokens.toList.drop (line.span start).last = line.remarks ++ rest :=
    Reading.ahead_add h.value
  have hrun : Comment.runFrom s.window.tokens (line.span start).last = line.comments rest := by
    rw [Comment.runFrom_eq, hbehind]
    rfl
  have htake : Comment.takeRun (s.atIndex (line.span start).last) =
      .ok (line.comments rest)
        (s.atIndex ((line.span start).last + (line.comments rest).length)) := by
    rw [← hrun]
    conv_rhs => rw [← hstart]
    rfl
  unfold Comment.takeAfter
  rw [bind_of_ok htake]
  rfl

/-- The line from its mark on. -/
theorem readLine_eq (h : line.Reads start rest s) (hstart : s.window.index = start)
    (hrules : s.table.rules line.name.text = []) :
    Directive.readLine scope s = .ok true (line.behind rest s) := by
  subst hstart
  have hmark := peek_of_ahead h.bare h.here
  have hword := advance_of_ahead h.bare h.here
  have hname := advance_of_ahead (s := s.atIndex (s.window.index + 1)) h.bare
    (Reading.ahead_succ h.here)
  have hspan : Directive.spanAt s.window.tokens s.window.index = line.span s.window.index :=
    spanAt_eq h.here h.behind
  obtain ⟨i, hdefinition⟩ := readDefinition_eq (s := s.atIndex (s.window.index + 2)) scope
    ⟨h.bare, h.fueled, h.here, h.behind⟩ hrules
  have hnamed : (line.word.isKeyword .define_ && decide ((line.span s.window.index).start <
      (line.span s.window.index).last)) = true := by
    rw [line.isDefine, Bool.true_and, decide_eq_true_eq]
    simp only [span]
    omega
  have hcursor : cursor s = .ok s.window.index s := rfl
  have hget : (get : ReadM Reading) (s.atIndex (s.window.index + 2)) =
      .ok (s.atIndex (s.window.index + 2)) (s.atIndex (s.window.index + 2)) := rfl
  -- what is learned is there from now on
  let known : Reading := { s with table := s.table.put (line.rule s.table) }
  have hknown : line.Reads s.window.index rest (known.atIndex i) :=
    ⟨h.bare, h.fueled, h.here, h.behind⟩
  have hthen : line.Reads s.window.index rest known := ⟨h.bare, h.fueled, h.here, h.behind⟩
  have hcomments := hthen.takeAfter_eq
  have hend (j : Nat) : (do
      moveTo (line.span s.window.index).last
      let comment ← Comment.takeAfter
      addSpaced (line.shown s.table).2
        [{ text := comment ++ (line.shown s.table).1, signature := line.name.text }]
      return true : ReadM Bool) (known.atIndex j) = .ok true (line.behind rest s) := by
    rw [bind_of_ok (moveTo_index _ _)]
    have hthere : (known.atIndex j).atIndex (line.span s.window.index).last =
      known.atIndex (line.span s.window.index).last := rfl
    rw [hthere, bind_of_ok hcomments]
    rfl
  have hthere : (s.atIndex (s.window.index + 1)).atIndex
      ((s.atIndex (s.window.index + 1)).window.index + 1) = s.atIndex (s.window.index + 2) := rfl
  have hspan' : Directive.spanAt (s.atIndex (s.window.index + 2)).window.tokens s.window.index =
      line.span s.window.index := hspan
  unfold Directive.readLine
  rw [bind_of_ok hcursor, bind_of_ok hmark, bind_of_ok hword, bind_of_ok hname, hthere,
    bind_of_ok hget]
  simp only [hspan']
  rw [if_pos hnamed, bind_of_ok hdefinition]
  change _ = EStateM.Result.ok true (line.behind rest s)
  by_cases hempty : (line.constant s.table).isEmpty = true
  · have hcomment := hknown.readAsComment_eq
    have hshown : line.shown s.table =
        (line.asComment, (Text.throughLastBreak line.mark.spacing).1) := if_pos hempty
    rw [hshown] at hend
    rw [if_pos (by exact hempty)]
    exact (bind_of_ok hcomment _).trans (hend _)
  · have hshown : line.shown s.table = (line.constant s.table, line.mark.spacing) := if_neg hempty
    rw [hshown] at hend
    rw [if_neg (by exact hempty)]
    exact hend i

end Reads

/-- The cursor is on a line that defines the name. -/
theorem lineAt (h : s.ahead = line.tokens ++ rest)
    (hrest : ∀ t ∈ rest.head?, Conditional.startsLine t = true) :
    Directive.LineAt .define_ line.name.text s := by
  refine ⟨?_, ?_, ?_, ?_⟩
  · rw [← Nat.add_zero s.window.index, Reading.getElem?_of_ahead h]
    exact line.isMark
  · rw [Reading.tokenAt_of_ahead h (n := 1) rfl]
    exact line.isDefine
  · rw [Reading.tokenAt_of_ahead h (n := 2) rfl]
  · rw [spanAt_eq h hrest]
    simp only
    omega

/-- **A line** that defines a name without rules: a constant is printed and its type written down. -/
theorem read_eq {scope : Scope} (hfuel : 0 < s.fuel)
    (h : s.ahead = line.tokens ++ rest)
    (hrest : ∀ t ∈ rest.head?, Conditional.startsLine t = true)
    (hrules : s.table.rules line.name.text = []) :
    Directive.read scope s = .ok true (line.behind rest s) := by
  let bare : Reading := { s with window.raw := true }
  have hreads : line.Reads s.window.index rest bare := ⟨rfl, hfuel, h, hrest⟩
  obtain ⟨t, hpeek, ht⟩ := Directive.peek_mark (lineAt h hrest) rfl
  have hline : Directive.readLine scope bare =
      .ok true { line.behind rest s with window.raw := true } :=
    hreads.readLine_eq rfl hrules
  unfold Directive.read
  rw [bind_of_ok hpeek, if_neg (by simp [ht])]
  unfold raw around
  rw [hline]
  have hback : ({ line.behind rest s with window.raw := s.window.raw } : Reading) =
      line.behind rest s := rfl
  exact congrArg (EStateM.Result.ok true) hback

/-- A constant of which there is none yet goes behind what is there. -/
theorem print_toList {table : RuleTable} {outline : Outline}
    (hnew : ∀ d ∈ outline.toList, d.signature ≠ line.name.text) :
    (line.print rest table outline).toList = outline.toList ++
      [{ outline with spacing := some (line.shown table).2 }.stored (line.declaration rest table)] := by
  let spaced : Outline := { outline with spacing := some (line.shown table).2 }
  let d := line.declaration rest table
  have hname : d.signature ≠ "" := by
    intro hempty
    have hnamed := line.named
    rw [show line.name.text = "" from hempty] at hnamed
    cases hnamed
  have hadd (table : RuleTable) : spaced.add table d = (true, spaced.insert d) := by
    simp [Outline.add, Outline.isSkipped, Declaration.unfold, d, declaration]
  have hkept : outline.toList.filter (Outline.stays (spaced.stored d)) = outline.toList := by
    refine List.filter_eq_self.mpr fun e he => ?_
    have hother : e.signature ≠ d.signature := hnew e he
    simp [Outline.stays, hother]
  have hnone : outline.toList.any (·.signature == d.signature) = false := by
    rw [List.any_eq_false]
    intro e he
    have hother : e.signature ≠ d.signature := hnew e he
    simpa using hother
  have hinsert := Outline.toList_insert spaced d
  have hlist : spaced.toList = outline.toList := rfl
  rw [if_neg hname, hlist, hkept] at hinsert
  change (spaced.add _ d).2.toList = _
  rw [hadd, hinsert]
  dsimp only
  rw [hnone, if_neg Bool.false_ne_true]

end ConstantLine

/-- What is printed for a line; none if it fails. -/
def Directive.printed? (text : String) : Option String :=
  match read {} (Reading.ofTokens {} (Token.ofText none text)) with
  | .ok true s => some s.outline.text
  | _ => none

end HeaderPeers

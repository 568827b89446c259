import HeaderPeers.Proofs.Window.Extent
import HeaderPeers.Proofs.Window.Search

/-!
# Rewritings are local

A recognizer saves the cursor, reads ahead and comes back. Between the two the
tokens may be rewritten at every place that was looked at, any number of times.
That the saved place is still good rests on three facts about one rewriting: it
looks at places that are there only, it leaves what stands before it alone, and it
leaves what stands behind its stretch alone. They hold for all tokens, those of
unfinished groups and invocations among them.

- `resolveAt?`, `expandAt?` — the rewritings, place by place. A look at a place
  that is not there gives nothing; they always give what `resolveAt` and
  `expandAt` give (`resolveAt?_eq`, `expandAt?_eq`).
- `groupEnd`, `invocationEnd` — where a stretch ends.
- `Call` — what a recognizer does with a window. Whatever it does from a place on,
  the tokens before that place stay (`Keeps`).
- `rewriting_is_local` — all of it.
-/

namespace HeaderPeers

open Conditional Expansion

namespace Window

variable {table : RuleTable} {tokens : Array Token} {i p : Nat}

/-! ## Looks that may go wrong -/

/-- The tokens between two places that have to be there. -/
def slice? (tokens : Array Token) (i j : Nat) : Option (List Token) :=
  if i ≤ j ∧ j ≤ tokens.size then some (tokens.extract i j).toList else none

theorem slice?_eq {j : Nat} (hij : i ≤ j) (hj : j ≤ tokens.size) :
    slice? tokens i j = some ((tokens.toList.drop i).take (j - i)) := by
  rw [slice?, if_pos ⟨hij, hj⟩, Array.toList_extract]

theorem slice?_front (h : i ≤ tokens.size) :
    slice? tokens 0 i = some (tokens.toList.take i) := by
  rw [slice?_eq (Nat.zero_le i) h]
  rfl

/-- The rest of the tokens is cut off at the end, wherever it starts. -/
theorem slice?_rest (tokens : Array Token) (i : Nat) :
    slice? tokens (min i tokens.size) tokens.size = some (tokens.toList.drop i) := by
  rw [slice?_eq (Nat.min_le_right _ _) (Nat.le_refl _), List.take_of_length_le (by simp)]
  rcases Nat.le_total i tokens.size with hi | hi
  · rw [Nat.min_eq_left hi]
  · rw [Nat.min_eq_right hi, List.drop_of_length_le (by simp), List.drop_of_length_le (by simpa)]

/-- The place where the condition of a directive ends: the next line, or the end of
the tokens. -/
def conditionEnd (tokens : Array Token) (word : Token) (i : Nat) : Nat :=
  i + (splitCondition word (tokens.toList.drop i)).1.length

/-- Resolves the rest of a group from a place on, with what stays so far. -/
def resolveFrom? (table : RuleTable) (tokens : Array Token) (b : Branch) (kept : List Token)
    (i : Nat) : Option (List Token) :=
  if i < tokens.size then do
    let mark ← tokens[i]?
    if mark.is "#" && i + 1 < tokens.size then
      let word ← tokens[i + 1]?
      let depth := depthBehind b.depth mark word
      if depthAt b.depth mark word == 1 && word.isKeywordWith Keyword.dividesGroup then
        let stop := conditionEnd tokens word (i + 2)
        let condition ← slice? tokens (i + 2) stop
        let kept := kept ++ [remark mark word condition]
        if word.isKeyword .endif_ && depth == 0 then
          return kept ++ (← slice? tokens (min stop tokens.size) tokens.size)
        else resolveFrom? table tokens { b.after table word condition with depth }.note kept stop
      else resolveFrom? table tokens { b with depth }.note (kept ++ b.keep [mark]) (i + 1)
    else resolveFrom? table tokens b.note (kept ++ b.keep [mark]) (i + 1)
  else return kept ++ (← slice? tokens (min i tokens.size) tokens.size)
termination_by tokens.size - i
decreasing_by
  all_goals (try unfold conditionEnd); omega

/-- Resolves the conditional group in a place. -/
def resolveAt? (table : RuleTable) (tokens : Array Token) (i : Nat) : Option (Array Token) :=
  if i + 1 < tokens.size then do
    let mark ← tokens[i]?
    let word ← tokens[i + 1]?
    if opens [mark, word] then
      return (← resolveFrom? table tokens {} (← slice? tokens 0 i) i).toArray
    else return tokens
  else return tokens

/-- Puts arguments, which have to be there, in place of parameters. -/
def substitute? (parameters : List String) (arguments : List (List Token)) :
    List Token → Option (List Token)
  | [] => some []
  | t :: ts => do
    let image ← match parameters.findIdx? t.is with
      | some i => arguments[i]?
      | none => some [t]
    return image ++ (← substitute? parameters arguments ts)

/-- Puts other tokens in place of those from one place up to another. -/
def splice? (tokens : Array Token) (i stop : Nat) (expansion : List Token) :
    Option (Array Token) := do
  let first ← tokens[i]?
  let behind ← slice? tokens (min stop tokens.size) tokens.size
  return ((← slice? tokens 0 i) ++ splice first.spacing expansion behind).toArray

/-- The place behind the parenthesis that closes a list of arguments, or the end of
the tokens. -/
def argumentsEnd (tokens : Array Token) (i : Nat) : Nat :=
  match closing? 0 (tokens.toList.drop i) with
  | some n => i + n
  | none => tokens.size

/-- What takes the place of an invocation with these arguments. -/
def expansion? (table : RuleTable) (parameters : List String) (body : List Token)
    (inv : Invocation) : Option (List Token) :=
  if isLeftOut table inv.text then some []
  else (substitute? parameters inv.arguments body).map paste

/-- Expands the macro in a place. -/
def expandAt? (table : RuleTable) (tokens : Array Token) (i : Nat) : Option (Array Token) :=
  match tokens[i]? with
  | none => some tokens
  | some t =>
    match (ruleFor? table t).bind fun (rule, text) =>
      definition? t.location rule.nativeName text with
    | none => some tokens
    | some definition =>
      match definition.parameters with
      | none =>
        splice? tokens i (i + 1) (if isLeftOut table t.text then [] else paste definition.body)
      | some parameters =>
        if (tokens[i + 1]?).any (Token.is · "(") then do
          let opening ← tokens[i + 1]?
          let start : Invocation :=
            { arguments := List.replicate parameters.length []
              text := t.text ++ opening.spaced, rest := [] }
          let taken ← slice? tokens (i + 2) (argumentsEnd tokens (i + 2))
          let expansion ← expansion? table parameters definition.body
            (readArguments parameters 0 0 start taken)
          splice? tokens i (argumentsEnd tokens (i + 2)) expansion
        else some tokens

/-! ## They never go wrong -/

/-- A condition ends where its line ends, within the tokens. -/
theorem conditionEnd_spec (word : Token) (h : i ≤ tokens.size) :
    slice? tokens i (conditionEnd tokens word i) =
        some (splitCondition word (tokens.toList.drop i)).1 ∧
      tokens.toList.drop (conditionEnd tokens word i) =
        (splitCondition word (tokens.toList.drop i)).2 := by
  have hsplit := (splitCondition_spec word (tokens.toList.drop i)).1
  have hlength := congrArg List.length hsplit
  rw [List.length_append, List.length_drop, Array.length_toList] at hlength
  have hstop : conditionEnd tokens word i ≤ tokens.size := by
    unfold conditionEnd
    omega
  constructor
  · rw [slice?_eq (by unfold conditionEnd; omega) hstop, conditionEnd, Nat.add_sub_cancel_left]
    exact congrArg some ((congrArg (List.take _) hsplit).symm.trans List.take_left)
  · rw [conditionEnd, ← List.drop_drop]
    exact (congrArg (List.drop _) hsplit).symm.trans List.drop_left

theorem drop_size (tokens : Array Token) : tokens.toList.drop tokens.size = [] :=
  List.drop_length

theorem drop_eq_getElem_cons (h : i < tokens.size) :
    tokens.toList.drop i = tokens[i] :: tokens.toList.drop (i + 1) :=
  List.drop_eq_getElem_cons (by simpa using h)

/-- **A group is resolved within the tokens.** By induction on the number of tokens
that are left. -/
theorem resolveFrom?_eq (table : RuleTable) (tokens : Array Token) (b : Branch)
    (kept : List Token) (i : Nat) :
    resolveFrom? table tokens b kept i =
      some (kept ++ resolveFrom table b (tokens.toList.drop i)) := by
  induction hn : tokens.size - i using Nat.strongRecOn generalizing b kept i with
  | ind n ih =>
    rw [resolveFrom?]
    by_cases hi : i < tokens.size
    · have hmore (b : Branch) (kept : List Token) : resolveFrom? table tokens b kept (i + 1) =
          some (kept ++ resolveFrom table b (tokens.toList.drop (i + 1))) :=
        ih _ (by omega) b kept (i + 1) rfl
      rw [if_pos hi, Array.getElem?_eq_getElem hi, drop_eq_getElem_cons hi]
      simp only [Option.bind_eq_bind, Option.bind_some]
      by_cases hmark : (tokens[i].is "#" && decide (i + 1 < tokens.size)) = true
      · obtain ⟨hhash, hnext⟩ := Bool.and_eq_true_iff.mp hmark
        rw [decide_eq_true_eq] at hnext
        have hword := drop_eq_getElem_cons hnext
        rw [if_pos hmark, Array.getElem?_eq_getElem hnext, Option.bind_some]
        by_cases hown : (depthAt b.depth tokens[i] tokens[i + 1] == 1 &&
            tokens[i + 1].isKeywordWith Keyword.dividesGroup) = true
        · obtain ⟨hat, hdivides⟩ := Bool.and_eq_true_iff.mp hown
          obtain ⟨hcondition, hrest⟩ :=
            conditionEnd_spec tokens[i + 1] (Nat.succ_le_of_lt hnext)
          have hstop : i + 2 ≤ conditionEnd tokens tokens[i + 1] (i + 2) := Nat.le_add_right _ _
          rw [if_pos hown, hcondition, Option.bind_some, hword,
            resolveFrom_own table b hhash hdivides (beq_iff_eq.mp hat), ← hrest]
          split
          · rw [slice?_rest]
            simp
          · rw [ih _ (by omega) _ _ _ rfl]
            simp
        · have hother :
              startsDirective (tokens[i] :: tokens[i + 1] :: tokens.toList.drop (i + 2)) = false ∨
                depthAt b.depth tokens[i] tokens[i + 1] ≠ 1 := by
            simp only [Bool.and_eq_true, beq_iff_eq, not_and, Bool.not_eq_true] at hown
            by_cases hat : depthAt b.depth tokens[i] tokens[i + 1] = 1
            · exact .inl (by simp [startsDirective, hown hat])
            · exact .inr hat
          rw [if_neg hown, hmore, hword, resolveFrom_other table b _ hother, List.append_assoc]
      · have hplain : startsDirective (tokens[i] :: tokens.toList.drop (i + 1)) = false := by
          by_cases hnext : i + 1 < tokens.size
          · rw [decide_eq_true hnext, Bool.and_true, Bool.not_eq_true] at hmark
            exact startsDirective_of_not_is hmark _
          · rw [List.drop_of_length_le (by simpa using hnext)]
            rfl
        rw [if_neg hmark, hmore, resolveFrom_plain table b hplain, List.append_assoc]
    · rw [if_neg hi, slice?_rest, List.drop_of_length_le (by simpa using hi), resolveFrom]
      rfl

theorem resolveAt?_eq (table : RuleTable) (tokens : Array Token) (i : Nat) :
    resolveAt? table tokens i = some (resolveAt table tokens i) := by
  unfold resolveAt? resolveAt opensAt
  by_cases hnext : i + 1 < tokens.size
  · have hi : i < tokens.size := Nat.lt_of_succ_lt hnext
    rw [if_pos hnext, Array.getElem?_eq_getElem hi, Array.getElem?_eq_getElem hnext]
    simp only [Option.bind_eq_bind, Option.bind_some]
    split
    · rw [slice?_front hi.le, Option.bind_some, resolveFrom?_eq, Option.bind_some]
      refine congrArg some (Array.toList_inj.mp ?_)
      rw [toList_replaceTail, tail_eq_drop]
      rfl
    · rfl
  · rw [if_neg hnext, Array.getElem?_eq_none (Nat.le_of_not_lt hnext)]
    cases tokens[i]? <;> rfl

theorem splice?_eq {t : Token} (ht : tokens[i]? = some t) (stop : Nat) (expansion : List Token) :
    splice? tokens i stop expansion =
      some (replaceTail tokens i (splice t.spacing expansion (tokens.toList.drop stop))) := by
  obtain ⟨hi, -⟩ := Array.getElem?_eq_some_iff.mp ht
  unfold splice?
  rw [ht, slice?_rest, slice?_front hi.le]
  simp only [Option.bind_eq_bind, Option.bind_some, Option.pure_def]
  refine congrArg some (Array.toList_inj.mp ?_)
  rw [toList_replaceTail]

theorem substitute?_eq {parameters : List String} {arguments : List (List Token)}
    (h : arguments.length = parameters.length) (body : List Token) :
    substitute? parameters arguments body = some (substitute parameters arguments body) := by
  induction body with
  | nil => rfl
  | cons t ts ih =>
      rw [substitute?, ih]
      cases hi : parameters.findIdx? t.is with
      | none => simp [substitute, hi]
      | some k =>
          obtain ⟨hk, -⟩ := List.findIdx?_eq_some_iff_getElem.mp hi
          rw [← h] at hk
          simp [substitute, hi, hk]

/-- What the arguments end with is all that is read of them. -/
theorem argumentsEnd_spec (h : i ≤ tokens.size) (parameters : List String) (inv : Invocation) :
    ∃ taken, slice? tokens i (argumentsEnd tokens i) = some taken ∧
      readArguments parameters 0 0 inv (tokens.toList.drop i) =
        { readArguments parameters 0 0 inv taken with
          rest := tokens.toList.drop (argumentsEnd tokens i) } := by
  have hrest := readArguments_closing? parameters (tokens.toList.drop i) 0 0 inv
  cases hclosing : closing? 0 (tokens.toList.drop i) with
  | none =>
      have hend : argumentsEnd tokens i = tokens.size := by rw [argumentsEnd, hclosing]
      rw [hclosing] at hrest
      rw [hend]
      refine ⟨_, slice?_eq h (Nat.le_refl _), ?_⟩
      rw [List.take_of_length_le (by simp), drop_size]
      exact congrArg (Invocation.mk _ _) hrest
  | some n =>
      have hend : argumentsEnd tokens i = i + n := by rw [argumentsEnd, hclosing]
      have hn : n ≤ tokens.size - i := by
        simpa using le_length_of_closing? hclosing
      rw [hclosing] at hrest
      rw [hend]
      refine ⟨_, slice?_eq (Nat.le_add_right i n) (by omega), ?_⟩
      rw [Nat.add_sub_cancel_left, readArguments_take hclosing, ← List.drop_drop]
      exact congrArg (Invocation.mk _ _) hrest

theorem expansion?_eq {parameters : List String} {inv : Invocation}
    (h : inv.arguments.length = parameters.length) (body : List Token) :
    expansion? table parameters body inv =
      some (if isLeftOut table inv.text then []
        else paste (substitute parameters inv.arguments body)) := by
  rw [expansion?, substitute?_eq h, Option.map_some]
  split <;> rfl

/-- **A macro is expanded within the tokens**, and each argument asked for is there. -/
theorem expandAt?_eq (table : RuleTable) (tokens : Array Token) (i : Nat) :
    expandAt? table tokens i = some (expandAt table tokens i) := by
  unfold expandAt? expandAt
  cases ht : tokens[i]? with
  | none => rfl
  | some t =>
    obtain ⟨hi, rfl⟩ := Array.getElem?_eq_some_iff.mp ht
    rw [tail_eq_drop, drop_eq_getElem_cons hi, expand?]
    dsimp only
    cases hrule : ruleFor? table tokens[i] with
    | none => rfl
    | some found =>
      obtain ⟨rule, text⟩ := found
      simp only [Option.bind_some, Option.isNone_some, Bool.false_eq_true, if_false]
      cases hdefinition : definition? tokens[i].location rule.nativeName text with
      | none => rfl
      | some definition =>
        simp only [Option.bind_some]
        cases hparameters : definition.parameters with
        | none => rw [splice?_eq ht]
        | some parameters =>
          dsimp only
          by_cases hnext : i + 1 < tokens.size
          · rw [drop_eq_getElem_cons hnext, Array.getElem?_eq_getElem hnext, Option.any_some]
            dsimp only
            by_cases hopening : tokens[i + 1].is "(" = true
            · obtain ⟨taken, htaken, hread⟩ := argumentsEnd_spec (Nat.succ_le_of_lt hnext)
                parameters { arguments := List.replicate parameters.length []
                             text := tokens[i].text ++ tokens[i + 1].spaced, rest := [] }
              have hlength := length_readArguments parameters taken 0 0
                { arguments := List.replicate parameters.length []
                  text := tokens[i].text ++ tokens[i + 1].spaced, rest := [] }
              rw [List.length_replicate] at hlength
              rw [if_pos hopening, if_pos hopening, hread]
              simp only [Option.bind_eq_bind, Option.bind_some, htaken, expansion?_eq hlength,
                splice?_eq ht]
            · rw [if_neg hopening, if_neg hopening]
          · rw [List.drop_of_length_le (by simpa using hnext),
              Array.getElem?_eq_none (Nat.le_of_not_lt hnext)]
            rfl

/-! ## Where a stretch ends -/

/-- The place behind the group that starts in a place, or the end of the tokens. -/
def groupEnd (tokens : Array Token) (i : Nat) : Nat :=
  match extent? 0 (tokens.toList.drop i) with
  | some n => i + n
  | none => tokens.size

/-- The place behind the invocation of a macro. -/
def invocationEnd (definition : Definition) (tokens : Array Token) (i : Nat) : Nat :=
  if definition.parameters.isSome then argumentsEnd tokens (i + 2) else i + 1

/-- What stands before a group and behind it stays, if its directives stand on lines
of their own. -/
theorem resolveAt_local (table : RuleTable) (hlines : OwnLines (tokens.toList.drop i)) :
    resolveAt table tokens i = tokens ∨ ∃ new, (resolveAt table tokens i).toList =
      tokens.toList.take i ++ new ++ tokens.toList.drop (groupEnd tokens i) := by
  by_cases hopens : opensAt tokens i = true
  · rw [resolveAt, if_pos hopens, toList_replaceTail, tail_eq_drop]
    rw [opensAt_eq_opens] at hopens
    cases hn : extent? 0 (tokens.toList.drop i) with
    | none =>
        have hend : groupEnd tokens i = tokens.size := by rw [groupEnd, hn]
        refine .inr ⟨resolve table (tokens.toList.drop i), ?_⟩
        rw [hend, drop_size, List.append_nil]
    | some n =>
        have hend : groupEnd tokens i = i + n := by rw [groupEnd, hn]
        refine .inr ⟨resolve table ((tokens.toList.drop i).take n), ?_⟩
        rw [hend, resolve_extent hopens hlines hn, List.drop_drop, List.append_assoc]
  · exact .inl (by rw [resolveAt, if_neg hopens])

/-- The stretch of an expansion, told by places. -/
theorem invocationEnd_spec {definition : Definition} {behind : List Token}
    (h : (definition.parameters = none ∧ behind = tokens.toList.drop (i + 1)) ∨
      ∃ parameters opening more, definition.parameters = some parameters ∧
        tokens.toList.drop (i + 1) = opening :: more ∧ opening.is "(" = true ∧
        behind = match closing? 0 more with
          | some n => more.drop n
          | none => []) :
    (definition.parameters.isSome → (tokens[i + 1]?).any (Token.is · "(")) ∧
      behind = tokens.toList.drop (invocationEnd definition tokens i) := by
  rcases h with ⟨hparameters, rfl⟩ | ⟨parameters, opening, more, hparameters, hmore, hopening, rfl⟩
  · rw [invocationEnd, hparameters]
    exact ⟨fun h => absurd h Bool.false_ne_true, rfl⟩
  · have hfirst : tokens[i + 1]? = some opening := by
      rw [← Array.getElem?_toList, ← List.head?_drop, hmore]
      rfl
    have hrest : tokens.toList.drop (i + 2) = more := by
      have hmore' := congrArg List.tail hmore
      rwa [List.tail_drop] at hmore'
    rw [invocationEnd, hparameters, hfirst]
    refine ⟨fun _ => hopening, ?_⟩
    rw [if_pos (by rfl), argumentsEnd, hrest]
    cases closing? 0 more with
    | none => exact (drop_size tokens).symm
    | some n =>
        dsimp only
        rw [← List.drop_drop, hrest]

/-- What stands before an invocation stays, and so does what stands behind it, but
for the spacing that the name leaves to the next token if nothing is put there. -/
theorem expandAt_local (table : RuleTable) (tokens : Array Token) (i : Nat) :
    expandAt table tokens i = tokens ∨
      ∃ t rule text definition, tokens[i]? = some t ∧ ruleFor? table t = some (rule, text) ∧
        definition? t.location rule.nativeName text = some definition ∧
        (definition.parameters.isSome → (tokens[i + 1]?).any (Token.is · "(")) ∧
        let behind := tokens.toList.drop (invocationEnd definition tokens i)
        (∃ new, new ≠ [] ∧ (expandAt table tokens i).toList =
          tokens.toList.take i ++ new ++ behind) ∨
        (expandAt table tokens i).toList = tokens.toList.take i ++ respace t.spacing behind := by
  unfold expandAt
  cases ht : tokens[i]? with
  | none => exact .inl rfl
  | some t =>
    obtain ⟨hi, rfl⟩ := Array.getElem?_eq_some_iff.mp ht
    have htail : tail tokens i = tokens[i] :: tokens.toList.drop (i + 1) := by
      rw [tail_eq_drop, drop_eq_getElem_cons hi]
    dsimp only
    split
    · exact .inl rfl
    · cases hexpand : expand? table (tail tokens i) with
      | none => exact .inl rfl
      | some ts =>
        rw [htail] at hexpand
        obtain ⟨rule, text, definition, expansion, behind, hrule, hdefinition, rfl, hstretch⟩ :=
          exists_of_expand? hexpand
        obtain ⟨hopening, rfl⟩ := invocationEnd_spec hstretch
        refine .inr ⟨_, rule, text, definition, rfl, hrule, hdefinition, hopening, ?_⟩
        dsimp only
        rw [toList_replaceTail]
        cases expansion with
        | nil => exact .inr rfl
        | cons e expansion =>
            refine .inl ⟨{ e with spacing := tokens[i].spacing } :: expansion,
              List.cons_ne_nil _ _, ?_⟩
            rw [List.append_assoc]
            rfl

/-! ## Calls -/

/-- What a recognizer does with a window that is not raw. -/
inductive Call where
  | get (fuel : Nat) (table : RuleTable) (offset : Int)
  | next (fuel : Nat) (table : RuleTable)
  | setSpacing (fuel : Nat) (table : RuleTable) (offset : Int) (spacing : String)
  | moveTo (i : Nat)

/-- The window behind a call; none if the call does not return. -/
def Call.run? (w : Window) : Call → Option Window
  | .get fuel table offset => (w.get fuel table offset).map (·.2)
  | .next fuel table => (w.next fuel table).map (·.2)
  | .setSpacing fuel table offset spacing => w.setSpacing fuel table offset spacing
  | .moveTo i => some { w with index := i }

/-- Whether a call leaves the cursor at a place or behind it, if it stands there. -/
def Call.StaysFrom (s : Nat) : Call → Prop
  | .moveTo i => s ≤ i
  | _ => True

/-- What lies between two windows of a recognizer that works from a place on: the
tokens before the place are the same. -/
structure Keeps (s : Nat) (w w' : Window) : Prop where
  raw : w'.raw = false
  index : s ≤ w'.index
  tokens : w'.tokens.toList.take s = w.tokens.toList.take s

theorem Keeps.trans {s : Nat} {w₁ w₂ w₃ : Window} (h : Keeps s w₁ w₂) (h' : Keeps s w₂ w₃) :
    Keeps s w₁ w₃ where
  raw := h'.raw
  index := h'.index
  tokens := h'.tokens.trans h.tokens

/-- Looking for a token does not go back, and keeps what stands before the cursor. -/
theorem position_keeps {s fuel j : Nat} {w w' : Window} {offset : Int} (hw : w.raw = false)
    (hs : s ≤ w.index) (h : w.position fuel table offset = some (j, w')) :
    Keeps s w w' ∧ s ≤ j := by
  unfold position at h
  rw [hw, if_neg Bool.false_ne_true] at h
  obtain ⟨⟨tokens', k⟩, hseek, heq⟩ := Option.map_eq_some_iff.mp h
  cases heq
  have htake := take_of_seek table fuel ⟨w.tokens, w.index, offset.toNat⟩ hseek
  have hindex := (index_le_of_seek table fuel ⟨w.tokens, w.index, offset.toNat⟩ hseek).1
  refine ⟨⟨rfl, hs, ?_⟩, hs.trans hindex⟩
  have hfront := congrArg (List.take s) htake
  rwa [List.take_take, List.take_take, Nat.min_eq_left hs] at hfront

theorem take_modify {s : Nat} (h : s ≤ i) (f : Token → Token) :
    (tokens.modify i f).toList.take s = tokens.toList.take s := by
  refine List.ext_getElem? fun k => ?_
  rw [List.getElem?_take, List.getElem?_take]
  split
  next hk =>
    rw [Array.getElem?_toList, Array.getElem?_modify, if_neg (by omega), Array.getElem?_toList]
  · rfl

/-- **One call.** -/
theorem Call.run?_keeps {s : Nat} {w w' : Window} {call : Call} (hw : w.raw = false)
    (hs : s ≤ w.index) (hcall : call.StaysFrom s) (h : call.run? w = some w') : Keeps s w w' := by
  cases call with
  | get fuel table offset =>
      obtain ⟨⟨t, w₁⟩, hget, rfl⟩ := Option.map_eq_some_iff.mp h
      obtain ⟨⟨j, w₂⟩, hposition, heq⟩ := Option.map_eq_some_iff.mp hget
      cases heq
      exact (position_keeps hw hs hposition).1
  | next fuel table =>
      obtain ⟨⟨t, w₁⟩, hnext, rfl⟩ := Option.map_eq_some_iff.mp h
      obtain ⟨⟨j, w₂⟩, hposition, heq⟩ := Option.map_eq_some_iff.mp hnext
      cases heq
      obtain ⟨hkeeps, hj⟩ := position_keeps hw hs hposition
      exact ⟨hkeeps.raw, hj, hkeeps.tokens⟩
  | setSpacing fuel table offset spacing =>
      obtain ⟨⟨j, w₂⟩, hposition, rfl⟩ := Option.map_eq_some_iff.mp h
      obtain ⟨hkeeps, hj⟩ := position_keeps hw hs hposition
      exact ⟨hkeeps.raw, hkeeps.index, (take_modify hj _).trans hkeeps.tokens⟩
  | moveTo i =>
      cases h
      exact ⟨hw, hcall, rfl⟩

/-- **Any number of calls.** -/
theorem run_keeps {s : Nat} (calls : List Call) : ∀ {w w' : Window}, w.raw = false →
    s ≤ w.index → (∀ call ∈ calls, call.StaysFrom s) → calls.foldlM Call.run? w = some w' →
    Keeps s w w' := by
  induction calls with
  | nil =>
      intro w w' hw hs _ h
      cases h
      exact ⟨hw, hs, rfl⟩
  | cons call calls ih =>
      intro w w' hw hs hcalls h
      obtain ⟨hcall, hcalls⟩ := List.forall_mem_cons.mp hcalls
      rw [List.foldlM_cons] at h
      obtain ⟨w₁, hfirst, hrest⟩ := Option.bind_eq_some_iff.mp h
      have hkeeps := Call.run?_keeps hw hs hcall hfirst
      exact hkeeps.trans (ih hkeeps.raw hkeeps.index hcalls hrest)

/-- **Rewritings are local.** Resolving a group and expanding a macro look at places
that are there only. They leave the tokens before the place alone, and those behind
the stretch: behind the `#endif` of a group whose directives stand on lines of their
own, and behind the name or the closing parenthesis of an invocation, but for the
spacing of the next token if nothing takes the place of the invocation. So whatever a
recognizer does from a place on, the tokens before that place stay. -/
theorem rewriting_is_local (table : RuleTable) (tokens : Array Token) (i : Nat) :
    (resolveAt? table tokens i = some (resolveAt table tokens i) ∧
      (resolveAt table tokens i).toList.take i = tokens.toList.take i ∧
      (OwnLines (tokens.toList.drop i) → resolveAt table tokens i = tokens ∨
        ∃ new, (resolveAt table tokens i).toList =
          tokens.toList.take i ++ new ++ tokens.toList.drop (groupEnd tokens i))) ∧
    (expandAt? table tokens i = some (expandAt table tokens i) ∧
      (expandAt table tokens i).toList.take i = tokens.toList.take i ∧
      (expandAt table tokens i = tokens ∨
        ∃ t rule text definition, tokens[i]? = some t ∧ ruleFor? table t = some (rule, text) ∧
          definition? t.location rule.nativeName text = some definition ∧
          (definition.parameters.isSome → (tokens[i + 1]?).any (Token.is · "(")) ∧
          let behind := tokens.toList.drop (invocationEnd definition tokens i)
          (∃ new, new ≠ [] ∧ (expandAt table tokens i).toList =
            tokens.toList.take i ++ new ++ behind) ∨
          (expandAt table tokens i).toList =
            tokens.toList.take i ++ respace t.spacing behind)) ∧
    ∀ (s : Nat) (w w' : Window) (calls : List Call), w.raw = false → s ≤ w.index →
      (∀ call ∈ calls, call.StaysFrom s) → calls.foldlM Call.run? w = some w' →
      s ≤ w'.index ∧ w'.tokens.toList.take s = w.tokens.toList.take s := by
  refine ⟨⟨resolveAt?_eq table tokens i, take_resolveAt table tokens i, resolveAt_local table⟩,
    ⟨expandAt?_eq table tokens i, take_expandAt table tokens i, expandAt_local table tokens i⟩,
    fun s w w' calls hw hs hcalls h => ?_⟩
  have hkeeps := run_keeps calls hw hs hcalls h
  exact ⟨hkeeps.index, hkeeps.tokens⟩

/-- A group with something before it and behind it. -/
def groupSample : Array Token :=
  (Token.ofText none "x\n#if 0\ny\n#endif\nz").toArray

/-- A recognizer that looks over the group and comes back. -/
def callsSample : List Call :=
  [.get 9 {} 0, .next 9 {}, .setSpacing 9 {} 0 " ", .moveTo 1]

theorem rewriting_is_local_sample :
    (OwnLines (groupSample.toList.drop 1) ∧ groupEnd groupSample 1 = 7) ∧
      (resolveAt {} groupSample 1 = groupSample ∨
        ∃ new, (resolveAt {} groupSample 1).toList =
          groupSample.toList.take 1 ++ new ++ groupSample.toList.drop 7) ∧
      ∃ w', callsSample.foldlM Call.run? { tokens := groupSample, index := 1 } = some w' ∧
        1 ≤ w'.index ∧ w'.tokens.toList.take 1 = groupSample.toList.take 1 := by
  obtain ⟨⟨-, -, hgroup⟩, -, hcalls⟩ := rewriting_is_local {} groupSample 1
  have hlines : OwnLines (groupSample.toList.drop 1) := by decide +kernel
  have hend : groupEnd groupSample 1 = 7 := by decide +kernel
  have hrun : (callsSample.foldlM Call.run? { tokens := groupSample, index := 1 }).isSome := by
    decide +kernel
  obtain ⟨w', hw'⟩ := Option.isSome_iff_exists.mp hrun
  have hstays : ∀ call ∈ callsSample, call.StaysFrom 1 := by
    simp [callsSample, Call.StaysFrom]
  exact ⟨⟨hlines, hend⟩, hend ▸ hgroup hlines, w', hw',
    hcalls 1 _ w' _ rfl (Nat.le_refl 1) hstays hw'⟩

end Window

end HeaderPeers

import HeaderPeers.Rule.Table

/-!
# Conditional groups

A group of `#if`, `#ifdef` or `#ifndef` through its `#endif` is resolved at once. A rule for the
text of a condition decides it, and so does an integer; every branch of an undecided condition
stays. The directives stay as line comments.
-/

namespace HeaderPeers.Conditional

/-- What is known between two tokens of a group. -/
structure Branch where
  /-- Groups open here. -/
  depth : Nat := 0
  /-- The rule that decided the last condition. -/
  rule : Option Rule := none
  /-- Whether the tokens of this branch stay. -/
  taken : Bool := true
  /-- Whether tokens of some branch stayed so far. -/
  served : Bool := false

/-- Whether a list of tokens starts with a directive that opens a group. -/
def opens : List Token → Bool
  | mark :: word :: _ => mark.is "#" && word.isKeywordWith Keyword.opensGroup
  | _ => false

/-- Whether a token is on a new line. -/
def startsLine (t : Token) : Bool :=
  Text.hasChar '\n' t.spacing

/-- The text of a condition without its comments. -/
def conditionText (ts : List Token) : String :=
  String.join ((ts.filter (!·.isComment)).map Token.spaced)

/-- The text of a condition as a comment; a line that was continued becomes a comment again. -/
def commentText (ts : List Token) : String :=
  String.join (ts.map fun t => if t.isContinuation then "\n// " else t.spaced)

/-- The comment that takes the place of a directive. -/
def remark (mark word : Token) (condition : List Token) : Token :=
  let (above, indent) := Text.throughLastBreak mark.spacing
  { kind := .comment
    text := "// " ++ indent ++ "#" ++ word.spaced ++ commentText condition
    spacing := above
    location := mark.location }

/-- The branch behind a directive with a condition. -/
def Branch.decide (table : RuleTable) (b : Branch) (word : Token) (condition : String) : Branch :=
  let open_ := b.rule.isNone || !b.served
  let rule := if (Text.trim condition).isEmpty then none else table.find? condition
  let taken := match rule with
    | some r => if word.isKeyword .ifndef_ then !r.define else r.define
    | none =>
      match Number.decodeText? (Text.trim condition) with
      | some value => value != 0
      | none => open_
  { b with rule, taken }

/-- The branch behind a directive. -/
def Branch.after (table : RuleTable) (b : Branch) (word : Token) (condition : List Token) : Branch :=
  if word.isKeywordWith Keyword.hasCondition then b.decide table word (conditionText condition)
  else if word.isKeyword .else_ then { b with taken := b.rule.isNone || !b.taken }
  else b

/-- Takes note of whether a branch was served. -/
def Branch.note (b : Branch) : Branch :=
  { b with served := b.served || b.taken }

/-- The tokens of a condition and those behind it. -/
def splitCondition (word : Token) (ts : List Token) : List Token × List Token :=
  if word.isKeywordWith Keyword.hasCondition then
    (ts.takeWhile (!startsLine ·), ts.dropWhile (!startsLine ·))
  else ([], ts)

theorem length_splitCondition_le (word : Token) (ts : List Token) :
    (splitCondition word ts).2.length ≤ ts.length := by
  unfold splitCondition
  split
  · exact (List.dropWhile_sublist _).length_le
  · exact Nat.le_refl _

/-- Resolves the rest of a group, and leaves what is behind it alone. -/
def resolveFrom (table : RuleTable) (b : Branch) : List Token → List Token
  | [] => []
  | [t] => if b.taken then [t] else []
  | mark :: word :: ts =>
    let inner := if mark.is "#" && word.isKeywordWith Keyword.opensGroup then b.depth + 1 else b.depth
    let depth := if mark.is "#" && word.isKeyword .endif_ then inner - 1 else inner
    if mark.is "#" && inner == 1 && word.isKeywordWith Keyword.dividesGroup then
      let split := splitCondition word ts
      let next := { b.after table word split.1 with depth }
      remark mark word split.1
        :: if word.isKeyword .endif_ && depth == 0 then split.2
          else resolveFrom table next.note split.2
    else
      let rest := resolveFrom table { b with depth }.note (word :: ts)
      if b.taken then mark :: rest else rest
termination_by ts => ts.length
decreasing_by
  · have := length_splitCondition_le word ts
    simp only [List.length_cons]
    omega
  · simp only [List.length_cons]
    omega

/-- Resolves the group that a list of tokens starts with. -/
def resolve (table : RuleTable) (ts : List Token) : List Token :=
  resolveFrom table {} ts

end HeaderPeers.Conditional

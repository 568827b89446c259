import HeaderPeers.Declarator.Shape
import HeaderPeers.NativeType.Reader

/-!
# Parameters

Lists of parameters are printed while they are read. Parameters with a default value can be left
out from the end, which gives the shorter overloads.
-/

namespace HeaderPeers

open ReadM

/-- Which declarator is asked for, and how it is seen. -/
structure DeclaratorRequest where
  scope : Scope
  /-- The name of a declarator that has none. -/
  defaultName : Option String := none
  /-- Which alternative target name to take; negative to see `T**` as `PointerPointer`. -/
  choice : Int := 0
  /-- How many parameters with a default value stay; all without a limit. -/
  keepDefaults : Option Nat := none
  /-- Which declarator of a list separated by commas. -/
  number : Nat := 0
  view : ArrayView := .plain

/-- How a declarator is read; none if there is none. -/
abbrev DeclaratorReader := DeclaratorRequest → ReadM (Option Declarator)

/-- A default value. -/
structure DefaultValue where
  text : String
  /-- With names qualified as rules know them. -/
  qualified : String
  /-- It names something that is skipped. -/
  isSkipped : Bool

namespace DefaultValue

/-- The tokens up to the comma or parenthesis that ends the value. -/
def readTokens : ReadM (List Token) := do
  let first ← advance
  iterate (0, #[], first) fun (depth, (read : Array Token), t) => do
    if t.isEof || (depth == 0 && t.isAny [",", ")"]) then return .done read.toList
    let depth : Nat := if t.isAny ["(", "\x7b", "<", "["] then depth + 1
      else if t.isAny [")", "\x7d", ">", "]"] then depth - 1 else depth
    return .again (depth, read.push t, ← advance)

/-- The words behind `::` that continue a name, and the tokens behind them. -/
def pathTail : List Token → String × List Token
  | mark :: word :: ts =>
    if mark.is "::" && word.isWord then
      let more := pathTail ts
      ("::" ++ word.text ++ more.1, more.2)
    else ("", mark :: word :: ts)
  | ts => ("", ts)

theorem length_pathTail_le (ts : List Token) : (pathTail ts).2.length ≤ ts.length := by
  fun_induction pathTail ts with
  | case1 mark word ts _ more ih => exact Nat.le_succ_of_le (Nat.le_succ_of_le ih)
  | case2 => simp
  | case3 => simp

/-- The expression with each name replaced by what rules know it as; `isFirst` tells whether the
first token goes without its spacing. -/
def qualifyNames (table : RuleTable) (scope : Scope) (usings : List String) (isFirst : Bool) :
    List Token → String
  | [] => ""
  | t :: ts =>
    let spacing := if isFirst then "" else t.spacing
    if !t.isIdentifier then
      spacing ++ t.text ++ qualifyNames table scope usings false ts
    else
      let tail := pathTail ts
      let name := t.text ++ tail.1
      let known := (scope.qualify name usings).find? fun n => (table.find? n).isSome
      spacing ++ known.getD name ++ qualifyNames table scope usings false tail.2
termination_by ts => ts.length
decreasing_by
  · simp
  · have := length_pathTail_le ts
    simp only [List.length_cons]
    omega

/-- Reads a default value, from the mark in front of it. -/
def read (scope : Scope) : ReadM DefaultValue := do
  let ts ← readTokens
  let s ← get
  return {
    text := Name.spell ts
    qualified := qualifyNames s.table scope s.usings true ts
    isSkipped := ts.any fun t => t.isWord && (s.table.find? t.text).any (·.skip) }

end DefaultValue

namespace Parameters

/-- The annotations with a default value noted where a value or reference is passed. -/
def noteDefault (annotations value : String) : String :=
  let escaped := Text.replace "\"" "\\\"" (Text.replace "\\" "\\\\" value)
  let note name := name ++ "(nullValue = \"" ++ escaped ++ "\") "
  match Text.cut? "@ByVal " annotations with
  | some (before, after) => before ++ note "@ByVal" ++ after
  | none =>
    match Text.cut? "@ByRef " annotations with
    | some (before, after) => before ++ note "@ByRef" ++ after
    | none => annotations

/-- The part of a signature that a parameter of this type adds. -/
def signaturePart (target : String) : String :=
  "_" ++ String.ofList ((Text.lastWord target).toList.filter Text.isWordChar)

/-- The number in a name made up for a parameter. -/
def madeUpNumber? (name : String) : Option Nat :=
  (Text.dropHead? "arg" name).bind fun digits =>
    let digits := match digits.toList with
      | '+' :: more => more
      | all => all
    (Number.natural? 10 digits).filter (· < UInt64.size)

/-- Parameters read so far. -/
structure Progress where
  parameters : Parameters := { list := "(", names := "(" }
  /-- Number of the next parameter. -/
  count : Nat := 0
  /-- How many with a default value stayed. -/
  kept : Nat := 0
  /-- Some default value names something that is skipped. -/
  namesSkipped : Bool := false

/-- Prints one more parameter. -/
def Progress.push (p : Progress) (spacing : String) (d : Declarator) (value : Option DefaultValue) :
    Progress :=
  let q := p.parameters
  let annotations := match value with
    | some value => noteDefault d.type.annotations value.qualified
    | none => d.type.annotations
  let comment := match value with
    | some value => "/*=" ++ value.text ++ "*/"
    | none => ""
  { p with
    count := match madeUpNumber? d.targetName with
      | some n => n + 1
      | none => p.count
    parameters :=
      { list := q.list ++ (if p.count > 1 then "," else "") ++ spacing ++ annotations
          ++ d.type.targetName ++ " " ++ d.targetName ++ comment
        names := q.names ++ (if p.count > 1 then ", " else "") ++ d.targetName
        declarators := q.declarators ++ [d]
        signature := q.signature ++ signaturePart d.type.targetName
        choice := max q.choice d.choice
        defaults := q.defaults } }

/-- Closes the printed list. -/
def Progress.close (p : Progress) (spacing : String) : Progress :=
  { p with
    parameters.list := p.parameters.list ++ spacing ++ ")"
    parameters.names := p.parameters.names ++ ")" }

/-- Notes that a parameter has a default value; tells whether it stays. -/
def Progress.noteValue (p : Progress) (value : Option DefaultValue) (keep : Option Nat) :
    Bool × Progress :=
  match value with
  | none => (true, p)
  | some value =>
    let p := { p with
      parameters.defaults := p.parameters.defaults + 1
      namesSkipped := p.namesSkipped || value.isSkipped }
    if keep.all (p.kept < ·) then (true, { p with kept := p.kept + 1 }) else (false, p)

/-- Reads one parameter, from its first token on; none if it has no type, so that this is no list of
parameters. -/
def readOne (readDeclarator : DeclaratorReader) (scope : Scope) (choice : Int) (keep : Option Nat)
    (p : Progress) (t : Token) : ReadM (Option Progress) := do
  let declarator ← readDeclarator { scope, choice, defaultName := some ("arg" ++ toString p.count) }
  if declarator.any (·.type.nativeName.isEmpty) then return none
  let p := { p with count := p.count + 1 }
  let isPlain ← (do return (← peek).isAny [",", ")"]) <||> (do return (← peek).isEof)
  let value ←
    if isPlain then pure none
    else
      let value ← DefaultValue.read scope
      if value.isSkipped then
        warn t.location
          ("default value '" ++ value.text ++ "' refers to a skipped name; keeping every argument")
      pure (some value)
  let (stays, p) := p.noteValue value keep
  match declarator with
  | some d =>
    if stays && (d.type.targetName != "void" || d.indirections > 0) then
      return some (p.push t.spacing d value)
    else return some p
  | none => return some p

/-- Reads `(...)`; none if it is no list of parameters. -/
def readList (readDeclarator : DeclaratorReader) (scope : Scope) (choice : Int)
    (keep : Option Nat) : ReadM (Option Progress) := do
  let first ← advance
  iterate (({} : Progress), first) fun (p, t) => do
    if t.isEof then return .done (some p)
    if t.is ")" then
      let _ ← advance
      return .done (some (p.close t.spacing))
    match ← readOne readDeclarator scope choice keep p t with
    | none => return .done none
    | some p =>
      let t ← peek
      expect t [",", ")"]
      return .again (p, ← if t.is "," then advance else pure t)

/-- Reads a list of parameters, of which those with a default value are kept up to a limit. If a
default value names something that is skipped, all of them are kept. -/
def readWith (readDeclarator : DeclaratorReader) (scope : Scope) (choice : Int)
    (keep : Option Nat) : ReadM (Option Parameters) := do
  if !(← peek).is "(" then return none
  let back ← cursor
  match ← readList readDeclarator scope choice keep with
  | none =>
    moveTo back
    return none
  | some p =>
    if !p.namesSkipped then return some p.parameters
    let all ←
      if keep.isSome then
        moveTo back
        let again ← readList readDeclarator scope choice none
        pure ((again.map (·.parameters)).getD p.parameters)
      else pure p.parameters
    return some { all with defaults := 0 }

end Parameters

end HeaderPeers

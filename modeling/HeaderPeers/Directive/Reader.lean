import HeaderPeers.Comment
import HeaderPeers.Declarator.Reader
import HeaderPeers.Directive.Constant

/-!
# Reading directives

Lines of the preprocessor. A definition becomes a constant, a native function or a rule for
expansion; what is not turned into anything stays as a comment.
-/

namespace HeaderPeers.Directive

open ReadM

/-- Positions of a directive: of the first token behind its keyword, behind its line, and behind its
last token that is no comment. -/
structure Span where
  start : Nat
  stop : Nat
  last : Nat

/-- The position behind the line that a position is on. -/
def lineEnd (tokens : Array Token) (i : Nat) : Nat :=
  if h : i < tokens.size then
    if Text.hasChar '\n' tokens[i].spacing then i else lineEnd tokens (i + 1)
  else i
termination_by tokens.size - i

/-- The position behind the last token before `i` that is no comment, but at least `start`. -/
def lastBehind (tokens : Array Token) (start : Nat) : Nat → Nat
  | 0 => 0
  | i + 1 =>
    if i + 1 > start && (tokens[i]?).any Token.isComment then lastBehind tokens start i else i + 1

/-- The positions of the directive whose mark is at `i`. -/
def spanAt (tokens : Array Token) (i : Nat) : Span :=
  let start := i + 2
  let stop := lineEnd tokens start
  { start, stop, last := lastBehind tokens start stop }

/-- Steps through the tokens from the cursor up to a position. -/
def foldTo {α : Type} (stop : Nat) (start : α) (step : α → Nat → Token → α) : ReadM α := do
  let first ← peek
  iterate (start, first) fun (a, t) => do
    let i ← cursor
    if i < stop && !t.isEof then return .again (step a i t, ← advance)
    return .done a

/-- Learns to expand a macro, from the line that defines it. -/
def recordExpansion (name : String) (mark : Nat) (span : Span) : ReadM Unit := do
  moveTo mark
  let text ← foldTo span.stop "" fun text _ t =>
    text ++ (if t.isContinuation then "\n" else t.spaced)
  learnFirst { nativeNames := [name], nativeText := some (Text.trimStart text), define := true }

/-- Reads the parameters of a macro and gives them the types of a rule. -/
def readParameters (types : List String) (span : Span) : ReadM (List String) := do
  moveTo (span.start + 2)
  let first ← peek
  iterate ([], first) fun ((parameters : List String), t) => do
    let n := parameters.length
    let i ← cursor
    if !(i < span.last && n + 1 < types.length && !t.is ")") then return .done parameters
    let type := types.getD (n + 1) ""
    let parameters := if t.isIdentifier then parameters ++ [type ++ " " ++ t.text]
      else if t.is "..." then parameters ++ [type ++ " arg" ++ toString (n + 1)]
      else parameters
    return .again (parameters, ← advance)

/-- Makes up names for the parameters that a rule has types for and the macro does not name. -/
def fillParameters (types parameters : List String) : List String :=
  parameters ++ ((types.zipIdx.drop (parameters.length + 1)).map fun (type, i) =>
    type ++ " arg" ++ toString i)

/-- The declaration of a macro as a function with these types. -/
def readFunctionSource (name : String) (types : List String) (hasParameters : Bool) (span : Span) :
    ReadM String := do
  let parameters ← if hasParameters then readParameters types span else pure []
  return types.headD "" ++ " " ++ name ++ "("
    ++ Text.joinWith ", " (fillParameters types parameters) ++ ")"

/-- Reads one alternative of a macro that is a function; none if there are no more. -/
def readAlternative (scope : Scope) (source target : String) (choice : Int)
    (signatures : List String) : ReadM (Option (List String × String)) := do
  match ← fragment source (Declarator.read { scope, choice }) with
  | none => return none
  | some d =>
    match d.parameters with
    | none => return none
    | some parameters =>
      let seen := signatures.contains d.signature
      if seen && choice > 0 then return none
      let text := if seen then "" else
        "public static native " ++ d.type.annotations ++ d.type.targetName ++ " " ++ target
          ++ parameters.list ++ ";\n"
      return some (d.signature :: signatures, text)

/-- The methods for a macro whose types a rule gives, one for each alternative target type. -/
def readFunctions (scope : Scope) (name : String) (rule : Rule) (types : List String)
    (hasParameters : Bool) (span : Span) : ReadM String :=
  iterate ((-1 : Int), [], "") fun (choice, signatures, text) => do
    if choice ≥ 32 then return .done text
    let source ← readFunctionSource name types hasParameters span
    match ← readAlternative scope source (rule.renamed name) choice signatures with
    | none => return .done text
    | some (signatures, more) => return .again (choice + 1, signatures, text ++ more)

/-- The type of a constant: what its rule says, or else the type of its value. -/
def readConstantType (scope : Scope) (rule : Option Rule) (type : Literal) : ReadM String := do
  match rule.bind (·.nativeType?) with
  | none => return type.target
  | some native =>
    match Literal.ofNative? native with
    | some type => return type.target
    | none =>
      let d ← fragment native (Declarator.read { scope, choice := -1, view := .asDimension })
      return (d.map fun d => d.type.annotations ++ d.type.targetName).getD type.target

/-- Adds a token to the text of a value. -/
def pushValue (span : Span) (concatenates : Bool) (value : String) (i : Nat) (t : Token) : String :=
  if t.isComment then value
  else value ++ t.spaced ++ (if concatenates && i + 1 < span.last then " + " else "")

/-- Prints a constant, or a getter if the value means nothing on the target side, and remembers its
type. -/
def readConstant (scope : Scope) (name : String) (rule : Option Rule) (span : Span)
    (d : Declaration) : ReadM Declaration := do
  moveTo (span.start + 1)
  let t ← table
  let found ← foldTo span.last ({} : ConstantValue) fun v _ => v.push t
  let type ← readConstantType scope rule found.type
  let target := match rule with
    | some rule => rule.renamed name
    | none => name
  let translates := match rule with
    | some rule => rule.translate
    | none => found.isPlain
  moveTo (span.start + 1)
  let (getter, value) ←
    if translates then
      let value ← foldTo span.last "" (pushValue span found.concatenates)
      pure ("", (← table).translateName value)
    else
      pure ("public static native @MemberGetter " ++ type ++ " " ++ target ++ "();\n",
        " " ++ target ++ "()")
  let short := Text.lastWord type
  let constant := if value.isEmpty then ""
    else "public static final " ++ short ++ " " ++ target ++ " =" ++ value ++ ";\n"
  if rule.isNone then
    learn { nativeNames := [name], nativeTypes := some [(Literal.ofTarget short).native]
            translate := translates, define := true }
  return { d with text := d.text ++ getter ++ constant, signature := target }

/-- What is done with a definition. -/
inductive Use where
  | expand
  | function (rule : Rule) (types : List String)
  | constant
  | nothing

/-- What a rule, or that there is none, asks to be done with a definition. -/
def useOf (rule : Option Rule) (hasParameters isEmpty : Bool) : Use :=
  match rule with
  | none => if hasParameters || isEmpty then .expand else .constant
  | some rule =>
    if rule.nativeText.isSome then .nothing
    else match rule.nativeTypes with
      | none => .constant
      | some [] => .expand
      | some types =>
        if types.length > (if hasParameters then 0 else 1) then .function rule types
        else if types.length == 1 then .constant
        else .nothing

/-- Applies the rules for a macro one after another, until one expands, skips or has its own
text. -/
def applyRules (scope : Scope) (mark : Nat) (span : Span) (name : String) (hasParameters : Bool)
    (d : Declaration) : List (Option Rule) → ReadM Declaration
  | [] => pure d
  | rule :: rules => do
    if rule.any (·.skip) then return d
    let d ← match useOf rule hasParameters (span.start + 1 == span.last) with
      | .expand =>
        recordExpansion name mark span
        return d
      | .function rule types =>
        let text ← readFunctions scope name rule types hasParameters span
        pure { d with text }
      | .constant => readConstant scope name rule span d
      | .nothing => pure d
    match rule.bind (·.targetText) with
    | some text => return { d with text, custom := true }
    | none => applyRules scope mark span name hasParameters d rules

/-- Reads a definition, from the name on. -/
def readDefinition (scope : Scope) (mark : Nat) (span : Span) : ReadM Declaration := do
  moveTo span.start
  let name := (← peek).text
  let first ← advance
  let hasParameters := first.spacing.isEmpty && first.is "("
  let found ← rules name
  applyRules scope mark span name hasParameters {}
    (if found.isEmpty then [none] else found.map some)

/-- Forgets a definition: a rule that says nothing comes before all others. -/
def readUndefinition (span : Span) : ReadM Declaration := do
  moveTo span.start
  let name := (← peek).text
  if (← table).hasKey name then learnFirst (.named [name])
  return {}

/-- The directive as a comment, without the line breaks in front of it. -/
def readAsComment (spacing : String) (keyword : Token) (span : Span) : ReadM String := do
  moveTo span.start
  let start := "// " ++ (Text.throughLastBreak spacing).2 ++ "#" ++ keyword.spaced
  foldTo span.last start fun text _ t =>
    text ++ (if t.isContinuation then "\n// " else t.spaced)

/-- Reads a directive, from its mark on, with comments visible. -/
def readLine (scope : Scope) : ReadM Bool := do
  let mark ← cursor
  let spacing := (← peek).spacing
  let keyword ← advance
  let _ ← advance
  let span := spanAt (← get).window.tokens mark
  let d ←
    if keyword.isKeyword .define_ && span.start < span.last then readDefinition scope mark span
    else if keyword.isKeyword .undef_ && span.start < span.last then readUndefinition span
    else pure {}
  let (text, spacing) ←
    if d.text.isEmpty then
      pure (← readAsComment spacing keyword span, (Text.throughLastBreak spacing).1)
    else pure (d.text, spacing)
  moveTo span.last
  let comment ← Comment.takeAfter
  addSpaced spacing [{ d with text := comment ++ text }]
  return true

/-- Recognizes a directive. -/
def read (scope : Scope) : ReadM Bool := do
  if !(← peek).is "#" then return false
  raw (readLine scope)

end HeaderPeers.Directive

import HeaderPeers.Rule.Table

/-!
# Macro expansion

A word whose first rule holds the text of its `#define` is replaced by the body, with arguments put
in place of parameters and `##` pasting what stands around it.
-/

namespace HeaderPeers.Expansion

/-- A macro as its definition gives it; without parentheses it has no list of parameters. -/
structure Definition where
  parameters : Option (List String)
  body : List Token

/-- The name that stands for the arguments of a variadic macro. -/
def variadicName : String := "__VA_ARGS__"

/-- Reads parameters up to the closing parenthesis. -/
def readParameters : List Token → List String × List Token
  | [] => ([], [])
  | t :: ts =>
    if t.is ")" then ([], ts)
    else
      let more := readParameters ts
      if t.isWord then (t.text :: more.1, more.2)
      else if t.is "..." then (variadicName :: more.1, more.2)
      else more

/-- Reads the text of a definition of `name`. -/
def definition? (location : Location) (name text : String) : Option Definition :=
  let ts := (Token.ofTextAt location text).filter fun t => !(t.isComment && t.text.isEmpty)
  match ts with
  | mark :: word :: subject :: rest =>
    if mark.is "#" && word.isKeyword .define_ && subject.is name then
      match rest with
      | open_ :: more =>
        if open_.is "(" && open_.spacing.isEmpty then
          let (parameters, body) := readParameters more
          some ⟨some parameters, body⟩
        else some ⟨none, rest⟩
      | [] => some ⟨none, []⟩
    else none
  | _ => none

/-- A list of arguments as far as it was read. -/
structure Invocation where
  /-- Arguments closed so far, and the tokens of the open one. -/
  arguments : List (List Token)
  /-- The invocation as it is written, from the opening parenthesis on. -/
  text : String
  rest : List Token

/-- Puts a token into argument number `i`; there may be more arguments than parameters. -/
def pushArgument (arguments : List (List Token)) (i : Nat) (t : Token) : List (List Token) :=
  arguments.modify i (· ++ [t])

/-- Whether a comma at depth zero ends argument number `i`: the last of a variadic macro takes
commas too. -/
def dividesAt (parameters : List String) (i : Nat) : Bool :=
  !(parameters.getLast? == some variadicName && i + 1 ≥ parameters.length)

/-- Reads arguments up to the closing parenthesis or the end. -/
def readArguments (parameters : List String) (i : Nat) (depth : Int) (inv : Invocation) :
    List Token → Invocation
  | [] => { inv with rest := [] }
  | t :: ts =>
    let inv := { inv with text := inv.text ++ t.spaced }
    if depth == 0 && t.is ")" then { inv with rest := ts }
    else if depth == 0 && t.is "," && dividesAt parameters i then
      readArguments parameters (i + 1) depth inv ts
    else
      let depth := if t.isAny ["(", "[", "\x7b"] then depth + 1
        else if t.isAny [")", "]", "\x7d"] then depth - 1 else depth
      readArguments parameters i depth
        { inv with arguments := pushArgument inv.arguments i t } ts

/-- The body with arguments in place of parameters. -/
def substitute (parameters : List String) (arguments : List (List Token)) (body : List Token) :
    List Token :=
  body.flatMap fun t =>
    match parameters.findIdx? t.is with
    | some i => arguments.getD i []
    | none => [t]

/-- Pastes what stands around each `##`. -/
def paste : List Token → List Token
  | a :: mark :: b :: ts =>
    if mark.is "##" then paste ({ a with text := a.text ++ b.text } :: ts)
    else a :: paste (mark :: b :: ts)
  | ts => ts
termination_by ts => ts.length

/-- Gives the first token this spacing. -/
def respace (spacing : String) : List Token → List Token
  | [] => []
  | t :: ts => { t with spacing } :: ts

/-- What takes the place of an invocation, and what is behind it; the spacing of the invocation
goes to the first token left. -/
def splice (spacing : String) (expansion rest : List Token) : List Token :=
  respace spacing (expansion ++ rest)

/-- The first rule for a word that has the text of a definition. -/
def ruleFor? (table : RuleTable) (t : Token) : Option (Rule × String) :=
  if t.isWord && table.hasKey t.text then
    (table.find? t.text).bind fun rule => rule.nativeText.map (rule, ·)
  else none

/-- Whether a rule leaves out the invocation with this text. -/
def isLeftOut (table : RuleTable) (text : String) : Bool :=
  (table.find? text).any (·.skip)

/-- Replaces the invocation that a list of tokens starts with, if there is one. -/
def expand? (table : RuleTable) : List Token → Option (List Token)
  | [] => none
  | t :: ts =>
    (ruleFor? table t).bind fun (rule, text) =>
      (definition? t.location rule.nativeName text).bind fun definition =>
        match definition.parameters with
        | none =>
          let expansion := if isLeftOut table t.text then [] else paste definition.body
          some (splice t.spacing expansion ts)
        | some parameters =>
          match ts with
          | open_ :: ts =>
            if open_.is "(" then
              let start : Invocation :=
                { arguments := List.replicate parameters.length []
                  text := t.text ++ open_.spaced, rest := [] }
              let inv := readArguments parameters 0 0 start ts
              let expansion := if isLeftOut table inv.text then []
                else paste (substitute parameters inv.arguments definition.body)
              some (splice t.spacing expansion inv.rest)
            else none
          | [] => none

end HeaderPeers.Expansion

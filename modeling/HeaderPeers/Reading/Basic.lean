import HeaderPeers.Diagnostic
import HeaderPeers.Outline
import HeaderPeers.Scope
import HeaderPeers.Window.Basic

/-!
# Reading

What reading a header knows at any time, and the steps everything else is made of. A step may fail,
and what it changed before stays changed: the rules learned so far and the place in the input are
still there afterwards.

Loops and nested constructs are bounded by the number of tokens and some `fuel` besides; running out
of it is a failure of its own kind.
-/

namespace HeaderPeers

/-- Why reading stops. -/
inductive Failure where
  /-- A token that cannot stand where it does. -/
  | unexpected (location : Location) (token : String)
  /-- A declaration that nothing recognizes. -/
  | unrecognized (location : Location) (token : String)
  /-- The bound on the number of steps was reached. -/
  | exhausted
deriving DecidableEq, Repr

/-- The place a failure is reported at. -/
def Failure.location? : Failure → Option Location
  | unexpected location _ => some location
  | unrecognized location _ => some location
  | exhausted => none

/-- The report of a failure. -/
def Failure.message : Failure → String
  | unexpected location token => location.text ++ ": Unexpected token '" ++ token ++ "'"
  | unrecognized location token =>
    location.text ++ ": Could not parse declaration at '" ++ token ++ "'"
  | exhausted => "Could not parse header: Too many steps"

/-- The failure a token causes where it cannot stand. -/
def Token.unexpected (t : Token) : Failure :=
  .unexpected t.location t.shown

/-- The state of reading one text. -/
structure Reading where
  window : Window
  /-- Rules given and learned. -/
  table : RuleTable
  /-- Names brought in by `using`, in order. -/
  usings : List String := []
  /-- Member text of classes that are repeated in derived ones, by native name. -/
  flattened : List (String × String) := []
  /-- Constructors of each class, by native name. -/
  constructors : List (String × List Declaration) := []
  warnings : Array Diagnostic := #[]
  /-- What is printed for the scope being read. -/
  outline : Outline := {}
  /-- What loops and nesting have besides one step for each token. -/
  fuel : Nat
deriving Inhabited

namespace Reading

/-- A bound that no loop over this many tokens reaches, unless macros keep expanding. -/
def fuelFor (tokens : List Token) : Nat :=
  1000000 + 1000 * tokens.length

/-- Bound on the length of loops and on the depth of nesting. -/
def bound (s : Reading) : Nat :=
  s.fuel + s.window.size

/-- The state before some tokens are read. -/
def ofTokens (table : RuleTable) (tokens : List Token) : Reading :=
  { window := .ofTokens tokens, table, fuel := fuelFor tokens }

end Reading

/-- A step of reading. -/
abbrev ReadM := EStateM Failure Reading

namespace ReadM

/-- Fails at a token. -/
def refuse {α : Type} (t : Token) : ReadM α :=
  throw t.unexpected

/-- Fails unless the token has one of these texts. -/
def expect (t : Token) (texts : List String) : ReadM Unit :=
  if t.isAny texts then pure () else refuse t

/-- Fails unless the token is a word. -/
def expectWord (t : Token) : ReadM Unit :=
  if t.isWord then pure () else refuse t

/-- Whether a loop goes on. -/
inductive Turn (σ β : Type) where
  | again (state : σ)
  | done (result : β)

/-- A loop of at most a number of turns. -/
def iterateUpTo {σ β : Type} (turn : σ → ReadM (Turn σ β)) : Nat → σ → ReadM β
  | 0, _ => throw .exhausted
  | n + 1, state => do
    match ← turn state with
    | .again state => iterateUpTo turn n state
    | .done result => pure result

/-- A loop over what is read. -/
def iterate {σ β : Type} (start : σ) (turn : σ → ReadM (Turn σ β)) : ReadM β := do
  iterateUpTo turn (← get).bound start

/-- A recursion of at most a certain depth. -/
def nestUpTo {α β : Type} (body : (α → ReadM β) → α → ReadM β) : Nat → α → ReadM β
  | 0, _ => throw .exhausted
  | n + 1, a => body (nestUpTo body n) a

/-- A recursion into what is read. -/
def nest {α β : Type} (body : (α → ReadM β) → α → ReadM β) (a : α) : ReadM β := do
  nestUpTo body (← get).bound a

/-! ## The window -/

/-- The token an offset away from the cursor. -/
def peekAt (offset : Int) : ReadM Token := fun s =>
  match s.window.get s.bound s.table offset with
  | some (t, window) => .ok t { s with window }
  | none => .error .exhausted s

/-- The token at the cursor. -/
def peek : ReadM Token := peekAt 0

/-- Moves past the current token and gives the one behind it. -/
def advance : ReadM Token := fun s =>
  match s.window.next s.bound s.table with
  | some (t, window) => .ok t { s with window }
  | none => .error .exhausted s

/-- Changes the spacing of the current token. -/
def setSpacing (spacing : String) : ReadM Unit := fun s =>
  match s.window.setSpacing s.bound s.table 0 spacing with
  | some window => .ok () { s with window }
  | none => .error .exhausted s

/-- Where the cursor is. -/
def cursor : ReadM Nat := do
  return (← get).window.index

/-- Moves the cursor. -/
def moveTo (index : Nat) : ReadM Unit :=
  modify fun s => { s with window.index := index }

/-- Changes the state around a step, and changes it back whether the step fails or not. -/
def around {α : Type} (enter : Reading → Reading) (leave : Reading → Reading → Reading)
    (step : ReadM α) : ReadM α := fun s =>
  match step (enter s) with
  | .ok a after => .ok a (leave s after)
  | .error e after => .error e (leave s after)

/-- A step that sees comments and does not preprocess. -/
def raw {α : Type} (step : ReadM α) : ReadM α :=
  around (fun s => { s with window.raw := true })
    (fun before after => { after with window.raw := before.window.raw }) step

/-- A step that goes back to where it started unless it recognizes something. -/
def attempt (step : ReadM Bool) : ReadM Bool := do
  let back ← cursor
  let matched ← step
  if !matched then moveTo back
  return matched

/-- A step on another text, with the same rules and names, reported at the current place. -/
def fragment {α : Type} (text : String) (step : ReadM α) : ReadM α := do
  let location := (← peek).location
  around
    (fun s => { s with
      window := .ofTokens (Token.ofTextAt location text)
      flattened := [], constructors := [], warnings := #[] })
    (fun before after => { after with
      window := before.window, usings := before.usings
      flattened := before.flattened, constructors := before.constructors
      warnings := before.warnings ++ after.warnings })
    step

/-- Runs a step; what it found, or why it stopped, and the state afterwards. -/
def perform {α : Type} (step : ReadM α) (s : Reading) : Except Failure α × Reading :=
  match step s with
  | .ok a s => (.ok a, s)
  | .error e s => (.error e, s)

/-! ## Rules, names and reports -/

def table : ReadM RuleTable := do
  return (← get).table

/-- The first rule for a name. -/
def rule? (name : String) : ReadM (Option Rule) := do
  return (← get).table.find? name

/-- All rules for a name. -/
def rules (name : String) : ReadM (List Rule) := do
  return (← get).table.rules name

/-- Learns a rule that comes after those for the same names. -/
def learn (rule : Rule) : ReadM Unit :=
  modify fun s => { s with table := s.table.put rule }

/-- Learns a rule that comes before those for the same names. -/
def learnFirst (rule : Rule) : ReadM Unit :=
  modify fun s => { s with table := s.table.putFirst rule }

/-- What a name in a scope may refer to, the innermost first. -/
def qualify (scope : Scope) (name : String) : ReadM (List String) := do
  return scope.qualify name (← get).usings

/-- Reports a problem, once for each place and message. -/
def warn (location : Location) (message : String) : ReadM Unit :=
  modify fun s =>
    let warning := Diagnostic.warning location message
    let seen := s.warnings.any fun w => w.message == message && w.location == some location
    if seen then s else { s with warnings := s.warnings.push warning }

/-! ## The outline -/

def outline : ReadM Outline := do
  return (← get).outline

def modifyOutline (f : Outline → Outline) : ReadM Unit :=
  modify fun s => { s with outline := f s.outline }

/-- Adds a declaration; tells whether it was taken. -/
def add (d : Declaration) : ReadM Bool := fun s =>
  let (taken, outline) := s.outline.add s.table d
  .ok taken { s with outline }

/-- Adds declarations whose lines start with the given spacing. -/
def addSpaced (spacing : String) (ds : List Declaration) : ReadM Unit := do
  modifyOutline fun o => { o with spacing := some spacing }
  ds.forM fun d => discard (add d)
  modifyOutline fun o => { o with spacing := none }

/-- The text with spacing before each of its lines; nothing is pending afterwards. -/
def indent (spacing text : String) : ReadM String := do
  modifyOutline fun o => { o with spacing := none }
  return (Outline.indentLines spacing (Text.lines text)).1

/-- Prints only the spacing of something that was passed over. -/
def leaveSpacing (spacing : String) : ReadM Bool := do
  let _ ← add { text := spacing }
  return true

/-- A step with an outline of its own, which is given with the result. -/
def withOutline {α : Type} (inner : Outline) (step : ReadM α) : ReadM (α × Outline) := do
  let kept ← outline
  modifyOutline fun _ => inner
  let a ← step
  let made ← outline
  modifyOutline fun _ => kept
  return (a, made)

end ReadM

end HeaderPeers

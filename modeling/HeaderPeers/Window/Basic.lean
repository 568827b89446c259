import HeaderPeers.Window.Conditional
import HeaderPeers.Window.Expansion

/-!
# Windows on tokens

A cursor over tokens. Unless it is raw, comments are invisible, and each place that is visited is
preprocessed first, which may change the tokens from there on but none before.

Preprocessing need not end, since a macro may expand to itself; it gives up after a number of steps
that the caller sets.
-/

namespace HeaderPeers

/-- Tokens and a place among them. -/
structure Window where
  tokens : Array Token
  index : Nat := 0
  /-- Comments are visible and nothing is preprocessed. -/
  raw : Bool := false
deriving Inhabited

namespace Window

def ofTokens (ts : List Token) : Window :=
  { tokens := ts.toArray }

/-- The end of the input, on the line where the last token ends. -/
def endToken (tokens : Array Token) : Token :=
  match tokens.back? with
  | some last =>
    .eof { last.location with line := last.location.line + Text.countChar '\n' last.text }
  | none => .eof {}

/-- The token in a position. -/
def tokenAt (tokens : Array Token) (i : Nat) : Token :=
  (tokens[i]?).getD (endToken tokens)

/-- The tokens from a position on. -/
def tail (tokens : Array Token) (i : Nat) : List Token :=
  (tokens.extract i tokens.size).toList

/-- Puts other tokens in place of those from a position on. -/
def replaceTail (tokens : Array Token) (i : Nat) (ts : List Token) : Array Token :=
  tokens.extract 0 i ++ ts

/-- Whether a conditional group starts in a position. -/
def opensAt (tokens : Array Token) (i : Nat) : Bool :=
  match tokens[i]?, tokens[i + 1]? with
  | some mark, some word => Conditional.opens [mark, word]
  | _, _ => false

/-- Resolves the conditional group that starts in a position. -/
def resolveAt (table : RuleTable) (tokens : Array Token) (i : Nat) : Array Token :=
  if opensAt tokens i then replaceTail tokens i (Conditional.resolve table (tail tokens i))
  else tokens

/-- Expands the macro in a position. -/
def expandAt (table : RuleTable) (tokens : Array Token) (i : Nat) : Array Token :=
  match tokens[i]? with
  | none => tokens
  | some t =>
    if (Expansion.ruleFor? table t).isNone then tokens
    else match Expansion.expand? table (tail tokens i) with
      | some ts => replaceTail tokens i ts
      | none => tokens

/-- Preprocesses one position. -/
def visit (table : RuleTable) (tokens : Array Token) (i : Nat) : Array Token :=
  expandAt table (resolveAt table tokens i) i

/-- Finds the visible token with `count` visible ones before it, from position `i` on; none if the
steps run out. -/
def seek (table : RuleTable) : Nat → Array Token → Nat → Nat → Option (Array Token × Nat)
  | 0, _, _, _ => none
  | fuel + 1, tokens, i, count =>
    if i < tokens.size then
      let tokens := visit table tokens i
      match tokens[i]? with
      | none => some (visit table tokens i, i)
      | some t =>
        if t.isComment then seek table fuel tokens (i + 1) count
        else match count with
          | 0 => some (visit table tokens i, i)
          | count + 1 => seek table fuel tokens (i + 1) count
    else some (visit table tokens i, i)

/-- The position that lies an offset away from the cursor. -/
def position (w : Window) (fuel : Nat) (table : RuleTable) (offset : Int) : Option (Nat × Window) :=
  if w.raw then some ((w.index + offset).toNat, w)
  else
    let index := w.index
    let raw := w.raw
    (seek table fuel w.tokens index offset.toNat).map fun (tokens, i) => (i, { tokens, index, raw })

/-- The token an offset away. Backward offsets are for raw windows; elsewhere they count as zero. -/
def get (w : Window) (fuel : Nat) (table : RuleTable) (offset : Int) : Option (Token × Window) :=
  (w.position fuel table offset).map fun (i, w) => (tokenAt w.tokens i, w)

/-- Moves past the current token. -/
def next (w : Window) (fuel : Nat) (table : RuleTable) : Option (Token × Window) :=
  (w.position fuel table 1).map fun (i, w) => (tokenAt w.tokens i, { w with index := i })

/-- Changes the spacing of the token an offset away. -/
def setSpacing (w : Window) (fuel : Nat) (table : RuleTable) (offset : Int) (spacing : String) :
    Option Window :=
  (w.position fuel table offset).map fun (i, w) =>
    { w with tokens := w.tokens.modify i fun t => { t with spacing } }

def size (w : Window) : Nat :=
  w.tokens.size

end Window

end HeaderPeers

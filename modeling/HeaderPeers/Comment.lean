import HeaderPeers.Reading.Basic

/-!
# Comments

Documentation moves with the declarations it belongs to: comments in front of a declaration are
printed before it, and comments that point back with `<` are printed with the declaration they
follow.
-/

namespace HeaderPeers.Comment

/-- Whether a comment is documentation. -/
def isDoc (text : String) : Bool :=
  ["/**", "/*!", "///", "//!"].any fun start => Text.startsWith start text

/-- Whether documentation points back to what it follows. -/
def pointsBack (text : String) : Bool :=
  text.toList[3]? == some '<'

/-- The text behind the first `n` characters. -/
def behind (n : Nat) (text : String) : String :=
  String.ofList (text.toList.drop n)

/-- The comments collected so far, and whether a block made of lines is still open. -/
structure Collected where
  text : String := ""
  openBlock : Bool := false

/-- Closes a block made of lines. -/
def Collected.closed (c : Collected) : Collected :=
  if c.openBlock && !Text.endsWith "*/" c.text then
    { text := c.text ++ " */", openBlock := false }
  else c

/-- A line of documentation as part of a block, which it opens if none is open. -/
def blockLine (collected text : String) : String :=
  let opens := collected.isEmpty || Text.hasPart "*/" collected || !Text.hasPart "/*" collected
  (if opens then "/**" else " * ") ++ behind 3 text

/-- Adds one comment. -/
def Collected.push (c : Collected) (t : Token) : Collected :=
  if isDoc t.text then
    if pointsBack t.text then c
    else if Text.startsWith "/// " t.text || Text.startsWith "//!" t.text then
      { text := c.text ++ t.spacing ++ blockLine c.text t.text, openBlock := true }
    else if Text.startsWith "///" t.text then { c with text := c.text ++ t.spaced }
    else { c with text := c.text ++ t.spacing ++ "/**" ++ behind 3 t.text }
  else
    let c := c.closed
    { c with text := c.text ++ t.spaced }

/-- What a run of comments says about the declaration behind it. -/
def before (run : List Token) : String :=
  (run.foldl Collected.push {}).closed.text

/-- A comment that points back, as a block. -/
def backText (t : Token) : String :=
  let body := behind 4 t.text
  if Text.startsWith "/*" t.text then t.spacing ++ "/**" ++ body
  else t.spacing ++ "/**" ++ Text.trimEnd body ++ " */"

/-- What a run of comments says about the declaration before it. -/
def after (run : List Token) : String :=
  let text := String.join ((run.filter fun t => isDoc t.text && pointsBack t.text).map backText)
  if text.isEmpty || Text.endsWith "\n" text then text else text ++ "\n"

/-- The first position of the run of comments that ends before position `i`. -/
def runStart (tokens : Array Token) : Nat → Nat
  | 0 => 0
  | i + 1 => if (tokens[i]?).any Token.isComment then runStart tokens i else i + 1

/-- The comments from position `i` on, up to the first other token. -/
def runFrom (tokens : Array Token) (i : Nat) : List Token :=
  if h : i < tokens.size then
    if tokens[i].isComment then tokens[i] :: runFrom tokens (i + 1) else []
  else []
termination_by tokens.size - i

/-- The run of comments around the cursor; the cursor moves behind it. -/
def takeRun : ReadM (List Token) := do
  let w := (← get).window
  let start := runStart w.tokens w.index
  let run := runFrom w.tokens start
  ReadM.moveTo (start + run.length)
  return run

/-- The comments in front of the current token. -/
def takeBefore : ReadM String := do
  return before (← takeRun)

/-- The comments that point back to what was just read. -/
def takeAfter : ReadM String := do
  return after (← takeRun)

end HeaderPeers.Comment

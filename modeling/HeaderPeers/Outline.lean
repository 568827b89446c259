import HeaderPeers.Rule.Table
import HeaderPeers.Template

/-!
# Outlines

The declarations printed for a scope, in order, at most one for each signature that is not empty.
Helper definitions go before the declaration that needs them. A declaration under a template whose
parameters are not all bound is held back; the rules that name instances of it wait instead.
-/

namespace HeaderPeers

/-- The statement being read. -/
structure Statement where
  /-- Access of the section it stands in. -/
  inaccessible : Option Bool := none
  template : Option TemplateMap := none
  /-- The declaration that was held back. -/
  owner : Option TemplateOwner := none
  /-- Rules whose instances are still to be made. -/
  instances : Option (List Rule) := none
deriving Inhabited

/-- Declarations in order of output. -/
structure Outline where
  declarations : Array Declaration := #[]
  /-- White space for the lines of the next declarations. -/
  spacing : Option String := none
  statement : Statement := {}
deriving Inhabited

namespace Outline

def toList (outline : Outline) : List Declaration :=
  outline.declarations.toList

/-- The text of all declarations. -/
def text (outline : Outline) : String :=
  String.join (outline.toList.map (·.text))

/-- Starts a statement. -/
def beginStatement (outline : Outline) (inaccessible : Bool) (template : Option TemplateMap) :
    Outline :=
  { outline with spacing := none, statement := { inaccessible := some inaccessible, template } }

/-- The next rule that asks for an instance, and the outline without it. -/
def nextInstance? (outline : Outline) : Option (Rule × Outline) :=
  match outline.statement.instances with
  | some (rule :: rules) => some (rule, { outline with statement.instances := some rules })
  | _ => none

/-- The rules that wait for an instance. -/
def pending (outline : Outline) : List Rule :=
  outline.statement.instances.getD []

/-- Whether rules wait for an instance. -/
def hasInstances (outline : Outline) : Bool :=
  outline.statement.instances.any (!·.isEmpty)

/-- The spacing of lines behind the first: its last line break and what follows. -/
def nextSpacing (spacing : String) : String :=
  match Text.cutLast? "\n" spacing with
  | some (_, indent) => "\n" ++ indent
  | none => "\n"

/-- Puts spacing before each line, and says which spacing is due afterwards. -/
def indentLines (spacing : String) : List String → String × String
  | [] => ("", spacing)
  | line :: lines =>
    let more := indentLines (nextSpacing spacing) lines
    (spacing ++ line ++ more.1, more.2)

/-- The text with the pending spacing before each of its lines. Without pending spacing it stays as
it is. -/
def rescan (outline : Outline) (text : String) : String × Outline :=
  match outline.spacing with
  | none => (text, outline)
  | some spacing =>
    let indented := indentLines spacing (Text.lines text)
    (indented.1, { outline with spacing := some indented.2 })

/-- Whether `d` gives way to `new` of the same signature. -/
def yields (d new : Declaration) : Bool :=
  (d.constMember && !new.constMember) || (d.inaccessible && !new.inaccessible)
    || (d.incomplete && !new.incomplete)

/-- Whether a declaration keeps its place beside a new one. -/
def stays (new d : Declaration) : Bool :=
  d.signature != new.signature || !yields d new

/-- The access of a declaration: that of the section it stands in, unless it is a hook; one without
text is never accessible. -/
def settle (statement : Statement) (d : Declaration) : Declaration :=
  let inaccessible := match statement.inaccessible with
    | some inaccessible => if Text.hasPart "@Virtual " d.text then d.inaccessible else inaccessible
    | none => d.inaccessible
  { d with inaccessible := inaccessible || d.text.isEmpty }

/-- Adds one declaration without its helpers. Earlier ones of its signature that are worse go; if
one stays, the new one is dropped. -/
def insert (outline : Outline) (d : Declaration) : Outline :=
  let d := settle outline.statement d
  if d.signature.isEmpty then
    let (text, outline) := outline.rescan d.text
    { outline with declarations := outline.declarations.push { d with text } }
  else
    let kept := outline.declarations.filter (stays d)
    let outline := { outline with declarations := kept }
    if kept.any (·.signature == d.signature) then outline
    else
      let (text, outline) := outline.rescan d.text
      { outline with declarations := outline.declarations.push { d with text } }

/-- Whether the declaration is of a type that is skipped, or takes one. -/
def isSkipped (table : RuleTable) (d : Declaration) : Bool :=
  match d.declarator with
  | none => false
  | some declarator =>
    let skips name := !name.isEmpty && (table.find? name).any (·.skipsType)
    skips declarator.type.nativeName
      || ((declarator.parameters.map (·.declarators)).getD []).any fun p =>
        skips p.type.nativeName

/-- Holds a declaration back, and takes note of the rules for its instances if it is the first. -/
def holdBack (outline : Outline) (table : RuleTable) (d : Declaration) : Outline :=
  if outline.statement.instances.isSome then outline
  else
    let owner := match d.type, d.declarator with
      | some type, _ => TemplateOwner.type type.nativeName
      | none, some declarator => .function declarator.nativeName
      | none, none => .type ""
    let name := match d.declarator with
      | some declarator => declarator.nativeName
      | none => (d.type.map (·.nativeName)).getD ""
    let rules := table.rules name
    { outline with
      statement.owner := some owner
      statement.instances := if rules.isEmpty then none else some rules }

/-- Whether the statement is under a template that is not fully bound. -/
def isUnbound (outline : Outline) : Bool :=
  outline.statement.template.any (!·.full)

/-- Adds a declaration with its helpers; the flag tells whether it was taken. -/
def add (outline : Outline) (table : RuleTable) (d : Declaration) : Bool × Outline :=
  if outline.isUnbound && (d.type.isSome || d.declarator.isSome) then
    (false, outline.holdBack table d)
  else if isSkipped table d then (false, outline)
  else (true, d.unfold.foldl insert outline)

def last? (outline : Outline) : Option Declaration :=
  outline.declarations.back?

def removeLast (outline : Outline) : Outline :=
  { outline with declarations := outline.declarations.pop }

end Outline

end HeaderPeers

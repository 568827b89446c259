import HeaderPeers.Declarator.Shape
import HeaderPeers.Text.Line

/-!
# Enumerations

An enumeration is printed as integer constants or as a class of values. A value that is only known
at run time is read through a getter.
-/

namespace HeaderPeers

/-- A name of an enumeration with its value. -/
structure Enumerator where
  nativeName : String := ""
  name : String := ""
  /-- The expression that the value counts up from; empty for a plain number. -/
  base : String := ""
  count : Int := 0
  /-- The value is read through a getter. -/
  getter : Bool := false
  spacing : String := ""
  commentBefore : String := ""
  commentAfter : String := ""
deriving Repr, Inhabited

/-- The text of the value. -/
def Enumerator.value (e : Enumerator) : String :=
  if e.base.isEmpty then toString e.count
  else if e.count == 0 then e.base
  else e.base ++ " + " ++ toString e.count

/-- What stands between the braces: names and directives. -/
inductive EnumEntry where
  | enumerator (e : Enumerator)
  | directive (text : String)
deriving Repr

/-- An enumeration as it was read. -/
structure Enumeration where
  nativeName : String
  name : String
  targetType : String
  isScoped : Bool
  entries : List EnumEntry
deriving Repr

namespace Enumeration

def enumerators (e : Enumeration) : List Enumerator :=
  e.entries.filterMap fun
    | .enumerator e => some e
    | .directive _ => none

/-- The native words for the kind of enumeration. -/
def kindText (e : Enumeration) : String :=
  if e.isScoped then "enum class" else "enum"

/-- The text behind the last line feed. -/
def lastLine (s : String) : String :=
  (Text.throughLastBreak s).2

/-- Printed constants, with what is due before the next one. -/
structure Printing where
  text : String
  /-- The words that start a declaration; empty inside one. -/
  lead : String
  /-- What separates the next name from the one before. -/
  separator : String := ""
  /-- Directives and getters that stand before the next name. -/
  extra : String := ""

/-- The words that start a declaration of constants. -/
def leadText (targetType : String) : String :=
  "public static final " ++ targetType

/-- Takes a directive; unless it is a comment, it ends the declaration. -/
def Printing.pushDirective (p : Printing) (targetType directive : String) : Printing :=
  let p := { p with extra := p.extra ++ directive }
  if p.separator == "," && !Text.startsWith "//" (Text.trim directive) then
    { p with separator := ";", lead := "\n" ++ leadText targetType }
  else p

/-- Takes a getter, which ends the declaration. -/
def Printing.pushGetter (p : Printing) (targetType name : String) : Printing :=
  { p with
    separator := if p.separator == "," then ";" else p.separator
    extra := "\npublic static native @MemberGetter " ++ targetType ++ " " ++ name ++ "();\n"
    lead := leadText targetType }

/-- Prints a name with its value. -/
def Printing.pushEnumerator (p : Printing) (targetType : String) (e : Enumerator) : Printing :=
  let p := if e.getter then p.pushGetter targetType e.name else p
  let text := p.text ++ p.separator ++ p.extra ++ p.lead ++ e.commentBefore
  let (text, spacing) := if e.commentAfter.isEmpty then (text, e.spacing)
    else (text ++ e.spacing ++ Text.trimEnd e.commentAfter, lastLine e.spacing)
  let spacing := if spacing.isEmpty && !Text.endsWith "," text then " " else spacing
  { text := text ++ spacing ++ e.name ++ " = " ++ e.value, lead := "", separator := "," }

def Printing.push (targetType : String) (p : Printing) : EnumEntry → Printing
  | .directive text => p.pushDirective targetType text
  | .enumerator e => p.pushEnumerator targetType e

/-- The constants, with `ending` before the last semicolon. -/
def constants (e : Enumeration) (spacing ending : String) : String :=
  let start : Printing :=
    { text := spacing ++ "/** " ++ e.kindText ++ " " ++ e.nativeName ++ " */\n" ++ lastLine spacing
      lead := leadText e.targetType }
  let p := e.entries.foldl (Printing.push e.targetType) start
  p.text ++ ending ++ ";" ++ p.extra

/-- A constant of the class of values. -/
def valueText (e : Enumerator) : String :=
  let comment := Text.trim e.commentBefore
  (if comment.isEmpty then "" else "    " ++ comment ++ "\n")
    ++ "    " ++ e.name ++ "(" ++ e.value ++ ")"

/-- The getter of a value that is only known at run time. -/
def getterText (targetType : String) (e : Enumerator) : String :=
  if e.getter then
    "    @Name(\"" ++ e.nativeName ++ "\") @MemberGetter public static native " ++ targetType ++ " "
      ++ e.name ++ "_value();\n"
  else ""

/-- The members every class of values has. -/
def membersText (name targetType : String) : String :=
  "    public final " ++ targetType ++ " value;\n"
    ++ "    private " ++ name ++ "(" ++ targetType ++ " v) \x7b this.value = v; \x7d\n"
    ++ "    private " ++ name ++ "(" ++ name ++ " e) \x7b this.value = e.value; \x7d\n"
    ++ "    public " ++ name ++ " intern() \x7b for (" ++ name
    ++ " e : values()) if (e.value == value) return e; return this; \x7d\n"
    ++ "    @Override public String toString() \x7b return intern().name(); \x7d\n\x7d"

/-- The directives, one after another. -/
def directiveText (e : Enumeration) : String :=
  String.join (e.entries.map fun
    | .directive text => text
    | .enumerator _ => "")

/-- The class of values. -/
def valueClass (e : Enumeration) (annotations : String) : String :=
  "/** " ++ e.kindText ++ " " ++ e.nativeName ++ " */\n" ++ annotations ++ "public enum " ++ e.name
    ++ " \x7b\n" ++ Text.joinWith ",\n" (e.enumerators.map valueText) ++ ";\n\n"
    ++ String.join (e.enumerators.map (getterText e.targetType))
    ++ membersText e.name e.targetType ++ e.directiveText

/-- One word of an expression and what follows it, with earlier names turned into their values. -/
def valuePiece (seen : List String) (piece : List Char) : String :=
  let word := Text.dropEndWhile (!Text.isWordChar ·) piece
  if seen.contains (String.ofList word) then
    String.ofList word ++ ".value" ++ String.ofList (piece.drop word.length)
  else String.ofList piece

/-- An expression with earlier names turned into their values. -/
def valueExpression (seen : List String) (base : String) : String :=
  String.join ((Text.piecesThrough (!Text.isWordChar ·) base.toList).map (valuePiece seen))

/-- The expression of a value inside the class of values. A single earlier name stays, since values
can be copied. -/
def rebase (seen : List String) (e : Enumerator) : Enumerator :=
  if e.getter then { e with base := e.name ++ "_value()" }
  else if seen.contains e.base && e.count == 0 then e
  else if e.base.isEmpty then e
  else { e with base := valueExpression seen e.base }

/-- Entries for the class of values, behind the names seen. -/
def rebaseAll (seen : List String) : List EnumEntry → List EnumEntry
  | [] => []
  | .directive text :: more => .directive text :: rebaseAll seen more
  | .enumerator e :: more => .enumerator (rebase seen e) :: rebaseAll (e.name :: seen) more

/-- The enumeration with the expressions that the class of values needs. -/
def asValues (e : Enumeration) : Enumeration :=
  { e with entries := rebaseAll [] e.entries }

/-- Target types that an enumeration may have. -/
def integralTypes : List String := ["byte", "short", "int", "long"]

/-- The target types behind a pointer. -/
def pointerTypes (targetType : String) : List String :=
  [Text.capitalize targetType ++ "Pointer", Text.capitalize targetType ++ "Buffer",
    targetType ++ "[]"]

/-- The rule for an enumeration, from the one there is. -/
def ruleFrom (scope : Scope) (existing : Option Rule) (nativeName targetName targetType : String) :
    Rule :=
  let rule := existing.getD (.named [nativeName])
  let value := if existing.any (·.enumerate) then
      match scope.group with
      | some group => group.targetName ++ "." ++ targetName
      | none => targetName
    else targetType
  { rule with
    valueTypes := rule.valueTypes.orElse fun _ => some [value]
    pointerTypes := rule.pointerTypes.orElse fun _ => some (pointerTypes targetType)
    cast := true }

end Enumeration

end HeaderPeers

import HeaderPeers.NativeType.Resolution
import HeaderPeers.Text.Upper

/-!
# The shape of a declarator

What follows from the tokens of a declarator without reading on: how arrays and pointers count, the
target type of that shape, the annotations it needs, and the native type in its cast.
-/

namespace HeaderPeers

/-- How arrays and pointers are seen. -/
inductive ArrayView where
  | plain
  /-- An array is a pointer to its elements. -/
  | asPointer
  /-- A pointer beyond the first level is a dimension. -/
  | asDimension
deriving DecidableEq, Repr

/-- A declarator in the making, with the native type a cast to it would name. -/
structure Draft where
  declarator : Declarator
  cast : String

namespace Draft

def type (d : Draft) : NativeType := d.declarator.type

/-- Changes the annotations. -/
def annotate (d : Draft) (f : String → String) : Draft :=
  { d with declarator.type.annotations := f d.declarator.type.annotations }

/-- The draft of a declarator of a type. Behind a comma, the pointers of the type belong to the
declarator before it. -/
def ofType (type : NativeType) (isFirst : Bool) : Draft :=
  let stars := if isFirst then type.indirections else 0
  let reference := isFirst && type.reference
  { declarator :=
      { type, indirections := stars, reference, rvalue := reference && type.rvalue
        constPointer := type.constPointer }
    cast := type.nativeName ++ (if type.constPointer then " const" else "")
      ++ String.ofList (List.replicate stars '*')
      ++ (if reference then (if type.rvalue then "&&" else "&") else "") }

/-- Takes a mark of a pointer, a reference or `const`; none for any other token. -/
def pushMark? (d : Draft) (t : Token) : Option Draft :=
  let cast := d.cast ++ t.text
  if t.is "*" then
    some { cast, declarator := { d.declarator with indirections := d.declarator.indirections + 1 } }
  else if t.is "&" then some { cast, declarator := { d.declarator with reference := true } }
  else if t.is "&&" then
    some { cast, declarator := { d.declarator with reference := true, rvalue := true } }
  else if t.isKeyword .const_ then
    some { cast, declarator := { d.declarator with constPointer := true } }
  else none

/-- Dimensions behind the first that are known, as a cast writes them. -/
def innerDims (dims : List Int) : String :=
  String.join ((dims.tail.filter (· > 0)).map fun n => "[" ++ toString n ++ "]")

/-- The text without its last character. -/
def dropLast (s : String) : String :=
  String.ofList s.toList.dropLast

/-- Sets the dimensions, seen in one of the ways. -/
def withDims (d : Draft) (view : ArrayView) (dims : List Int) : Draft :=
  match view with
  | .plain => { d with declarator.dims := dims }
  | .asPointer =>
    if dims.isEmpty then { d with declarator.dims := dims }
    else
      let inner := innerDims dims
      { declarator :=
          { d.declarator with dims, indirections := d.declarator.indirections + 1 }
        cast := d.cast ++ (if inner.isEmpty then "*" else "(*)" ++ inner) }
  | .asDimension =>
    let levels := if d.type.anonymous then 0 else 1
    if d.declarator.indirections > levels then
      { declarator :=
          { d.declarator with
            dims := dims ++ [-1], indirections := d.declarator.indirections - 1 }
        cast := dropLast d.cast }
    else { d with declarator.dims := dims }

/-- The native name that the rule for the shape is looked up under. -/
def lookupName (d : Draft) : String :=
  let isConst := d.type.constValue && d.declarator.indirections < 2 && !d.declarator.reference
  (if isConst then "const " else "") ++ d.type.nativeName

/-- Takes on the first template argument of an adapter, behind a pointer. -/
def adapt (d : Draft) (argument : NativeType) (rule : Rule) : Draft :=
  let base := (if argument.constValue then "const " else "") ++ argument.nativeName ++ "*"
  { declarator :=
      { d.declarator with
        indirections := 1 + argument.indirections
        reference := argument.reference
        type :=
          { d.type with
            constValue := argument.constValue
            constPointer := argument.constPointer
            nativeName := argument.nativeName
            targetName := argument.targetName
            annotations := argument.annotations ++ rule.annotationText } }
    cast := base ++ (if argument.constPointer then " const" else "")
      ++ String.ofList (List.replicate argument.indirections '*')
      ++ (if argument.reference then "&" else "") }

/-- The first rule for an adapter that makes it one. -/
def adapterRule? (table : RuleTable) (adapter : NativeType) : Option (NativeType × Rule) :=
  match adapter.arguments with
  | some (argument :: _) =>
    ((table.rules adapter.nativeName).find? (·.annotations.isSome)).map (argument, ·)
  | _ => none

end Draft

/-- How a rule maps a declarator. -/
structure Mapping where
  /-- To a type for values. -/
  isValue : Bool := false
  needsCast : Bool := false
  /-- The rule is for a `const` type, so that nothing has to say it. -/
  impliesConst : Bool := false
  /-- How many target names there are. -/
  alternatives : Nat := 1

namespace Draft

/-- Gives the declarator the target type that its rule has for its shape, and the alternative number
`choice` of it. -/
def mapBy (d : Draft) (scope : Scope) (rule : Rule) (choice : Int) (needsCast : Bool) :
    Draft × Mapping :=
  let isValue := rule.valueTypes.isSome
    && ((d.type.constValue && d.declarator.reference)
      || (d.declarator.indirections == 0 && !d.declarator.reference)
      || rule.pointerTypes.isNone)
  let names := (if isValue then rule.valueTypes else rule.pointerTypes).getD []
  let d := match names with
    | [] => d
    | _ :: _ =>
      let i := choice.toNat % names.length
      { d with declarator := { d.declarator with
          choice := i
          type := { d.type with targetName := names.getD i "", targetNames := names } } }
  let d := { d with declarator.type.targetName := scope.shorten d.type.targetName }
  (d, { isValue
        needsCast := needsCast || (rule.cast && d.type.nativeName != d.type.targetName)
        impliesConst := Text.startsWith "const " rule.nativeName
        alternatives := if names.isEmpty then 1 else names.length })

/-- Annotates how a value that is not one on the target side is passed. A negative choice asks for
`PointerPointer`. -/
def annotatePassing (d : Draft) (m : Mapping) (choice : Int) : Draft × Mapping :=
  let stars := d.declarator.indirections
  let reference := d.declarator.reference
  if stars == 0 && !reference then (d.annotate (· ++ "@ByVal "), m)
  else if stars == 0 then
    (d.annotate (· ++ if d.declarator.rvalue then "@ByRef(true) " else "@ByRef "), m)
  else if stars == 1 && reference then (d.annotate (· ++ "@ByPtrRef "), m)
  else if stars == 2 && !reference && choice ≥ 0 then
    (d.annotate (· ++ "@ByPtrPtr "),
      { m with needsCast := m.needsCast || d.type.nativeName == "void" })
  else if stars ≥ 2 then
    let d := { d with
      declarator.choice := d.declarator.choice + m.alternatives
      declarator.type.targetName := "PointerPointer" }
    (if reference then d.annotate (· ++ "@ByRef ") else d, { m with needsCast := true })
  else (d, m)

/-- Annotates `const`, unless a cast or the rule says it. -/
def annotateConst (d : Draft) (m : Mapping) : Draft :=
  if !m.needsCast && d.type.constValue && !m.impliesConst
      && !Text.hasPart "@Cast" d.type.targetName then
    d.annotate ("@Const " ++ ·)
  else d

/-- The native type that a cast names. -/
def castText (d : Draft) (m : Mapping) : String :=
  let cast := if d.declarator.indirections == 0 && d.declarator.reference then
      Text.replace "&" "*" (Text.replace "&&" "*" d.cast)
    else d.cast
  let cast := if m.isValue && d.type.constValue && d.declarator.reference then dropLast cast else cast
  if d.type.constValue then "const " ++ cast else cast

/-- Annotates the cast. -/
def annotateCast (d : Draft) (m : Mapping) : Draft :=
  if !m.needsCast then d
  else
    let cast := d.castText m
    if !m.isValue && d.declarator.indirections == 0 && !d.declarator.reference then
      d.annotate (· ++ "@Cast(\"" ++ cast ++ "*\") ")
    else d.annotate ("@Cast(\"" ++ cast ++ "\") " ++ ·)

/-- All annotations that follow from the shape and its mapping. -/
def annotateShape (d : Draft) (m : Mapping) (choice : Int) : Draft :=
  if m.isValue then d.annotateCast m
  else
    let (d, m) := d.annotatePassing m choice
    (d.annotateConst m).annotateCast m

/-- A qualified name without the namespaces around it. -/
def localName (scope : Scope) (name : String) : String :=
  match Text.cutLast? "::" name with
  | some (around, last) =>
    if scope.path.any (Text.startsWith around) then last else name
  | none => name

/-- Whether a class template is being instantiated. -/
def inClassTemplate (scope : Scope) : Bool :=
  match scope.template.bind (·.frame.owner) with
  | some (.type _) => true
  | _ => false

/-- Whether the target name of a rule is for the declared name itself. -/
def renames (scope : Scope) (isOperator : Bool) (rule : Rule) : Bool :=
  isOperator || !Text.hasChar '<' rule.nativeName
    || (scope.template.isSome && !inClassTemplate scope)

/-- Settles native and target name. A `hint` from an attribute wins over rules, and so does a
name that was made up. -/
def nameBy (d : Draft) (table : RuleTable) (scope : Scope) (usings : List String)
    (hint : Option String) (isOperator madeUp : Bool) : Draft :=
  let written := d.declarator.nativeName
  let (native, rule) := NativeType.settleName table written (scope.qualify written usings)
  let renamed := match rule with
    | some rule =>
      if hint.isNone && !madeUp && renames scope isOperator rule then rule.targetName? else none
    | none => none
  let target := (renamed.orElse fun _ => hint).getD written
  let plain := localName scope native
  let nameText := if !native.isEmpty && plain != target then "@Name(\"" ++ plain ++ "\") " else ""
  { d with declarator := { d.declarator with
      nativeName := native
      targetName := target
      signature := target
      type := { d.type with
        annotations := d.type.annotations ++ nameText ++ (rule.map (·.annotationText)).getD "" } } }

end Draft

/-- A function pointer: the class that stands for it. -/
structure FunctionPointer where
  name : String
  /-- Annotations in front of the class. -/
  annotations : String
  /-- The peer class that the function is a member of. -/
  owner : Option String
  /-- Annotations and name of the result type. -/
  result : String
  parameters : Parameters

namespace FunctionPointer

/-- The name of the class, made of the parameters or else of the result. -/
def nameFor (target : String) (resultTarget signature : String) : String :=
  if !signature.isEmpty then Text.capitalize target ++ signature
  else if resultTarget != "void" then resultTarget ++ "_" ++ Text.capitalize target
  else Text.capitalize target

/-- The parameters of the call, the object first if the function is a member. -/
def callList (f : FunctionPointer) : String :=
  match f.owner with
  | none => f.parameters.list
  | some owner =>
    let rest := String.ofList (f.parameters.list.toList.drop 1)
    if Text.startsWith ")" rest then "(" ++ owner ++ " o)" else "(" ++ owner ++ " o, " ++ rest

/-- The text of the class. -/
def text (f : FunctionPointer) : String :=
  f.annotations ++ "public static class " ++ f.name ++ " extends FunctionPointer \x7b\n"
    ++ "    static \x7b Loader.load(); \x7d\n"
    ++ "    public    " ++ f.name ++ "(Pointer p) \x7b super(p); \x7d\n"
    ++ (if f.owner.isNone then
        "    protected " ++ f.name ++ "() \x7b allocate(); \x7d\n"
          ++ "    private native void allocate();\n"
      else "")
    ++ "    public native " ++ f.result ++ " call" ++ f.callList ++ ";\n\x7d\n"

def declaration (f : FunctionPointer) : Declaration :=
  { text := f.text, signature := f.name
    declarator := some { parameters := some f.parameters } }

end FunctionPointer

end HeaderPeers

import HeaderPeers.Rule.Table
import HeaderPeers.Scope

/-!
# What a type refers to

Once the words of a type are read, template parameters are replaced, the name is looked up from the
innermost scope outwards, and the rule found gives the target type.
-/

namespace HeaderPeers

namespace NativeType

/-- Moves `*`, `&` and `&&` from the end of the native name into the fields for them. -/
def hoist (t : NativeType) : NativeType :=
  let t := match Text.dropTail? "&&" t.nativeName with
    | some name => { t with nativeName := name, reference := true, rvalue := true }
    | none =>
      match Text.dropTail? "&" t.nativeName with
      | some name => { t with nativeName := name, reference := true }
      | none => t
  let stars := (t.nativeName.toList.reverse.takeWhile (· == '*')).length
  let name := String.ofList (Text.dropEndWhile (· == '*') t.nativeName.toList)
  { t with nativeName := Text.trimEnd name, indirections := t.indirections + stars }

/-- The name with template parameters replaced by what is bound to them: as a whole, or else each
segment of a path. -/
def substitute? (map : TemplateMap) (name : String) : Option String :=
  match map.get? name with
  | some bound => some bound
  | none =>
    if Text.hasChar '<' name || !Text.hasPart "::" name then none
    else
      let segments := Text.splitAt "::" name
      if segments.any fun s => (map.get? s).isSome then
        some (Text.joinWith "::" (segments.map fun s => (map.get? s).getD s))
      else none

/-- Replaces template parameters; qualifiers of what is bound to them go into the fields. -/
def instantiate (scope : Scope) (t : NativeType) : NativeType :=
  match scope.template.bind fun map => substitute? map t.nativeName with
  | none => t
  | some bound =>
    let t := match Text.dropHead? "const " bound with
      | some rest => { t with nativeName := rest, constValue := true }
      | none => { t with nativeName := bound }
    let t := t.hoist
    match Text.dropTail? " const" t.nativeName with
    | some rest => { t with nativeName := rest, constPointer := true }
    | none => t

/-- Goes through what a name may refer to. The first candidate with a rule of its own settles it;
up to there, a candidate whose template has a rule takes the place of the name. -/
def settleName (table : RuleTable) (name : String) : List String → String × Option Rule
  | [] => (name, none)
  | candidate :: more =>
    match table.findWith? candidate false with
    | some rule => (candidate, some rule)
    | none =>
      settleName table (if (table.find? candidate).isSome then candidate else name) more

/-- The target name without a rule: the last segment of a path, unless there are template
arguments. -/
def plainTarget (name : String) : String :=
  match Text.cutLast? "::" name with
  | some (_, last) => if Text.hasChar '<' name then name else last
  | none => name

/-- Gives the type the target names its rule has for it; the flag tells whether they are for
values. -/
def mapBy (rule : Option Rule) (t : NativeType) : NativeType × Bool :=
  let plain := t.indirections == 0 && !t.reference
  let values := if plain then (rule.bind (·.valueTypes)).getD [] else []
  let pointers := (rule.bind (·.pointerTypes)).getD []
  match values, pointers with
  | value :: _, _ => ({ t with targetName := value, targetNames := values }, true)
  | [], pointer :: _ => ({ t with targetName := pointer, targetNames := pointers }, false)
  | [], [] => (t, false)

/-- The annotations of a conversion operator. -/
def conversionText (t : NativeType) (isValue : Bool) : String :=
  let constText := if t.constValue then "const " else ""
  let mark := if t.indirections > 0 then "*" else if t.reference then "&" else ""
  (if t.constValue then "@Const " else "")
    ++ (if !isValue && t.indirections == 0 then (if t.reference then "@ByRef " else "@ByVal ")
      else "")
    ++ "@Name(\"operator " ++ constText ++ t.nativeName ++ mark ++ "\") "

/-- Looks the type up. -/
def resolve (table : RuleTable) (scope : Scope) (usings : List String) (t : NativeType) :
    NativeType :=
  let t := t.hoist.instantiate scope
  let (name, rule) := settleName table t.nativeName (scope.qualify t.nativeName usings)
  let (t, isValue) := mapBy rule { t with nativeName := name, targetName := plainTarget name }
  { t with
    annotations := t.annotations ++ (if t.operator then t.conversionText isValue else "")
      ++ (rule.map (·.annotationText)).getD "" }

/-- Whether the type names the class around, which it may do without template arguments. -/
def namesGroup (t group : NativeType) : Bool :=
  let name := if Text.hasChar '<' t.nativeName then group.nativeName
    else match Text.cutLast? "<" group.nativeName with
      | some (plain, _) => plain
      | none => group.nativeName
  t.nativeName == name

end NativeType

/-- A list of template arguments, spelled with the native types they stand for. -/
def RuleTable.argumentText (table : RuleTable) (arguments : List NativeType) : String :=
  TemplateMap.bracketed (arguments.map fun a =>
    match (table.find? a.nativeName).bind (·.nativeType?) with
    | some native => { a with nativeName := native }.spelling
    | none => a.spelling)

end HeaderPeers

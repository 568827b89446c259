import HeaderPeers.Declarator.Shape

/-!
# Peer classes

The text of the classes printed for classes, structures and unions.
-/

namespace HeaderPeers.Class

/-- A class whose layout is not known. -/
def opaqueText (name base : String) : String :=
  "@Opaque public static class " ++ name ++ " extends " ++ base ++ " \x7b\n"
    ++ "    public " ++ name ++ "() \x7b super((Pointer)null); \x7d\n"
    ++ "    public " ++ name ++ "(Pointer p) \x7b super(p); \x7d\n\x7d"

/-- What the members of a class say about how it is made. -/
structure Making where
  /-- No constructor is declared, and nothing speaks against having one. -/
  isImplicit : Bool := true
  /-- An accessible constructor takes nothing. -/
  hasDefault : Bool := false
  /-- An accessible constructor takes a size. -/
  hasSize : Bool := false
  isAbstract : Bool := false
  hasVariables : Bool := false
deriving DecidableEq, Repr

/-- Takes one more member into account. -/
def Making.push (m : Making) (d : Declaration) : Making :=
  let m := { m with hasVariables := m.hasVariables || d.isVariable }
  if d.isConstructor then
    let parameters := ((d.declarator.bind (·.parameters)).map (·.declarators)).getD []
    let takesSize := match parameters with
      | [p] => p.type.targetName == "long"
      | _ => false
    { m with
      isImplicit := false
      hasDefault := m.hasDefault || (parameters.isEmpty && !d.inaccessible)
      hasSize := m.hasSize || (takesSize && !d.inaccessible) }
  else if d.abstractMember then { m with isImplicit := false, isAbstract := true }
  else m

def Making.ofMembers (members : List Declaration) : Making :=
  members.foldl push {}

/-- The making of a class, given what its rule and its dialect say. -/
def makingOf (members : List Declaration) (rule : Option Rule) (cOnly : Bool) : Making :=
  let m := Making.ofMembers members
  let m := if rule.any (·.purify) then { m with isImplicit := false, isAbstract := true } else m
  if cOnly then { m with isImplicit := false } else m

/-- The constructor of an array, and access to its elements. -/
def arrayText (name : String) : String :=
  "    public " ++ name ++ "(long size) \x7b super((Pointer)null); allocateArray(size); \x7d\n"
    ++ "    private native void allocateArray(long size);\n"
    ++ "    @Override public " ++ name ++ " position(long position) \x7b\n"
    ++ "        return (" ++ name ++ ")super.position(position);\n    \x7d\n"

/-- The constructor from a pointer. -/
def pointerText (name : String) : String :=
  "    public " ++ name ++ "(Pointer p) \x7b super(p); \x7d\n"

/-- The constructors beyond those that are declared. -/
def constructorsText (name : String) (m : Making) : String :=
  if m.isImplicit then
    "    public " ++ name ++ "() \x7b super((Pointer)null); allocate(); \x7d\n" ++ pointerText name
      ++ "    private native void allocate();\n" ++ arrayText name
  else
    (if !m.hasDefault || m.isAbstract then
        "    public " ++ name ++ "() \x7b super((Pointer)null); \x7d\n"
      else "")
      ++ pointerText name
      ++ (if m.hasDefault && !m.isAbstract && !m.hasSize then arrayText name else "")

/-- Conversion to a base class beyond the first. -/
def castText (target : String) (base : NativeType) : String :=
  let peer := base.targetName
  "    public " ++ peer ++ " as" ++ peer ++ "() \x7b return as" ++ peer ++ "(this); \x7d\n"
    ++ "    @Namespace public static native @Name(\"static_cast<" ++ base.nativeName ++ "*>\") "
    ++ peer ++ " as" ++ peer ++ "(" ++ target ++ " pointer);\n"

/-- The annotation that tells the native name of a class: all of it if it was renamed, or else its
namespace. -/
def scopeText (scope : Scope) (name nativeName : String) : String :=
  let full := match scope.path with
    | some path => path ++ "::" ++ name
    | none => name
  if full != nativeName then "@Name(\"" ++ nativeName ++ "\") " else scope.namespaceText

/-- The first lines of a class. -/
def headText (scope : Scope) (name nativeName base : String) (isVirtual isDerived : Bool)
    (m : Making) : String :=
  scopeText scope name nativeName
    ++ (if (!m.isImplicit || isDerived) && m.hasVariables then "@NoOffset " else "")
    ++ (if isVirtual && m.isAbstract then "public static abstract " else "public static ")
    ++ "class " ++ name ++ " extends " ++ base ++ " \x7b\n    static \x7b Loader.load(); \x7d\n"
    ++ constructorsText name m

/-- The members that are printed: those that can be reached, without constructors if the class is
abstract. -/
def memberText (m : Making) (members : List Declaration) : String :=
  String.join ((members.filter fun d =>
    !d.inaccessible && !(d.isConstructor && m.isAbstract)).map (·.text))

/-- A constructor restated for a derived class. -/
def restate? (derived : String) (d : Declaration) : Option Declaration :=
  ((d.declarator.bind (·.parameters))).map fun p =>
    { d with
      text := "public " ++ derived ++ p.list ++ " \x7b super((Pointer)null); allocate" ++ p.names
        ++ "; \x7d\nprivate native void allocate" ++ p.list ++ ";\n"
      signature := derived ++ p.signature }

/-- The rule for a class that has none. -/
def ruleFor (nativeName targetName : String) : Rule :=
  { nativeNames := [nativeName], pointerTypes := some [targetName] }

/-- Whether some rule is for the `const` variant of a class. -/
def hasConstVariant (table : RuleTable) (nativeName : String) : Bool :=
  (table.rules ("const " ++ nativeName)).any fun r =>
    r.nativeNames.any fun n => Text.startsWith "const " (Text.trimStart n)

/-- The scope inside a class. -/
def innerScope (scope : Scope) (table : RuleTable) (type : NativeType) (rule : Option Rule)
    (isPrivate isAnonymous : Bool) : Scope :=
  let inner := { scope with inaccessible := isPrivate }
  let inner := if isAnonymous then inner
    else { inner with
      path := some type.nativeName, group := some type, member := none
      constVariant := hasConstVariant table type.nativeName }
  { inner with
    virtualize := inner.virtualize || rule.any (·.virtualize)
    immutable := inner.immutable || rule.any (·.immutable)
    beanify := inner.beanify || rule.any (·.beanify)
    objectify := inner.objectify || rule.any (·.objectify) }

/-- A variable of an unnamed class inside another unnamed class, as seen from outside. -/
def memberOf (scope : Scope) (d : Declarator) : Declarator :=
  match scope.member with
  | some outer =>
    { d with
      nativeName := outer.nativeName ++ "." ++ d.nativeName
      targetName := outer.targetName ++ "_" ++ d.targetName }
  | none => d

end HeaderPeers.Class

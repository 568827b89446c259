import HeaderPeers.Declaration
import HeaderPeers.Text.Basic
import HeaderPeers.Variable.Accessor

/-!
# Printed containers

The classes printed for instances of standard containers.
-/

namespace HeaderPeers.Container

/-- The interface of a family of containers. -/
inductive Shape where
  /-- Access by position. -/
  | indexed
  /-- Traversal in both directions. -/
  | sequence
  /-- Lookup by key. -/
  | keyed
  | set
  /-- Queues and stacks. -/
  | adapter
  | pair
  | optional
deriving DecidableEq, Repr

namespace Shape

def ofFamily (family : String) : Shape :=
  if ["std::vector", "std::deque", "std::valarray"].contains family then indexed
  else if family == "std::list" then sequence
  else if ["std::map", "std::unordered_map"].contains family then keyed
  else if ["std::set", "std::unordered_set"].contains family then set
  else if ["std::queue", "std::stack"].contains family then adapter
  else if family == "std::pair" then pair
  else optional

end Shape

/-- An instance of a container and the target types of its parts. -/
structure Wrapper where
  family : String
  shape : Shape
  nativeName : String
  name : String
  /-- How many levels of the same family are nested. -/
  depth : Nat
  index : NativeType
  value : NativeType
  /-- The halves of an element that is a pair. -/
  halves : Option (NativeType × NativeType)

/-- Goes through nested instances of one family, and counts the levels passed. -/
def innermost (family : String) (value : NativeType) : NativeType × Nat :=
  match h : value.arguments with
  | some (inner :: _) =>
    if Text.startsWith family value.nativeName then
      let more := innermost family inner
      (more.1, more.2 + 1)
    else (value, 0)
  | _ => (value, 0)
termination_by sizeOf value
decreasing_by
  cases value
  simp only at h
  subst h
  simp only [NativeType.mk.sizeOf_spec, Option.some.sizeOf_spec, List.cons.sizeOf_spec]
  omega

/-- The halves of a type that is a pair. -/
def halvesOf (value : NativeType) : Option (NativeType × NativeType) :=
  match value.arguments with
  | some [first, second] =>
    if Text.startsWith "std::pair" value.nativeName then some (first, second) else none
  | _ => none

/-- The type of positions. -/
def sizeType : NativeType :=
  { NativeType.named "long" with annotations := "@Cast(\"size_t\") " }

namespace Wrapper

/-- The wrapper for an instance; none if it has too few arguments. -/
def ofType? (family : String) (type : NativeType) : Option Wrapper :=
  let shape := Shape.ofFamily family
  let make (index value : NativeType) : Wrapper :=
    let (value, levels) := if shape == .indexed then innermost family value
      else (value, 0)
    { family, shape, nativeName := type.nativeName, name := type.targetName, depth := levels + 1
      index, value, halves := halvesOf value }
  match shape, type.arguments with
  | .keyed, some (index :: value :: _) => some (make index value)
  | .pair, some (index :: value :: _) => some (make index value)
  | .keyed, _ => none
  | .pair, _ => none
  | _, some (value :: _) => some (make sizeType value)
  | _, _ => none

end Wrapper

/-- The annotations of a type passed by reference, unless they say how it is passed. -/
def byReference (type : NativeType) : String :=
  if type.annotations.isEmpty && type.indirections == 0 then "@ByRef " else type.annotations

def primitives : List String :=
  ["boolean", "byte", "char", "short", "int", "long", "float", "double"]

/-- The annotations of a key: primitive types are passed by value. -/
def keyAnnotations (type : NativeType) : String :=
  if primitives.contains type.targetName then type.annotations else byReference type

/-- The annotation of accessors with `n` indices. -/
def indexText : Nat → String
  | 0 => ""
  | 1 => "@Index "
  | n => "@Index(" ++ toString n ++ ") "

namespace Wrapper

/-- Annotations and name of the type of values. -/
def valueText (w : Wrapper) : String :=
  byReference w.value ++ w.value.targetName

/-- Parameters for `n` positions. -/
def indices (w : Wrapper) (n : Nat) : String :=
  Text.joinWith ", " ((List.range n).map fun i =>
    keyAnnotations w.index ++ w.index.targetName ++ " " ++ (Variable.indexName i).toString)

def headText (w : Wrapper) : String :=
  "\n@Name(\"" ++ w.nativeName ++ "\") public static class " ++ w.name ++ " extends Pointer \x7b\n"
    ++ "    static \x7b Loader.load(); \x7d\n"
    ++ "    public " ++ w.name ++ "(Pointer p) \x7b super(p); \x7d\n"

/-- Constructors and assignment. -/
def allocators (w : Wrapper) (resizable : Bool) : String :=
  "    public " ++ w.name ++ "()       \x7b allocate();  \x7d\n"
    ++ (if resizable then "    public " ++ w.name ++ "(long n) \x7b allocate(n); \x7d\n" else "")
    ++ "    private native void allocate();\n"
    ++ (if resizable then "    private native void allocate(@Cast(\"size_t\") long n);\n" else "")
    ++ "    public native @Name(\"operator=\") @ByRef " ++ w.name ++ " put(@ByRef " ++ w.name
    ++ " x);\n\n"

def emptyText : String :=
  "    public boolean empty() \x7b return size() == 0; \x7d\n"

def sizeText : String :=
  "    public native long size();\n"

/-- The type of an array of nested values. -/
def spreadType (w : Wrapper) : String :=
  w.value.targetName ++ Text.times (w.depth - 1) "[]"

/-- Size and resizing at each level. -/
def levelText (w : Wrapper) (i : Nat) : String :=
  let mark := indexText i
  let indices := w.indices i
  "    public native " ++ mark ++ "long size(" ++ indices ++ ");\n"
    ++ "    public native " ++ mark ++ "void resize(" ++ indices ++ (if i > 0 then ", " else "")
    ++ "@Cast(\"size_t\") long n);\n"

/-- Getter and setter of one half of an element. -/
def halfText (w : Wrapper) (half : NativeType) (name gap : String) : String :=
  let indices := w.indices w.depth
  "    " ++ indexText w.depth ++ "public native " ++ byReference half ++ half.targetName ++ " " ++ name
    ++ "(" ++ indices ++ ");" ++ gap ++ "public native " ++ w.name ++ " " ++ name ++ "(" ++ indices
    ++ ", " ++ half.targetName ++ " " ++ name ++ ");\n"

/-- Access to elements. -/
def elementText (w : Wrapper) : String :=
  let indices := w.indices w.depth
  match w.halves with
  | some (first, second) => w.halfText first "first" " " ++ w.halfText second "second" "  "
  | none =>
    "    " ++ indexText w.depth ++ "public native " ++ w.valueText ++ " get(" ++ indices ++ ");\n"
      ++ "    public native " ++ w.name ++ " put(" ++ indices ++ ", " ++ w.value.targetName
      ++ " value);\n"

/-- Indentation of the loops over nested arrays. -/
def loopIndent (level : Nat) : String :=
  Text.times (level + 2) "    "

/-- Subscripts of the levels around. -/
def subscripts (level : Nat) : String :=
  String.join ((List.range level).map fun i => "[" ++ (Variable.indexName i).toString ++ "]")

/-- Positions at the levels around. -/
def positions (level : Nat) : String :=
  Text.joinWith ", " ((List.range level).map fun i => (Variable.indexName i).toString)

/-- The loop over one level of nested arrays, up to its body. -/
def loopText (level : Nat) : String :=
  let array := "array" ++ subscripts level ++ ".length"
  let at_ := positions level
  let separator := if level > 0 then ", " else ""
  let i := (Variable.indexName level).toString
  loopIndent level ++ "if (size(" ++ at_ ++ ") != " ++ array ++ ") \x7b resize(" ++ at_ ++ separator
    ++ array ++ "); \x7d\n"
    ++ loopIndent level ++ "for (int " ++ i ++ " = 0; " ++ i ++ " < " ++ array ++ "; " ++ i
    ++ "++) \x7b\n"

/-- The method that puts nested arrays. -/
def spreadText (w : Wrapper) : String :=
  let levels := List.range w.depth
  "\n    public " ++ w.name ++ " put(" ++ w.spreadType ++ " ... array) \x7b\n"
    ++ String.join (levels.map loopText)
    ++ loopIndent w.depth ++ "put(" ++ positions w.depth ++ ", array" ++ subscripts w.depth ++ ");\n"
    ++ String.join (levels.reverse.map fun level => loopIndent level ++ "\x7d\n")
    ++ "        return this;\n    \x7d\n"

def indexedText (w : Wrapper) : String :=
  let spreads := w.halves.isNone
  (if spreads then
      "    public " ++ w.name ++ "(" ++ w.spreadType
        ++ " ... array) \x7b this(array.length); put(array); \x7d\n"
    else "")
    ++ w.allocators true ++ emptyText ++ String.join ((List.range w.depth).map w.levelText)
    ++ "\n" ++ w.elementText ++ (if spreads then w.spreadText else "")

/-- What an iterator points at. -/
def iteratorValue (w : Wrapper) : String :=
  if w.shape == .keyed then
    "        public native @Name(\"operator*().first\") @MemberGetter " ++ keyAnnotations w.index
      ++ w.index.targetName ++ " first();\n"
      ++ "        public native @Name(\"operator*().second\") @MemberGetter " ++ w.valueText
      ++ " second();\n"
  else
    "        public native @Name(\"operator*\") " ++ (if w.shape == .set then "@Const " else "")
      ++ w.valueText ++ " get();\n"

/-- The iterator class and its ends. -/
def iteratorText (w : Wrapper) : String :=
  "    public native @ByVal Iterator begin();\n    public native @ByVal Iterator end();\n"
    ++ "    @NoOffset @Name(\"iterator\") public static class Iterator extends Pointer \x7b\n"
    ++ "        public Iterator(Pointer p) \x7b super(p); \x7d\n        public Iterator() \x7b \x7d\n\n"
    ++ "        public native @Name(\"operator++\") @ByRef Iterator increment();\n"
    ++ "        public native @Name(\"operator==\") boolean equals(@ByRef Iterator it);\n"
    ++ w.iteratorValue ++ "    \x7d\n"

def sequenceText (w : Wrapper) : String :=
  let value := w.valueText ++ " value"
  w.allocators true ++ emptyText ++ sizeText
    ++ "    public native void resize(@Cast(\"size_t\") long n);\n\n"
    ++ "    public native void push_back(" ++ value ++ ");\n"
    ++ "    public native void push_front(" ++ value ++ ");\n"
    ++ "    public native void pop_back();\n    public native void pop_front();\n"
    ++ "    public native @ByVal Iterator insert(@ByVal Iterator pos, " ++ value ++ ");\n"
    ++ "    public native @ByVal Iterator erase(@ByVal Iterator pos);\n" ++ w.iteratorText

def keyedText (w : Wrapper) : String :=
  let key := keyAnnotations w.index ++ w.index.targetName ++ " i"
  w.allocators false ++ emptyText ++ sizeText ++ "\n"
    ++ "    @Index public native " ++ w.valueText ++ " get(" ++ key ++ ");\n"
    ++ "    public native " ++ w.name ++ " put(" ++ key ++ ", " ++ w.value.targetName
    ++ " value);\n\n"
    ++ "    public native void erase(@ByVal Iterator pos);\n" ++ w.iteratorText

def setText (w : Wrapper) : String :=
  let value := w.valueText ++ " value"
  w.allocators false ++ emptyText ++ sizeText ++ "\n"
    ++ "    public native void insert(" ++ value ++ ");\n"
    ++ "    public native void erase(" ++ value ++ ");\n" ++ w.iteratorText

def adapterText (w : Wrapper) : String :=
  w.allocators false ++ "    public native boolean empty();\n" ++ sizeText ++ "\n"
    ++ "    public native void push(" ++ w.valueText ++ " value);\n"
    ++ "    public native void pop();\n"
    ++ (if w.family == "std::stack" then "    public native " ++ w.valueText ++ " top();\n"
      else "    public native " ++ w.valueText ++ " front();\n    public native " ++ w.valueText
        ++ " back();\n")

def pairText (w : Wrapper) : String :=
  let a := w.index.targetName
  let b := w.value.targetName
  let parameters := "(" ++ a ++ " firstValue, " ++ b ++ " secondValue) \x7b"
  "    public " ++ w.name ++ parameters ++ " this(); put(firstValue, secondValue); \x7d\n"
    ++ w.allocators false
    ++ "    public native " ++ byReference w.index ++ a ++ " first(); public native " ++ w.name
    ++ " first(" ++ a ++ " first);\n"
    ++ "    public native " ++ byReference w.value ++ b ++ " second();  public native " ++ w.name
    ++ " second(" ++ b ++ " second);\n\n"
    ++ "    public " ++ w.name ++ " put" ++ parameters ++ "\n        first(firstValue);\n"
    ++ "        second(secondValue);\n        return this;\n    \x7d\n"

def optionalText (w : Wrapper) : String :=
  "    public " ++ w.name ++ "(" ++ w.value.targetName
    ++ " value) \x7b this(); put(value); \x7d\n" ++ w.allocators false
    ++ "    public native boolean has_value();\n"
    ++ "    public native @Name(\"value\") " ++ w.valueText ++ " get();\n"
    ++ "    @ValueSetter public native " ++ w.name ++ " put(" ++ w.valueText ++ " value);\n"

/-- The text of the class. -/
def text (w : Wrapper) : String :=
  w.headText
    ++ (match w.shape with
      | .indexed => w.indexedText
      | .sequence => w.sequenceText
      | .keyed => w.keyedText
      | .set => w.setText
      | .adapter => w.adapterText
      | .pair => w.pairText
      | .optional => w.optionalText)
    ++ "\x7d\n"

end Wrapper

end HeaderPeers.Container

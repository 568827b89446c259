import HeaderPeers.Rule.Table

/-!
# Built-in rules

Fundamental types, common library types, the names of operators, and names that every peer class
has already.
-/

namespace HeaderPeers

/-- Template families whose instances can get a wrapper class. -/
def containerFamilies : List String :=
  ["std::deque", "std::list", "std::map", "std::queue", "std::set", "std::stack", "std::vector",
    "std::valarray", "std::unordered_map", "std::unordered_set", "std::pair", "std::optional"]

namespace Rule

/-- Operators and the methods they become. -/
def operatorMethods : List (String × String) := [
  ("->", "access"), ("()", "apply"), ("[]", "get"), ("=", "put"), ("+", "add"), ("-", "subtract"),
  ("*", "multiply"), ("/", "divide"), ("%", "mod"), ("++", "increment"), ("--", "decrement"),
  ("==", "equals"), ("!=", "notEquals"), ("<", "lessThan"), (">", "greaterThan"),
  ("<=", "lessThanEquals"), (">=", "greaterThanEquals"), ("!", "not"), ("&&", "and"), ("||", "or"),
  ("&", "and"), ("|", "or"), ("^", "xor"), ("~", "not"), ("<<", "shiftLeft"), (">>", "shiftRight"),
  ("+=", "addPut"), ("-=", "subtractPut"), ("*=", "multiplyPut"), ("/=", "dividePut"),
  ("%=", "modPut"), ("&=", "andPut"), ("|=", "orPut"), ("^=", "xorPut"), ("<<=", "shiftLeftPut"),
  (">>=", "shiftRightPut")]

/-- Methods every peer class inherits. -/
def inheritedMethods : List String :=
  ["allocate", "deallocate", "address", "position", "limit", "capacity"]

/-- A number type: its peer as a value, and its peers behind a pointer. -/
def numeric (cast : Bool) (names : List String) (value : String) (pointers : List String) : Rule :=
  { nativeNames := names, cast, valueTypes := some [value], pointerTypes := some pointers }

/-- Rules for types. -/
def typeRules : List Rule := [
  { nativeNames := ["__attribute__", "__declspec"], annotations := some [], skip := true },
  { nativeNames := ["void"], valueTypes := some ["void"], pointerTypes := some ["Pointer"] },
  { nativeNames := ["va_list", "FILE", "std::exception", "std::istream", "std::ostream",
      "std::iostream", "std::ifstream", "std::ofstream", "std::fstream"]
    cast := true, pointerTypes := some ["Pointer"] },
  numeric false ["int8_t", "__int8", "jbyte", "signed char"]
    "byte" ["BytePointer", "ByteBuffer", "byte[]"],
  numeric true ["uint8_t", "unsigned __int8", "char", "unsigned char"]
    "byte" ["BytePointer", "ByteBuffer", "byte[]"],
  numeric false ["int16_t", "__int16", "jshort", "short", "signed short", "short int",
      "signed short int"]
    "short" ["ShortPointer", "ShortBuffer", "short[]"],
  numeric true ["uint16_t", "unsigned __int16", "unsigned short", "unsigned short int"]
    "short" ["ShortPointer", "ShortBuffer", "short[]"],
  numeric false ["int32_t", "__int32", "jint", "int", "signed int", "signed"]
    "int" ["IntPointer", "IntBuffer", "int[]"],
  numeric true ["uint32_t", "unsigned __int32", "unsigned int", "unsigned"]
    "int" ["IntPointer", "IntBuffer", "int[]"],
  numeric false ["int64_t", "__int64", "jlong", "long long", "signed long long", "long long int",
      "signed long long int"]
    "long" ["LongPointer", "LongBuffer", "long[]"],
  numeric true ["uint64_t", "unsigned __int64", "unsigned long long", "unsigned long long int"]
    "long" ["LongPointer", "LongBuffer", "long[]"],
  numeric false ["long", "signed long", "long int", "signed long int"] "long" ["CLongPointer"],
  numeric true ["unsigned long", "unsigned long int"] "long" ["CLongPointer"],
  numeric true ["size_t", "ptrdiff_t", "intptr_t", "uintptr_t", "off_t"] "long" ["SizeTPointer"],
  numeric false ["float", "jfloat"] "float" ["FloatPointer", "FloatBuffer", "float[]"],
  numeric false ["double", "jdouble"] "double" ["DoublePointer", "DoubleBuffer", "double[]"],
  numeric true ["long double"] "double" ["Pointer"],
  { nativeNames := ["std::complex<float>"], cast := true
    pointerTypes := some ["FloatPointer", "FloatBuffer", "float[]"] },
  { nativeNames := ["std::complex<double>"], cast := true
    pointerTypes := some ["DoublePointer", "DoubleBuffer", "double[]"] },
  numeric true ["bool", "jboolean"] "boolean" ["BoolPointer"],
  numeric true ["wchar_t", "WCHAR"] "char" ["CharPointer"],
  { nativeNames := ["const char"], valueTypes := some ["byte"]
    pointerTypes := some ["@Cast(\"const char*\") BytePointer", "String"] },
  { nativeNames := ["std::string"], annotations := some ["@StdString"]
    valueTypes := some ["BytePointer", "String"] },
  { nativeNames := ["std::vector"], annotations := some ["@StdVector"] }]

/-- All built-in rules, in order. -/
def builtin : List Rule :=
  typeRules
    ++ operatorMethods.map (fun (symbol, method) =>
      { nativeNames := ["operator" ++ symbol], targetNames := some [method] })
    ++ inheritedMethods.map (fun name =>
      { nativeNames := [name], targetNames := some ["_" ++ name] })

end Rule

namespace RuleTable

/-- The table of built-in rules. -/
def builtin : RuleTable :=
  Rule.builtin.foldl put {}

/-- An empty layer over the built-in rules. -/
def standard : RuleTable :=
  builtin.child

end RuleTable

end HeaderPeers

/-!
# Reserved words

The words that steer recognition. Names of preprocessor directives are among them: they matter
after `#` only, and elsewhere a reserved word is a word like any other.
-/

namespace HeaderPeers

/-- A reserved word of C or C++, or the name of a preprocessor directive. -/
inductive Keyword where
  | alignas_ | class_ | const_ | constexpr_ | decltype_ | default_ | define_ | delete_ | elif_
  | else_ | endif_ | enum_ | explicit_ | extern_ | final_ | friend_ | if_ | ifdef_ | ifndef_
  | include_ | inline_ | mutable_ | namespace_ | noexcept_ | operator_ | override_ | private_
  | protected_ | public_ | static_ | staticAssert_ | struct_ | template_ | threadLocal_ | typedef_
  | typename_ | undef_ | union_ | using_ | virtual_ | volatile_
deriving DecidableEq, Repr

namespace Keyword

/-- Every reserved word with its spelling. -/
def spellings : List (String × Keyword) := [
  ("alignas", alignas_), ("class", class_), ("const", const_), ("constexpr", constexpr_),
  ("decltype", decltype_), ("default", default_), ("define", define_), ("delete", delete_),
  ("elif", elif_), ("else", else_), ("endif", endif_), ("enum", enum_), ("explicit", explicit_),
  ("extern", extern_), ("final", final_), ("friend", friend_), ("if", if_), ("ifdef", ifdef_),
  ("ifndef", ifndef_), ("include", include_), ("inline", inline_), ("mutable", mutable_),
  ("namespace", namespace_), ("noexcept", noexcept_), ("operator", operator_),
  ("override", override_), ("private", private_), ("protected", protected_), ("public", public_),
  ("static", static_), ("static_assert", staticAssert_), ("struct", struct_),
  ("template", template_), ("thread_local", threadLocal_), ("typedef", typedef_),
  ("typename", typename_), ("undef", undef_), ("union", union_), ("using", using_),
  ("virtual", virtual_), ("volatile", volatile_)]

/-- The reserved word spelled `word`. -/
def ofWord? (word : String) : Option Keyword :=
  spellings.lookup word

/-- Directives that open a conditional group. -/
def opensGroup : Keyword → Bool
  | if_ | ifdef_ | ifndef_ => true
  | _ => false

/-- Directives that a conditional group is made of. -/
def dividesGroup : Keyword → Bool
  | if_ | ifdef_ | ifndef_ | elif_ | else_ | endif_ => true
  | _ => false

/-- Directives that carry a condition. -/
def hasCondition : Keyword → Bool
  | if_ | ifdef_ | ifndef_ | elif_ => true
  | _ => false

end Keyword

end HeaderPeers

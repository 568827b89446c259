import HeaderPeers.Build
import HeaderPeers.Dump.Json

/-!
# Records of a build

Everything known about the declarations of a build. Lists and parts that are missing are left out.
-/

namespace HeaderPeers.Dump

def ofAttribute (a : Attribute) : Json :=
  .object [("cpp_name", .text a.nativeName), ("target_name", .text a.targetName),
    ("arguments", .text a.arguments), ("annotation", .boolean a.annotates)]

mutual

def ofType : NativeType → Json
  | ⟨nativeName, targetName, targetNames, annotations, arguments, attributes, indirections,
      reference, rvalue, constValue, constPointer, constructor, destructor, operator, staticMember,
      simple, anonymous, virtualMember, friend⟩ =>
    .object ([("cpp_name", .text nativeName), ("target_name", .text targetName)]
      ++ Json.nonempty "target_names" (targetNames.map .text)
      ++ [("annotations", .text annotations)]
      ++ Json.optional "arguments" (match arguments with
        | some types => some (.array (ofTypes types))
        | none => none)
      ++ Json.nonempty "attributes" (attributes.map ofAttribute)
      ++ [("indirections", .number indirections), ("reference", .boolean reference),
        ("rvalue", .boolean rvalue), ("const_value", .boolean constValue),
        ("const_pointer", .boolean constPointer), ("constructor", .boolean constructor),
        ("destructor", .boolean destructor), ("operator", .boolean operator),
        ("static_member", .boolean staticMember), ("simple", .boolean simple),
        ("anonymous", .boolean anonymous), ("virtual_member", .boolean virtualMember),
        ("friend", .boolean friend)])

def ofTypes : List NativeType → List Json
  | [] => []
  | t :: ts => ofType t :: ofTypes ts

end

mutual

def ofDeclarator : Declarator → Json
  | ⟨nativeName, targetName, type, indirections, reference, rvalue, constPointer, dims, bitfield,
      parameters, definition, signature, choice⟩ =>
    .object ([("cpp_name", .text nativeName), ("target_name", .text targetName),
        ("type", ofType type), ("indirections", .number indirections),
        ("reference", .boolean reference), ("rvalue", .boolean rvalue),
        ("const_pointer", .boolean constPointer)]
      ++ Json.nonempty "dims" (dims.map .number)
      ++ [("bitfield", .boolean bitfield)]
      ++ Json.optional "parameters" (match parameters with
        | some ps => some (ofParameters ps)
        | none => none)
      ++ Json.optional "definition" (match definition with
        | some d => some (ofDeclaration d)
        | none => none)
      ++ [("signature", .text signature), ("info_number", .number choice)])

def ofParameters : Parameters → Json
  | ⟨list, names, declarators, signature, choice, defaults⟩ =>
    .object [("list", .text list), ("names", .text names),
      ("declarators", .array (ofDeclarators declarators)), ("signature", .text signature),
      ("info_number", .number choice), ("defaults", .number defaults)]

def ofDeclarators : List Declarator → List Json
  | [] => []
  | d :: ds => ofDeclarator d :: ofDeclarators ds

def ofDeclaration : Declaration → Json
  | ⟨text, signature, type, declarator, isFunction, isVariable, isComment, abstractMember,
      constMember, custom, inaccessible, incomplete⟩ =>
    .object ([("text", .text text), ("signature", .text signature)]
      ++ Json.optional "type" (type.map ofType)
      ++ Json.optional "declarator" (match declarator with
        | some d => some (ofDeclarator d)
        | none => none)
      ++ [("function", .boolean isFunction), ("variable", .boolean isVariable),
        ("comment", .boolean isComment), ("abstract_member", .boolean abstractMember),
        ("const_member", .boolean constMember), ("custom", .boolean custom),
        ("inaccessible", .boolean inaccessible), ("incomplete", .boolean incomplete)])

end

def ofBuild (b : Build) : Json :=
  .object [("header", .texts b.header),
    ("declarations", .array (b.declarations.map ofDeclaration)), ("files", .texts b.files),
    ("line_separator", .text b.lineBreak.text), ("warnings", .texts b.warnings)]

/-- The kind of a declaration, in one word. -/
def kindOf (d : Declaration) : String :=
  if d.isFunction then "function"
  else if d.isVariable then "variable"
  else if d.isComment then "comment"
  else if d.type.isSome then "type"
  else "text"

/-- A text with spaces behind it, up to a width in characters. -/
def padded (width : Nat) (s : String) : String :=
  s ++ Text.times (width - s.length) " "

/-- A declaration on one line: its kind, its signature and its text. -/
def lineOf (d : Declaration) : String :=
  padded 9 (kindOf d) ++ " " ++ padded 40 d.signature ++ " "
    ++ Text.replace "\n" " " (Text.trim d.text)

end HeaderPeers.Dump

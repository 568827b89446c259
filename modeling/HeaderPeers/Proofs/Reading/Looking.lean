import HeaderPeers.Class.Reader
import HeaderPeers.Enumeration.Reader
import HeaderPeers.Function.Reader
import HeaderPeers.Proofs.Reading.Invariant

/-!
# Readers that only look

Attributes, types, parameters and declarators, and the heads of enumerations,
classes and functions: all of them are made of looking at tokens and moving the
cursor to places it has been at, so they keep every `LookInvariant`. There is
one fact for each reader, from the facts for the readers it calls; a reader that
is given how to read what is inside keeps what that keeps.
-/

set_option mvcgen.warning false

namespace HeaderPeers

open Std.Do ReadM

variable [LookInvariant] {raw : Bool}

/-! ## Attributes and what is passed over -/

namespace Attribute

@[spec]
theorem passOver_keeps (opening closing : String) : Keeps raw (passOver opening closing) := by
  mvcgen [passOver]

@[spec]
theorem read_keeps : Keeps raw read := by
  mvcgen [read]

@[spec]
theorem readBracketed_keeps : Keeps raw readBracketed := by
  mvcgen [readBracketed]

end Attribute

namespace ReadM

@[spec]
theorem skipBody_keeps : Keeps raw skipBody := by
  mvcgen [skipBody]

@[spec]
theorem skipStatement_keeps : Keeps raw skipStatement := by
  mvcgen [skipStatement]

@[spec]
theorem toClosing_keeps (first : Token) : Keeps raw (toClosing first) := by
  mvcgen [toClosing]

@[spec]
theorem skipParentheses_keeps : Keeps raw skipParentheses := by
  mvcgen [skipParentheses]

@[spec]
theorem skipInitializers_keeps (mark : Token) : Keeps raw (skipInitializers mark) := by
  mvcgen [skipInitializers]

@[spec]
theorem skipTail_keeps : Keeps raw skipTail := by
  mvcgen [skipTail]

@[spec]
theorem skipDefinition_keeps : Keeps raw skipDefinition := by
  mvcgen [skipDefinition]

@[spec]
theorem toArgumentEnd_keeps {α : Type} (start : α) (collect : α → Token → α) (first : Token) :
    Keeps raw (toArgumentEnd start collect first) := by
  mvcgen [toArgumentEnd]

end ReadM

/-! ## Types -/

namespace TemplateMap

@[spec]
theorem readParameter_keeps (map : TemplateMap) (t : Token) : Keeps raw (readParameter map t) := by
  mvcgen [readParameter]

@[spec]
theorem read_keeps (scope : Scope) : Keeps raw (read scope) := by
  mvcgen [read]

end TemplateMap

namespace NativeType

@[spec]
theorem readOperand_keeps : Keeps raw readOperand := by
  mvcgen [readOperand]

@[spec]
theorem onward_keeps (type : NativeType) : Keeps raw (onward type) := by
  mvcgen [onward]

@[spec]
theorem closing_keeps (type : NativeType) : Keeps raw (closing type) := by
  mvcgen [closing]

@[spec]
theorem readWord_keeps (type : NativeType) (t : Token) : Keeps raw (readWord type t) := by
  mvcgen [readWord, cursor_gives, moveTo_keeps] <;> grind

@[spec]
theorem readSymbol_keeps (type : NativeType) : Keeps raw (readSymbol type) := by
  mvcgen [readSymbol]

@[spec]
theorem placeInGroup_keeps (scope : Scope) (type : NativeType) :
    Keeps raw (placeInGroup scope type) := by
  mvcgen [placeInGroup]

@[spec]
theorem finish_keeps (scope : Scope) (type : NativeType) : Keeps raw (finish scope type) := by
  mvcgen [finish]

section
variable {readType : Scope → ReadM (Option NativeType)}
  (h : ∀ scope, Keeps raw (readType scope)) (scope : Scope)
include h

theorem readArgument_keeps : Keeps raw (readArgument readType scope) := by
  mvcgen [readArgument, h]

theorem readArguments_keeps : Keeps raw (readArguments readType scope) := by
  have hargument := readArgument_keeps h scope
  mvcgen [readArguments, hargument]

theorem readPart_keeps (type : NativeType) : Keeps raw (readPart readType scope type) := by
  have harguments := readArguments_keeps h scope
  mvcgen [readPart, harguments]

theorem readWith_keeps : Keeps raw (readWith readType scope) := by
  have hpart := readPart_keeps h scope
  refine Triple.bind _ _ (iterate_keeps hpart) fun found => ?_
  -- which type was found makes no difference to what is kept
  extract_lets type
  clear_value type
  mvcgen
  intro s hs
  split
  · exact hs
  · mvcgen

end

@[spec]
theorem read_keeps (scope : Scope) : Keeps raw (read scope) :=
  nest_keeps fun _ h => readWith_keeps h

theorem read_keepsInside (scope : Scope) : KeepsInside (read scope) :=
  @read_keeps (LookInvariant.inside _) false scope

end NativeType

/-! ## Parameters and declarators -/

namespace DefaultValue

@[spec]
theorem readTokens_keeps : Keeps raw readTokens := by
  mvcgen [readTokens]

@[spec]
theorem read_keeps (scope : Scope) : Keeps raw (read scope) := by
  mvcgen [read]

end DefaultValue

namespace Parameters

section
variable {readDeclarator : DeclaratorReader}
  (h : ∀ request, Keeps raw (readDeclarator request)) (scope : Scope) (choice : Int)
  (keep : Option Nat)
include h

theorem readOne_keeps (p : Progress) (t : Token) :
    Keeps raw (readOne readDeclarator scope choice keep p t) := by
  mvcgen [readOne, h]

theorem readList_keeps : Keeps raw (readList readDeclarator scope choice keep) := by
  have hone := readOne_keeps h scope choice keep
  mvcgen [readList, hone]

theorem readWith_keeps : Keeps raw (readWith readDeclarator scope choice keep) := by
  have hlist := readList_keeps h scope choice
  mvcgen [readWith, hlist, cursor_gives, moveTo_keeps] <;> grind

end

end Parameters

namespace DeclaredName

@[spec]
theorem readInParens_keeps (scope : Scope) : Keeps raw (readInParens scope) := by
  mvcgen [readInParens]

@[spec]
theorem readOperator_keeps (n : DeclaredName) : Keeps raw n.readOperator := by
  mvcgen [readOperator]

@[spec]
theorem readArguments_keeps (n : DeclaredName) : Keeps raw n.readArguments := by
  mvcgen [readArguments]

@[spec]
theorem readPath_keeps (scope : Scope) : Keeps raw (readPath scope) := by
  mvcgen [readPath]

@[spec]
theorem read_keeps (scope : Scope) (isTypedef : Bool) : Keeps raw (read scope isTypedef) := by
  mvcgen [read]

@[spec]
theorem readDims_keeps (dims : List Int) : Keeps raw (readDims dims) := by
  mvcgen [readDims]

end DeclaredName

namespace Draft

@[spec]
theorem readMarks_keeps (d : Draft) : Keeps raw d.readMarks := by
  mvcgen [readMarks]

@[spec]
theorem readAttributes_keeps (d : Draft) : Keeps raw d.readAttributes := by
  -- each turn hands on a place that the cursor has been at
  let I (state : Draft × List Attribute × Nat) (s : Reading) :=
    LookInvariant.holds raw s ∧ LookInvariant.place state.2.2
  refine Triple.bind _ _ cursor_gives fun start => ?_
  refine Triple.bind _ _ (triple_iterate (I := I) (Q := I) (fun state => ?_) fun _ _ h => h.1)
    fun result => ?_
  · mvcgen [cursor_gives] <;> grind
  · mvcgen [moveTo_keeps] <;> grind

@[spec]
theorem readBitfield_keeps (d : Draft) : Keeps raw d.readBitfield := by
  mvcgen [readBitfield]

@[spec]
theorem findRule_keeps (d : Draft) (scope : Scope) (isTypedef : Bool) :
    Keeps raw (d.findRule scope isTypedef) := by
  mvcgen [findRule]
  exact NativeType.read_keepsInside scope

@[spec]
theorem readMapping_keeps (d : Draft) (request : DeclaratorRequest) (isTypedef isUsing : Bool) :
    Keeps raw (d.readMapping request isTypedef isUsing) := by
  mvcgen [readMapping]

theorem readParameters_keeps (d : Draft) {readDeclarator : DeclaratorReader}
    (h : ∀ request, Keeps raw (readDeclarator request)) (request : DeclaratorRequest)
    (n : DeclaredName) (isTypedef : Bool) :
    Keeps raw (d.readParameters readDeclarator request n isTypedef) := by
  have hparameters := Parameters.readWith_keeps h
  mvcgen [readParameters, hparameters]

end Draft

namespace Declarator

@[spec]
theorem skipTo_keeps (number : Nat) : Keeps raw (skipTo number) := by
  mvcgen [skipTo]

@[spec]
theorem openParens_keeps : Keeps raw openParens := by
  mvcgen [openParens]

@[spec]
theorem closeParens_keeps (n : Nat) : Keeps raw (closeParens n) := by
  mvcgen [closeParens]

section
variable {readDeclarator : DeclaratorReader} (h : ∀ request, Keeps raw (readDeclarator request))
  (request : DeclaratorRequest)
include h

theorem readBehind_keeps (type : NativeType) (isTypedef isUsing : Bool) :
    Keeps raw (readBehind readDeclarator request type isTypedef isUsing) := by
  have hparameters := fun d => Draft.readParameters_keeps d h
  mvcgen [readBehind, hparameters]

theorem readWith_keeps : Keeps raw (readWith readDeclarator request) := by
  have hbehind := readBehind_keeps h
  mvcgen [readWith, hbehind]

end

@[spec]
theorem read_keeps (request : DeclaratorRequest) : Keeps raw (read request) :=
  nest_keeps fun _ h => readWith_keeps h

theorem read_keepsInside (request : DeclaratorRequest) : KeepsInside (read request) :=
  @read_keeps (LookInvariant.inside _) false request

end Declarator

@[spec]
theorem Parameters.read_keeps (scope : Scope) (choice : Int) (keep : Option Nat) :
    Keeps raw (Parameters.read scope choice keep) :=
  readWith_keeps Declarator.read_keeps scope choice keep

/-! ## Heads of statements -/

namespace Enumeration

@[spec]
theorem toEnum_keeps : Keeps raw toEnum := by
  mvcgen [toEnum]

@[spec]
theorem readHead_keeps (scope : Scope) (spacing : String) (isTypedef : Bool) :
    Keeps raw (readHead scope spacing isTypedef) := by
  mvcgen [readHead]

end Enumeration

namespace Class

@[spec]
theorem toKeyword_keeps : Keeps raw toKeyword := by
  mvcgen [toKeyword]

@[spec]
theorem readBases_keeps (scope : Scope) (isPrivate : Bool) :
    Keeps raw (readBases scope isPrivate) := by
  mvcgen [readBases]

@[spec]
theorem readName_keeps (scope : Scope) (isTypedef : Bool) :
    Keeps raw (readName scope isTypedef) := by
  mvcgen [readName]

@[spec]
theorem readHead_keeps (scope : Scope) : Keeps raw (readHead scope) := by
  mvcgen [readHead]

@[spec]
theorem readEnd_keeps : Keeps raw readEnd := by
  mvcgen [readEnd]

end Class

@[spec]
theorem Function.readDeclarator_keeps (scope : Scope) (choice : Int) (keep : Option Nat) :
    Keeps raw (readDeclarator scope choice keep) := by
  mvcgen [readDeclarator, cursor_gives, moveTo_keeps] <;> grind

end HeaderPeers

import HeaderPeers.Proofs.Progress.Basic

/-!
# Readers of types and declarators end
-/

set_option mvcgen.warning false

namespace HeaderPeers

open Std.Do ReadM Reading

variable {s₀ : Reading}

attribute [local spec high] cursor

attribute [local grind →] Token.isEof_of_is Token.isEof_of_isWord Token.isEof_of_isKeyword

namespace Attribute

/-- What `passOver` does with comments visible. -/
def passInside (opening closing : String) : ReadM String := do
  let first ← advance
  iterate (1, "", first) fun (depth, text, t) => do
    if t.isEof || depth == 0 then return .done text
    let state : Nat × String :=
      if t.is opening then (depth + 1, text)
      else if t.is closing then (depth - 1, text)
      else (depth, text ++ t.spaced)
    return .again (state.1, state.2, ← advance)

theorem passOver_eq (opening closing : String) :
    passOver opening closing = raw (passInside opening closing) := rfl

@[spec high]
theorem passOver_ends (hs : s₀.Steady) (opening closing : String) :
    Ends s₀ (passOver opening closing) fun _ s => s₀.Live → s₀.window.index < s.window.index := by
  have hinside : Ends s₀.bare (passInside opening closing)
      fun _ s => s₀.Live → s₀.window.index < s.window.index := by
    have hs' := Steady.bare hs
    unfold passInside
    mvcgen
    all_goals grind -linarith
  rw [passOver_eq]
  exact (raw_ends hinside).imp fun _ _ _ _ h => h

@[spec high]
theorem read_ends (hs : s₀.Steady) :
    Ends s₀ read fun a s => (a = none → s.window.index = s₀.window.index) ∧
      (a.isSome = true → s₀.Live ∧ s₀.window.index < s.window.index ∧
        ∀ t, s₀.Shows t → t.isWord = true) := by
  unfold read
  mvcgen
  all_goals grind -linarith

@[spec high]
theorem readBracketed_ends (hs : s₀.Steady) :
    Ends s₀ readBracketed fun _ s => s₀.Live → s₀.window.index < s.window.index := by
  unfold readBracketed
  mvcgen [andM, -andM_keeps]
  all_goals grind -linarith

end Attribute

namespace ReadM

@[spec high]
theorem skipBody_ends (hs : s₀.Steady) :
    Ends s₀ skipBody fun found s => (found = true → s₀.window.index < s.window.index) ∧
      ∀ t, s₀.Shows t → t.is "\x7b" = true → s₀.window.index < s.window.index := by
  unfold skipBody
  mvcgen
  all_goals grind -linarith

@[spec high]
theorem skipStatement_ends (hs : s₀.Steady) :
    Ends s₀ skipStatement fun _ s => s₀.Live → s₀.window.index < s.window.index := by
  unfold skipStatement
  mvcgen
  all_goals grind -linarith

@[spec high]
theorem toClosing_ends (hs : s₀.Steady) {first : Token} (hfirst : first.isEof = false → s₀.Live) :
    Ends s₀ (toClosing first) fun _ _ => True := by
  unfold toClosing
  mvcgen
  all_goals grind -linarith

@[spec high]
theorem skipParentheses_ends (hs : s₀.Steady) :
    Ends s₀ skipParentheses fun _ s =>
      ∀ t, s₀.Shows t → t.isEof = false → s₀.window.index < s.window.index := by
  unfold skipParentheses
  refine Ends.bind (peek_ends hs) fun first s₁ hs₁ hto₁ hfirst => ?_
  -- only the first turn can end the loop where it started
  refine iterate_ends (I := fun state s => ((Carries.token state).isEof = false → s.Live) ∧
    (s₀.window.index < s.window.index ∨ state.2 = first)) (fun _ s => s.rest) hs₁
    (by grind -linarith) (by grind -linarith) fun state s hs hto hI => ?_
  mvcgen
  all_goals grind -linarith

@[spec high]
theorem toArgumentEnd_ends {α : Type} (hs : s₀.Steady) (start : α) (collect : α → Token → α)
    {first : Token} (hfirst : first.isEof = false → s₀.Live) :
    Ends s₀ (toArgumentEnd start collect first) fun r s => r.2.isEof = false → s.Live := by
  unfold toArgumentEnd
  refine iterate_ends (I := fun state s => (Carries.token state).isEof = false → s.Live)
    (fun _ s => s.rest) hs hfirst (by grind -linarith) fun state s hs hto hI => ?_
  mvcgen
  all_goals grind -linarith

end ReadM

namespace TemplateMap

variable {map : TemplateMap}

@[spec high]
theorem readParameter_ends (hs : s₀.Steady) (hraw : s₀.window.raw = false) (hmap : map.Worded)
    {t : Token} (ht : t.isEof = false → s₀.Live) :
    Ends s₀ (readParameter map t) fun r s =>
      r.1.Worded ∧ (r.2.isEof = false → s.Live) := by
  unfold readParameter
  mvcgen
  all_goals grind -linarith [Worded.declare, Worded.declarePack]

/-- Reads lists of parameters, from behind the bracket that opens the first. -/
def readLists (map : TemplateMap) (first : Token) : ReadM TemplateMap :=
  iterate (map, first) fun (map, t) => do
    if t.isEof then return .done map
    let (map, t) ← readParameter map t
    let t ← if t.isAny [",", ">"] then pure t
      else
        let ((), t) ← toArgumentEnd () (fun _ _ => ()) (← peek)
        pure t
    expect t [",", ">"]
    if t.is ">" then
      if (← advance).isKeyword .template_ then expect (← advance) ["<"]
      else return .done map
    return .again (map, ← advance)

@[spec high]
theorem readLists_ends (hs : s₀.Steady) (hraw : s₀.window.raw = false) (hmap : map.Worded)
    {first : Token} (hfirst : first.isEof = false → s₀.Live) :
    Ends s₀ (readLists map first) fun map _ => map.Worded := by
  unfold readLists
  refine iterate_ends (I := fun state s => state.1.Worded ∧
    ((Carries.token state).isEof = false → s.Live)) (fun _ s => s.rest) hs ⟨hmap, hfirst⟩
    (by grind -linarith) fun state s hs hto hI => ?_
  mvcgen
  all_goals grind -linarith

theorem read_eq (scope : Scope) : read scope = (do
    if !(← peek).isKeyword .template_ then return none
    expect (← advance) ["<"]
    let first ← advance
    let map ← readLists (inside scope.template) first
    return some map) := rfl

@[spec high]
theorem read_ends (hs : s₀.Steady) (hraw : s₀.window.raw = false) (scope : Scope)
    (hscope : scope.Named) :
    Ends s₀ (read scope) fun map s =>
      (map.isSome = true → s₀.window.index < s.window.index) ∧
        ∀ m, map = some m → m.Worded := by
  have hinside := worded_inside hscope
  rw [read_eq]
  mvcgen
  all_goals grind -linarith

end TemplateMap

namespace NativeType

@[spec high]
theorem readOperand_ends (hs : s₀.Steady) : Ends s₀ readOperand fun _ _ => True := by
  unfold readOperand
  refine Ends.intro fun P hP => ?_
  mvcgen
  all_goals grind -linarith

end NativeType

namespace DefaultValue

@[spec high]
theorem readTokens_ends (hs : s₀.Steady) :
    Ends s₀ readTokens fun _ s => s₀.Live → s₀.window.index < s.window.index := by
  unfold readTokens
  mvcgen
  all_goals grind -linarith

@[spec high]
theorem read_ends (hs : s₀.Steady) (scope : Scope) :
    Ends s₀ (read scope) fun _ s => s₀.Live → s₀.window.index < s.window.index := by
  unfold read
  mvcgen
  all_goals grind -linarith

end DefaultValue

namespace DeclaredName

@[spec high]
theorem readInParens_ends (hs : s₀.Steady) (scope : Scope) :
    Ends s₀ (readInParens scope) fun _ s =>
      ∀ t, s₀.Shows t → t.is "(" = true → s₀.window.index < s.window.index := by
  unfold readInParens
  mvcgen
  all_goals grind -linarith

@[spec high]
theorem readOperator_ends (hs : s₀.Steady) (n : DeclaredName) :
    Ends s₀ n.readOperator fun _ s => s₀.Live → s₀.window.index < s.window.index := by
  unfold readOperator
  mvcgen
  all_goals grind -linarith

@[spec high]
theorem readArguments_ends (hs : s₀.Steady) (n : DeclaredName) :
    Ends s₀ n.readArguments fun _ s => s₀.Live → s₀.window.index < s.window.index := by
  unfold readArguments
  mvcgen
  all_goals grind -linarith

@[spec high]
theorem readPath_ends (hs : s₀.Steady) (scope : Scope) :
    Ends s₀ (readPath scope) fun _ _ => True := by
  unfold readPath
  refine Ends.intro fun P hP => ?_
  mvcgen
  all_goals grind -linarith

@[spec high]
theorem read_ends (hs : s₀.Steady) (scope : Scope) (isTypedef : Bool) :
    Ends s₀ (read scope isTypedef) fun n s =>
      (s₀.Ended → n = {}) ∧
      (∀ t, s₀.Shows t → t.is "(" = true → s₀.window.index < s.window.index) ∧
      (∀ t, s₀.Shows t → t.isWord = false → t.is "(" = false → isTypedef = false →
        n = {} ∧ s.window.index = s₀.window.index) := by
  unfold read
  mvcgen
  all_goals grind -linarith

@[spec high]
theorem readDims_ends (hs : s₀.Steady) (dims : List Int) :
    Ends s₀ (readDims dims) fun _ s =>
      (∀ t, s₀.Shows t → t.is "[" = true → s₀.window.index < s.window.index) ∧
      (∀ t, s₀.Shows t → t.is "[" = false → s.window.index = s₀.window.index) := by
  unfold readDims
  refine Ends.bind (peek_ends hs) fun first s₁ hs₁ hto₁ hfirst => ?_
  -- only the first turn can end the loop where it started
  refine iterate_ends (I := fun state s => ((Carries.token state).isEof = false → s.Live) ∧
    (∀ t, s₀.Shows t → t.is "[" = false → state.2.1 = false ∧ state.2.2 = first ∧
      s.window.index = s₀.window.index) ∧
    (s₀.window.index < s.window.index ∨ (state.2.1 = false ∧ state.2.2 = first)))
    (fun _ s => s.rest) hs₁ (by grind -linarith) (by grind -linarith) fun state s hs hto hI => ?_
  mvcgen
  all_goals grind -linarith

end DeclaredName

namespace Draft

@[spec high]
theorem readBitfield_ends (hs : s₀.Steady) (d : Draft) :
    Ends s₀ d.readBitfield fun _ s =>
      (∀ t, s₀.Shows t → t.is ":" = true → s₀.window.index < s.window.index) ∧
      (∀ t, s₀.Shows t → t.is ":" = false → s.window.index = s₀.window.index) := by
  unfold readBitfield
  mvcgen
  all_goals grind -linarith

end Draft

end HeaderPeers

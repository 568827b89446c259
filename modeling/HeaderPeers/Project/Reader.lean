import HeaderPeers.Project.Basic
import HeaderPeers.Toml.Reader

/-!
# Project files

A project as its file states it. Unknown fields mean nothing; a field of the wrong type makes the
whole file invalid.
-/

namespace HeaderPeers

open Toml

/-- Reads a rule. -/
def Rule.ofValue? (v : Value) : Option Rule := do
  let fields ← v.fields? ["cpp_names", "target_names", "annotations", "cpp_types", "value_types",
    "pointer_types", "cast", "define", "translate", "skip", "flatten", "purify", "virtualize",
    "immutable", "beanify", "enumerate", "objectify", "base", "cpp_text", "target_text"]
  let texts? name := optional? Value.texts? name fields
  let flag? name := withDefault? Value.boolean? false name fields
  let text? name := optional? Value.text? name fields
  return {
    nativeNames := (← texts? "cpp_names").getD []
    targetNames := ← texts? "target_names"
    annotations := ← texts? "annotations"
    nativeTypes := ← texts? "cpp_types"
    valueTypes := ← texts? "value_types"
    pointerTypes := ← texts? "pointer_types"
    cast := ← flag? "cast"
    define := ← flag? "define"
    translate := ← flag? "translate"
    skip := ← flag? "skip"
    flatten := ← flag? "flatten"
    purify := ← flag? "purify"
    virtualize := ← flag? "virtualize"
    immutable := ← flag? "immutable"
    beanify := ← flag? "beanify"
    enumerate := ← flag? "enumerate"
    objectify := ← flag? "objectify"
    base := ← text? "base"
    nativeText := ← text? "cpp_text"
    targetText := ← text? "target_text" }

/-- Reads which headers are selected. -/
def Selection.ofValue? (v : Value) : Option Selection := do
  let fields ← v.fields? ["include_paths", "includes", "c_includes", "exclude", "line_patterns",
    "skip_lines"]
  let texts? name := withDefault? Value.texts? [] name fields
  return {
    includePaths := ← texts? "include_paths"
    includes := ← texts? "includes"
    cIncludes := ← texts? "c_includes"
    exclude := ← texts? "exclude"
    linePatterns := ← texts? "line_patterns"
    skipLines := ← withDefault? Value.boolean? false "skip_lines" fields }

namespace Project

/-- Reads a project. -/
def ofValue? (v : Value) : Option Project := do
  let sections ← v.fields? ["project", "parse", "rule"]
  let fields ← (← sections.lookup "project").fields? ["name", "target", "root"]
  return {
    name := ← (← fields.lookup "name").text?
    target := ← optional? Value.text? "target" fields
    root := ← optional? Value.text? "root" fields
    selection := ← withDefault? Selection.ofValue? {} "parse" sections
    rules := ← withDefault? (fun v => v.elements?.bind (·.mapM Rule.ofValue?)) [] "rule" sections }

/-- The project that a text describes, or the first fault of it. -/
def ofText (text : String) : Except Fault Project :=
  match (Value.ofText? text).bind ofValue? with
  | none => .error .malformed
  | some p =>
    match p.fault? with
    | some fault => .error fault
    | none => .ok p

end Project

end HeaderPeers

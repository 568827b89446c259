import HeaderPeers.Declaration

/-!
# Template parameters

The parameters of a template and the types bound to them, inside the parameters of the templates
around it.
-/

namespace HeaderPeers

/-- What a list of template parameters belongs to. -/
inductive TemplateOwner where
  | type (name : String)
  | function (name : String)
deriving DecidableEq, Repr

def TemplateOwner.name : TemplateOwner → String
  | type name => name
  | function name => name

/-- Parameters of one template, in order of declaration, with the types bound to them. -/
structure TemplateFrame where
  parameters : List (String × Option NativeType) := []
  /-- The parameter that is a pack. -/
  pack : Option String := none
  owner : Option TemplateOwner := none
deriving Repr, Inhabited

namespace TemplateFrame

/-- The type bound to a parameter here. -/
def bound? (frame : TemplateFrame) (name : String) : Option NativeType :=
  (frame.parameters.lookup name).join

/-- Sets what is bound to a name, adding it behind the others if it is new. -/
def set (parameters : List (String × Option NativeType)) (name : String)
    (type : Option NativeType) : List (String × Option NativeType) :=
  match parameters with
  | [] => [(name, type)]
  | (n, t) :: more => if n == name then (n, type) :: more else (n, t) :: set more name type

def hasParameter (frame : TemplateFrame) (name : String) : Bool :=
  frame.parameters.any (·.1 == name)

/-- Binds a type to a parameter; other names are left alone. -/
def bind (frame : TemplateFrame) (name : String) (type : NativeType) : TemplateFrame :=
  if frame.hasParameter name then
    { frame with parameters := set frame.parameters name (some type) }
  else frame

/-- Binds types in order of declaration; parameters without one keep what they have. -/
def bindAll (parameters : List (String × Option NativeType)) (types : List NativeType) :
    List (String × Option NativeType) :=
  match parameters, types with
  | (name, _) :: parameters, type :: types => (name, some type) :: bindAll parameters types
  | parameters, _ => parameters

end TemplateFrame

/-- Template parameters inside those of the templates around, the nearest first. -/
structure TemplateMap where
  frame : TemplateFrame := {}
  outer : List TemplateFrame := []
deriving Repr, Inhabited

namespace TemplateMap

def frames (map : TemplateMap) : List TemplateFrame :=
  map.frame :: map.outer

/-- The map of a template inside another one, or of an outermost one. -/
def inside (outer : Option TemplateMap) : TemplateMap :=
  { outer := (outer.map frames).getD [] }

/-- The type bound to a name, here or around. -/
def binding? (map : TemplateMap) (name : String) : Option NativeType :=
  map.frames.findSome? (·.bound? name)

/-- Adds a parameter, bound to whatever the name is bound to around. -/
def declare (map : TemplateMap) (name : String) : TemplateMap :=
  let inherited := map.outer.findSome? (·.bound? name)
  { map with frame.parameters := TemplateFrame.set map.frame.parameters name inherited }

/-- Adds a parameter pack. -/
def declarePack (map : TemplateMap) (name : String) : TemplateMap :=
  let map := map.declare name
  { map with frame.pack := some name }

def isPack (map : TemplateMap) (name : String) : Bool :=
  map.frame.pack == some name

def bind (map : TemplateMap) (name : String) (type : NativeType) : TemplateMap :=
  { map with frame := map.frame.bind name type }

/-- Binds types in order of declaration; more types than parameters are ignored. -/
def bindAll (map : TemplateMap) (types : List NativeType) : TemplateMap :=
  { map with frame.parameters := TemplateFrame.bindAll map.frame.parameters types }

def withOwner (map : TemplateMap) (owner : TemplateOwner) : TemplateMap :=
  { map with frame.owner := some owner }

/-- The native spelling of the type bound to a name. -/
def get? (map : TemplateMap) (name : String) : Option String :=
  (map.binding? name).map (·.spelling)

/-- Whether a name is a parameter of this template. -/
def contains (map : TemplateMap) (name : String) : Bool :=
  map.frame.hasParameter name

/-- Whether every parameter is bound. -/
def full (map : TemplateMap) : Bool :=
  map.frame.parameters.all (·.2.isSome)

def names (map : TemplateMap) : List String :=
  map.frame.parameters.map (·.1)

/-- A list of template arguments; a closing bracket is kept apart from one before it. -/
def bracketed (arguments : List String) : String :=
  let opened := "<" ++ ",".intercalate arguments
  opened ++ (if opened.toList.getLast? == some '>' then " >" else ">")

end TemplateMap

/-- The list of arguments bound to the parameters. -/
def TemplateFrame.argumentText (frame : TemplateFrame) : String :=
  TemplateMap.bracketed (frame.parameters.map fun (_, type) => (type.map (·.spelling)).getD "")

end HeaderPeers

import HeaderPeers.Rule.Basic
import HeaderPeers.Rule.Name

/-!
# The table of rules

Rules are kept under the keys of their names, the most important first, in layers: what a layer
says comes before what the layers under it say. A rule is in the table as an entry with an
identity, so that putting one entry twice is the same as putting it once while equal rules stay
apart.
-/

namespace HeaderPeers

/-- A rule with its identity. -/
structure Entry where
  id : Nat
  rule : Rule
deriving DecidableEq, Repr

/-- Where a new entry goes among those under the same key. -/
inductive Priority where
  | first
  | last
  | position (i : Nat)
deriving DecidableEq, Repr

/-- Entries under each key, and the identity the next new entry gets. -/
structure Layer where
  lists : List (String × List Entry) := []
  fresh : Nat := 0
deriving Repr

namespace Layer

/-- The entries under a key. -/
def find? (layer : Layer) (key : String) : Option (List Entry) :=
  layer.lists.lookup key

/-- Changes the entries under a key, which are none for a new key. -/
def alter (lists : List (String × List Entry)) (key : String) (f : List Entry → List Entry) :
    List (String × List Entry) :=
  match lists with
  | [] => [(key, f [])]
  | (k, list) :: more => if k == key then (k, f list) :: more else (k, list) :: alter more key f

/-- The entries with one more, unless it is there already. -/
def place (priority : Priority) (entry : Entry) (list : List Entry) : List Entry :=
  if list.any (·.id == entry.id) then list
  else match priority with
    | .first => entry :: list
    | .last => list ++ [entry]
    | .position i => list.take i ++ entry :: list.drop i

/-- The keys that an entry for `name` is put under. -/
def keysOf (name : String) : List String :=
  [Name.normalize name false false, Name.normalize name true false,
    Name.normalize name false true]

/-- The names of a rule; a rule without any has the empty name. -/
def namesOf (rule : Rule) : List String :=
  if rule.nativeNames.isEmpty then [""] else rule.nativeNames

/-- Puts an entry under the keys of all its names. -/
def putEntry (layer : Layer) (priority : Priority) (entry : Entry) : Layer :=
  let keys := (namesOf entry.rule).flatMap keysOf
  { lists := keys.foldl (fun lists key => alter lists key (place priority entry)) layer.lists
    fresh := max layer.fresh (entry.id + 1) }

/-- Puts a rule as a new entry. -/
def putAt (layer : Layer) (priority : Priority) (rule : Rule) : Layer :=
  layer.putEntry priority ⟨layer.fresh, rule⟩

/-- The entries for a name: those under the first of its keys that is there. The key without
template arguments counts only if `part` is set. -/
def get (layer : Layer) (name : String) (part : Bool) : List Entry :=
  match layer.find? (Name.normalize name false false) with
  | some list => list
  | none =>
    match layer.find? (Name.normalize name true false) with
    | some list => list
    | none => if part then (layer.find? (Name.normalize name true true)).getD [] else []

/-- Takes over the lists of another layer, in place of those under the same keys. -/
def putAll (layer other : Layer) : Layer :=
  { lists := other.lists.foldl (fun lists (key, list) => alter lists key fun _ => list) layer.lists
    fresh := max layer.fresh other.fresh }

/-- Puts the entries of another layer behind those under the same keys. -/
def extend (layer other : Layer) : Layer :=
  { lists := other.lists.foldl
      (fun lists (key, list) =>
        alter lists key fun mine => list.foldl (fun l entry => place .last entry l) mine)
      layer.lists
    fresh := max layer.fresh other.fresh }

/-- The number of keys. -/
def size (layer : Layer) : Nat :=
  layer.lists.length

end Layer

/-- A layer over the layers under it, the nearest first. -/
structure RuleTable where
  top : Layer := {}
  under : List Layer := []
deriving Repr, Inhabited

namespace RuleTable

def layers (table : RuleTable) : List Layer :=
  table.top :: table.under

/-- All entries for a name, layer after layer. -/
def entriesWith (table : RuleTable) (name : String) (part : Bool) : List Entry :=
  table.layers.flatMap (·.get name part)

/-- All rules for a name. -/
def rulesWith (table : RuleTable) (name : String) (part : Bool) : List Rule :=
  (table.entriesWith name part).map (·.rule)

/-- All rules for a name; a template instance also finds the rules of its template. -/
def rules (table : RuleTable) (name : String) : List Rule :=
  table.rulesWith name true

/-- Rules of the top layer only. -/
def topRules (table : RuleTable) (name : String) : List Rule :=
  (table.top.get name true).map (·.rule)

/-- The first rule for a name. -/
def findWith? (table : RuleTable) (name : String) (part : Bool) : Option Rule :=
  table.layers.findSome? fun layer => ((layer.get name part).head?).map (·.rule)

/-- The first rule for a name; a template instance also finds the rules of its template. -/
def find? (table : RuleTable) (name : String) : Option Rule :=
  table.findWith? name true

/-- Whether some layer has exactly this key. -/
def hasKey (table : RuleTable) (key : String) : Bool :=
  table.layers.any fun layer => (layer.find? key).isSome

/-- Rules of the top layer that have no name. -/
def unnamed (table : RuleTable) : List Rule :=
  (((table.top.find? "").getD []).map (·.rule)).filter (·.nativeNames.isEmpty)

def putEntry (table : RuleTable) (priority : Priority) (entry : Entry) : RuleTable :=
  { table with top := table.top.putEntry priority entry }

/-- Puts a rule behind those for the same names. -/
def put (table : RuleTable) (rule : Rule) : RuleTable :=
  { table with top := table.top.putAt .last rule }

/-- Puts a rule before those for the same names. -/
def putFirst (table : RuleTable) (rule : Rule) : RuleTable :=
  { table with top := table.top.putAt .first rule }

def putAll (table other : RuleTable) : RuleTable :=
  { table with top := table.top.putAll other.top }

def extend (table other : RuleTable) : RuleTable :=
  { table with top := table.top.extend other.top }

/-- An empty layer on top of the layers of a table. -/
def child (table : RuleTable) : RuleTable :=
  { top := {}, under := table.layers }

/-- The number of keys of the top layer. -/
def size (table : RuleTable) : Nat :=
  table.top.size

end RuleTable

end HeaderPeers

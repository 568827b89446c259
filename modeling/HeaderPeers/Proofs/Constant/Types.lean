import HeaderPeers.Proofs.Constant.Line
import HeaderPeers.Proofs.NameKeys
import HeaderPeers.Proofs.Reading.Visible
import HeaderPeers.Proofs.ScopeLoop

/-!
# Types of constants

Lines that define constants, one after another. Each constant has the widest type
that occurs in its value, where a name stands for the type that is known of it:
that of an earlier line, or of a rule that was there from the start.

- `Literal.IsWidest` — the widest of some types.
- `inferred` — the types of all names, line after line.
- `RuleTable.literal?_foldl_learn` — what the table says of names when such lines
  have been read.
-/

namespace HeaderPeers

open ReadM

/-! ## The widest type -/

namespace Literal

/-- No type in the list is wider, and this one is there. -/
def IsWidest (types : List Literal) (type : Literal) : Prop :=
  type ∈ types ∧ ∀ other ∈ types, other.rank ≤ type.rank

instance (types : List Literal) (type : Literal) : Decidable (IsWidest types type) :=
  inferInstanceAs (Decidable (_ ∧ _))

theorem rank_injective : Function.Injective rank := by
  intro a b h
  cases a <;> cases b <;> first | rfl | cases h

theorem IsWidest.unique {types : List Literal} {a b : Literal} (ha : IsWidest types a)
    (hb : IsWidest types b) : a = b :=
  rank_injective (Nat.le_antisymm (hb.2 a ha.1) (ha.2 b hb.1))

theorem isWidest_foldl (a : Literal) (types : List Literal) :
    IsWidest (a :: types) (types.foldl max a) := by
  induction types generalizing a with
  | nil => exact ⟨List.mem_cons_self, by simp⟩
  | cons b types ih =>
      obtain ⟨hmem, hall⟩ := ih (a.max b)
      have hmax : (a.max b = a ∨ a.max b = b) ∧ a.rank ≤ (a.max b).rank ∧
          b.rank ≤ (a.max b).rank := by
        unfold max
        split <;> simp <;> omega
      have htop := hall _ List.mem_cons_self
      refine ⟨?_, fun c hc => ?_⟩
      · rcases List.mem_cons.mp hmem with htype | hmore
        · rw [List.foldl_cons, htype]
          rcases hmax.1 with heq | heq <;> simp [heq]
        · simp [hmore]
      · rcases List.mem_cons.mp hc with rfl | hc
        · exact hmax.2.1.trans htop
        · rcases List.mem_cons.mp hc with rfl | hc
          · exact hmax.2.2.trans htop
          · exact hall c (List.mem_cons_of_mem _ hc)

theorem ofNative?_native (type : Literal) : ofNative? type.native = some type := by
  cases type <;> decide

theorem eq_native_of_ofNative? {name : String} {type : Literal} (h : ofNative? name = some type) :
    name = type.native := by
  have hsame := List.find?_some h
  exact (eq_of_beq hsame).symm

/-- The type that a token has by itself, if this is known of names. -/
def ofTokenIn (known : String → Option Literal) (t : Token) : Option Literal :=
  match t.kind with
  | .string => some string
  | .float => some double
  | .integer => if Text.endsWith "L" t.text then some long else none
  | .identifier => known t.text
  | _ => none

end Literal

/-- The type that the table has for the constant of a name. -/
def RuleTable.literal? (table : RuleTable) (name : String) : Option Literal :=
  ((table.find? name).bind (·.nativeType?)).bind Literal.ofNative?

theorem RuleTable.literal?_eq_some {table : RuleTable} {name : String} {type : Literal} :
    table.literal? name = some type ↔
      (table.find? name).bind (·.nativeType?) = some type.native := by
  refine ⟨fun h => ?_, fun h => ?_⟩
  · obtain ⟨native, hnative, htype⟩ := Option.bind_eq_some_iff.mp h
    rw [hnative, Literal.eq_native_of_ofNative? htype]
  · rw [literal?, h, Option.bind_some, Literal.ofNative?_native]

namespace ConstantLine

/-- The types that occur in the value. -/
def types (line : ConstantLine) (known : String → Option Literal) : List Literal :=
  line.value.filterMap (Literal.ofTokenIn known)

/-- The widest type that occurs in the value, `int` if there is none. -/
def widest (line : ConstantLine) (known : String → Option Literal) : Literal :=
  (line.types known).foldl Literal.max .int

theorem type_found (line : ConstantLine) (table : RuleTable) :
    (line.found table).type = line.widest table.literal? := by
  have hfold : ∀ (ts : List Token) (v : ConstantValue),
      (ts.foldl (ConstantValue.push table) v).type =
        (ts.filterMap (Literal.ofTokenIn table.literal?)).foldl Literal.max v.type := by
    intro ts
    induction ts with
    | nil => exact fun _ => rfl
    | cons t ts ih =>
        intro v
        have hsame : Literal.ofToken? table t = Literal.ofTokenIn table.literal? t := rfl
        rw [List.foldl_cons, ih, List.filterMap_cons, ConstantValue.push, hsame]
        cases Literal.ofTokenIn table.literal? t <;> rfl
  exact hfold line.value {}

/-- Names of which the same is known have the same types. -/
theorem types_congr {line : ConstantLine} {known known' : String → Option Literal}
    (h : ∀ t ∈ line.value, t.isIdentifier = true → known t.text = known' t.text) :
    line.types known = line.types known' := by
  refine List.filterMap_congr fun t ht => ?_
  unfold Literal.ofTokenIn
  split
  any_goals rfl
  next hkind => exact h t ht (by simp [Token.isIdentifier, hkind])

/-- What is known of names behind the line. -/
def learned (known : String → Option Literal) (line : ConstantLine) : String → Option Literal :=
  Function.update known line.name.text (some (line.widest known))

end ConstantLine

/-- **The types of constants**, line after line. -/
def inferred (known : String → Option Literal) (lines : List ConstantLine) :
    String → Option Literal :=
  lines.foldl ConstantLine.learned known

section Inferred

variable {known : String → Option Literal} {lines before after : List ConstantLine}
  {line : ConstantLine} {x : String}

theorem inferred_of_not_mem (h : x ∉ lines.map (·.name.text)) :
    inferred known lines x = known x := by
  induction lines generalizing known with
  | nil => rfl
  | cons line lines ih =>
      rw [List.map_cons, List.mem_cons, not_or] at h
      rw [inferred, List.foldl_cons]
      exact (ih h.2).trans (Function.update_of_ne h.1 _ _)

theorem inferred_append :
    inferred known (before ++ after) = inferred (inferred known before) after :=
  List.foldl_append

/-- A line says of its name what it finds in the lines before it. -/
theorem inferred_line (hnames : ((before ++ line :: after).map (·.name.text)).Nodup) :
    inferred known (before ++ line :: after) line.name.text =
      some (line.widest (inferred known before)) := by
  rw [List.map_append, List.map_cons, List.nodup_append] at hnames
  rw [inferred_append, inferred, List.foldl_cons]
  exact (inferred_of_not_mem (List.nodup_cons.mp hnames.2.1).1).trans (Function.update_self _ _ _)

/-- Later lines do not change what earlier ones say. -/
theorem inferred_prefix (hnames : ((before ++ after).map (·.name.text)).Nodup)
    (hx : x ∈ before.map (·.name.text)) :
    inferred known (before ++ after) x = inferred known before x := by
  rw [List.map_append, List.nodup_append] at hnames
  rw [inferred_append]
  exact inferred_of_not_mem fun hafter => hnames.2.2 x hx x hafter rfl

/-- The same name, with the tokens of the value in some order. -/
structure ConstantLine.Reorders (line line' : ConstantLine) : Prop where
  name : line.name.text = line'.name.text
  value : line.value.Perm line'.value

/-- The order of tokens in a value makes no difference. -/
theorem inferred_reorders {lines' : List ConstantLine}
    (h : List.Forall₂ ConstantLine.Reorders lines lines') :
    inferred known lines = inferred known lines' := by
  induction h generalizing known with
  | nil => rfl
  | @cons line line' lines lines' hline _ ih =>
      have hwidest : line.widest known = line'.widest known := by
        have hall := (hline.value.filterMap (Literal.ofTokenIn known)).cons Literal.int
        obtain ⟨hmem, htop⟩ := Literal.isWidest_foldl .int (line.types known)
        have hsame : Literal.IsWidest (.int :: line'.types known) (line.widest known) :=
          ⟨hall.mem_iff.mp hmem, fun b hb => htop b (hall.mem_iff.mpr hb)⟩
        exact hsame.unique (Literal.isWidest_foldl .int (line'.types known))
      have hlearned : line.learned known = line'.learned known := by
        rw [ConstantLine.learned, ConstantLine.learned, hline.name, hwidest]
      change inferred (line.learned known) lines = inferred (line'.learned known) lines'
      rw [hlearned, ih]

end Inferred

/-! ## What the table says of other names -/

/-- Nothing is left of `const` where it is dropped; any other word stays. -/
theorem Name.normalize_word_unconst {name : String} (h : Text.isWord name.toList = true) :
    normalize name true false = if name = "const" then "" else name := by
  by_cases hconst : name = "const"
  · subst hconst
    decide +kernel
  · rw [if_neg hconst]
    have hface : (tokens name).map Token.face = [(Token.wordKind name, name)] := by
      have hbreaks : Text.unifyBreaks name.toList = name.toList := by
        simpa [Text.unifyBreaks] using
          Text.unifyBreaks_append_word (Text.isWordChar_of_isWord h) []
      have hend : ∀ c ∈ ([] : List Char).head?, Text.isWordChar c = false := by simp
      have hfaces := Token.faces_word h hend
      rw [List.append_nil, Token.faces_nil, String.ofList_toList] at hfaces
      rw [map_face_tokens, hbreaks, hfaces]
    obtain ⟨t, htokens, ht⟩ := List.map_eq_singleton_iff.mp hface
    have hkind : t.isKeyword .const_ = false := by
      rw [Token.isKeyword, show t.kind = Token.wordKind name from congrArg Prod.fst ht,
        Token.wordKind]
      cases hword : Keyword.ofWord? name with
      | none => rfl
      | some word =>
          refine beq_false_of_ne fun heq => hconst ?_
          obtain rfl : word = .const_ := by simpa using heq
          obtain ⟨before, behind, hall, -⟩ := List.lookup_eq_some_iff.mp hword
          have hmem : (name, Keyword.const_) ∈ Keyword.spellings := by simp [hall]
          simpa [Keyword.spellings] using hmem
    have hkept : (parts (tokens name)).const = false := by
      rw [htokens, parts, hkind, if_neg Bool.false_ne_true]
      split <;> rfl
    have hexact := (Name.normalize_word h).1
    unfold normalize at hexact ⊢
    simpa [hkept] using hexact

namespace Layer

variable {name x : String} {rule : Rule}

/-- Two words have no key in common. -/
theorem not_mem_keysOf (hname : Text.isWord name.toList = true) (hx : Text.isWord x.toList = true)
    (hne : x ≠ name) {key : String} (hkey : key ∈ keysOf x) : key ∉ keysOf name := by
  have hempty {w : String} (hw : Text.isWord w.toList = true) : w ≠ "" := by
    rintro rfl
    cases hw
  have hkeys {w : String} (hw : Text.isWord w.toList = true) :
      keysOf w = [w, if w = "const" then "" else w, w] := by
    obtain ⟨hexact, hpart, -⟩ := Name.normalize_word hw
    rw [keysOf, hexact, hpart, Name.normalize_word_unconst hw]
  rw [hkeys hx] at hkey
  rw [hkeys hname]
  intro hkey'
  simp only [List.mem_cons, List.not_mem_nil, or_false] at hkey hkey'
  have hxempty := hempty hx
  have hnempty := hempty hname
  split at hkey <;> split at hkey' <;> grind

/-- What is put for a word alone changes nothing for another word. -/
theorem find?_putAt_of_ne (layer : Layer) (hname : Text.isWord name.toList = true)
    (hx : Text.isWord x.toList = true) (hne : x ≠ name) (hrule : rule.nativeNames = [name])
    {key : String} (hkey : key ∈ keysOf x) :
    (layer.putAt .last rule).find? key = layer.find? key := by
  rw [find?_putAt, if_neg]
  simpa [namesOf, hrule] using not_mem_keysOf hname hx hne hkey

end Layer

namespace RuleTable

variable {table : RuleTable} {name x : String} {rule : Rule} {rules : List Rule}

theorem find?_put_of_ne (hname : Text.isWord name.toList = true)
    (hx : Text.isWord x.toList = true) (hne : x ≠ name) (hrule : rule.nativeNames = [name]) :
    (table.put rule).find? x = table.find? x := by
  have hsame {key : String} (hkey : key ∈ Layer.keysOf x) :=
    Layer.find?_putAt_of_ne table.top hname hx hne hrule hkey
  have hpart := (Name.normalize_word hx).2.2
  have hget : (table.top.putAt .last rule).get x true = table.top.get x true := by
    unfold Layer.get
    rw [hpart, hsame (by simp [Layer.keysOf]), hsame (by simp [Layer.keysOf])]
  simp only [find?, findWith?, layers, put, List.findSome?_cons, hget]

theorem Stacks.put_of_ne (h : table.Stacks x rules) (hname : Text.isWord name.toList = true)
    (hx : Text.isWord x.toList = true) (hne : x ≠ name) (hrule : rule.nativeNames = [name]) :
    (table.put rule).Stacks x rules := by
  obtain ⟨hunder, entries, hrules, hnumbered, htop⟩ := h
  refine ⟨hunder, entries, hrules, fun entry hentry => ?_, fun key hkey => ?_⟩
  · have hfresh : (table.top.putAt .last rule).fresh = table.top.fresh + 1 := by
      simp [Layer.putAt, Layer.putEntry]
    exact hfresh ▸ Nat.lt_succ_of_lt (hnumbered entry hentry)
  · exact (Layer.find?_putAt_of_ne table.top hname hx hne hrule hkey).trans (htop key hkey)

/-- The table behind a line. -/
def learn (table : RuleTable) (line : ConstantLine) : RuleTable :=
  table.put (line.rule table)

/-- A line of which nothing is known yet gives its name the widest type that it finds. -/
theorem literal?_learn {line : ConstantLine} (h : table.Stacks line.name.text [])
    (hx : Text.isWord x.toList = true) :
    (table.learn line).literal? x = line.learned table.literal? x := by
  by_cases hname : x = line.name.text
  · subst hname
    have hfind : (table.learn line).find? line.name.text = some (line.rule table) :=
      (h.learn_nil rfl).find?_eq hx
    rw [ConstantLine.learned, Function.update_self, literal?_eq_some, hfind,
      ← ConstantLine.type_found]
    rfl
  · rw [ConstantLine.learned, Function.update_of_ne hname, literal?, learn,
      find?_put_of_ne line.named hx hname rfl, literal?]

/-- Names of later lines are new still. -/
theorem stacks_learn {line : ConstantLine} {lines : List ConstantLine}
    (hnames : ((line :: lines).map (·.name.text)).Nodup)
    (hnew : ∀ other ∈ line :: lines, table.Stacks other.name.text []) :
    ∀ other ∈ lines, (table.learn line).Stacks other.name.text [] := by
  intro other hother
  refine (hnew other (List.mem_cons_of_mem _ hother)).put_of_ne line.named other.named
    (fun heq => ?_) rfl
  exact (List.nodup_cons.mp hnames).1 (List.mem_map.mpr ⟨other, hother, heq⟩)

/-- **The table behind all lines** says of words what is inferred, by induction on the lines. -/
theorem literal?_foldl_learn {lines : List ConstantLine}
    (hnames : (lines.map (·.name.text)).Nodup)
    (hnew : ∀ line ∈ lines, table.Stacks line.name.text [])
    (hwords : ∀ line ∈ lines, ∀ t ∈ line.value, t.isIdentifier = true →
      Text.isWord t.text.toList = true) {known : String → Option Literal}
    (hknown : ∀ x : String, Text.isWord x.toList = true → table.literal? x = known x)
    (hx : Text.isWord x.toList = true) :
    (lines.foldl learn table).literal? x = inferred known lines x := by
  induction lines generalizing table known with
  | nil => exact hknown x hx
  | cons line lines ih =>
      rw [List.foldl_cons, inferred, List.foldl_cons]
      refine ih (List.nodup_cons.mp hnames).2 (stacks_learn hnames hnew)
        (fun other hother => hwords other (List.mem_cons_of_mem _ hother)) fun y hy => ?_
      have hwidest : line.widest table.literal? = line.widest known :=
        congrArg (List.foldl Literal.max .int) (ConstantLine.types_congr fun t ht hkind =>
          hknown t.text (hwords line List.mem_cons_self t ht hkind))
      rw [literal?_learn (hnew line List.mem_cons_self) hy, ConstantLine.learned,
        ConstantLine.learned, hwidest]
      by_cases hname : y = line.name.text
      · rw [hname, Function.update_self, Function.update_self]
      · rw [Function.update_of_ne hname, Function.update_of_ne hname, hknown y hy]

end RuleTable

end HeaderPeers

import HeaderPeers.Proofs.Function.Variants
import HeaderPeers.Proofs.NativeType.Words

/-!
# Functions as they are written

A type in words is read as what they spell, whether a name follows or not. Behind the
parameters may stand a semicolon, or `= delete` in front of it.

- `Spelling.reads_of_words` — the type of a declarator in words.
- `Function.trails_semicolon`, `Function.trails_delete` — the end of a declaration.
-/

namespace HeaderPeers

open ReadM

variable {s : Reading} {t u : Token} {ts us : List Token} {table : RuleTable}
  {usings : List String} {scope : Scope}

/-! ## Types in words -/

namespace Spelling

/-- A declarator outside of classes whose type is written in words, with a mark of a pointer or
reference behind them or none; its name is no word of a type. -/
structure InWords (table : RuleTable) (usings : List String) (scope : Scope) (p : Spelling)
    (ws : List Token) (m : Option Token) : Prop where
  words_eq : p.words = ws ++ m.toList
  spells : NativeType.Spells table {} ws
  mark : ∀ t ∈ m, ∃ text ∈ ["*", "&", "&&"], t.IsMark text
  marks_eq : m = none → p.marks = []
  dots : ∀ t ∈ p.marks, t.is "..." = false
  type_eq : p.type = (NativeType.ofWords ws m).resolve table scope usings
  closed : (ws.foldl NativeType.push {}).isOpen = false
  name : ∀ t ∈ p.name, Name.fundamentalWords.contains t.text = false ∧
    (table.find? t.text).any (·.isAttribute) = false

/-- A declarator whose type is written in words. -/
def inWords (table : RuleTable) (usings : List String) (scope : Scope) (ws : List Token)
    (m : Option Token) (name : Option Token) (hws : ∃ t, ws.head? = some t ∧ t.isEof = false ∧
      t.is ")" = false ∧ t.isAnyKeyword [.typedef_, .using_, .friend_] = false)
    (hname : ∀ t ∈ name, t.IsName) : Spelling where
  words := ws ++ m.toList
  type := (NativeType.ofWords ws m).resolve table scope usings
  marks := []
  name
  words_ne := by
    obtain ⟨t, ht, -⟩ := hws
    cases ws with
    | nil => cases ht
    | cons t ws => exact List.cons_ne_nil _ _
  words_plain := by
    obtain ⟨t, ht, hplain⟩ := hws
    intro t' ht'
    rw [List.head?_append, ht] at ht'
    obtain rfl := Option.some.inj ht'
    exact hplain
  marks_marks := by simp
  isName := hname

/-- **A type in words is read as what they spell.** -/
theorem reads_of_words {p : Spelling} {ws : List Token} {m : Option Token}
    (hfree : scope.group = none) (h : p.InWords table usings scope ws m) :
    p.Reads table usings scope := by
  rintro s u ts rfl rfl hu hsees
  obtain ⟨n, hbound⟩ : ∃ n, s.bound = n + 1 :=
    Nat.exists_eq_add_one.mpr (Nat.lt_of_lt_of_le (List.length_pos_iff.mpr (by simp))
      hsees.length_le)
  have hread : NativeType.read scope s =
      NativeType.readWith (nestUpTo NativeType.readWith n) scope s := by
    change nestUpTo NativeType.readWith s.bound scope s = _
    rw [hbound]
    rfl
  obtain ⟨first, rest, hfirst, hdots⟩ : ∃ first rest, p.tail ++ u :: ts = first :: rest ∧
      first.is "..." = false := by
    unfold tail
    cases hmarks : p.marks with
    | nil =>
        cases hname : p.name with
        | none => exact ⟨u, ts, rfl, hu.is_eq "..." (by decide)⟩
        | some t => exact ⟨t, u :: ts, rfl, (p.isName t hname).is_eq "..." (by decide)⟩
    | cons t marks =>
        exact ⟨t, _, rfl, h.dots t (by simp [hmarks])⟩
  have hends : NativeType.EndsType (nestUpTo NativeType.readWith n) scope s
      (ws.foldl NativeType.push {}) m (p.tail ++ u :: ts) := by
    cases m with
    | some t => exact h.mark t rfl
    | none =>
        intro j hsees
        rw [tail, h.marks_eq rfl, List.nil_append] at hsees ⊢
        cases hname : p.name with
        | none =>
            rw [hname] at hsees
            obtain ⟨text, htext, hmark⟩ := hu
            have hstops : text ∈ ["(", ")", ",", "=", ">"] := by
              simp only [List.mem_cons, List.not_mem_nil, or_false] at htext ⊢
              tauto
            exact NativeType.readPart_of_ends hstops hmark hsees
        | some t =>
            rw [hname] at hsees
            obtain ⟨hnamed, hplain⟩ := h.name t hname
            exact NativeType.readPart_of_name (p.isName t hname) hnamed hplain hu.stopsName h.closed hsees
  rw [h.words_eq, List.append_assoc, hfirst] at hsees
  rw [hfirst] at hends ⊢
  unfold Passes
  rw [hread]
  refine (NativeType.readWith_passes h.spells hends hdots hsees).imp ?_
  rintro _ ⟨type, rfl, hplain, -⟩
  rw [hplain hfree, h.type_eq]

/-- What the rule for the shape itself gives. -/
def own (table : RuleTable) (p : Spelling) : Draft × Option Rule :=
  (p.draft, table.findWith? p.draft.lookupName false)

/-- A type in words whose rule gives no native type is no adapter. -/
theorem finds_own {p : Spelling} {ws : List Token} {m : Option Token}
    (h : p.InWords table usings scope ws m)
    (hnative : ∀ r ∈ (p.own table).2, r.nativeTypes.getD [] = []) :
    p.draft.Finds table usings scope (p.own table) := by
  refine Draft.finds_of_plain rfl hnative fun _ => ?_
  have htype : p.draft.type = p.type := (pushMarks_leaves _ _).1
  rw [htype, h.type_eq]
  exact ((NativeType.isPlain_ofWords ws m).resolve table scope usings).arguments

end Spelling

/-- A parameter in words can be read, if its default value can. -/
theorem Parameter.fits_of_words {x : Parameter} {ws : List Token} {m : Option Token}
    (hfree : scope.group = none) (h : x.spelling.InWords table usings scope ws m)
    (hfound : x.found = x.spelling.own table)
    (hnative : ∀ r ∈ x.found.2, r.nativeTypes.getD [] = [])
    (htyped : x.spelling.type.nativeName ≠ "")
    (hvalued : ∀ v ∈ x.value, v.1.IsMark "=" ∧ DefaultValue.Balanced false v.2 ∧
      (v.2.any fun t => t.isWord && (table.find? t.text).any (·.skip)) = false) :
    x.Fits table usings scope where
  reads := Spelling.reads_of_words hfree h
  finds := by
    rw [hfound] at hnative ⊢
    exact Spelling.finds_own h hnative
  plain := fun t ht => (h.name t ht).2
  typed := by
    have htype : x.spelling.draft.type = x.spelling.type := (Spelling.pushMarks_leaves _ _).1
    rw [hfound]
    exact fun hempty => htyped (htype ▸ hempty)
  valued := hvalued

namespace Function

/-- A function with a result type in words can be read, if its parameters can. -/
theorem Head.fits_of_words {f : Head} {ws : List Token} {m : Option Token}
    (hfree : scope.group = none) (h : f.spelling.InWords table usings scope ws m)
    (hfound : f.found = f.spelling.own table)
    (hnative : ∀ r ∈ f.found.2, r.nativeTypes.getD [] = [])
    (hparameters : ∀ x ∈ f.parameters, x.Fits table usings scope) :
    f.Fits table usings scope where
  reads := Spelling.reads_of_words hfree h
  finds := by
    rw [hfound] at hnative ⊢
    exact Spelling.finds_own h hnative
  plain := (h.name f.name f.named).2
  ordinary := by
    obtain ⟨-, hconstructor, hdestructor, hoperator⟩ :=
      (NativeType.isPlain_ofWords ws m).resolve table scope usings
    rw [h.type_eq]
    exact ⟨hconstructor, hdestructor, hoperator⟩
  parameters := hparameters

/-! ## What stands behind the parameters -/

/-- A mark is no qualifier. -/
theorem readQualifiers_passes {text : String} (ht : t.IsMark text) (harrow : text ≠ "->")
    (h : s.Sees (t :: ts)) : Passes readQualifiers s (t :: ts) (· = false) := by
  unfold readQualifiers
  refine iterate_passes h fun n hn => ?_
  obtain ⟨n, rfl⟩ := Nat.exists_eq_add_one.mpr (Nat.lt_of_lt_of_le (Nat.succ_pos _) hn)
  refine iterateUpTo_done ((peek_passes h).bind_eq fun j h => ?_)
  dsimp only
  rw [ht.isEof_eq, if_neg (by simp), ht.isKeyword_eq, ht.is_eq, if_neg (by simpa using harrow)]
  have hnone : Passes Attribute.read (s.atIndex j) (t :: ts) (· = none) := by
    unfold Attribute.read
    refine (peek_passes h).bind_eq fun k h => ?_
    rw [if_pos (by simp [ht.isWord_eq])]
    exact passes_pure h rfl
  exact hnone.bind_eq fun k h => passes_pure h ⟨false, rfl, rfl⟩

/-- A semicolon is passed over. -/
theorem skipTail_passes (ht : t.IsMark ";") (h : s.Sees (t :: u :: us)) :
    Passes skipTail s (u :: us) (· = ()) := by
  unfold skipTail
  refine (peek_passes h).bind_eq fun j h => ?_
  have hvalue : t.isAny [":", "="] = false := by simp [Token.isAny, ht.is_eq]
  have hbody (j : Nat) (h : (s.atIndex j).Sees (t :: u :: us)) :
      Passes skipBody (s.atIndex j) (t :: u :: us) (· = false) := by
    unfold skipBody
    refine (peek_passes h).bind_eq fun k h => ?_
    rw [if_pos (by simp [ht.is_eq])]
    exact passes_pure h rfl
  rw [hvalue, if_neg (by simp)]
  refine (hbody j h).bind_eq fun k h => ?_
  rw [if_pos (by simp)]
  refine (peek_passes h).bind_eq fun l h => ?_
  rw [ht.is_eq, if_pos (by simp)]
  exact (advance_passes h).bind_eq fun _ h => passes_pure h rfl

/-- Behind a semicolon, the function is not deleted. -/
theorem trails_semicolon (ht : t.IsMark ";") :
    Trails false table usings (t :: u :: us) (u :: us) := by
  rintro s - - h
  unfold readTrailer
  refine (readQualifiers_passes ht (by decide) h).bind_eq fun j h => ?_
  refine (peek_passes h).bind_eq fun k h => ?_
  rw [ht.is_eq, if_neg (by simp)]
  exact (skipTail_passes ht h).bind_eq fun _ h => passes_pure h ⟨rfl, rfl⟩

/-- A function may be deleted. -/
theorem trails_delete {equals word : Token} (hequals : equals.IsMark "=")
    (hkind : word.kind = .keyword .delete_) (hword : word.is "0" = false) (ht : t.IsMark ";") :
    Trails true table usings (equals :: word :: t :: u :: us) (u :: us) := by
  rintro s - - h
  unfold readTrailer
  refine (readQualifiers_passes hequals (by decide) h).bind_eq fun j h => ?_
  refine (peek_passes h).bind_eq fun k h => ?_
  rw [hequals.is_eq, if_pos (by simp)]
  refine (advance_passes h).bind_eq fun l h => ?_
  refine (advance_passes h).bind_eq fun l h => ?_
  refine (skipTail_passes ht h).bind_eq fun _ h => passes_pure h ⟨hword, ?_⟩
  simp [Token.isKeyword, hkind]

/-! ## Examples -/

/-- A word with a blank in front of it. -/
def sampleWord (text : String) : Token :=
  { kind := .identifier, text, spacing := " " }

/-- A mark. -/
def sampleMark (text : String) : Token :=
  { kind := .punct, text }

/-- A declarator with a type of one word, and a mark behind it or none. -/
def sampleSpelling (table : RuleTable) (type : String) (m : Option Token) (name : Option String)
    (htype : Text.isWord type.toList = true)
    (hname : ∀ t ∈ name, Text.isWord t.toList = true) : Spelling :=
  .inWords table [] {} [sampleWord type] m (name.map sampleWord)
    ⟨sampleWord type, rfl, rfl, Token.IsName.is_eq ⟨rfl, htype⟩ ")" (by decide), rfl⟩
    (fun t ht => by
      obtain ⟨text, htext, rfl⟩ := Option.map_eq_some_iff.mp ht
      exact ⟨rfl, hname text htext⟩)

theorem sampleSpelling_inWords {type : String} {m : Option Token}
    {name : Option String} (htype : Text.isWord type.toList = true)
    (hname : ∀ t ∈ name, Text.isWord t.toList = true) (hm : ∀ t ∈ m, t = sampleMark "*")
    (hplain : (table.find? type).any (·.isAttribute) = false)
    (hnames : ∀ n ∈ name, Name.fundamentalWords.contains n = false ∧
      (table.find? n).any (·.isAttribute) = false) :
    (sampleSpelling table type m name htype hname).InWords table [] {} [sampleWord type] m where
  words_eq := rfl
  spells := by
    refine ⟨?_, trivial⟩
    cases hnamed : Name.fundamentalWords.contains type with
    | true => exact .fundamental ⟨rfl, htype⟩ hnamed
    | false => exact .name ⟨rfl, htype⟩ hnamed rfl hplain
  mark t ht := ⟨"*", by decide, hm t ht ▸ ⟨Or.inl rfl, rfl⟩⟩
  marks_eq _ := rfl
  dots := by simp [sampleSpelling, Spelling.inWords]
  type_eq := rfl
  closed := NativeType.isOpen_push_of_isName _ ⟨rfl, htype⟩
  name t ht := by
    obtain ⟨text, htext, rfl⟩ := Option.map_eq_some_iff.mp ht
    exact hnames text htext

end Function

end HeaderPeers

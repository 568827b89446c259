import HeaderPeers.Proofs.Function.Declarators

/-!
# Types written in words

A type whose tokens are words, qualifiers and `::` is read token by token, up to the
first mark of a pointer or reference, the name of the declarator or what stands
behind it.

- `NativeType.Spells` — tokens that a type can be made of.
- `NativeType.ofWords` — what they are read as, before it is looked up.
- `NativeType.readWith_passes` — reading a type up to what stands behind it.
-/

namespace HeaderPeers

open ReadM

variable {s : Reading} {t u : Token} {ts us rest : List Token}

namespace NativeType

/-- The type with one more token. -/
def push (type : NativeType) (t : Token) : NativeType :=
  if t.is "::" then { type with nativeName := type.nativeName ++ "::" }
  else if t.isKeyword .const_ then
    if type.nativeName.isEmpty then { type with constValue := true }
    else { type with constPointer := true }
  else if t.isKeyword .static_ then { type with staticMember := true }
  else if t.isKeywordWith Keyword.decorates then type
  else if Name.fundamentalWords.contains t.text then
    { type with nativeName := type.nativeName ++ t.text ++ " ", simple := true }
  else { type with nativeName := type.nativeName ++ t.text }

/-- Whether a word leaves the name of a type as it is. -/
def modifies (t : Token) : Bool :=
  t.isKeyword .const_ || t.isKeyword .static_ || t.isKeywordWith Keyword.decorates

/-- What a token adds to the name of a type. -/
def namePart (t : Token) : String :=
  if t.is "::" then "::"
  else if modifies t then ""
  else if Name.fundamentalWords.contains t.text then t.text ++ " " else t.text

theorem push_nativeName (type : NativeType) (t : Token) :
    (type.push t).nativeName = type.nativeName ++ namePart t := by
  unfold push namePart modifies
  cases t.is "::" with
  | true => rfl
  | false =>
      cases t.isKeyword .const_ with
      | true => cases type.nativeName.isEmpty <;> simp
      | false =>
          cases t.isKeyword .static_ with
          | true => simp
          | false =>
              cases t.isKeywordWith Keyword.decorates with
              | true => simp
              | false =>
                  cases Name.fundamentalWords.contains t.text with
                  | true => simp [String.append_assoc]
                  | false => rfl

/-- Whether the next word goes on with the name of the type. -/
def isOpen (type : NativeType) : Bool :=
  type.nativeName.isEmpty || Text.endsWith "::" type.nativeName

theorem isOpen_of_last {type : NativeType} {c : Char} (h : type.nativeName.toList.getLast? = some c) (hc : c ≠ ':') :
    type.isOpen = false := by
  have hne : type.nativeName.isEmpty = false := by
    rw [Bool.eq_false_iff]
    intro hempty
    rw [String.isEmpty_iff.mp hempty] at h
    cases h
  have hends : Text.endsWith "::" type.nativeName = false := by
    rw [Bool.eq_false_iff]
    intro hends
    obtain ⟨front, hfront⟩ := List.isSuffixOf_iff_suffix.mp hends
    rw [← hfront, List.getLast?_append] at h
    exact hc (Option.some.inj h).symm
  rw [isOpen, hne, hends]
  rfl

/-- Behind a name, the name of the type does not go on. -/
theorem isOpen_push_of_isName (type : NativeType) (ht : t.IsName) : (type.push t).isOpen = false := by
  have hmodifies : modifies t = false := by
    simp [modifies, ht.isKeyword_eq, Token.isKeywordWith, ht.kind]
  have hpart : namePart t = t.text ++ " " ∨ namePart t = t.text := by
    rw [namePart, ht.is_eq "::" (by decide), if_neg (by simp), hmodifies, if_neg (by simp)]
    split
    · exact Or.inl rfl
    · exact Or.inr rfl
  rcases hpart with hpart | hpart
  · refine isOpen_of_last (c := ' ') ?_ (by decide)
    rw [push_nativeName, hpart, String.toList_append, String.toList_append, List.getLast?_append,
      List.getLast?_append]
    rfl
  · have hne : t.text.toList ≠ [] := by
      intro hnil
      have hword := ht.word
      rw [hnil] at hword
      cases hword
    have hlast := List.getLast?_eq_some_getLast hne
    refine isOpen_of_last (c := t.text.toList.getLast hne) ?_ ?_
    · rw [push_nativeName, hpart, String.toList_append, List.getLast?_append, hlast]
      rfl
    · intro hcolon
      have hchar := Text.isWordChar_of_isWord ht.word _ (List.getLast_mem hne)
      rw [hcolon] at hchar
      exact absurd hchar (by decide)
/-- A token that goes on with a type: `::`, a word that leaves the name as it is, a
fundamental one, or, where the name goes on, a name that is no attribute. -/
inductive Joins (table : RuleTable) (type : NativeType) (t : Token) : Prop
  | colons (ht : t.IsMark "::")
  | modifier {word : Keyword} (kind : t.kind = .keyword word)
      (plain : word = .const_ ∨ word = .static_ ∨ word.decorates = true)
      (word : Text.isWord t.text.toList = true)
  | fundamental (ht : t.IsName) (named : Name.fundamentalWords.contains t.text = true)
  | name (ht : t.IsName) (named : Name.fundamentalWords.contains t.text = false)
      (opens : type.isOpen = true) (plain : (table.find? t.text).any (·.isAttribute) = false)

/-- Tokens that go on with a type one after another. -/
def Spells (table : RuleTable) (type : NativeType) : List Token → Prop
  | [] => True
  | t :: ts => Joins table type t ∧ Spells table (type.push t) ts

theorem spells_append {table : RuleTable} {type : NativeType} :
    Spells table type (ts ++ us) ↔ Spells table type ts ∧ Spells table (ts.foldl push type) us := by
  induction ts generalizing type with
  | nil => simp [Spells]
  | cons t ts ih => simp [Spells, ih, and_assoc]

/-- Whether a word is an attribute is looked up without moving on. -/
theorem readWord_eq {type : NativeType} (h : s.Sees (t :: u :: us))
    (hplain : (s.table.find? t.text).any (·.isAttribute) = false) :
    readWord type t s = (if type.nativeName.isEmpty || Text.endsWith "::" type.nativeName then
        onward { type with nativeName := type.nativeName ++ t.text }
      else do
        let following ← peekAt 1
        let annotated := (← rule? following.text).any (·.annotations.isSome)
        if annotated || !(following.isAny ["*", "&", "&&"] || following.isWord) then
          return .done type
        else onward type) s := by
  obtain ⟨found, j, hread, hfound⟩ := Attribute.exists_read h fun _ => List.cons_ne_nil u us
  have hcursor : cursor s = .ok s.window.index s := rfl
  have hback : moveTo s.window.index (s.atIndex j) = .ok () s := rfl
  unfold readWord
  rw [bind_of_ok hcursor, bind_of_ok hread]
  cases found with
  | none => exact (bind_of_ok hback _)
  | some a =>
      obtain ⟨-, hannotates⟩ := hfound a rfl
      dsimp only
      rw [if_neg (by simp [hannotates, hplain])]
      exact (bind_of_ok hback _)

section Words

variable {readType : Scope → ReadM (Option NativeType)} {scope : Scope} {type : NativeType}

theorem onward_passes (h : s.Sees (t :: u :: us)) :
    Passes (onward type) s (u :: us) (· = .again type) :=
  (advance_passes h).bind_eq fun _ h => passes_pure h rfl

theorem closing_passes (h : s.Sees (t :: u :: us)) :
    Passes (closing type) s (u :: us) (· = .done type) :=
  (advance_passes h).bind_eq fun _ h => passes_pure h rfl

/-- A word that stands with the type is taken. -/
theorem readPart_of_modifier {word : Keyword} (hkind : t.kind = .keyword word)
    (hplain : word = .const_ ∨ word = .static_ ∨ word.decorates = true)
    (hword : Text.isWord t.text.toList = true) (h : s.Sees (t :: u :: us)) :
    Passes (readPart readType scope type) s (u :: us) (· = .again (type.push t)) := by
  have hmark (text : String) (htext : Text.isWord text.toList = false) : t.is text = false := by
    have hne : t.text ≠ text := by
      rintro rfl
      rw [hword] at htext
      cases htext
    simp [Token.is, hne]
  have hkeyword : ∀ other, t.isKeyword other = (word == other) := by
    simp [Token.isKeyword, hkind]
  have hdecorates : t.isKeywordWith Keyword.decorates = word.decorates := by
    simp [Token.isKeywordWith, hkind]
  have heof : t.isEof = false := by simp [Token.isEof, hkind]
  unfold readPart
  refine (peek_passes h).bind_eq fun j h => ?_
  simp only [heof, hmark "::" (by decide), hkeyword, hmark "<" (by decide), hmark "*" (by decide),
    hmark "&" (by decide), hmark "&&" (by decide), hmark "~" (by decide), hdecorates,
    Bool.false_and, Bool.false_eq_true, if_false, push]
  rcases hplain with rfl | rfl | hdecorating
  · cases type.nativeName.isEmpty
    · exact onward_passes h
    · exact onward_passes h
  · exact onward_passes h
  · have hother : ∀ other : Keyword, other.decorates = false → (word == other) = false := by
      intro other hplain
      rw [beq_eq_false_iff_ne]
      rintro rfl
      rw [hdecorating] at hplain
      cases hplain
    simp only [hother _ (rfl : Keyword.decltype_.decorates = false),
      hother _ (rfl : Keyword.const_.decorates = false),
      hother _ (rfl : Keyword.static_.decorates = false),
      hother _ (rfl : Keyword.operator_.decorates = false),
      hother _ (rfl : Keyword.virtual_.decorates = false), hdecorating, Bool.false_and,
      Bool.false_eq_true, if_false, if_true]
    exact onward_passes h

/-- A fundamental word is taken, and so is a word that goes on with the name. -/
theorem readPart_of_isName (ht : t.IsName)
    (hnamed : Name.fundamentalWords.contains t.text = false →
      type.isOpen = true ∧ (s.table.find? t.text).any (·.isAttribute) = false)
    (h : s.Sees (t :: u :: us)) :
    Passes (readPart readType scope type) s (u :: us) (· = .again (type.push t)) := by
  have hdecorates : t.isKeywordWith Keyword.decorates = false := by
    simp [Token.isKeywordWith, ht.kind]
  unfold readPart
  refine (peek_passes h).bind_eq fun j h => ?_
  simp only [ht.isEof_eq, ht.is_eq "::" (by decide), ht.isKeyword_eq, ht.is_eq "<" (by decide),
    ht.is_eq "*" (by decide), ht.is_eq "&" (by decide), ht.is_eq "&&" (by decide),
    ht.is_eq "~" (by decide), hdecorates, ht.is_eq "[" (by decide), ht.isWord_eq, Bool.false_and,
    Bool.false_eq_true, if_false, if_true, push]
  cases hfundamental : Name.fundamentalWords.contains t.text with
  | true =>
      rw [if_pos rfl]
      exact onward_passes h
  | false =>
      obtain ⟨hopen, hplain⟩ := hnamed hfundamental
      rw [if_neg (by simp), Passes, readWord_eq h hplain]
      exact (congrFun (if_pos hopen) _).symm ▸ onward_passes h

/-- A token that goes on with the type is taken. -/
theorem readPart_passes (ht : Joins s.table type t) (h : s.Sees (t :: u :: us)) :
    Passes (readPart readType scope type) s (u :: us) (· = .again (type.push t)) := by
  cases ht with
  | colons ht =>
      unfold readPart
      refine (peek_passes h).bind_eq fun j h => ?_
      simp only [ht.isEof_eq, ht.is_eq, beq_self_eq_true, Bool.false_eq_true, if_false, if_true,
        push]
      exact onward_passes h
  | modifier kind plain word => exact readPart_of_modifier kind plain word h
  | fundamental ht named =>
      exact readPart_of_isName ht (fun hnot => by rw [named] at hnot; cases hnot) h
  | name ht named opens plain => exact readPart_of_isName ht (fun _ => ⟨opens, plain⟩) h

/-- The type with a mark behind it. -/
def mark (type : NativeType) (t : Token) : NativeType :=
  if t.is "*" then { type with indirections := type.indirections + 1 }
  else if t.is "&" then { type with reference := true }
  else { type with reference := true, rvalue := true }

/-- The first mark behind a type ends it. -/
theorem readPart_of_mark {text : String} (htext : text ∈ ["*", "&", "&&"]) (ht : t.IsMark text)
    (h : s.Sees (t :: u :: us)) :
    Passes (readPart readType scope type) s (u :: us) (· = .done (type.mark t)) := by
  have hnot : (text == "::") = false ∧ (text == "<") = false := by
    simp only [List.mem_cons, List.not_mem_nil, or_false] at htext
    rcases htext with rfl | rfl | rfl <;> decide
  unfold readPart
  refine (peek_passes h).bind_eq fun j h => ?_
  simp only [ht.isEof_eq, ht.is_eq, ht.isKeyword_eq, hnot, Bool.false_eq_true, if_false, mark]
  simp only [List.mem_cons, List.not_mem_nil, or_false] at htext
  rcases htext with rfl | rfl | rfl
  · exact closing_passes h
  · exact closing_passes h
  · exact closing_passes h

/-- The name of a declarator ends a type that has a name itself. -/
theorem readPart_of_name (ht : t.IsName) (hnamed : Name.fundamentalWords.contains t.text = false)
    (hplain : (s.table.find? t.text).any (·.isAttribute) = false) (hu : u.StopsName)
    (htype : (type.nativeName.isEmpty || Text.endsWith "::" type.nativeName) = false)
    (h : s.Sees (t :: u :: us)) :
    Passes (readPart readType scope type) s (t :: u :: us) (· = .done type) := by
  have hdecorates : t.isKeywordWith Keyword.decorates = false := by
    simp [Token.isKeywordWith, ht.kind]
  unfold readPart
  refine (peek_passes h).bind_eq fun j h => ?_
  simp only [ht.isEof_eq, ht.is_eq "::" (by decide), ht.isKeyword_eq, ht.is_eq "<" (by decide),
    ht.is_eq "*" (by decide), ht.is_eq "&" (by decide), ht.is_eq "&&" (by decide),
    ht.is_eq "~" (by decide), hdecorates, hnamed, ht.is_eq "[" (by decide), ht.isWord_eq,
    Bool.false_and, Bool.false_eq_true, if_false, if_true]
  rw [Passes, readWord_eq h hplain, if_neg (by simp [htype])]
  refine (peekAt_one_passes h).bind_eq fun j h => ?_
  have hrule : rule? u.text ((s.atIndex j).atIndex j) = .ok (s.table.find? u.text) (s.atIndex j) :=
    rfl
  refine Passes.bind_eq (passes_of_eq hrule h) fun j h => ?_
  have hstars : u.isAny ["*", "&", "&&"] = false := by
    simp [Token.isAny, hu.marks "*" (by simp), hu.marks "&" (by simp), hu.marks "&&" (by simp)]
  rw [if_pos (by simp [hstars, hu.isWord_eq])]
  exact passes_pure h rfl

/-- What stands behind a parameter or a template argument ends a type, too. -/
theorem readPart_of_ends {text : String} (htext : text ∈ ["(", ")", ",", "=", ">"])
    (hu : u.IsMark text) (h : s.Sees (u :: us)) :
    Passes (readPart readType scope type) s (u :: us) (· = .done type) := by
  have hdecorates : u.isKeywordWith Keyword.decorates = false := by
    obtain ⟨hkind | hkind, -⟩ := hu <;> simp [Token.isKeywordWith, hkind]
  have hstops : ∀ text ∈ ["(", ")", ",", "=", ">"], Name.fundamentalWords.contains text = false ∧
      ∀ other ∈ ["::", "<", "*", "&", "&&", "~", "[", "\x7d"], (text == other) = false := by
    decide
  have hnamed : Name.fundamentalWords.contains u.text = false := hu.2 ▸ (hstops text htext).1
  have hother := (hstops text htext).2
  unfold readPart
  refine (peek_passes h).bind_eq fun j h => ?_
  simp only [hu.isEof_eq, hu.is_eq, hu.isKeyword_eq, hother "::" (by decide),
    hother "<" (by decide), hother "*" (by decide), hother "&" (by decide),
    hother "&&" (by decide), hother "~" (by decide), hother "[" (by decide),
    hother "\x7d" (by decide), hdecorates, hnamed, hu.isWord_eq,
    Bool.false_and, Bool.false_eq_true, if_false]
  exact passes_pure h rfl

/-- The words of a type are taken one after another, by induction on them, and what stands
behind them ends it. -/
theorem iterateUpTo_words {first : Token} {n : Nat} {ws : List Token} {last : NativeType}
    (hws : Spells s.table type ws) (h : s.Sees (ws ++ first :: us)) (hn : ws.length < n)
    (hdone : ∀ j, (s.atIndex j).Sees (first :: us) →
      Passes (readPart readType scope (ws.foldl push type)) (s.atIndex j) rest (· = .done last)) :
    Passes (iterateUpTo (readPart readType scope) n type) s rest (· = last) := by
  induction ws generalizing s type n with
  | nil =>
      obtain ⟨n, rfl⟩ := Nat.exists_eq_add_one.mpr hn
      exact iterateUpTo_done ((hdone s.window.index h).imp fun r hr => ⟨_, hr, rfl⟩)
  | cons t ws ih =>
      obtain ⟨n, rfl⟩ := Nat.exists_eq_add_one.mpr (Nat.zero_lt_of_lt hn)
      obtain ⟨next, more, hnext⟩ : ∃ next more, ws ++ first :: us = next :: more := by
        cases ws with
        | nil => exact ⟨first, us, rfl⟩
        | cons t ws => exact ⟨t, _, rfl⟩
      rw [List.cons_append, hnext] at h
      refine iterateUpTo_again ((readPart_passes hws.1 h).imp fun r hr => ⟨_, hr, rfl⟩) ?_
      rintro _ j rfl h
      rw [← hnext] at h
      exact ih hws.2 h (Nat.lt_of_succ_lt_succ hn) hdone

end Words

/-! ## The type that is made of the words -/

/-- The type that some words and a mark spell, before it is looked up. -/
def ofWords (ws : List Token) (m : Option Token) : NativeType :=
  let type := m.elim (ws.foldl push {}) (ws.foldl push {}).mark
  { type with nativeName := Text.trim type.nativeName }

/-- A type without template arguments, that is neither a constructor nor an operator. -/
structure IsPlain (type : NativeType) : Prop where
  arguments : type.arguments = none
  constructor_ : type.constructor = false
  destructor : type.destructor = false
  operator : type.operator = false

theorem IsPlain.push {type : NativeType} (h : type.IsPlain) (t : Token) : (type.push t).IsPlain := by
  unfold NativeType.push
  split
  · exact ⟨h.1, h.2, h.3, h.4⟩
  split
  · split <;> exact ⟨h.1, h.2, h.3, h.4⟩
  split
  · exact ⟨h.1, h.2, h.3, h.4⟩
  split
  · exact h
  split <;> exact ⟨h.1, h.2, h.3, h.4⟩

theorem IsPlain.foldl_push {type : NativeType} (h : type.IsPlain) (ws : List Token) :
    (ws.foldl NativeType.push type).IsPlain := by
  induction ws generalizing type with
  | nil => exact h
  | cons t ws ih => exact ih (h.push t)

theorem isPlain_ofWords (ws : List Token) (m : Option Token) : (ofWords ws m).IsPlain := by
  have hempty : IsPlain {} := ⟨rfl, rfl, rfl, rfl⟩
  have h := hempty.foldl_push ws
  cases m with
  | none => exact ⟨h.1, h.2, h.3, h.4⟩
  | some t =>
      simp only [ofWords, Option.elim_some, mark]
      split
      · exact ⟨h.1, h.2, h.3, h.4⟩
      split <;> exact ⟨h.1, h.2, h.3, h.4⟩

theorem IsPlain.hoist {type : NativeType} (h : type.IsPlain) : type.hoist.IsPlain := by
  have hmarks : ∃ name reference rvalue indirections, type.hoist =
      { type with nativeName := name, reference, rvalue, indirections } := by
    unfold NativeType.hoist
    dsimp only
    split
    · exact ⟨_, _, _, _, rfl⟩
    · split <;> exact ⟨_, _, _, _, rfl⟩
  obtain ⟨name, reference, rvalue, indirections, heq⟩ := hmarks
  rw [heq]
  exact ⟨h.1, h.2, h.3, h.4⟩

theorem IsPlain.instantiate {type : NativeType} (h : type.IsPlain) (scope : Scope) :
    (type.instantiate scope).IsPlain := by
  unfold NativeType.instantiate
  split
  · exact h
  · dsimp only
    generalize hhoisted : NativeType.hoist _ = hoisted
    have hplain : hoisted.IsPlain := by
      rw [← hhoisted]
      refine IsPlain.hoist ?_
      split
      · exact ⟨h.1, h.2, h.3, h.4⟩
      · exact ⟨h.1, h.2, h.3, h.4⟩
    split
    · exact ⟨hplain.1, hplain.2, hplain.3, hplain.4⟩
    · exact hplain

/-- Looking a type up changes names, marks and annotations only. -/
theorem IsPlain.resolve {type : NativeType} (h : type.IsPlain) (table : RuleTable)
    (scope : Scope) (usings : List String) : (type.resolve table scope usings).IsPlain := by
  have hmap (rule : Option Rule) (t : NativeType) (ht : t.IsPlain) : (t.mapBy rule).1.IsPlain := by
    unfold NativeType.mapBy
    dsimp only
    split
    · exact ⟨ht.1, ht.2, ht.3, ht.4⟩
    · exact ⟨ht.1, ht.2, ht.3, ht.4⟩
    · exact ht
  have hlooked := h.hoist.instantiate scope
  unfold NativeType.resolve
  generalize type.hoist.instantiate scope = looked at hlooked
  dsimp only
  generalize settleName table looked.nativeName (scope.qualify looked.nativeName usings) = settled
  have hnamed : IsPlain { looked with
      nativeName := settled.1, targetName := plainTarget settled.1 } :=
    ⟨hlooked.1, hlooked.2, hlooked.3, hlooked.4⟩
  have hmapped := hmap settled.2 _ hnamed
  exact ⟨hmapped.1, hmapped.2, hmapped.3, hmapped.4⟩

/-- A mark leaves the name as it is. -/
theorem nativeName_ofWords (ws : List Token) (m : Option Token) :
    (ofWords ws m).nativeName = Text.trim (ws.foldl push {}).nativeName := by
  cases m with
  | none => rfl
  | some t =>
      simp only [ofWords, Option.elim_some, mark]
      split
      · rfl
      split <;> rfl

end NativeType

/-! ## Their characters -/

namespace Text

theorem mem_of_mem_trim {s : String} {c : Char} (h : c ∈ (trim s).toList) : c ∈ s.toList := by
  simp only [trim, dropEndWhile, String.toList_ofList, List.mem_reverse] at h
  exact (List.dropWhile_sublist _).mem (List.mem_reverse.mp ((List.dropWhile_sublist _).mem h))

/-- A trimmed text does not end with white space. -/
theorem exists_last_trim {s : String} (h : trim s ≠ "") :
    ∃ c, (trim s).toList.getLast? = some c ∧ isBlank c = false := by
  have hne : (trim s).toList ≠ [] := fun hnil => h (String.toList_eq_nil_iff.mp hnil)
  obtain ⟨c, hc⟩ := Option.isSome_iff_exists.mp (List.getLast?_isSome.mpr hne)
  refine ⟨c, hc, ?_⟩
  simp only [trim, dropEndWhile, String.toList_ofList, List.getLast?_reverse] at hc
  have hhead := List.head?_dropWhile_not isBlank (s.toList.dropWhile isBlank).reverse
  rw [hc] at hhead
  simpa using hhead

end Text

namespace NativeType

/-- The characters of a name made of words. -/
def NameChars (cs : List Char) : Prop :=
  ∀ c ∈ cs, Text.isWordChar c = true ∨ c = ' ' ∨ c = ':'

theorem NameChars.append {cs ds : List Char} (hcs : NameChars cs) (hds : NameChars ds) :
    NameChars (cs ++ ds) :=
  fun c hc => (List.mem_append.mp hc).elim (hcs c) (hds c)

theorem nameChars_namePart {table : RuleTable} {type : NativeType} (ht : Joins table type t) :
    NameChars (namePart t).toList := by
  have hname (ht : t.IsName) : NameChars (namePart t).toList := by
    have hword : NameChars t.text.toList := fun c hc =>
      Or.inl (Text.isWordChar_of_isWord ht.word c hc)
    have hspace : NameChars " ".toList := by simp [NameChars]
    have hmodifies : modifies t = false := by
      simp [modifies, ht.isKeyword_eq, Token.isKeywordWith, ht.kind]
    rw [namePart, ht.is_eq "::" (by decide), if_neg (by simp), hmodifies, if_neg (by simp)]
    split
    · rw [String.toList_append]
      exact hword.append hspace
    · exact hword
  cases ht with
  | colons ht =>
      rw [namePart, ht.is_eq, if_pos (by simp)]
      simp [NameChars]
  | @modifier word kind plain isWord =>
      have hmodifies : modifies t = true := by
        rcases plain with rfl | rfl | hdecorating
        · simp [modifies, Token.isKeyword, kind]
        · simp [modifies, Token.isKeyword, kind]
        · simp [modifies, Token.isKeywordWith, kind, hdecorating]
      unfold namePart
      split <;> simp [NameChars]
  | fundamental ht named => exact hname ht
  | name ht named opens plain => exact hname ht

theorem nameChars_push {table : RuleTable} {type : NativeType} (ht : Joins table type t)
    (h : NameChars type.nativeName.toList) : NameChars (type.push t).nativeName.toList := by
  rw [push_nativeName, String.toList_append]
  exact h.append (nameChars_namePart ht)

theorem nameChars_foldl {table : RuleTable} {type : NativeType} {ws : List Token}
    (hws : Spells table type ws) (h : NameChars type.nativeName.toList) :
    NameChars (ws.foldl push type).nativeName.toList := by
  induction ws generalizing type with
  | nil => exact h
  | cons t ws ih => exact ih hws.2 (nameChars_push hws.1 h)

/-- The name that some words spell: it ends with one of them. -/
structure IsName (name : String) : Prop where
  chars : NameChars name.toList
  last : ∃ c, name.toList.getLast? = some c ∧ Text.isBlank c = false

theorem isName_ofWords {table : RuleTable} {ws : List Token} {m : Option Token}
    (hws : Spells table {} ws) (hnamed : (ofWords ws m).nativeName ≠ "") :
    IsName (ofWords ws m).nativeName := by
  rw [nativeName_ofWords] at hnamed ⊢
  have hchars := nameChars_foldl hws (by simp [NameChars])
  exact ⟨fun d hd => hchars d (Text.mem_of_mem_trim hd), Text.exists_last_trim hnamed⟩

/-- It has no marks behind it. -/
theorem IsName.hoist_eq {type : NativeType} (h : IsName type.nativeName) : type.hoist = type := by
  obtain ⟨c, hlast, hblank⟩ := h.last
  have hmark : c ≠ '&' ∧ c ≠ '*' := by
    constructor <;>
    · rintro rfl
      rcases h.chars _ (List.mem_of_getLast? hlast) with hword | hspace | hcolon
      · exact absurd hword (by decide)
      · cases hspace
      · cases hcolon
  exact hoist_of_last hlast hmark.1 hmark.2 hblank

/-! ## Reading a type -/

section Reading

variable {readType : Scope → ReadM (Option NativeType)} {scope : Scope} {type : NativeType}
  {ws : List Token} {m : Option Token}

/-- What ends a type: a mark behind it, or what stands there without one. -/
def EndsType (readType : Scope → ReadM (Option NativeType)) (scope : Scope) (s : Reading)
    (type : NativeType) (m : Option Token) (us : List Token) : Prop :=
  match m with
  | some t => ∃ text ∈ ["*", "&", "&&"], t.IsMark text
  | none => ∀ j, (s.atIndex j).Sees us →
      Passes (readPart readType scope type) (s.atIndex j) us (· = .done type)

/-- The words are taken, and the mark behind them. -/
theorem iterate_readPart_passes (hws : Spells s.table {} ws)
    (hends : EndsType readType scope s (ws.foldl push {}) m (u :: us))
    (h : s.Sees (ws ++ (m.toList ++ u :: us))) :
    Passes (iterate {} (readPart readType scope)) s (u :: us)
      (· = m.elim (ws.foldl push {}) (ws.foldl push {}).mark) := by
  refine iterate_passes h fun n hn => ?_
  have hlength : ws.length < n := by
    simp only [List.length_append, List.length_cons] at hn
    omega
  cases m with
  | none => exact iterateUpTo_words hws h hlength hends
  | some t =>
      obtain ⟨text, htext, ht⟩ := hends
      exact iterateUpTo_words hws h hlength fun j h => readPart_of_mark htext ht h

/-- A class around may shorten the target name and see a constructor in the type. -/
theorem placeInGroup_passes (h : s.Sees (t :: ts)) :
    Passes (placeInGroup scope type) s (t :: ts) fun r =>
      (scope.group = none → r = type) ∧ ∃ target constructed,
        r = { type with targetName := target, constructor := constructed } := by
  have hsame : ∃ target constructed,
      type = { type with targetName := target, constructor := constructed } :=
    ⟨type.targetName, type.constructor, by cases type; rfl⟩
  have hshortened (constructed : Bool) : ∃ target constructed',
      { type with targetName := scope.shorten type.targetName, constructor := constructed } =
        { type with targetName := target, constructor := constructed' } := ⟨_, constructed, rfl⟩
  unfold placeInGroup
  cases scope.group with
  | none => exact passes_pure h ⟨fun _ => rfl, hsame⟩
  | some group =>
      dsimp only
      split
      · exact passes_pure h ⟨nofun, hsame⟩
      split
      · split
        · exact (peek_passes h).bind_eq fun j h => passes_pure h ⟨nofun, hshortened _⟩
        · exact passes_pure h ⟨nofun, hshortened false⟩
      · exact passes_pure h ⟨nofun, scope.shorten type.targetName, type.constructor, rfl⟩

/-- A type is looked up. -/
theorem finish_passes (h : s.Sees (t :: ts)) :
    Passes (finish scope type) s (t :: ts) fun r =>
      (scope.group = none → r = type.resolve s.table scope s.usings) ∧
        ∃ target constructed, r = { type.resolve s.table scope s.usings with
          targetName := target, constructor := constructed } := by
  have hget : (get : ReadM Reading) s = .ok s s := rfl
  unfold finish
  exact Passes.bind_eq (passes_of_eq hget h) fun j h => placeInGroup_passes h

/-- The words of a type are read with the mark behind them, and what they spell is looked up. -/
theorem readWith_finishes {P : NativeType → Prop} (hws : Spells s.table {} ws)
    (hends : EndsType readType scope s (ws.foldl push {}) m (u :: us)) (hdots : u.is "..." = false)
    (h : s.Sees (ws ++ (m.toList ++ u :: us)))
    (hfinish : ∀ j, (s.atIndex j).Sees (u :: us) →
      Passes (finish scope (ofWords ws m)) (s.atIndex j) (u :: us) P) :
    Passes (readWith readType scope) s (u :: us) fun r => ∃ type, r = some type ∧ P type := by
  unfold readWith
  refine (iterate_readPart_passes hws hends h).bind_eq fun j h => ?_
  refine (peek_passes h).bind_eq fun j h => ?_
  have hoperator : ¬ (ofWords ws m).operator = true := by simp [(isPlain_ofWords ws m).operator]
  rw [if_neg (by simp [hdots])]
  refine Eq.mp (congrArg (Passes · _ _ _) (if_neg hoperator).symm) ?_
  exact (hfinish _ h).bind fun type j htype h => passes_pure h ⟨type, rfl, htype⟩

/-- **Reading a type** up to what stands behind it. -/
theorem readWith_passes (hws : Spells s.table {} ws)
    (hends : EndsType readType scope s (ws.foldl push {}) m (u :: us)) (hdots : u.is "..." = false)
    (h : s.Sees (ws ++ (m.toList ++ u :: us))) :
    Passes (readWith readType scope) s (u :: us) fun r => ∃ type, r = some type ∧
      (scope.group = none → type = (ofWords ws m).resolve s.table scope s.usings) ∧
        ∃ target constructed, type = { (ofWords ws m).resolve s.table scope s.usings with
          targetName := target, constructor := constructed } :=
  readWith_finishes hws hends hdots h fun _ h => finish_passes h

end Reading

end NativeType

end HeaderPeers

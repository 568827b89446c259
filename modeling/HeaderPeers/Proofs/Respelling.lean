import HeaderPeers.Proofs.Instances
import HeaderPeers.Proofs.RuleKeys
import HeaderPeers.Rule.Builtin

/-!
# How template instances are spelled

The name of a template instance is put together anew when it is read: white space
goes, arguments are spelled with the native types they stand for, and closing
brackets are kept apart. A rule is found under its names as they are written. So
a rule for an instance is found by a type that names it exactly if the two
spellings agree.
-/

namespace HeaderPeers

open ReadM

/-! ## Types in no scope -/

namespace NativeType

theorem qualify_empty {name : String} (h : name ≠ "") :
    Scope.qualify {} name [] = [name] := by
  have henclosing : Scope.enclosing 4 "" = [""] := by decide +kernel
  simp [Scope.qualify, h, henclosing, Scope.below, Scope.instance?]

theorem settleName_singleton (table : RuleTable) (name : String) :
    settleName table name [name] = (name, table.findWith? name false) := by
  unfold settleName
  cases table.findWith? name false with
  | some rule => rfl
  | none => simp [settleName]

theorem getLast?_dropEndWhile {p : Char → Bool} {cs : List Char} {c : Char}
    (h : cs.getLast? = some c) (hc : p c = false) : Text.dropEndWhile p cs = cs := by
  obtain ⟨front, rfl⟩ := List.getLast?_eq_some_iff.mp h
  simp [Text.dropEndWhile, hc]

/-- A name that ends with neither a mark nor white space has no marks behind it. -/
theorem hoist_of_last {t : NativeType} {c : Char} (h : t.nativeName.toList.getLast? = some c)
    (hreference : c ≠ '&') (hstar : c ≠ '*') (hblank : Text.isBlank c = false) : t.hoist = t := by
  have hends (tail : String) (htail : tail.toList.getLast? = some '&') :
      Text.dropTail? tail t.nativeName = none := by
    refine if_neg fun hsuffix => ?_
    obtain ⟨front, hfront⟩ := List.isSuffixOf_iff_suffix.mp hsuffix
    rw [← hfront, List.getLast?_append, htail] at h
    exact hreference (Option.some.inj h).symm
  have hstars : t.nativeName.toList.reverse.takeWhile (· == '*') = [] := by
    obtain ⟨front, hfront⟩ := List.getLast?_eq_some_iff.mp h
    simp [hfront, hstar]
  have hname : Text.dropEndWhile (· == '*') t.nativeName.toList = t.nativeName.toList :=
    getLast?_dropEndWhile h (by simpa using hstar)
  have htrim : Text.trimEnd t.nativeName = t.nativeName := by
    unfold Text.trimEnd
    rw [getLast?_dropEndWhile h hblank, String.ofList_toList]
  unfold hoist
  simp only [hends "&&" (by decide), hends "&" (by decide), hstars, hname, String.ofList_toList,
    htrim, List.length_nil, Nat.add_zero]
  cases t
  rfl

/-- A name that ends with a closing bracket has no marks behind it. -/
theorem hoist_of_closed {t : NativeType} (h : t.nativeName.toList.getLast? = some '>') :
    t.hoist = t :=
  hoist_of_last h (by decide) (by decide) (by decide)

/-- What a pointer to a template refers to, in no scope: the first of the pointer
types of the rule for its name, or the name. -/
theorem resolve_pointer (table : RuleTable) {t : NativeType}
    (h : t.nativeName.toList.getLast? = some '>') (hpointer : t.indirections ≠ 0) :
    (t.resolve table {} []).nativeName = t.nativeName ∧
      (t.resolve table {} []).arguments = t.arguments ∧
      (t.resolve table {} []).targetName =
        ((table.findWith? t.nativeName false).bind (·.pointerType?)).getD
          (plainTarget t.nativeName) := by
  have hname : t.nativeName ≠ "" := by
    intro hempty
    simp [hempty] at h
  have hplain : (t.indirections == 0 && !t.reference) = false := by simp [hpointer]
  have hinstantiate : t.instantiate {} = t := rfl
  unfold resolve
  simp only [hoist_of_closed h, hinstantiate, qualify_empty hname, settleName_singleton, mapBy,
    hplain]
  cases hrule : table.findWith? t.nativeName false with
  | none => simp
  | some rule =>
      cases hpointers : rule.pointerTypes with
      | none => simp [Rule.pointerType?, hpointers]
      | some pointers => cases pointers <;> simp [Rule.pointerType?, hpointers]

end NativeType


/-! ## Tokens that are read as they stand -/

/-- The token is visible and nothing is preprocessed where it stands. -/
structure Token.Calm (table : RuleTable) (t : Token) : Prop where
  visible : t.isComment = false
  unmarked : t.is "#" = false
  unexpanded : Expansion.ruleFor? table t = none

namespace Window

theorem visit_of_calm {table : RuleTable} {tokens : Array Token} {i : Nat} {t : Token}
    (h : tokens[i]? = some t) (ht : t.Calm table) : visit table tokens i = tokens := by
  have hopens : opensAt tokens i = false := by
    unfold opensAt
    rw [h]
    cases tokens[i + 1]? with
    | none => rfl
    | some word => simp [Conditional.opens, ht.unmarked]
  simp [visit, resolveAt, hopens, expandAt, h, ht.unexpanded]

theorem seek_of_calm {table : RuleTable} {tokens : Array Token} {i fuel : Nat} {t : Token}
    (h : tokens[i]? = some t) (ht : t.Calm table) (hfuel : 1 ≤ fuel) :
    seek table fuel tokens i 0 = some (tokens, i) := by
  obtain ⟨fuel, rfl⟩ := Nat.exists_eq_add_one.mpr hfuel
  obtain ⟨hi, -⟩ := Array.getElem?_eq_some_iff.mp h
  unfold seek
  simp only [if_pos hi, visit_of_calm h ht, h, ht.visible]
  rfl

theorem seek_next_of_calm {table : RuleTable} {tokens : Array Token} {i fuel : Nat}
    {t next : Token} (h : tokens[i]? = some t) (ht : t.Calm table)
    (hnext : tokens[i + 1]? = some next) (hcalm : next.Calm table) (hfuel : 2 ≤ fuel) :
    seek table fuel tokens i 1 = some (tokens, i + 1) := by
  obtain ⟨fuel, rfl⟩ := Nat.exists_eq_add_one.mpr (Nat.lt_of_lt_of_le (by decide) hfuel)
  obtain ⟨hi, -⟩ := Array.getElem?_eq_some_iff.mp h
  unfold seek
  simp only [if_pos hi, visit_of_calm h ht, h, ht.visible]
  exact seek_of_calm hnext hcalm (Nat.le_of_lt_succ hfuel)

end Window

/-- The cursor stands in front of these tokens, and comments are not visible. -/
structure Reading.Before (ts : List Token) (s : Reading) : Prop where
  cooked : s.window.raw = false
  ahead : s.window.tokens.toList.drop s.window.index = ts

namespace Reading.Before

variable {s : Reading} {t next : Token} {ts : List Token}

theorem getElem? (h : s.Before (t :: ts)) : s.window.tokens[s.window.index]? = some t := by
  have hhead := congrArg List.head? h.ahead
  rwa [List.head?_drop, List.head?_cons, Array.getElem?_toList] at hhead

theorem tail (h : s.Before (t :: ts)) : Before ts { s with window.index := s.window.index + 1 } :=
  ⟨h.cooked, by simpa [List.drop_drop] using congrArg List.tail h.ahead⟩

theorem peek (h : s.Before (t :: ts)) (ht : t.Calm s.table) (hfuel : 1 ≤ s.bound) :
    ReadM.peek s = .ok t s := by
  have hget : s.window.get s.bound s.table 0 = some (t, s.window) := by
    have hseek := Window.seek_of_calm h.getElem? ht hfuel
    simp only [Window.get, Window.position, h.cooked]
    simp only [Bool.false_eq_true, if_false, Int.toNat_zero, hseek, Option.map_some,
      Window.tokenAt]
    rw [h.getElem?, ← h.cooked]
    rfl
  simp only [ReadM.peek, peekAt, hget]

theorem advance (h : s.Before (t :: next :: ts)) (ht : t.Calm s.table)
    (hnext : next.Calm s.table) (hfuel : 2 ≤ s.bound) :
    ReadM.advance s = .ok next { s with window.index := s.window.index + 1 } := by
  have hseek := Window.seek_next_of_calm h.getElem? ht h.tail.getElem? hnext hfuel
  have hget : s.window.next s.bound s.table =
      some (next, { s.window with index := s.window.index + 1 }) := by
    have hthen := h.tail.getElem?
    simp only [Window.next, Window.position, h.cooked]
    simp only [Bool.false_eq_true, if_false, Int.toNat_one, hseek, Option.map_some, Window.tokenAt]
    rw [hthen]
    rfl
  simp only [ReadM.advance, hget]

theorem seek_end {table : RuleTable} {tokens : Array Token} {i fuel : Nat}
    (hi : tokens.size ≤ i) (hfuel : 1 ≤ fuel) (count : Nat) :
    Window.seek table fuel tokens i count = some (tokens, i) := by
  obtain ⟨fuel, rfl⟩ := Nat.exists_eq_add_one.mpr hfuel
  unfold Window.seek
  rw [if_neg (Nat.not_lt.mpr hi), Window.visit_of_size_le table hi]

/-- There is a step for each token ahead. -/
theorem length_le (h : s.Before ts) : ts.length ≤ s.bound := by
  have hlength := congrArg List.length h.ahead
  simp only [List.length_drop, Array.length_toList] at hlength
  simp only [Reading.bound, Window.size]
  omega

theorem size_eq (h : s.Before [t]) : s.window.tokens.size = s.window.index + 1 := by
  have hlength := congrArg List.length h.ahead
  simp only [List.length_drop, Array.length_toList, List.length_singleton] at hlength
  omega

/-- Behind the last token is the end. -/
theorem advance_last (h : s.Before [t]) (ht : t.Calm s.table) (hfuel : 2 ≤ s.bound) :
    ReadM.advance s = .ok (Window.endToken s.window.tokens)
      { s with window.index := s.window.index + 1 } := by
  have hget : s.window.next s.bound s.table = some (Window.endToken s.window.tokens,
      { s.window with index := s.window.index + 1 }) := by
    have hseek : Window.seek s.table s.bound s.window.tokens s.window.index 1 =
        some (s.window.tokens, s.window.index + 1) := by
      obtain ⟨fuel, hf⟩ := Nat.exists_eq_add_one.mpr (Nat.lt_of_lt_of_le (by decide) hfuel)
      obtain ⟨hi, -⟩ := Array.getElem?_eq_some_iff.mp h.getElem?
      rw [hf]
      unfold Window.seek
      simp only [if_pos hi, Window.visit_of_calm h.getElem? ht, h.getElem?, ht.visible]
      exact seek_end (Nat.le_of_eq h.size_eq) (by omega) 0
    have hnone : s.window.tokens[s.window.index + 1]? = none :=
      Array.getElem?_eq_none (Nat.le_of_eq h.size_eq)
    simp only [Window.next, Window.position, h.cooked]
    simp only [Bool.false_eq_true, if_false, Int.toNat_one, hseek, Option.map_some,
      Window.tokenAt, hnone]
    rfl
  simp only [ReadM.advance, hget]

theorem peek_end (hraw : s.window.raw = false) (hi : s.window.tokens.size ≤ s.window.index)
    (hfuel : 1 ≤ s.bound) : ReadM.peek s = .ok (Window.endToken s.window.tokens) s := by
  have hget : s.window.get s.bound s.table 0 =
      some (Window.endToken s.window.tokens, s.window) := by
    have hnone : s.window.tokens[s.window.index]? = none := Array.getElem?_eq_none hi
    simp only [Window.get, Window.position, hraw]
    simp only [Bool.false_eq_true, if_false, Int.toNat_zero, seek_end hi hfuel, Option.map_some,
      Window.tokenAt, hnone]
    rw [← hraw]
    rfl
  simp only [ReadM.peek, peekAt, hget]

end Reading.Before

/-! ## Paths -/

/-- An identifier that is neither a fundamental word nor, by the rules, a macro or
an attribute. -/
structure Token.PathWord (table : RuleTable) (t : Token) : Prop where
  kind : t.kind = .identifier
  word : Text.isWord t.text.toList = true
  named : Name.fundamentalWords.contains t.text = false
  unexpanded : Expansion.ruleFor? table t = none
  unannotated : (table.find? t.text).any (·.isAttribute) = false

theorem Token.PathWord.text_ne {table : RuleTable} {t : Token} (h : t.PathWord table)
    (text : String) (htext : Text.isWord text.toList = false) : t.is text = false := by
  have hne : t.text ≠ text := by
    rintro rfl
    rw [h.word] at htext
    cases htext
  simp [Token.is, hne]

theorem Token.PathWord.calm {table : RuleTable} {t : Token} (h : t.PathWord table) :
    t.Calm table where
  visible := by simp [Token.isComment, h.kind]
  unmarked := h.text_ne "#" (by decide)
  unexpanded := h.unexpanded

/-- A mark of one or two characters. -/
def Token.IsMark (t : Token) (text : String) : Prop :=
  (t.kind = .punct ∨ t.kind = .symbol) ∧ t.text = text

namespace Token.IsMark

variable {t : Token} {text : String}

theorem is_eq (h : t.IsMark text) (other : String) : t.is other = (text == other) := by
  obtain ⟨hkind | hkind, rfl⟩ := h <;> simp [Token.is, hkind]

theorem isEof_eq (h : t.IsMark text) : t.isEof = false := by
  obtain ⟨hkind | hkind, -⟩ := h <;> simp [Token.isEof, hkind]

theorem isKeyword_eq (h : t.IsMark text) (word : Keyword) : t.isKeyword word = false := by
  obtain ⟨hkind | hkind, -⟩ := h <;> simp [Token.isKeyword, hkind]

theorem isWord_eq (h : t.IsMark text) : t.isWord = false := by
  obtain ⟨hkind | hkind, -⟩ := h <;> simp [Token.isWord, hkind]

theorem calm {table : RuleTable} (h : t.IsMark text) (htext : text ≠ "#") : t.Calm table where
  visible := by obtain ⟨hkind | hkind, -⟩ := h <;> simp [Token.isComment, hkind]
  unmarked := by simpa [h.is_eq] using htext
  unexpanded := by
    obtain ⟨hkind | hkind, -⟩ := h <;> simp [Expansion.ruleFor?, Token.isWord, hkind]

end Token.IsMark

namespace NativeType

variable {readType : Scope → ReadM (Option NativeType)} {type : NativeType} {s : Reading}
  {t next : Token} {ts : List Token}

theorem readWord_of_pathWord (h : s.Before (t :: next :: ts)) (ht : t.PathWord s.table)
    (hnext : next.Calm s.table) (hparen : next.is "(" = false) (hfuel : 2 ≤ s.bound)
    (hname : type.nativeName.isEmpty || Text.endsWith "::" type.nativeName) :
    readWord type t s = .ok (.again { type with nativeName := type.nativeName ++ t.text })
      { s with window.index := s.window.index + 1 } := by
  have hpeek := h.peek ht.calm (Nat.le_of_succ_le hfuel)
  have hadvance := h.advance ht.calm hnext hfuel
  have hword : t.isWord = true := by simp [Token.isWord, ht.kind]
  have hrule : ReadM.rule? t.text s = .ok (s.table.find? t.text) s := rfl
  have hattribute : Attribute.read s = .ok (some (Attribute.ofRule t.text (s.table.find? t.text)))
      { s with window.index := s.window.index + 1 } := by
    unfold Attribute.read
    rw [bind_of_ok hpeek, if_neg (by simp [hword]), bind_of_ok hrule]
    dsimp only
    rw [bind_of_ok hadvance, if_pos (by simp [hparen])]
    rfl
  have hplain : (Attribute.ofRule t.text (s.table.find? t.text)).annotates = false :=
    ht.unannotated
  have hcursor : cursor s = .ok s.window.index s := rfl
  unfold readWord
  rw [bind_of_ok hcursor, bind_of_ok hattribute]
  dsimp only
  have hback : moveTo s.window.index { s with window.index := s.window.index + 1 } = .ok () s :=
    rfl
  rw [if_neg (by simp [hplain])]
  change (moveTo s.window.index >>= _) _ = _
  rw [bind_of_ok hback, if_pos hname]
  unfold onward
  rw [bind_of_ok hadvance]
  rfl

theorem readPart_of_pathWord (h : s.Before (t :: next :: ts)) (ht : t.PathWord s.table)
    (hnext : next.Calm s.table) (hparen : next.is "(" = false) (hfuel : 2 ≤ s.bound)
    (hname : type.nativeName.isEmpty || Text.endsWith "::" type.nativeName) :
    readPart readType {} type s =
      .ok (.again { type with nativeName := type.nativeName ++ t.text })
        { s with window.index := s.window.index + 1 } := by
  have hpeek := h.peek ht.calm (Nat.le_of_succ_le hfuel)
  have hkeyword (word : Keyword) : t.isKeyword word = false := by simp [Token.isKeyword, ht.kind]
  have hdecorates : t.isKeywordWith Keyword.decorates = false := by
    simp [Token.isKeywordWith, ht.kind]
  have hend : t.isEof = false := by simp [Token.isEof, ht.kind]
  have hword : t.isWord = true := by simp [Token.isWord, ht.kind]
  have hnamed := ht.named
  unfold readPart
  rw [bind_of_ok hpeek]
  simp only [hend, ht.text_ne "::" (by decide), hkeyword,
    ht.text_ne "<" (by decide), ht.text_ne "*" (by decide),
    ht.text_ne "&" (by decide), ht.text_ne "&&" (by decide),
    ht.text_ne "~" (by decide), hdecorates, hnamed,
    ht.text_ne "[" (by decide), hword, Bool.false_and, Bool.false_eq_true, if_false,
    if_true]
  exact readWord_of_pathWord h ht hnext hparen hfuel hname

theorem readPart_of_colons (h : s.Before (t :: next :: ts)) (ht : t.IsMark "::")
    (hnext : next.Calm s.table) (hfuel : 2 ≤ s.bound) :
    readPart readType {} type s =
      .ok (.again { type with nativeName := type.nativeName ++ "::" })
        { s with window.index := s.window.index + 1 } := by
  have hcalm : t.Calm s.table := ht.calm (by decide)
  unfold readPart
  rw [bind_of_ok (h.peek hcalm (Nat.le_of_succ_le hfuel))]
  simp only [ht.isEof_eq, ht.is_eq, beq_self_eq_true, Bool.false_eq_true, if_false, if_true]
  unfold onward
  rw [bind_of_ok (h.advance hcalm hnext hfuel)]
  rfl

end NativeType

/-- Identifiers with `::` between them. -/
inductive Token.IsPath (table : RuleTable) : List Token → Prop
  | word {t : Token} (ht : t.PathWord table) : IsPath table [t]
  | colons {t mark : Token} {ts : List Token} (ht : t.PathWord table)
      (hmark : mark.IsMark "::") (h : IsPath table ts) :
      IsPath table (t :: mark :: ts)

/-- The text of tokens without the white space between them. -/
def Token.joined (ts : List Token) : String :=
  String.join (ts.map (·.text))

@[simp] theorem Token.joined_cons (t : Token) (ts : List Token) :
    joined (t :: ts) = t.text ++ joined ts := by
  simp [joined, String.join_cons]

@[simp] theorem Token.joined_nil : joined [] = "" := rfl

theorem endsWith_append (text tail : String) : Text.endsWith tail (text ++ tail) = true := by
  simp [Text.endsWith]

namespace NativeType

variable {readType : Scope → ReadM (Option NativeType)} {lt : Token} {ts : List Token}

/-- A path is read word by word, without the white space in it. -/
theorem iterateUpTo_path {table : RuleTable} {path : List Token} (hpath : Token.IsPath table path)
    {s : Reading} {type : NativeType} (htable : s.table = table) (h : s.Before (path ++ lt :: ts))
    (hlt : lt.Calm table) (hparen : lt.is "(" = false) (hfuel : 2 ≤ s.bound)
    (hname : type.nativeName.isEmpty || Text.endsWith "::" type.nativeName) (n : Nat) :
    iterateUpTo (readPart readType {}) (path.length + n) type s =
      iterateUpTo (readPart readType {}) n
        { type with nativeName := type.nativeName ++ Token.joined path }
        { s with window.index := s.window.index + path.length } := by
  induction hpath generalizing s type with
  | word ht =>
      have hpart : readPart readType {} type s = _ :=
        readPart_of_pathWord h (htable ▸ ht) (htable ▸ hlt) hparen hfuel hname
      rw [List.length_singleton, Nat.add_comm, iterateUpTo, bind_of_ok hpart]
      simp
  | @colons t mark path ht hmark hpath ih =>
      obtain ⟨next, path', rfl, hnext⟩ : ∃ next path', path = next :: path' ∧ next.Calm table := by
        cases hpath with
        | word ht => exact ⟨_, _, rfl, ht.calm⟩
        | colons ht => exact ⟨_, _, rfl, ht.calm⟩
      have hword : readPart readType {} type s = _ :=
        readPart_of_pathWord h (htable ▸ ht) (hmark.calm (by decide)) (hmark.is_eq "(") hfuel
          hname
      have hcolons : readPart readType {} { type with nativeName := type.nativeName ++ t.text }
          { s with window.index := s.window.index + 1 } = _ :=
        readPart_of_colons h.tail hmark (htable ▸ hnext) hfuel
      have hlength : (t :: mark :: next :: path').length + n =
          (next :: path').length + n + 1 + 1 := by
        simp only [List.length_cons]
        omega
      have hjoined : type.nativeName ++ Token.joined (t :: mark :: next :: path') =
          type.nativeName ++ t.text ++ "::" ++ Token.joined (next :: path') := by
        simp [hmark.2, String.append_assoc]
      have hindex : s.window.index + (t :: mark :: next :: path').length =
          s.window.index + 1 + 1 + (next :: path').length := by
        simp only [List.length_cons]
        omega
      rw [hlength, iterateUpTo, bind_of_ok hword]
      dsimp only
      rw [iterateUpTo, bind_of_ok hcolons, hjoined, hindex]
      exact ih htable h.tail.tail hfuel (by simp [endsWith_append])

variable {s s₁ s₂ : Reading} {type : NativeType} {arguments : List NativeType} {gt star : Token}

theorem readPart_of_arguments (hpeek : ReadM.peek s = .ok lt s) (hlt : lt.IsMark "<")
    (hread : readArguments readType {} s = .ok arguments s₁)
    (hadvance : ReadM.advance s₁ = .ok star s₂) :
    readPart readType {} type s = .ok
      (.again { type with
        nativeName := type.nativeName ++ s₁.table.argumentText arguments
        arguments := some arguments }) s₂ := by
  have htable : ReadM.table s₁ = .ok s₁.table s₁ := rfl
  unfold readPart
  rw [bind_of_ok hpeek]
  simp only [hlt.isEof_eq, hlt.is_eq, hlt.isKeyword_eq, String.reduceBEq, Bool.false_eq_true,
    if_false, if_true]
  rw [bind_of_ok hread, bind_of_ok htable]
  unfold onward
  rw [bind_of_ok hadvance]
  rfl

theorem readPart_of_star (h : s.Before [star]) (hstar : star.IsMark "*")
    (hfuel : 2 ≤ s.bound) :
    readPart readType {} type s = .ok
      (.done { type with indirections := type.indirections + 1 })
      { s with window.index := s.window.index + 1 } := by
  have hcalm : star.Calm s.table := hstar.calm (by decide)
  unfold readPart
  rw [bind_of_ok (h.peek hcalm (Nat.le_of_succ_le hfuel))]
  simp only [hstar.isEof_eq, hstar.is_eq, hstar.isKeyword_eq, String.reduceBEq,
    Bool.false_eq_true, if_false, if_true]
  unfold closing
  rw [bind_of_ok (h.advance_last hcalm hfuel)]
  rfl

end NativeType

/-! ## A pointer to a template instance -/

theorem Token.IsPath.exists_head {table : RuleTable} {path : List Token}
    (h : Token.IsPath table path) :
    ∃ t ts, path = t :: ts ∧ t.PathWord table ∧
      (ts = [] ∨ ∃ mark ts', ts = mark :: ts' ∧ mark.IsMark "::") := by
  cases h with
  | word ht => exact ⟨_, _, rfl, ht, Or.inl rfl⟩
  | colons ht hmark _ => exact ⟨_, _, rfl, ht, Or.inr ⟨_, _, rfl, hmark⟩⟩

/-- The state in which a fragment is read. -/
def Reading.onText (s : Reading) (location : Location) (text : String) : Reading :=
  { s with
    window := .ofTokens (Token.ofTextAt location text)
    flattened := [], constructors := [], warnings := #[] }

theorem ReadM.fragment_of_ok {α : Type} {text : String} {step : ReadM α} {s s₁ s₂ : Reading}
    {here : Token} {a : α} (hpeek : peek s = .ok here s₁)
    (hstep : step (s₁.onText here.location text) = .ok a s₂) :
    fragment text step s = .ok a { s₂ with
      window := s₁.window, usings := s₁.usings
      flattened := s₁.flattened, constructors := s₁.constructors
      warnings := s₁.warnings ++ s₂.warnings } := by
  unfold fragment
  rw [bind_of_ok hpeek]
  unfold Reading.onText at hstep
  simp only [around, hstep]

namespace NativeType

/-- What is ahead is a path and a list of arguments in angle brackets, which the
grammar of arguments accepts, with a star behind it. -/
structure TemplatePointer (s : Reading) where
  path : List Token
  opening : Token
  behind : List Token
  arguments : List NativeType
  closed : Reading
  closing : Token
  star : Token
  ahead : s.Before (path ++ opening :: behind)
  behind_ne : behind ≠ []
  isPath : Token.IsPath s.table path
  opens : opening.IsMark "<"
  accepts : readArguments (nestUpTo readWith (s.bound - 1)) {}
    { s with window.index := s.window.index + path.length } = .ok arguments closed
  closes : closed.Before [closing, star]
  isClosing : closing.IsMark ">"
  isStar : star.IsMark "*"

theorem exists_bracketed (arguments : List String) :
    ∃ text, (TemplateMap.bracketed arguments).toList = '<' :: text := by
  unfold TemplateMap.bracketed
  dsimp only
  rw [String.toList_append, String.toList_append]
  exact ⟨_, rfl⟩

theorem getLast?_bracketed (arguments : List String) :
    (TemplateMap.bracketed arguments).toList.getLast? = some '>' := by
  unfold TemplateMap.bracketed
  dsimp only
  split
  · rw [String.toList_append, List.getLast?_append]
    rfl
  · rw [String.toList_append, List.getLast?_append]
    rfl

namespace TemplatePointer

variable {s : Reading} (p : TemplatePointer s)

/-- The name as the reader puts it together. -/
def name : String :=
  Token.joined p.path ++ s.table.argumentText p.arguments

theorem getLast?_name : p.name.toList.getLast? = some '>' := by
  unfold name RuleTable.argumentText
  rw [String.toList_append, List.getLast?_append, getLast?_bracketed]
  rfl

theorem framed : Framed { s with window.index := s.window.index + p.path.length } false p.closed :=
  framed_of_keeps
    (readArguments_keeps (fun scope => nestUpTo_keeps (fun _ h => readWith_keeps h) _ scope) {})
    p.accepts

/-- The state behind the star. -/
def after : Reading :=
  { p.closed with window.index := p.closed.window.index + 1 + 1 }

theorem length_pos {table : RuleTable} {path : List Token} (h : Token.IsPath table path) :
    0 < path.length := by
  cases h <;> simp

theorem length_path : p.path.length + 2 ≤ s.bound := by
  have hlength := p.ahead.length_le
  have hpos := List.length_pos_iff.mpr p.behind_ne
  simp only [List.length_append, List.length_cons] at hlength
  omega

theorem iterate_readPart :
    iterate {} (readPart (nestUpTo readWith (s.bound - 1)) {}) s =
      .ok { nativeName := p.name, arguments := some p.arguments, indirections := 1 } p.after := by
  have hpos : 0 < p.path.length := length_pos p.isPath
  have hsteps : 2 ≤ s.bound := Nat.le_trans (by omega) p.length_path
  have hclosed : 2 ≤ p.closed.bound := p.closes.length_le
  have hopening : p.opening.Calm s.table := p.opens.calm (by decide)
  have hclosing : p.closing.Calm p.closed.table := p.isClosing.calm (by decide)
  have hstar : p.star.Calm p.closed.table := p.isStar.calm (by decide)
  have hbehind : Reading.Before (p.opening :: p.behind)
      { s with window.index := s.window.index + p.path.length } :=
    ⟨p.ahead.cooked, by simp [← List.drop_drop, p.ahead.ahead]⟩
  generalize hread : readPart (nestUpTo readWith (s.bound - 1)) {} = part
  have hpath (n : Nat) : iterateUpTo part (p.path.length + n) {} s =
      iterateUpTo part n { nativeName := Token.joined p.path }
        { s with window.index := s.window.index + p.path.length } := by
    rw [← hread, iterateUpTo_path p.isPath rfl p.ahead hopening (p.opens.is_eq "(") hsteps
      (by decide) n]
    simp
  have harguments : part { nativeName := Token.joined p.path }
      { s with window.index := s.window.index + p.path.length } =
      .ok (.again { nativeName := p.name, arguments := some p.arguments })
        { p.closed with window.index := p.closed.window.index + 1 } := by
    have hname : p.name = Token.joined p.path ++ p.closed.table.argumentText p.arguments := by
      rw [name, p.framed.table]
    rw [← hread, hname]
    exact readPart_of_arguments (hbehind.peek hopening (Nat.le_of_succ_le hsteps)) p.opens
      p.accepts (p.closes.advance hclosing hstar hclosed)
  have hlast : part { nativeName := p.name, arguments := some p.arguments }
      { p.closed with window.index := p.closed.window.index + 1 } =
      .ok (.done { nativeName := p.name, arguments := some p.arguments, indirections := 1 })
        p.after := by
    rw [← hread]
    exact readPart_of_star p.closes.tail p.isStar hclosed
  have hget : (get : ReadM Reading) s = .ok s s := rfl
  obtain ⟨n, hn⟩ := Nat.exists_eq_add_of_le p.length_path
  unfold iterate
  rw [bind_of_ok hget, hn, Nat.add_assoc, hpath, Nat.add_comm 2 n, iterateUpTo,
    bind_of_ok harguments]
  dsimp only
  rw [iterateUpTo, bind_of_ok hlast]
  rfl

/-- The tokens of the text are read to their end. -/
theorem peek_after :
    ReadM.peek p.after = .ok (Window.endToken p.closed.window.tokens) p.after := by
  have hsize : p.after.window.tokens.size ≤ p.after.window.index :=
    Nat.le_of_eq p.closes.tail.size_eq
  have hsteps : 1 ≤ p.after.bound := Nat.le_of_succ_le p.closes.length_le
  exact Reading.Before.peek_end p.closes.cooked hsize hsteps

/-- **How a pointer to a template instance is read.** The name is the path and
the arguments as they are spelled anew; the rules decide by it. -/
theorem read_eq (husings : s.usings = []) (htrim : Text.trim p.name = p.name) :
    ∃ type, read {} s = .ok (some type) p.after ∧ type.nativeName = p.name ∧
      type.arguments = some p.arguments ∧
      type.targetName = ((s.table.findWith? p.name false).bind (·.pointerType?)).getD
        (plainTarget p.name) := by
  have hget : (get : ReadM Reading) s = .ok s s := rfl
  have hend : (Window.endToken p.closed.window.tokens).is "..." = false := by
    unfold Window.endToken
    split <;> rfl
  obtain ⟨n, hn⟩ := Nat.exists_eq_add_one.mpr (Nat.lt_of_lt_of_le (Nat.succ_pos _) p.length_path)
  let type : NativeType :=
    { nativeName := p.name, arguments := some p.arguments, indirections := 1 }
  have hfinish : finish {} type p.after = .ok (type.resolve s.table {} []) p.after := by
    have htable : p.after.table = s.table := p.framed.table
    have hnames : p.after.usings = [] := p.framed.usings.trans husings
    have hstate : (get : ReadM Reading) p.after = .ok p.after p.after := rfl
    unfold finish
    rw [bind_of_ok hstate, htable, hnames]
    rfl
  refine ⟨type.resolve s.table {} [], ?_, ?_⟩
  · have hread := p.iterate_readPart
    unfold read nest
    rw [bind_of_ok hget, hn, nestUpTo]
    rw [hn, Nat.add_sub_cancel] at hread
    generalize nestUpTo readWith n = inner at hread
    unfold readWith
    rw [bind_of_ok hread]
    dsimp only
    rw [bind_of_ok p.peek_after, if_neg (by simp [hend]), if_neg (by simp), htrim,
      bind_of_ok hfinish]
    rfl
  · exact resolve_pointer s.table p.getLast?_name (by simp [type])

/-- The first word of the path, which the name starts with. -/
theorem exists_head : ∃ (t : Token) (ts : List Token) (c : Char) (cs : List Char),
    p.path = t :: ts ∧ t.PathWord s.table ∧ p.name.toList = t.text.toList ++ c :: cs ∧
      (c = ':' ∨ c = '<') := by
  obtain ⟨t, ts, hpath, ht, hts⟩ := p.isPath.exists_head
  obtain ⟨text, htext⟩ : ∃ text, (s.table.argumentText p.arguments).toList = '<' :: text :=
    exists_bracketed _
  rcases hts with rfl | ⟨mark, ts', rfl, hmark⟩
  · exact ⟨t, [], '<', text, hpath, ht, by simp [name, hpath, htext], Or.inr rfl⟩
  · exact ⟨t, mark :: ts', ':', ':' :: (Token.joined ts').toList ++ '<' :: text, hpath, ht,
      by simp [name, hpath, htext, hmark.2], Or.inl rfl⟩

/-- A text with these tokens starts with the word that the name starts with. -/
theorem leads {location : Location} {text : String}
    (htext : s.window = .ofTokens (Token.ofTextAt location text)) :
    ∃ w : List Char, (∃ rest, p.name.toList = w ++ rest ∧
        Text.Leads w (Text.unifyBreaks p.name.toList) [] (Text.unifyBreaks rest)) ∧
      (∃ blanks rest, Text.Leads w (Text.unifyBreaks text.toList) blanks rest) ∧
      Keyword.ofWord? (String.ofList w) = none ∧
      Name.fundamentalWords.contains (String.ofList w) = false := by
  obtain ⟨t, ts, c, cs, hpath, ht, hname, hc⟩ := p.exists_head
  have hscan : Token.ofTextAt location text = t :: (ts ++ p.opening :: p.behind) := by
    have hahead := p.ahead.ahead
    rw [htext, hpath] at hahead
    simpa [Window.ofTokens] using hahead
  obtain ⟨⟨blanks, rest, hleads⟩, hword⟩ := Token.leads_of_scan hscan ht.kind
  have hbreaks : Text.unifyBreaks (c :: cs) = c :: Text.unifyBreaks cs :=
    Text.unifyBreaks_cons (by rintro rfl; simp at hc) cs
  refine ⟨t.text.toList, ⟨c :: cs, hname, ?_, by simp, hleads.word, hleads.visible, ?_⟩,
    ⟨blanks, rest, hleads⟩, by rwa [String.ofList_toList],
    by rw [String.ofList_toList]; exact ht.named⟩
  · rw [hname, Text.unifyBreaks_append_word (Text.isWordChar_of_isWord hleads.word),
      List.nil_append]
  · rw [hbreaks]
    rintro d hd
    cases hd
    rcases hc with rfl | rfl <;> decide

theorem trim_name {w rest : List Char} (hname : p.name.toList = w ++ rest)
    (h : Text.Leads w (Text.unifyBreaks p.name.toList) [] (Text.unifyBreaks rest)) :
    Text.trim p.name = p.name := by
  have hstart : p.name.toList.dropWhile Text.isBlank = p.name.toList := by
    obtain ⟨c, w', rfl⟩ : ∃ c w', w = c :: w' := by
      cases w with
      | nil => exact absurd h.word (by decide)
      | cons c w' => exact ⟨c, w', rfl⟩
    rw [hname, List.cons_append, List.dropWhile_cons_of_neg]
    simp [h.visible c (by simp)]
  unfold Text.trim
  rw [hstart, getLast?_dropEndWhile p.getLast?_name (by decide), String.ofList_toList]

end TemplatePointer

/-- **What a rule for a template instance is found by.** A rule for the name as
it is written is put first. A pointer to the instance has the target that the
rule gives if the name that is put together from the path and the arguments, as
they are spelled anew, is the written name without the white space around it, or
the written name without its arguments; if not, the rules before decide. -/
theorem fragment_read_of_putFirst {table : RuleTable} (hnumbered : table.top.Numbered)
    {name target : String} {s s₁ : Reading} {here : Token}
    (htable : s.table = table.putFirst { nativeNames := [name], pointerTypes := some [target] })
    (husings : s.usings = []) (hhere : peek s = .ok here s₁)
    (p : TemplatePointer (s₁.onText here.location (name ++ "*"))) :
    ∃ type s', fragment (name ++ "*") (read {}) s = .ok (some type) s' ∧
      type.arguments = some p.arguments ∧
      type.nativeName = Token.joined p.path ++ s.table.argumentText p.arguments ∧
      type.targetName =
        if type.nativeName = Text.trim name ∨ type.nativeName = Name.normalize name false true then
          target
        else ((table.findWith? type.nativeName false).bind (·.pointerType?)).getD
          (plainTarget type.nativeName) := by
  have hframed : Framed s false s₁ := framed_of_keeps peek_keeps hhere
  obtain ⟨w, ⟨rest, hname, hleads⟩, ⟨blanks, rest', hwritten⟩, hword, hnamed⟩ := p.leads rfl
  have htrim := p.trim_name hname hleads
  obtain ⟨type, hread, hnative, harguments, htarget⟩ :=
    p.read_eq (hframed.usings.trans husings) htrim
  have hown (unconst : Bool) : Name.normalize p.name unconst false = p.name :=
    (Name.normalize_of_leads hleads hword hnamed unconst).trans htrim
  have hkeys : Layer.keysOf name =
      [Text.trim name, Text.trim name, Name.normalize name false true] := by
    rw [String.toList_append] at hwritten
    have hstar := hwritten
    rw [show "*".toList = ['*'] from rfl, Text.unifyBreaks_append_star] at hstar
    obtain ⟨rest'', hbare⟩ := hstar.of_star
    unfold Layer.keysOf
    rw [Name.normalize_of_leads hbare hword hnamed false,
      Name.normalize_of_leads hbare hword hnamed true]
  have htable₁ : (s₁.onText here.location (name ++ "*")).table = s.table := hframed.table
  have hpname : p.name = Token.joined p.path ++ s.table.argumentText p.arguments := by
    rw [TemplatePointer.name, htable₁]
  refine ⟨type, _, fragment_of_ok hhere hread, harguments, hnative.trans hpname, ?_⟩
  rw [htarget, hnative, htable₁, htable, RuleTable.findWith?_putFirst hnumbered _ hown]
  have hmem : p.name ∈ (Layer.namesOf
      { nativeNames := [name], pointerTypes := some [target] }).flatMap Layer.keysOf ↔
      p.name = Text.trim name ∨ p.name = Name.normalize name false true := by
    simp [Layer.namesOf, hkeys]
  by_cases hkey : p.name = Text.trim name ∨ p.name = Name.normalize name false true
  · rw [if_pos (hmem.mpr hkey), if_pos hkey]
    rfl
  · rw [if_neg (mt hmem.mp hkey), if_neg hkey]

/-- Rules over the built-in ones, for two classes and for an instance of a
template. -/
def instanceRules : RuleTable :=
  ((RuleTable.standard.put { nativeNames := ["B"] }).put { nativeNames := ["C"] }).put
    { nativeNames := ["A<B,C>"], pointerTypes := some ["Y"] }

theorem instanceRules_numbered : instanceRules.top.Numbered :=
  ((Layer.numbered_empty.putEntry _ _).putEntry _ _).putEntry _ _

/-- Before an empty header, with one more rule first. -/
def withRuleFirst (name target : String) : Reading :=
  Reading.ofTokens
    (instanceRules.putFirst { nativeNames := [name], pointerTypes := some [target] }) []

/-- The arguments of the instance are read up to the closing bracket. -/
theorem instance_reads_arguments (inner : Reading) (closing star : Token)
    (hinner : inner = (withRuleFirst "A<B,C>" "X").onText {} ("A<B,C>" ++ "*"))
    (hclosing : closing = { kind := .punct, text := ">" })
    (hstar : star = { kind := .punct, text := "*" }) :
    (match readArguments (nestUpTo readWith (inner.bound - 1)) {}
        { inner with window.index := 1 } with
      | .ok arguments closed =>
        decide (closed.window.raw = false ∧
          closed.window.tokens.toList.drop closed.window.index = [closing, star] ∧
          inner.table.argumentText arguments = "<B,C>")
      | _ => false) = true := by
  subst hinner hclosing hstar
  decide +kernel

theorem fragment_read_of_putFirst_atInstance : ∃ type s',
    fragment ("A<B,C>" ++ "*") (read {}) (withRuleFirst "A<B,C>" "X") = .ok (some type) s' ∧
      type.nativeName = "A<B,C>" ∧ type.targetName = "X" := by
  have hhere : peek (withRuleFirst "A<B,C>" "X") = .ok (.eof {}) (withRuleFirst "A<B,C>" "X") :=
    Reading.Before.peek_end rfl (Nat.le_refl 0) (by decide +kernel)
  let inner := (withRuleFirst "A<B,C>" "X").onText {} ("A<B,C>" ++ "*")
  let word : Token := { kind := .identifier, text := "A" }
  let mark (text : String) : Token := { kind := .punct, text }
  have hword : word.PathWord inner.table :=
    ⟨rfl, by decide +kernel, by decide, by decide +kernel, by decide +kernel⟩
  have hrun := instance_reads_arguments inner (mark ">") (mark "*") rfl rfl rfl
  split at hrun
  next arguments closed haccepts =>
    obtain ⟨hcooked, hahead, hspelled⟩ := of_decide_eq_true hrun
    let p : TemplatePointer inner :=
      { path := [word], opening := mark "<"
        behind := [{ word with text := "B" }, mark ",", { word with text := "C" }, mark ">",
          mark "*"]
        arguments, closed, closing := mark ">", star := mark "*"
        behind_ne := List.cons_ne_nil _ _
        ahead := ⟨rfl, by decide +kernel⟩
        isPath := .word hword
        opens := ⟨Or.inl rfl, rfl⟩
        accepts := haccepts
        closes := ⟨hcooked, hahead⟩
        isClosing := ⟨Or.inl rfl, rfl⟩
        isStar := ⟨Or.inl rfl, rfl⟩ }
    obtain ⟨type, s', hread, -, hname, htarget⟩ :=
      fragment_read_of_putFirst instanceRules_numbered rfl rfl hhere p
    have hspelling : type.nativeName = "A<B,C>" := by
      rw [hname]
      exact congrArg ("A" ++ ·) hspelled
    refine ⟨type, s', hread, hspelling, ?_⟩
    rw [htarget, if_pos (Or.inl (by rw [hspelling]; decide +kernel))]
  · cases hrun

/-- A blank behind the comma keeps a rule from being found by the type it names. -/
theorem exists_fragment_read_ne_target : ∃ type s',
    fragment ("A<B, C>" ++ "*") (read {}) (withRuleFirst "A<B, C>" "X") = .ok (some type) s' ∧
      type.targetName = "Y" := by
  let step := fragment ("A<B, C>" ++ "*") (read {})
  let s := withRuleFirst "A<B, C>" "X"
  obtain ⟨hgives, htarget⟩ :
      gives step s = true ∧ (given step s).map (·.targetName) = some "Y" := by
    decide +kernel
  obtain ⟨type, htype, hname⟩ := Option.map_eq_some_iff.mp htarget
  exact ⟨type, behind step s, htype ▸ eq_ok_of_gives hgives, hname⟩

end NativeType

end HeaderPeers

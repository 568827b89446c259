import HeaderPeers.Declarator.Reader
import HeaderPeers.Proofs.Reading.Visible
import HeaderPeers.Proofs.Window.Basic

/-!
# Reading a declarator

What a declarator without parentheses and dimensions is read as, up to the list of
parameters that may stand behind its name.
-/

namespace HeaderPeers

open ReadM

variable {s : Reading} {t u : Token} {ts rest : List Token}

namespace Attribute

/-- With comments visible, the cursor moves by one token. -/
theorem advance_raw (h : s.window.raw = true) :
    advance s = .ok (Window.tokenAt s.window.tokens (s.window.index + 1))
      (s.atIndex (s.window.index + 1)) := by
  have hnext : s.window.next s.bound s.table =
      some (Window.tokenAt s.window.tokens (s.window.index + 1),
        { s.window with index := s.window.index + 1 }) := by
    simp only [Window.next, Window.position, h, if_true, Option.map_some]
    rfl
  unfold advance
  rw [hnext]
  rfl

/-- One turn of passing over tokens. -/
def passTurn (opening closing : String) :
    Nat × String × Token → ReadM (Turn (Nat × String × Token) String) :=
  fun (depth, text, t) => do
    if t.isEof || depth == 0 then return .done text
    let state : Nat × String :=
      if t.is opening then (depth + 1, text)
      else if t.is closing then (depth - 1, text)
      else (depth, text ++ t.spaced)
    return .again (state.1, state.2, ← advance)

theorem passOver_eq_raw (opening closing : String) :
    passOver opening closing = raw (do
      let first ← advance
      iterate (1, "", first) (passTurn opening closing)) :=
  rfl

/-- A turn stops, or goes on to the next token. -/
theorem passTurn_cases (opening closing : String) (depth : Nat) (text : String)
    (hraw : s.window.raw = true) :
    passTurn opening closing (depth, text, Window.tokenAt s.window.tokens s.window.index) s =
        .ok (.done text) s ∨
      s.window.index < s.window.size ∧ ∃ depth' text',
        passTurn opening closing (depth, text, Window.tokenAt s.window.tokens s.window.index) s =
          .ok (.again (depth', text', Window.tokenAt s.window.tokens (s.window.index + 1)))
            (s.atIndex (s.window.index + 1)) := by
  unfold passTurn
  dsimp only
  by_cases hends : ((Window.tokenAt s.window.tokens s.window.index).isEof || depth == 0) = true
  · rw [if_pos hends]
    exact Or.inl rfl
  · rw [if_neg hends, bind_of_ok (advance_raw hraw)]
    refine Or.inr ⟨?_, _, _, rfl⟩
    by_contra hout
    have hend : Window.tokenAt s.window.tokens s.window.index =
        Window.endToken s.window.tokens := by
      unfold Window.tokenAt
      rw [Array.getElem?_eq_none (Nat.le_of_not_lt hout)]
      rfl
    rw [hend, Window.isEof_endToken] at hends
    exact hends rfl

theorem exists_iterateUpTo_passTurn (opening closing : String) (depth : Nat) (text : String)
    {n : Nat} {s : Reading} (hraw : s.window.raw = true) (hn : s.window.size - s.window.index < n) :
    ∃ text' j, iterateUpTo (passTurn opening closing) n
        (depth, text, Window.tokenAt s.window.tokens s.window.index) s =
      .ok text' (s.atIndex j) := by
  induction n generalizing depth text s with
  | zero => exact absurd hn (Nat.not_lt_zero _)
  | succ n ih =>
      rw [iterateUpTo]
      rcases passTurn_cases opening closing depth text hraw with
        hturn | ⟨hinside, depth', text', hturn⟩
      · exact ⟨text, s.window.index, by rw [bind_of_ok hturn]; rfl⟩
      · have hrest : (s.atIndex (s.window.index + 1)).window.size -
            (s.atIndex (s.window.index + 1)).window.index < n := by
          rw [Reading.atIndex_size, Reading.atIndex_index]
          omega
        obtain ⟨text'', j, hloop⟩ := ih depth' text' (s := s.atIndex (s.window.index + 1))
          hraw hrest
        exact ⟨text'', j, by rw [bind_of_ok hturn]; exact hloop⟩

/-- Passing over tokens ends, at the end of the input at the latest, and moves nothing
but the cursor. -/
theorem exists_passOver (opening closing : String) (hfuel : 0 < s.fuel) :
    ∃ text j, passOver opening closing s = .ok text (s.atIndex j) := by
  let bare : Reading := { s with window.raw := true }
  have hfirst : advance bare = _ := advance_raw rfl
  have hrest : (bare.atIndex (s.window.index + 1)).window.size -
      (bare.atIndex (s.window.index + 1)).window.index < bare.bound := by
    have hbound : bare.bound = s.fuel + s.window.size := rfl
    have hsize : (bare.atIndex (s.window.index + 1)).window.size = s.window.size := rfl
    rw [hbound, hsize, Reading.atIndex_index]
    omega
  obtain ⟨text, j, hloop⟩ := exists_iterateUpTo_passTurn opening closing 1 ""
    (s := bare.atIndex (s.window.index + 1)) rfl hrest
  have hstep : (do
      let first ← advance
      iterate (1, "", first) (passTurn opening closing)) bare = .ok text (bare.atIndex j) := by
    rw [bind_of_ok hfirst]
    exact hloop
  refine ⟨text, j, ?_⟩
  rw [passOver_eq_raw, raw, around, hstep]
  rfl

/-- Looking for an attribute moves nothing but the cursor. A word is one, whatever
stands behind it. -/
theorem exists_read (h : s.Sees (t :: ts)) (hts : t.isWord = true → ts ≠ []) :
    ∃ found j, Attribute.read s = .ok found (s.atIndex j) ∧
      ∀ a ∈ found, t.isWord = true ∧
        a.annotates = (s.table.find? t.text).any (·.isAttribute) := by
  have hpeek := peek_of_sees h
  by_cases hword : t.isWord = true
  · have hrule : rule? t.text s = .ok (s.table.find? t.text) s := rfl
    obtain ⟨u, us, rfl⟩ := List.exists_cons_of_ne_nil (hts hword)
    obtain ⟨v, i, hadvance, hsees, hv⟩ := advance_passes h
    rw [hv] at hadvance
    by_cases hcall : u.is "(" = true
    · obtain ⟨arguments, j, hpass⟩ := exists_passOver "(" ")" hsees.fueled
      refine ⟨some { ofRule t.text (s.table.find? t.text) with
        arguments := if (s.table.find? t.text).any (·.skip) then "" else Text.trim arguments },
        j, ?_, ?_⟩
      · unfold Attribute.read
        rw [bind_of_ok hpeek, if_neg (by simp [hword]), bind_of_ok hrule, bind_of_ok hadvance,
          if_neg (by simp [hcall]), bind_of_ok hpass]
        rfl
      · rintro a ha
        obtain rfl := Option.some.inj ha
        exact ⟨hword, rfl⟩
    · refine ⟨some (ofRule t.text (s.table.find? t.text)), i, ?_, ?_⟩
      · unfold Attribute.read
        rw [bind_of_ok hpeek, if_neg (by simp [hword]), bind_of_ok hrule, bind_of_ok hadvance,
          if_pos (by simp [hcall])]
        rfl
      · rintro a ha
        obtain rfl := Option.some.inj ha
        exact ⟨hword, rfl⟩
  · refine ⟨none, s.window.index, ?_, fun a ha => absurd ha (by simp)⟩
    unfold Attribute.read
    rw [bind_of_ok hpeek, if_pos (by simp [hword])]
    rfl

end Attribute

/-! ## What stands in front of a name -/

namespace Draft

/-- The name that the attributes of the type give. -/
def hint (d : Draft) : Option String :=
  (d.type.attributes.find? fun a => Text.isWord a.arguments.toList).map (·.arguments)

/-- A mark of a pointer, a reference or `const`. -/
def marks (t : Token) : Bool :=
  t.isAny ["*", "&", "&&"] || t.isKeyword .const_

/-- The draft with all marks taken. -/
def pushMarks (d : Draft) (ms : List Token) : Draft :=
  ms.foldl (fun d t => (d.pushMark? t).getD d) d

theorem pushMark?_of_not_marks (d : Draft) (ht : marks t = false) : d.pushMark? t = none := by
  simp only [marks, Token.isAny, List.any_cons, List.any_nil, Bool.or_false,
    Bool.or_eq_false_iff] at ht
  obtain ⟨⟨hstar, hreference, hrvalue⟩, hconst⟩ := ht
  simp [pushMark?, hstar, hreference, hrvalue, hconst]

theorem pushMark?_of_marks (d : Draft) (ht : marks t = true) :
    d.pushMark? t = some ((d.pushMark? t).getD d) := by
  suffices h : (d.pushMark? t).isSome = true by
    obtain ⟨d', hd'⟩ := Option.isSome_iff_exists.mp h
    rw [hd', Option.getD_some]
  simp only [marks, Token.isAny, List.any_cons, List.any_nil, Bool.or_false, Bool.or_eq_true] at ht
  unfold pushMark?
  dsimp only
  split
  · rfl
  split
  · rfl
  split
  · rfl
  split
  · rfl
  next hstar hreference hrvalue hconst => simp [hstar, hreference, hrvalue, hconst] at ht

/-- All marks are taken, by induction on them. -/
theorem readMarks_passes {ms : List Token} (hms : ∀ t ∈ ms, marks t = true) (hu : marks u = false)
    (d : Draft) (h : s.Sees (ms ++ u :: ts)) :
    Passes d.readMarks s (u :: ts) (· = d.pushMarks ms) := by
  refine iterate_passes h fun n hn => ?_
  have hlength : ms.length < n := by
    simp only [List.length_append, List.length_cons] at hn
    omega
  clear hn
  induction ms generalizing n d s with
  | nil =>
      obtain ⟨n, rfl⟩ := Nat.exists_eq_add_one.mpr hlength
      refine iterateUpTo_done ((peek_passes h).bind_eq fun j h => ?_)
      rw [pushMark?_of_not_marks d hu]
      exact passes_pure h ⟨d, rfl, rfl⟩
  | cons t ms ih =>
      obtain ⟨n, rfl⟩ := Nat.exists_eq_add_one.mpr (Nat.zero_lt_of_lt hlength)
      obtain ⟨next, us, hnext⟩ : ∃ next us, ms ++ u :: ts = next :: us := by
        cases ms with
        | nil => exact ⟨u, ts, rfl⟩
        | cons t ms => exact ⟨t, ms ++ u :: ts, rfl⟩
      have hfirst : (ms ++ u :: ts).head? = some next := by rw [hnext]; rfl
      refine iterateUpTo_again (?_ : Passes _ _ (ms ++ u :: ts) fun r => ∃ a,
        r = Turn.again a ∧ a = (d.pushMark? t).getD d) ?_
      · refine (peek_passes h).bind_eq fun j h => ?_
        rw [pushMark?_of_marks d (hms t List.mem_cons_self)]
        exact (advance_to h hfirst).bind_eq fun j h => passes_pure h ⟨_, rfl, rfl⟩
      · rintro _ j rfl h
        exact ih (fun t ht => hms t (List.mem_cons_of_mem _ ht)) _ h _
          (Nat.lt_of_succ_lt_succ hlength)

/-- One turn of reading attributes. -/
def attributeTurn :
    Draft × List Attribute × Nat →
      ReadM (Turn (Draft × List Attribute × Nat) (Draft × List Attribute × Nat)) :=
  fun (d, found, back) => do
    let bracketed ← if (← peek).is "[" then pure ((← peekAt 1).is "[") else pure false
    if bracketed then
      let a ← Attribute.readBracketed
      return .again (d, found ++ [a], ← cursor)
    match ← Attribute.read with
    | some a =>
      if a.annotates then
        return .again (d.annotate (· ++ a.targetName), found ++ [a], ← cursor)
      else return .done (d, found, back)
    | none => return .done (d, found, back)

/-- In front of a name that is no attribute, nothing is taken. -/
theorem readAttributes_passes (d : Draft) (h : s.Sees (t :: ts)) (hbracket : t.is "[" = false)
    (hplain : t.isWord = true → ts ≠ [] ∧ (s.table.find? t.text).any (·.isAttribute) = false) :
    Passes d.readAttributes s (t :: ts) (· = (d, d.hint)) := by
  let start := (d, d.type.attributes, s.window.index)
  obtain ⟨found, j, hread, hfound⟩ := Attribute.exists_read h fun hword => (hplain hword).1
  have hturn : attributeTurn start s = .ok (.done start) (s.atIndex j) := by
    unfold attributeTurn
    dsimp only [start]
    rw [bind_of_ok (peek_of_sees h), if_neg (by simp [hbracket]), pure_bind, if_neg (by simp),
      bind_of_ok hread]
    cases found with
    | none => rfl
    | some a =>
        obtain ⟨hword, hannotates⟩ := hfound a rfl
        dsimp only
        rw [if_neg (by simp [hannotates, (hplain hword).2])]
        rfl
  have hloop : iterate start attributeTurn s = .ok start (s.atIndex j) := by
    obtain ⟨n, hn⟩ := Nat.exists_eq_add_one.mpr
      (Nat.lt_of_lt_of_le (Nat.succ_pos _) h.length_le)
    change iterateUpTo attributeTurn s.bound start s = _
    rw [hn, iterateUpTo, bind_of_ok hturn]
    rfl
  have hcursor : cursor s = .ok s.window.index s := rfl
  refine ⟨(d, d.hint), s.window.index, ?_, h, rfl⟩
  change (cursor >>= fun start => iterate (d, d.type.attributes, start) attributeTurn >>= _) s = _
  rw [bind_of_ok hcursor, bind_of_ok hloop]
  rfl

/-- Behind a name without a colon there is no bit field. -/
theorem readBitfield_passes (d : Draft) (h : s.Sees (u :: ts)) (hcolon : u.is ":" = false) :
    Passes d.readBitfield s (u :: ts) (· = d) := by
  unfold readBitfield
  refine (peek_passes h).bind_eq fun j h => ?_
  rw [if_pos (by simp [hcolon])]
  exact passes_pure h rfl

end Draft

/-! ## The name -/

theorem Token.isKeyword_eq_false {words : List Keyword} (h : t.isAnyKeyword words = false)
    {word : Keyword} (hword : word ∈ words) : t.isKeyword word = false := by
  unfold isAnyKeyword isKeywordWith at h
  rw [isKeyword, beq_eq_false_iff_ne]
  intro hkind
  rw [hkind] at h
  simp [hword] at h

theorem Token.is_of_word (h : Text.isWord t.text.toList = true) (text : String)
    (htext : Text.isWord text.toList = false) : t.is text = false := by
  have hne : t.text ≠ text := by
    rintro rfl
    rw [h] at htext
    cases htext
  simp [Token.is, hne]

/-- An identifier. -/
structure Token.IsName (t : Token) : Prop where
  kind : t.kind = .identifier
  word : Text.isWord t.text.toList = true

namespace Token.IsName

theorem isWord_eq (h : t.IsName) : t.isWord = true := by
  simp [Token.isWord, h.kind]

theorem isEof_eq (h : t.IsName) : t.isEof = false := by
  simp [Token.isEof, h.kind]

theorem isKeyword_eq (h : t.IsName) (word : Keyword) : t.isKeyword word = false := by
  simp [Token.isKeyword, h.kind]

theorem is_eq (h : t.IsName) (text : String) (htext : Text.isWord text.toList = false) :
    t.is text = false :=
  Token.is_of_word h.word text htext

theorem isEmpty_eq (h : t.IsName) : t.text.isEmpty = false := by
  have hne : t.text ≠ "" := by
    intro hempty
    have hword := h.word
    rw [hempty] at hword
    cases hword
  simpa using hne

theorem endsWith_eq (h : t.IsName) : Text.endsWith "::" t.text = false := by
  rw [Bool.eq_false_iff]
  intro hends
  have hcolon : ':' ∈ t.text.toList :=
    (List.isSuffixOf_iff_suffix.mp hends).subset (by decide)
  have hchar := Text.isWordChar_of_isWord h.word ':' hcolon
  exact absurd hchar (by decide)

end Token.IsName

/-- What stands behind a declarator or a name: the parameters, the next parameter, a
default value, or the end of the list. -/
def Token.EndsName (t : Token) : Prop :=
  ∃ text ∈ ["(", ")", ",", "="], t.IsMark text

theorem Token.EndsName.is_eq (h : t.EndsName) (text : String)
    (htext : text ∉ ["(", ")", ",", "="]) : t.is text = false := by
  obtain ⟨mark, hmem, hmark⟩ := h
  rw [hmark.is_eq, beq_eq_false_iff_ne]
  rintro rfl
  exact htext hmem

theorem Token.EndsName.isWord_eq (h : t.EndsName) : t.isWord = false := by
  obtain ⟨mark, -, hmark⟩ := h
  exact hmark.isWord_eq

theorem Token.EndsName.isEof_eq (h : t.EndsName) : t.isEof = false := by
  obtain ⟨mark, -, hmark⟩ := h
  exact hmark.isEof_eq

theorem Token.EndsName.isKeyword_eq (h : t.EndsName) (word : Keyword) :
    t.isKeyword word = false := by
  obtain ⟨mark, -, hmark⟩ := h
  exact hmark.isKeyword_eq word

theorem Token.EndsName.marks_eq (h : t.EndsName) : Draft.marks t = false := by
  simp [Draft.marks, Token.isAny, h.is_eq "*" (by decide), h.is_eq "&" (by decide),
    h.is_eq "&&" (by decide), h.isKeyword_eq]

/-- A token that a name does not go on with. -/
structure Token.StopsName (t : Token) : Prop where
  isEof_eq : t.isEof = false
  isWord_eq : t.isWord = false
  marks : ∀ text ∈ ["::", "<", "*", "&", "&&"], t.is text = false

theorem Token.EndsName.stopsName (h : t.EndsName) : t.StopsName where
  isEof_eq := h.isEof_eq
  isWord_eq := h.isWord_eq
  marks text htext := h.is_eq text (by
    simp only [List.mem_cons, List.not_mem_nil, or_false] at htext
    rcases htext with rfl | rfl | rfl | rfl | rfl <;> decide)

theorem Token.IsMark.stopsName {text : String} (h : t.IsMark text)
    (htext : text ∉ ["::", "<", "*", "&", "&&"]) : t.StopsName where
  isEof_eq := h.isEof_eq
  isWord_eq := h.isWord_eq
  marks other hother := by
    rw [h.is_eq, beq_eq_false_iff_ne]
    rintro rfl
    exact htext hother

theorem Token.StopsName.isKeyword_eq (h : t.StopsName) (word : Keyword) :
    t.isKeyword word = false := by
  have hword := h.isWord_eq
  by_contra hkeyword
  have hkind : t.kind = .keyword word := by simpa [Token.isKeyword] using hkeyword
  simp [Token.isWord, hkind] at hword

namespace DeclaredName

/-- A single name. -/
theorem readPath_passes {scope : Scope} (h : s.Sees (t :: u :: ts)) (ht : t.IsName)
    (hu : u.StopsName) :
    Passes (readPath scope) s (u :: ts) (· = { name := t.text }) := by
  unfold readPath
  refine (peek_passes h).bind_eq fun j h => iterate_passes h fun n hn => ?_
  obtain ⟨n, rfl⟩ : ∃ k, n = k + 1 + 1 := ⟨n - 2, by simp at hn; omega⟩
  refine iterateUpTo_again (?_ : Passes _ _ (u :: ts) fun r =>
    ∃ a, r = Turn.again a ∧ a = (({ name := t.text } : DeclaredName), u)) ?_
  · dsimp only
    rw [if_neg (by simp [ht.isEof_eq]), if_neg (by simp [ht.is_eq "::" (by decide)]),
      if_neg (by simp [ht.isKeyword_eq]), if_neg (by simp [ht.is_eq "<" (by decide)]),
      if_pos (by simp [ht.isWord_eq])]
    refine (advance_passes h).bind_eq fun j h => passes_pure h ⟨_, rfl, ?_⟩
    simp
  · rintro _ j rfl h
    refine iterateUpTo_done ?_
    dsimp only
    rw [if_neg (by simp [hu.isEof_eq]), if_neg (by simp [hu.marks "::" (by simp)]),
      if_neg (by simp [hu.isKeyword_eq]), if_neg (by simp [hu.marks "<" (by simp)]),
      if_neg (by simp [hu.isWord_eq])]
    exact passes_pure h ⟨_, rfl, rfl⟩

/-- There is no name. -/
theorem read_nameless (scope : Scope) (h : s.Sees (u :: ts)) (hopening : u.is "(" = false)
    (hword : u.isWord = false) :
    Passes (DeclaredName.read scope false) s (u :: ts) (· = {}) := by
  unfold DeclaredName.read
  refine (peek_passes h).bind_eq fun j h => ?_
  rw [if_neg (by simp [hopening]), if_neg (by simp), pure_bind]
  dsimp only
  rw [if_neg (by simp)]
  refine (peek_passes h).bind_eq fun j h => ?_
  rw [if_neg (by simp [hword])]
  exact passes_pure h rfl

/-- The name of a declarator, or none. -/
theorem read_passes (scope : Scope) {name : Option Token}
    (h : s.Sees (name.toList ++ u :: ts)) (hname : ∀ t ∈ name, t.IsName) (hu : u.StopsName)
    (hopening : name = none → u.is "(" = false) :
    Passes (DeclaredName.read scope false) s (u :: ts)
      (· = { name := (name.map (·.text)).getD "" }) := by
  cases name with
  | none => exact read_nameless scope h (hopening rfl) hu.isWord_eq
  | some t =>
      have ht := hname t rfl
      unfold DeclaredName.read
      refine (peek_passes h).bind_eq fun j h => ?_
      rw [if_neg (by simp [ht.is_eq "(" (by decide)]), if_neg (by simp), pure_bind]
      dsimp only
      rw [if_neg (by simp)]
      refine (peek_passes h).bind_eq fun j h => ?_
      rw [if_pos ht.isWord_eq]
      exact readPath_passes h ht hu

/-- There are no dimensions. -/
theorem readDims_passes (h : s.Sees (u :: ts)) (hbracket : u.is "[" = false) (dims : List Int) :
    Passes (readDims dims) s (u :: ts) (· = dims) := by
  unfold readDims
  refine (peek_passes h).bind_eq fun j h => iterate_passes h fun n hn => ?_
  obtain ⟨n, rfl⟩ := Nat.exists_eq_add_one.mpr (Nat.lt_of_lt_of_le (Nat.succ_pos _) hn)
  refine iterateUpTo_done ?_
  dsimp only
  by_cases heof : u.isEof = true
  · rw [if_pos heof]
    exact passes_pure h ⟨_, rfl, rfl⟩
  · rw [if_neg heof, if_pos (by simp), if_neg (by simp [hbracket])]
    exact passes_pure h ⟨_, rfl, rfl⟩

end DeclaredName

namespace Declarator

theorem openParens_passes (h : s.Sees (t :: ts)) (ht : t.is "(" = false) :
    Passes openParens s (t :: ts) (· = 0) := by
  unfold openParens
  refine iterate_passes h fun n hn => ?_
  obtain ⟨n, rfl⟩ := Nat.exists_eq_add_one.mpr (Nat.lt_of_lt_of_le (Nat.succ_pos _) hn)
  refine iterateUpTo_done ((peek_passes h).bind_eq fun j h => ?_)
  rw [if_neg (by simp [ht])]
  exact passes_pure h ⟨0, rfl, rfl⟩

theorem closeParens_passes (h : s.Sees (t :: ts)) :
    Passes (closeParens 0) s (t :: ts) (· = ()) := by
  unfold closeParens
  refine iterate_passes h fun n hn => ?_
  obtain ⟨n, rfl⟩ := Nat.exists_eq_add_one.mpr (Nat.lt_of_lt_of_le (Nat.succ_pos _) hn)
  refine iterateUpTo_done ?_
  rw [if_neg (by simp)]
  exact passes_pure h ⟨(), rfl, rfl⟩

/-- The first declarator of a statement is not searched for. -/
theorem skipTo_zero_passes (h : s.Sees (t :: ts)) :
    Passes (skipTo 0) s (t :: ts) (· = true) := by
  unfold skipTo
  refine (peek_passes h).bind_eq fun j h => iterate_passes h fun n hn => ?_
  obtain ⟨n, rfl⟩ := Nat.exists_eq_add_one.mpr (Nat.lt_of_lt_of_le (Nat.succ_pos _) hn)
  refine iterateUpTo_done ?_
  dsimp only
  rw [if_pos (by simp)]
  exact passes_pure h ⟨true, rfl, rfl⟩

end Declarator

/-! ## Parameters that are not there -/

/-- Without an opening parenthesis there are no parameters. -/
theorem Parameters.readWith_absent (readDeclarator : DeclaratorReader) (scope : Scope)
    (choice : Int) (keep : Option Nat) (h : s.Sees (t :: ts)) (ht : t.is "(" = false) :
    Passes (Parameters.readWith readDeclarator scope choice keep) s (t :: ts) (· = none) := by
  unfold Parameters.readWith
  refine (peek_passes h).bind_eq fun j h => ?_
  rw [if_pos (by simp [ht])]
  exact passes_pure h rfl

/-- A declarator without parameters stays as it is. -/
theorem Draft.readParameters_absent (d : Draft) (readDeclarator : DeclaratorReader)
    (request : DeclaratorRequest) (n : DeclaredName) (isTypedef : Bool) (h : s.Sees (t :: ts))
    (ht : t.is "(" = false) :
    Passes (d.readParameters readDeclarator request n isTypedef) s (t :: ts) (· = d) := by
  unfold Draft.readParameters
  exact (Parameters.readWith_absent readDeclarator _ _ _ h ht).bind_eq fun j h => passes_pure h rfl

/-! ## What is found of the type -/

namespace Draft

/-- Looking up the rule for the shape gives this, and leaves everything as it is. -/
def Finds (table : RuleTable) (usings : List String) (scope : Scope) (d : Draft)
    (found : Draft × Option Rule) : Prop :=
  ∀ (s : Reading) (t : Token) (ts : List Token), s.table = table → s.usings = usings →
    s.Sees (t :: ts) → d.findRule scope false s = .ok found s

/-- A type with a rule of its own, and one that is no template instance, is no
adapter. -/
theorem finds_of_plain {table : RuleTable} {usings : List String} {scope : Scope} {d : Draft}
    {rule : Option Rule} (hrule : table.findWith? d.lookupName false = rule)
    (hnative : ∀ r ∈ rule, r.nativeTypes.getD [] = [])
    (harguments : rule = none → d.type.arguments = none) :
    d.Finds table usings scope (d, rule) := by
  rintro s t ts rfl rfl h
  have htable : ReadM.table s = .ok s.table s := rfl
  unfold findRule
  rw [bind_of_ok htable, hrule]
  dsimp only
  cases rule with
  | none =>
      have hadapter : (some d.type).bind (adapterRule? s.table) = none := by
        rw [Option.bind_some, adapterRule?, harguments rfl]
      rw [if_neg (by simp)]
      have hpure : (pure (some d.type) : ReadM (Option NativeType)) s = .ok (some d.type) s := rfl
      refine (bind_of_ok hpure _).trans ?_
      rw [bind_of_ok htable, hadapter]
      rfl
  | some r =>
      rw [if_pos (by simp [hnative r rfl])]
      rfl

/-- Whatever the type is looked up as, at most the draft is adapted. -/
theorem eq_or_adapt_of_adapter {d : Draft} {adapter : Option NativeType} {rule : Option Rule}
    {s₁ s₂ : Reading} {found : Draft × Option Rule} (hrun : (do
      let t ← ReadM.table
      match adapter.bind (adapterRule? t) with
      | some (argument, adapting) =>
        let d := d.adapt argument adapting
        pure (d, t.findWith? d.type.nativeName false)
      | none => pure (d, rule)) s₁ = .ok found s₂) :
    found.1 = d ∨ ∃ argument rule, found.1 = d.adapt argument rule := by
  obtain ⟨t, _, -, hrun⟩ := bind_eq_ok hrun
  cases hadapter : adapter.bind (adapterRule? t) with
  | none =>
      rw [hadapter] at hrun
      cases hrun
      exact Or.inl rfl
  | some adapted =>
      rw [hadapter] at hrun
      cases hrun
      exact Or.inr ⟨_, _, rfl⟩

/-- What is found is of the draft itself, or of what an adapter makes of it. -/
theorem findRule_eq_or_adapt {d : Draft} {scope : Scope} {isTypedef : Bool} {s s' : Reading}
    {found : Draft × Option Rule} (h : d.findRule scope isTypedef s = .ok found s') :
    found.1 = d ∨ ∃ argument rule, found.1 = d.adapt argument rule := by
  unfold findRule at h
  obtain ⟨t, _, -, hrun⟩ := bind_eq_ok h
  dsimp only at hrun
  generalize t.findWith? d.lookupName false = rule at hrun
  split at hrun
  · cases hrun
    exact Or.inl rfl
  · cases htext : rule.bind (·.nativeType?) with
    | none =>
        rw [htext] at hrun
        exact eq_or_adapt_of_adapter hrun
    | some text =>
        rw [htext] at hrun
        obtain ⟨adapter, _, -, hrun⟩ := bind_eq_ok hrun
        exact eq_or_adapt_of_adapter hrun

theorem Finds.eq_or_adapt {table : RuleTable} {usings : List String} {scope : Scope} {d : Draft}
    {found : Draft × Option Rule} (h : d.Finds table usings scope found) :
    found.1 = d ∨ ∃ argument rule, found.1 = d.adapt argument rule := by
  let s : Reading := { Reading.ofTokens table [] with usings }
  have hsees : s.Sees [Window.endToken #[]] :=
    ⟨rfl, Nat.succ_pos _, Nat.le_refl 0, .done (Nat.le_refl 0)⟩
  exact findRule_eq_or_adapt (h s _ [] rfl rfl hsees)

/-- The draft with the target type and the annotations that follow from what was found. -/
def mapped (found : Draft × Option Rule) (scope : Scope) (choice : Int) : Draft :=
  match found.2 with
  | some rule =>
    let (d, m) := found.1.mapBy scope rule choice false
    d.annotateShape m choice
  | none => found.1.annotateShape {} choice

theorem readMapping_passes {d : Draft} {found : Draft × Option Rule} {request : DeclaratorRequest}
    (hview : request.view = .plain) (h : s.Sees (t :: ts))
    (hfinds : d.Finds s.table s.usings request.scope found) :
    Passes (d.readMapping request false false) s (t :: ts)
      (· = mapped found request.scope request.choice) := by
  obtain ⟨d', rule⟩ := found
  have hfound := hfinds s t ts rfl rfl h
  unfold readMapping
  rw [hview]
  refine Passes.bind_eq (passes_of_eq hfound h) fun j h => ?_
  cases rule with
  | none => exact passes_pure h rfl
  | some rule => exact passes_pure h rfl

end Draft

/-! ## What the mapping leaves as it is -/

namespace Draft

/-- Two drafts of one shape. -/
structure Like (d d' : Draft) : Prop where
  typeName : d'.type.nativeName = d.type.nativeName
  destructor : d'.type.destructor = d.type.destructor
  stars : d'.declarator.indirections = d.declarator.indirections
  reference : d'.declarator.reference = d.declarator.reference
  definition : d'.declarator.definition = d.declarator.definition
  parameters : d'.declarator.parameters = d.declarator.parameters
  dims : d'.declarator.dims = d.declarator.dims
  constValue : d'.type.constValue = d.type.constValue
  cast : d'.cast = d.cast
  isConstructor : d'.type.constructor = d.type.constructor

theorem Like.refl (d : Draft) : d.Like d :=
  ⟨rfl, rfl, rfl, rfl, rfl, rfl, rfl, rfl, rfl, rfl⟩

theorem Like.trans {d d' d'' : Draft} (h : d.Like d') (h' : d'.Like d'') : d.Like d'' :=
  ⟨h'.typeName.trans h.typeName, h'.destructor.trans h.destructor, h'.stars.trans h.stars,
    h'.reference.trans h.reference, h'.definition.trans h.definition,
    h'.parameters.trans h.parameters, h'.dims.trans h.dims, h'.constValue.trans h.constValue,
    h'.cast.trans h.cast, h'.isConstructor.trans h.isConstructor⟩

theorem like_annotate (d : Draft) (f : String → String) : d.Like (d.annotate f) :=
  ⟨rfl, rfl, rfl, rfl, rfl, rfl, rfl, rfl, rfl, rfl⟩

theorem like_annotatePassing (d : Draft) (m : Mapping) (choice : Int) :
    d.Like (d.annotatePassing m choice).1 := by
  unfold annotatePassing
  dsimp only
  split
  · exact ⟨rfl, rfl, rfl, rfl, rfl, rfl, rfl, rfl, rfl, rfl⟩
  split
  · exact ⟨rfl, rfl, rfl, rfl, rfl, rfl, rfl, rfl, rfl, rfl⟩
  split
  · exact ⟨rfl, rfl, rfl, rfl, rfl, rfl, rfl, rfl, rfl, rfl⟩
  split
  · exact ⟨rfl, rfl, rfl, rfl, rfl, rfl, rfl, rfl, rfl, rfl⟩
  split
  · split <;> exact ⟨rfl, rfl, rfl, rfl, rfl, rfl, rfl, rfl, rfl, rfl⟩
  · exact .refl d

theorem like_annotateConst (d : Draft) (m : Mapping) : d.Like (d.annotateConst m) := by
  unfold annotateConst
  split
  · exact like_annotate _ _
  · exact .refl d

theorem like_annotateCast (d : Draft) (m : Mapping) : d.Like (d.annotateCast m) := by
  unfold annotateCast
  split
  · exact .refl d
  · dsimp only
    split <;> exact like_annotate _ _

theorem like_annotateShape (d : Draft) (m : Mapping) (choice : Int) :
    d.Like (d.annotateShape m choice) := by
  unfold annotateShape
  split
  · exact like_annotateCast d m
  · exact (like_annotatePassing d m choice).trans
      ((like_annotateConst _ _).trans (like_annotateCast _ _))

theorem like_mapBy (d : Draft) (scope : Scope) (rule : Rule) (choice : Int) (needsCast : Bool) :
    d.Like (d.mapBy scope rule choice needsCast).1 := by
  unfold mapBy
  dsimp only
  split <;> exact ⟨rfl, rfl, rfl, rfl, rfl, rfl, rfl, rfl, rfl, rfl⟩

/-- The mapping changes the target type and annotations only. -/
theorem like_mapped (found : Draft × Option Rule) (scope : Scope) (choice : Int) :
    found.1.Like (mapped found scope choice) := by
  unfold mapped
  split
  next rule _ => exact (like_mapBy _ scope rule choice false).trans (like_annotateShape _ _ _)
  · exact like_annotateShape _ _ _

end Draft

/-! ## All of it -/

/-- A declarator as it is written, up to its name. -/
structure Spelling where
  /-- The tokens of the type. -/
  words : List Token
  /-- What they are read as. -/
  type : NativeType
  /-- Marks of pointers and references behind them, and `const`. -/
  marks : List Token
  name : Option Token
  words_ne : words ≠ []
  words_plain : ∀ t ∈ words.head?, t.isEof = false ∧ t.is ")" = false ∧
    t.isAnyKeyword [.typedef_, .using_, .friend_] = false
  marks_marks : ∀ t ∈ marks, Draft.marks t = true ∧ t.is "(" = false
  isName : ∀ t ∈ name, t.IsName

namespace Spelling

/-- What stands behind the type. -/
def tail (p : Spelling) : List Token :=
  p.marks ++ p.name.toList

def tokens (p : Spelling) : List Token :=
  p.words ++ p.tail

/-- The type and its marks. -/
def draft (p : Spelling) : Draft :=
  ((Draft.ofType p.type true).pushMarks p.marks).withDims .plain []

/-- The name, or the one that is made up. -/
def title (p : Spelling) (request : DeclaratorRequest) : String :=
  (p.name.map (·.text)).getD (request.defaultName.getD "")

/-- The declarator that is read. -/
def declarator (p : Spelling) (table : RuleTable) (usings : List String)
    (found : Draft × Option Rule) (request : DeclaratorRequest) : Draft :=
  let d := Draft.mapped found request.scope request.choice
  let d := { d with declarator.nativeName := p.title request }
  d.nameBy table request.scope usings p.draft.hint false request.defaultName.isSome

/-- The tokens of the type are read as it, whatever stands behind the declarator. -/
def Reads (p : Spelling) (table : RuleTable) (usings : List String) (scope : Scope) : Prop :=
  ∀ (s : Reading) (u : Token) (ts : List Token), s.table = table → s.usings = usings →
    u.EndsName → s.Sees (p.words ++ (p.tail ++ u :: ts)) →
    Passes (NativeType.read scope) s (p.tail ++ u :: ts) (· = some p.type)

/-- Marks leave the type and the rest of the declarator as they are. -/
theorem pushMarks_leaves (d : Draft) (ms : List Token) :
    (d.pushMarks ms).type = d.type ∧
      (d.pushMarks ms).declarator.definition = d.declarator.definition := by
  unfold Draft.pushMarks
  induction ms generalizing d with
  | nil => exact ⟨rfl, rfl⟩
  | cons t ms ih =>
      have hone : ((d.pushMark? t).getD d).type = d.type ∧
          ((d.pushMark? t).getD d).declarator.definition = d.declarator.definition := by
        unfold Draft.pushMark?
        dsimp only
        split
        · exact ⟨rfl, rfl⟩
        split
        · exact ⟨rfl, rfl⟩
        split
        · exact ⟨rfl, rfl⟩
        split <;> exact ⟨rfl, rfl⟩
      exact ⟨(ih _).1.trans hone.1, (ih _).2.trans hone.2⟩

/-- What is found needs no definition, and is a destructor only if the type is. -/
theorem found_leaves {p : Spelling} {table : RuleTable} {usings : List String} {scope : Scope}
    {found : Draft × Option Rule} (h : p.draft.Finds table usings scope found) :
    found.1.declarator.definition = none ∧ found.1.type.destructor = p.type.destructor := by
  obtain ⟨htype, hdefinition⟩ := pushMarks_leaves (Draft.ofType p.type true) p.marks
  have hdraft : p.draft.declarator.definition = none ∧
      p.draft.type.destructor = p.type.destructor :=
    ⟨hdefinition, congrArg NativeType.destructor htype⟩
  rcases h.eq_or_adapt with hsame | ⟨argument, rule, hadapted⟩
  · rw [hsame]
    exact hdraft
  · rw [hadapted]
    exact hdraft

/-- What is found of the type, with a name, is of the same shape. -/
theorem like_declarator (p : Spelling) (table : RuleTable) (usings : List String)
    (found : Draft × Option Rule) (request : DeclaratorRequest) :
    found.1.Like (p.declarator table usings found request) :=
  (Draft.like_mapped found request.scope request.choice).trans ⟨rfl, rfl, rfl, rfl, rfl, rfl, rfl, rfl, rfl, rfl⟩

/-- A name changes nothing of the target type. -/
theorem declarator_targetName (p : Spelling) (table : RuleTable) (usings : List String)
    (found : Draft × Option Rule) (request : DeclaratorRequest) :
    (p.declarator table usings found request).type.targetName =
      (Draft.mapped found request.scope request.choice).type.targetName :=
  rfl

variable {p : Spelling} {request : DeclaratorRequest} {found : Draft × Option Rule}

/-- Behind the type, the declarator is read up to the parameters. -/
theorem readBehind_eq (readDeclarator : DeclaratorReader) (h : s.Sees (p.tail ++ u :: ts))
    (hu : u.EndsName) (hopening : p.name = none → u.is "(" = false)
    (hview : request.view = .plain) (hnumber : request.number = 0)
    (hplain : ∀ t ∈ p.name, (s.table.find? t.text).any (·.isAttribute) = false)
    (hfinds : p.draft.Finds s.table s.usings request.scope found) :
    ∃ j, (s.atIndex j).Sees (u :: ts) ∧
      Declarator.readBehind readDeclarator request p.type false false s =
        (do
          let d ← (p.declarator s.table s.usings found request).readParameters readDeclarator request
            { name := p.title request } false
          Declarator.closeParens 0
          return d.declarator) (s.atIndex j) := by
  have htail : p.tail ++ u :: ts = p.marks ++ (p.name.toList ++ u :: ts) := by simp [tail]
  obtain ⟨first, rest, hfirst, hmark, hbracket, hparen, hunannotated⟩ :
      ∃ first rest, p.name.toList ++ u :: ts = first :: rest ∧ Draft.marks first = false ∧
        first.is "[" = false ∧ first.is "(" = false ∧ (first.isWord = true →
          rest ≠ [] ∧ (s.table.find? first.text).any (·.isAttribute) = false) := by
    cases hname : p.name with
    | none =>
        exact ⟨u, ts, rfl, hu.marks_eq, hu.is_eq "[" (by decide), hopening hname, fun hword => by
          rw [hu.isWord_eq] at hword
          cases hword⟩
    | some t =>
        have ht := p.isName t hname
        refine ⟨t, u :: ts, rfl, ?_, ht.is_eq "[" (by decide), ht.is_eq "(" (by decide),
          fun _ => ⟨List.cons_ne_nil _ _, hplain t hname⟩⟩
        simp [Draft.marks, Token.isAny, ht.is_eq "*" (by decide), ht.is_eq "&" (by decide),
          ht.is_eq "&&" (by decide), ht.isKeyword_eq]
  rw [htail, hfirst] at h
  obtain ⟨_, i, hmarks, h, rfl⟩ :=
    Draft.readMarks_passes (fun t ht => (p.marks_marks t ht).1) hmark (Draft.ofType p.type true) h
  obtain ⟨_, i₁, hattributes, h, rfl⟩ := Draft.readAttributes_passes
    ((Draft.ofType p.type true).pushMarks p.marks) h hbracket hunannotated
  obtain ⟨_, i₂, hparens, h, rfl⟩ := Declarator.openParens_passes h hparen
  rw [← hfirst] at h
  obtain ⟨_, i₃, hname, h, rfl⟩ :=
    DeclaredName.read_passes request.scope h p.isName hu.stopsName hopening
  obtain ⟨_, i₄, hdims, h, rfl⟩ := DeclaredName.readDims_passes h (hu.is_eq "[" (by decide)) []
  obtain ⟨_, i₅, hbitfield, h, rfl⟩ := Draft.readBitfield_passes p.draft h (hu.is_eq ":" (by decide))
  obtain ⟨_, i₆, hmapping, h, rfl⟩ := Draft.readMapping_passes hview h hfinds
  refine ⟨i₆, h, ?_⟩
  have hfirst : (request.number == 0) = true := by simp [hnumber]
  unfold Declarator.readBehind
  rw [hfirst, bind_of_ok hmarks, bind_of_ok hattributes]
  dsimp only
  rw [bind_of_ok hparens, bind_of_ok hname]
  dsimp only
  rw [bind_of_ok hdims]
  have htitle : (if ((p.name.map (·.text)).getD "").isEmpty = true then request.defaultName.getD ""
      else (p.name.map (·.text)).getD "") = p.title request := by
    unfold title
    cases hname : p.name with
    | none => rfl
    | some t => simp [(p.isName t hname).isEmpty_eq]
  have hspread : ({ name := p.title request } : DeclaredName).spreadStars =
      { name := p.title request } := rfl
  have hget : (get : ReadM Reading) (s.atIndex i₆) = .ok (s.atIndex i₆) (s.atIndex i₆) := rfl
  rw [htitle, hspread, hview]
  refine (bind_of_ok hbitfield _).trans ((bind_of_ok hmapping _).trans ((bind_of_ok hget _).trans ?_))
  rfl

/-- The type is read, and what stands behind it up to the parameters. -/
theorem readWith_eq (request : DeclaratorRequest) (readDeclarator : DeclaratorReader)
    (h : s.Sees (p.tokens ++ u :: ts)) (hu : u.EndsName)
    (hopening : p.name = none → u.is "(" = false)
    (hview : request.view = .plain) (hnumber : request.number = 0)
    (hplain : ∀ t ∈ p.name, (s.table.find? t.text).any (·.isAttribute) = false)
    (hreads : p.Reads s.table s.usings request.scope)
    (hfinds : p.draft.Finds s.table s.usings request.scope found) :
    ∃ j, (s.atIndex j).Sees (u :: ts) ∧
      Declarator.readWith readDeclarator request s =
        (do
          let d ← (p.declarator s.table s.usings found request).readParameters readDeclarator request
            { name := p.title request } false
          Declarator.closeParens 0
          return some d.declarator) (s.atIndex j) := by
  have htokens : p.tokens ++ u :: ts = p.words ++ (p.tail ++ u :: ts) := by simp [tokens]
  obtain ⟨word, more, hwords⟩ := List.exists_cons_of_ne_nil p.words_ne
  obtain ⟨-, -, hword⟩ := p.words_plain word (by rw [hwords]; rfl)
  have hkeyword : word.isKeyword .typedef_ = false ∧ word.isKeyword .using_ = false :=
    ⟨Token.isKeyword_eq_false hword (by decide), Token.isKeyword_eq_false hword (by decide)⟩
  rw [htokens] at h
  have hpeek : peek s = .ok word s := peek_of_sees (by rw [hwords] at h; exact h)
  obtain ⟨_, i, htype, h, rfl⟩ := hreads s u ts rfl rfl hu h
  obtain ⟨first, rest, hfirst⟩ : ∃ first rest, p.tail ++ u :: ts = first :: rest := by
    cases p.tail with
    | nil => exact ⟨u, ts, rfl⟩
    | cons t tail => exact ⟨t, tail ++ u :: ts, rfl⟩
  obtain ⟨_, j, hskip, h, rfl⟩ := Declarator.skipTo_zero_passes (hfirst ▸ h)
  rw [← hfirst] at h
  obtain ⟨k, h, hbehind⟩ := readBehind_eq readDeclarator h hu hopening hview hnumber hplain hfinds
  refine ⟨k, h, ?_⟩
  unfold Declarator.readWith
  rw [bind_of_ok hpeek, bind_of_ok hpeek, bind_of_ok htype]
  dsimp only
  rw [hnumber, bind_of_ok hskip, if_neg (by simp), hkeyword.1, hkeyword.2]
  refine (bind_congr_run hbehind _).trans ?_
  simp only [bind_assoc, pure_bind]
  rfl

/-- A declarator without parameters. -/
theorem readWith_passes (readDeclarator : DeclaratorReader) (h : s.Sees (p.tokens ++ u :: ts))
    (hu : u.EndsName) (hopening : u.is "(" = false)
    (hview : request.view = .plain) (hnumber : request.number = 0)
    (hplain : ∀ t ∈ p.name, (s.table.find? t.text).any (·.isAttribute) = false)
    (hreads : p.Reads s.table s.usings request.scope)
    (hfinds : p.draft.Finds s.table s.usings request.scope found) :
    Passes (Declarator.readWith readDeclarator request) s (u :: ts)
      (· = some (p.declarator s.table s.usings found request).declarator) := by
  obtain ⟨j, h, hread⟩ := readWith_eq request readDeclarator h hu (fun _ => hopening) hview hnumber hplain
    hreads hfinds
  unfold Passes
  rw [hread]
  refine (Draft.readParameters_absent _ readDeclarator request _ false h hopening).bind_eq
    fun k h => ?_
  exact (Declarator.closeParens_passes h).bind_eq fun k h => passes_pure h rfl

end Spelling

end HeaderPeers

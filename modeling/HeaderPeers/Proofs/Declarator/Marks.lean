import HeaderPeers.Proofs.Declarator.Dimensions
import HeaderPeers.Proofs.Overload
import HeaderPeers.Proofs.TokenTexts
import HeaderPeers.Proofs.Window.Transparency

/-!
# Marks behind a type

Pointers, references and `const` behind the name of a type, as they are written and as a text puts
them together.

- `Mark` — a mark, and `Mark.Precedes`, which marks may follow each other.
- `Mark.texts_spell` — the tokens of marks that are put together.
- `Draft.Spells` — a draft whose cast is the type with marks behind it.
- `Declarator.spells_of_readFront` — the front of a declarator spells what is written.
-/

namespace HeaderPeers

open ReadM

/-! ## Marks and their tokens -/

/-- A mark behind the name of a type. -/
inductive Mark where
  | const
  | pointer
  | reference
  | rvalue
deriving DecidableEq, Repr

namespace Mark

def text : Mark → String
  | const => "const"
  | pointer => "*"
  | reference => "&"
  | rvalue => "&&"

/-- The mark that a token is. -/
def ofToken (t : Token) : Mark :=
  if t.is "*" then pointer
  else if t.is "&" then reference
  else if t.is "&&" then rvalue
  else const

/-- Whether the mark makes a reference. -/
def refers (m : Mark) : Bool :=
  m == reference || m == rvalue

/-- One mark may stand behind another: anything behind a pointer, no second `const`, and nothing
behind a reference. -/
def Precedes (m m' : Mark) : Prop :=
  m = pointer ∨ m = const ∧ m' ≠ const

instance (m m' : Mark) : Decidable (m.Precedes m') :=
  inferInstanceAs (Decidable (_ ∨ _))

/-- The text of marks. -/
def spell (ms : List Mark) : List Char :=
  ms.flatMap (·.text.toList)

@[simp] theorem spell_nil : spell [] = [] := rfl

@[simp] theorem spell_cons (m : Mark) (ms : List Mark) :
    spell (m :: ms) = m.text.toList ++ spell ms := rfl

@[simp] theorem spell_append (ms ms' : List Mark) : spell (ms ++ ms') = spell ms ++ spell ms' :=
  List.flatMap_append

/-- The mark is a token of its own in front of more text. -/
def Parts (m : Mark) (rest : List Char) : Prop :=
  Token.texts (m.text.toList ++ rest) = m.text :: Token.texts rest

theorem parts_pointer {rest : List Char} (h : rest.head? ≠ some '=') : pointer.Parts rest := by
  have hread : Lexeme.read '*' rest = .verbatim .punct ['*'] rest := by
    cases rest with
    | nil => rfl
    | cons c rest =>
        have hpair : ¬ Lexeme.pairs.contains ('*', c) = true := by
          have hc : c ≠ '=' := fun hc => h (by rw [hc]; rfl)
          simp [Lexeme.pairs, hc]
        change Lexeme.operator '*' (c :: rest) = _
        rw [Lexeme.operator.eq_3 _ _ _ (by simp) (by simp), if_neg hpair]
  unfold Parts
  change Token.texts ('*' :: rest) = _
  rw [Token.texts_cons (by decide), hread]
  rfl

theorem parts_const {rest : List Char} (h : ∀ c ∈ rest.head?, Text.isWordChar c = false) :
    const.Parts rest := by
  have hread : Lexeme.read 'c' ("onst".toList ++ rest) =
      { kind := .keyword .const_, text := "const".toList, source := "const".toList, rest } := by
    cases rest with
    | nil => rfl
    | cons c rest =>
        change Lexeme.word 'c' ("onst".toList ++ c :: rest) = _
        rw [Lexeme.word_append (h c rfl)]
        rfl
  unfold Parts
  change Token.texts ('c' :: ("onst".toList ++ rest)) = _
  rw [Token.texts_cons (by decide), hread]
  rfl

theorem parts_reference {rest : List Char} (h : rest = [] ∨ ∃ more, rest = '(' :: more) :
    reference.Parts rest := by
  have hread : Lexeme.read '&' rest = .verbatim .punct ['&'] rest := by
    rcases h with rfl | ⟨more, rfl⟩ <;> rfl
  unfold Parts
  change Token.texts ('&' :: rest) = _
  rw [Token.texts_cons (by decide), hread]
  rfl

theorem parts_rvalue (rest : List Char) : rvalue.Parts rest := by
  unfold Parts
  change Token.texts ('&' :: '&' :: rest) = _
  rw [Token.texts_cons (by decide)]
  rfl

/-- Every mark ends in front of a parenthesis. -/
theorem parts_of_opening (m : Mark) {rest : List Char}
    (h : rest = [] ∨ ∃ more, rest = '(' :: more) : m.Parts rest := by
  cases m with
  | const =>
      refine parts_const ?_
      rcases h with rfl | ⟨more, rfl⟩
      · simp
      · rintro c hc
        obtain rfl := Option.some.inj hc
        decide
  | pointer => exact parts_pointer (by rcases h with rfl | ⟨more, rfl⟩ <;> simp)
  | reference => exact parts_reference h
  | rvalue => exact parts_rvalue rest

/-- A mark ends in front of one that may follow. -/
theorem parts_of_precedes {m m' : Mark} (h : m.Precedes m') (more : List Char) :
    m.Parts (m'.text.toList ++ more) := by
  rcases h with rfl | ⟨rfl, hne⟩
  · refine parts_pointer ?_
    cases m' <;> simp [text]
  · refine parts_const ?_
    cases m' with
    | const => exact absurd rfl hne
    | pointer => simp [text]; decide
    | reference => simp [text]; decide
    | rvalue => simp [text]; decide

/-- **Tokens of marks** that are put together are the marks, by induction on them. -/
theorem texts_spell {ms : List Mark} {rest : List Char} (h : ms.IsChain Precedes)
    (hrest : ∀ m ∈ ms.getLast?, m.Parts rest) :
    Token.texts (spell ms ++ rest) = ms.map text ++ Token.texts rest := by
  induction ms with
  | nil => rfl
  | cons m ms ih =>
      cases ms with
      | nil => simpa [Parts] using hrest m rfl
      | cons m' ms =>
          obtain ⟨hm, hms⟩ := List.isChain_cons_cons.mp h
          have hmore := ih hms (by simpa using hrest)
          have hparts := parts_of_precedes hm (spell ms ++ rest)
          rw [spell_cons, List.append_assoc]
          rw [spell_cons, List.append_assoc] at hmore ⊢
          rw [hparts, hmore]
          rfl

end Mark

/-! ## The text of a type with its marks -/

namespace NativeType

/-- The marks that are read as part of the type. Behind a comma, the pointers of the type belong to
the declarator before it. -/
def marks (type : NativeType) (isFirst : Bool) : List Mark :=
  (if type.constPointer then [Mark.const] else []) ++
    if isFirst then
      List.replicate type.indirections Mark.pointer ++
        (if type.reference then [if type.rvalue then Mark.rvalue else Mark.reference] else [])
    else []

/-- The name of a type with marks behind it; a blank stands in front of a `const` of the type. -/
def withMarks (type : NativeType) (ms : List Mark) : List Char :=
  type.nativeName.toList ++ (if type.constPointer then [' '] else []) ++ Mark.spell ms

end NativeType

namespace Draft

/-- The cast of the draft is its type with these marks, and its shape is what they make. -/
structure Spells (d : Draft) (ms : List Mark) : Prop where
  cast : d.cast.toList = d.type.withMarks ms
  stars : d.declarator.indirections = ms.count .pointer
  reference : d.declarator.reference = ms.any Mark.refers

theorem spells_ofType (type : NativeType) (isFirst : Bool) :
    (ofType type isFirst).Spells (type.marks isFirst) where
  cast := by
    have hstars (n : Nat) : Mark.spell (List.replicate n .pointer) = List.replicate n '*' := by
      induction n with
      | zero => rfl
      | succ n ih => rw [List.replicate_succ, Mark.spell_cons, ih]; rfl
    change _ = type.withMarks _
    unfold ofType NativeType.withMarks NativeType.marks
    cases type.constPointer <;> cases isFirst <;> cases type.reference <;> cases type.rvalue <;>
      simp [hstars, Mark.text]
  stars := by
    unfold ofType NativeType.marks
    cases type.constPointer <;> cases isFirst <;> cases type.reference <;> cases type.rvalue <;>
      simp
  reference := by
    unfold ofType NativeType.marks
    cases type.constPointer <;> cases isFirst <;> cases type.reference <;> cases type.rvalue <;>
      simp [Mark.refers]

end Draft

/-- The text of `const` is that word. -/
theorem Token.Spelt.text_const {t : Token} (h : t.Spelt) (ht : t.isKeyword .const_ = true) :
    t.text = "const" := by
  have hword : Keyword.spellings.lookup t.text = some .const_ :=
    h .const_ (by simpa [isKeyword] using ht)
  obtain ⟨before, after, hsplit, -⟩ := List.lookup_eq_some_iff.mp hword
  have hmem : (t.text, Keyword.const_) ∈ Keyword.spellings := by rw [hsplit]; simp
  simpa [Keyword.spellings] using hmem

namespace Draft

variable {d : Draft} {ms : List Mark} {t : Token}

/-- One more mark. -/
theorem Spells.pushMark (h : d.Spells ms) (ht : marks t = true) (hspelt : t.Spelt) :
    ((d.pushMark? t).getD d).Spells (ms ++ [Mark.ofToken t]) := by
  have hsame : ((d.pushMark? t).getD d).type = d.type :=
    (Spelling.pushMarks_leaves d [t]).1
  have htext : t.text = (Mark.ofToken t).text ∧ ((d.pushMark? t).getD d).cast = d.cast ++ t.text ∧
      ((d.pushMark? t).getD d).declarator.indirections =
        d.declarator.indirections + [Mark.ofToken t].count .pointer ∧
      ((d.pushMark? t).getD d).declarator.reference =
        (d.declarator.reference || (Mark.ofToken t).refers) := by
    unfold pushMark? Mark.ofToken
    dsimp only
    have hsymbol {text : String} (h : t.is text = true) : t.text = text := by
      simpa using (Bool.and_eq_true_iff.mp h).2
    by_cases hstar : t.is "*" = true
    · simp [hstar, Mark.text, Mark.refers, hsymbol hstar]
    by_cases hreference : t.is "&" = true
    · simp [hstar, hreference, Mark.text, Mark.refers, hsymbol hreference]
    by_cases hrvalue : t.is "&&" = true
    · simp [hstar, hreference, hrvalue, Mark.text, Mark.refers, hsymbol hrvalue]
    have hconst : t.isKeyword .const_ = true := by
      simpa [marks, Token.isAny, hstar, hreference, hrvalue] using ht
    simp [hstar, hreference, hrvalue, hconst, Mark.text, Mark.refers, hspelt.text_const hconst]
  obtain ⟨htext, hcast, hstars, hreference⟩ := htext
  refine ⟨?_, ?_, ?_⟩
  · rw [hcast, String.toList_append, h.cast, hsame, htext]
    simp [NativeType.withMarks]
  · rw [hstars, h.stars, List.count_append]
  · rw [hreference, h.reference, List.any_append]
    simp

/-- All marks, by induction on them. -/
theorem Spells.pushMarks {ts : List Token} (h : d.Spells ms)
    (hts : ∀ t ∈ ts, marks t = true ∧ t.Spelt) :
    (d.pushMarks ts).Spells (ms ++ ts.map .ofToken) := by
  induction ts generalizing d ms with
  | nil => simpa [Draft.pushMarks] using h
  | cons t ts ih =>
      obtain ⟨ht, hts⟩ := List.forall_mem_cons.mp hts
      have hmore := ih (h.pushMark ht.1 ht.2) hts
      rwa [List.append_assoc] at hmore

theorem Spells.annotate (h : d.Spells ms) (f : String → String) : (d.annotate f).Spells ms :=
  ⟨h.cast, h.stars, h.reference⟩

end Draft

namespace Declarator

variable {request : DeclaratorRequest} {s s₁ s₂ s₃ : Reading} {word t : Token}
  {words marks ts : List Token} {type : NativeType} {f : Front}

/-- **The front of a declarator** spells the type that is read and the marks behind it. -/
theorem spells_of_readFront (hstart : s.Sees (word :: words))
    (htype : NativeType.read request.scope s = .ok (some type) s₁)
    (hskip : skipTo request.number s₁ = .ok true s₂) (hmarks : s₂.Sees (marks ++ t :: ts))
    (hspelt : ∀ m ∈ marks, Draft.marks m = true ∧ m.Spelt) (ht : Draft.marks t = false)
    (hfront : readFront request s = .ok (some f) s₃) :
    f.draft.Spells (type.marks (request.number == 0) ++ marks.map .ofToken) ∧
      f.draft.type = { type with annotations := f.draft.type.annotations } := by
  have hpeek : peek s = .ok word s := peek_of_sees hstart
  obtain ⟨_, j, hread, -, rfl⟩ := Draft.readMarks_passes (fun m hm => (hspelt m hm).1) ht
    (Draft.ofType type (request.number == 0)) hmarks
  unfold readFront at hfront
  rw [bind_of_ok hpeek, bind_of_ok hpeek, bind_of_ok htype] at hfront
  dsimp only at hfront
  rw [bind_of_ok hskip, if_neg (by simp), bind_of_ok hread] at hfront
  obtain ⟨⟨draft, hint⟩, s₄, hattributes, hfront⟩ := bind_eq_ok hfront
  obtain ⟨parens, s₅, -, hfront⟩ := bind_eq_ok hfront
  obtain ⟨name, s₆, -, hfront⟩ := bind_eq_ok hfront
  cases hfront
  have hpushed : ((Draft.ofType type (request.number == 0)).pushMarks marks).type = type :=
    (Spelling.pushMarks_leaves _ marks).1
  exact Overload.readAttributes_yields
    (I := fun d => d.Spells (type.marks (request.number == 0) ++ marks.map .ofToken) ∧
      d.type = { type with annotations := d.type.annotations })
    (fun d f hd => ⟨hd.1.annotate f,
      congrArg (fun type => { type with annotations := f d.type.annotations }) hd.2⟩)
    ⟨(Draft.spells_ofType type _).pushMarks hspelt, by
      rw [hpushed]
      cases type
      rfl⟩ _ _ _ hattributes

end Declarator

end HeaderPeers

import HeaderPeers.Proofs.Declarator.Marks
import HeaderPeers.Proofs.Variable.Declared

/-!
# The native type in a cast

The text of a cast is the type with its marks. Where a pointer is taken for a dimension, and where a
reference to a constant is passed as a value, the last character of it is dropped. That takes a
pointer or a reference away, but cuts a `const` and makes `&` of `&&`.

- `Mark.Cuts` — when the characters that are dropped are no whole marks.
- `NativeType.IsCast` — a text that names the type, with whole marks and dimensions behind it.
- `Draft.cast_cases` — the text that is printed.
- `Declarator.read_cast` — the cast of a declarator, and when it is whole.
-/

namespace HeaderPeers

open ReadM

/-! ## The text -/

namespace Mark

variable {m : Mark} {ms : List Mark}

/-- Whether so many characters at the end are no whole marks. At most two are dropped, and two
only if the last mark is a reference. -/
def Cuts (ms : List Mark) : Nat → Bool
  | 0 => false
  | 1 => ms.getLast? == some const || ms.getLast? == some rvalue
  | _ => ms.getLast? == some reference && ms.dropLast.getLast? == some const

/-- What is left of a mark without its last character. -/
def stump (m : Mark) : List Char :=
  m.text.toList.dropLast

theorem text_eq_stump (m : Mark) : ∃ c, m.text.toList = m.stump ++ [c] := by
  cases m
  · exact ⟨'t', rfl⟩
  · exact ⟨'*', rfl⟩
  · exact ⟨'&', rfl⟩
  · exact ⟨'&', rfl⟩

/-- Only the last mark is a reference. -/
theorem not_refers_of_chain (h : (ms ++ [m]).IsChain Precedes) : ms.any refers = false := by
  induction ms with
  | nil => rfl
  | cons m' ms ih =>
      have hm' : ∃ m'', m'.Precedes m'' := by
        cases ms with
        | nil => exact ⟨m, (List.isChain_cons_cons.mp h).1⟩
        | cons m'' ms => exact ⟨m'', (List.isChain_cons_cons.mp h).1⟩
      have hrefers : m'.refers = false := by
        obtain ⟨m'', rfl | ⟨rfl, -⟩⟩ := hm' <;> rfl
      rw [List.any_cons, hrefers, ih h.tail]
      rfl

theorem and_not_mem_spell (h : ms.any refers = false) : '&' ∉ spell ms := by
  induction ms with
  | nil => simp
  | cons m ms ih =>
      obtain ⟨hm, hms⟩ := Bool.or_eq_false_iff.mp (List.any_cons.symm.trans h)
      have hchars : '&' ∉ m.text.toList := by
        cases m with
        | const => decide
        | pointer => decide
        | reference => cases hm
        | rvalue => cases hm
      simpa using ⟨hchars, ih hms⟩

/-- If any mark is a reference, the last is. -/
theorem exists_last_of_refers (h : ms.IsChain Precedes) (hrefers : ms.any refers = true) :
    ∃ (ks : List Mark) (r : Mark), ms = ks ++ [r] ∧ r.refers = true := by
  cases ms using List.reverseRecOn with
  | nil => cases hrefers
  | append_singleton ks r =>
      refine ⟨ks, r, rfl, ?_⟩
      rw [List.any_append, not_refers_of_chain h] at hrefers
      simpa using hrefers

end Mark

namespace NativeType

variable {type : NativeType} {ms : List Mark} {m : Mark}

theorem withMarks_append (type : NativeType) (ms ms' : List Mark) :
    type.withMarks (ms ++ ms') = type.withMarks ms ++ Mark.spell ms' := by
  simp [withMarks]

theorem dropLast_withMarks (type : NativeType) (ms : List Mark) (m : Mark) :
    (type.withMarks (ms ++ [m])).dropLast = type.withMarks ms ++ m.stump := by
  obtain ⟨c, hc⟩ := m.text_eq_stump
  rw [withMarks_append, Mark.spell_cons, hc]
  simp [← List.append_assoc]

/-- The text of a cast: the type with `const`, marks and more text. -/
def castOf (type : NativeType) (ms : List Mark) (more : List Char) : List Char :=
  (if type.constValue then "const ".toList else []) ++ type.withMarks ms ++ more

/-- Pointers and dimensions that a cast adds. -/
def Added (more : List Char) : Prop :=
  more = [] ∨ more = ['*'] ∨
    ∃ sizes : List Nat, sizes ≠ [] ∧
      more = "(*)".toList ++ sizes.flatMap fun n => ("[" ++ toString n ++ "]").toList

/-- **A text that names the type**: its tokens are `const` if the value is constant, those of the
native name, marks from the front on, and those of added pointers and dimensions. -/
def IsCast (type : NativeType) (ms : List Mark) (text : List Char) : Prop :=
  ∃ kept more, kept <+: ms ∧ Added more ∧
    Token.texts text = (if type.constValue then ["const"] else []) ++
      Token.texts type.nativeName.toList ++ kept.map Mark.text ++ Token.texts more

/-- A type with marks behind it as the language has them, and with a name whose tokens end where the
marks start. A `const` right behind the name is one of the type, and if a reference alone stands
behind the name, there is none in it. -/
structure Takes (type : NativeType) (ms : List Mark) : Prop where
  chain : ms.IsChain Mark.Precedes
  head : ms.head? = some .const ↔ type.constPointer = true
  closed : Token.Closed type.nativeName.toList
  plain : ms.any Mark.refers = true → .pointer ∉ ms → '&' ∉ type.nativeName.toList
  named : type.anonymous = false

/-- The tokens of a name and of what stands behind it. -/
theorem Takes.texts_withMarks {ks : List Mark} {more : List Char} (h : type.Takes ms)
    (hks : ks <+: ms) (hfirst : ks = [] → type.constPointer = false ∧
      ∀ c ∈ more.head?, Text.isWordChar c = false ∧ c ≠ '.') :
    Token.texts (type.withMarks ks ++ more) =
      Token.texts type.nativeName.toList ++ Token.texts (Mark.spell ks ++ more) := by
  unfold withMarks
  cases ks with
  | nil =>
      obtain ⟨hplain, hmore⟩ := hfirst rfl
      rw [hplain]
      cases more with
      | nil => simp [Token.texts_nil]
      | cons c more => simpa using Token.texts_append h.closed (hmore c rfl)
  | cons m ks =>
      obtain ⟨rest, rfl⟩ := hks
      have hconst : m = .const ↔ type.constPointer = true := by simpa using h.head
      by_cases hm : m = .const
      · -- a blank parts the name and `const`
        obtain rfl := hm
        rw [if_pos (hconst.mp rfl)]
        have hword : ¬ ∀ c ∈ Mark.spell (.const :: ks) ++ more, Text.isBlank c = true :=
          fun hblank => absurd (hblank 'c' (by simp [Mark.text])) (by decide)
        have hname : Token.texts (type.nativeName.toList ++ ' ' :: (Mark.spell (.const :: ks) ++ more)) =
            _ := Token.texts_append h.closed (by decide)
        rw [Token.texts_blank_cons (by decide) hword] at hname
        simpa using hname
      · have hplain : type.constPointer = false := by simpa using fun hc => hm (hconst.mpr hc)
        obtain ⟨c, cs, htext, hc⟩ : ∃ c cs, m.text.toList = c :: cs ∧
            Text.isWordChar c = false ∧ c ≠ '.' := by
          cases m with
          | const => exact absurd rfl hm
          | pointer => exact ⟨'*', [], rfl, by decide⟩
          | reference => exact ⟨'&', [], rfl, by decide⟩
          | rvalue => exact ⟨'&', ['&'], rfl, by decide⟩
        rw [hplain]
        have hname : Token.texts (type.nativeName.toList ++ c :: (cs ++ (Mark.spell ks ++ more))) =
            _ := Token.texts_append h.closed hc
        simpa [htext] using hname

/-- The tokens of a text that is put together from a type, marks and more. -/
theorem Takes.texts_castOf {ks : List Mark} {more : List Char} (h : type.Takes ms) (hks : ks <+: ms)
    (hfirst : ks = [] → type.constPointer = false ∧
      ∀ c ∈ more.head?, Text.isWordChar c = false ∧ c ≠ '.')
    (hlast : ∀ m ∈ ks.getLast?, m.Parts more) :
    Token.texts (type.castOf ks more) = (if type.constValue then ["const"] else []) ++
      Token.texts type.nativeName.toList ++ ks.map Mark.text ++ Token.texts more := by
  have hnamed := h.texts_withMarks hks hfirst
  have hchain := h.chain
  have hfront := hchain.prefix hks
  rw [Mark.texts_spell hfront hlast] at hnamed
  unfold castOf
  cases type.constValue with
  | false => simpa using hnamed
  | true =>
      have hword : ¬ ∀ c ∈ type.withMarks ks ++ more, Text.isBlank c = true := by
        intro hblank
        refine Token.not_closed_of_blank (fun c hc => hblank c ?_) h.closed
        simp [withMarks, hc]
      have hconst : Mark.const.Parts (' ' :: (type.withMarks ks ++ more)) :=
        Mark.parts_const (by simp; decide)
      unfold Mark.Parts at hconst
      rw [Token.texts_blank_cons (by decide) hword, hnamed] at hconst
      simpa [Mark.text] using hconst

/-- A text that is printed for the type: whole marks with what is added, or marks of which the last
is cut. -/
inductive Prints (type : NativeType) (ms : List Mark) : Bool → List Char → Prop
  | whole {ks : List Mark} {more : List Char} (isPrefix : ks <+: ms) (isAdded : Added more)
      (plain : ks = [] → type.constPointer = false)
      (last : more ≠ [] → ks.any Mark.refers = false) : Prints type ms false (type.castOf ks more)
  | cut {ks rest : List Mark} {m : Mark} (split : ms = ks ++ m :: rest) (nonempty : ks ≠ [])
      (long : m = .const ∨ m = .rvalue) : Prints type ms true (type.castOf ks m.stump)

theorem split_concat (ks : List Mark) (m : Mark) : ks ++ [m] = ks ++ m :: [] :=
  rfl

/-- One character less behind two marks or more. -/
theorem prints_dropLast {ks : List Mark} (hks : ks ≠ []) :
    type.Prints (ks ++ [m]) (Mark.Cuts (ks ++ [m]) 1)
      ((if type.constValue then "const ".toList else []) ++
        (type.withMarks (ks ++ [m])).dropLast) := by
  have hprefix : ks <+: ks ++ [m] := List.prefix_append _ _
  have hwhole : type.Prints (ks ++ [m]) false (type.castOf ks []) :=
    .whole hprefix (.inl rfl) (absurd · hks) (absurd rfl)
  rw [dropLast_withMarks, ← List.append_assoc]
  have hlast : (ks ++ [m]).getLast? = some m := List.getLast?_concat
  unfold Mark.Cuts
  rw [hlast]
  cases m with
  | const => exact Prints.cut (split_concat _ _) hks (.inl rfl)
  | pointer => exact hwhole
  | reference => exact hwhole
  | rvalue => exact Prints.cut (split_concat _ _) hks (.inr rfl)

/-- Two characters less behind a reference. -/
theorem Takes.prints_dropLast_dropLast {ks : List Mark} (h : type.Takes (ks ++ [m]))
    (hm : m.refers = true) (hks : 2 ≤ ks.count .pointer) :
    type.Prints (ks ++ [m]) (Mark.Cuts (ks ++ [m]) 2)
      ((if type.constValue then "const ".toList else []) ++
        (type.withMarks (ks ++ [m])).dropLast.dropLast) := by
  cases ks using List.reverseRecOn with
  | nil => simp at hks
  | append_singleton ks l =>
      have hne : ks ≠ [] := by
        rintro rfl
        have hle : [l].count .pointer ≤ 1 := List.count_le_length
        simp only [List.nil_append] at hks
        omega
      have hcuts : Mark.Cuts (ks ++ [l] ++ [m]) 2 = (m == .reference && l == .const) := by
        simp [Mark.Cuts]
      rw [hcuts, dropLast_withMarks]
      cases m with
      | const => cases hm
      | pointer => cases hm
      | rvalue =>
          have hwhole :
              type.Prints (ks ++ [l] ++ [Mark.rvalue]) false (type.castOf (ks ++ [l]) []) :=
            .whole (List.prefix_append _ _) (.inl rfl) (absurd · (by simp)) (absurd rfl)
          rw [castOf, List.append_nil] at hwhole
          have hstump : Mark.rvalue.stump = ['&'] := rfl
          rw [hstump, List.dropLast_concat]
          exact hwhole
      | reference =>
          have hstump : Mark.reference.stump = [] := rfl
          rw [hstump, List.append_nil, dropLast_withMarks, ← List.append_assoc]
          have hl : l.Precedes .reference :=
            (List.isChain_append.mp h.chain).2.2 l (by simp) _ rfl
          rcases hl with rfl | ⟨rfl, -⟩
          · have hprefix : ks <+: ks ++ [Mark.pointer] ++ [Mark.reference] := by
              rw [List.append_assoc]
              exact List.prefix_append _ _
            exact .whole hprefix (.inl rfl) (absurd · hne) (absurd rfl)
          · exact .cut (List.append_assoc ks [.const] [.reference]) hne (.inl rfl)

theorem Added.head {more : List Char} (h : Added more) :
    ∀ c ∈ more.head?, Text.isWordChar c = false ∧ c ≠ '.' := by
  rcases h with rfl | rfl | ⟨sizes, -, rfl⟩
  · simp
  · simp; decide
  · simp; decide

/-- What is added is a token of its own behind marks. -/
theorem Added.parts {more : List Char} (h : Added more) (hm : more ≠ [] → m.refers = false) :
    m.Parts more := by
  rcases h with rfl | rfl | ⟨sizes, -, rfl⟩
  · exact m.parts_of_opening (.inl rfl)
  · have hrefers := hm (List.cons_ne_nil _ _)
    have hprecedes : m.Precedes .pointer := by
      cases m with
      | const => exact .inr ⟨rfl, by decide⟩
      | pointer => exact .inl rfl
      | reference => cases hrefers
      | rvalue => cases hrefers
    exact Mark.parts_of_precedes hprecedes []
  · exact m.parts_of_opening (.inr ⟨_, rfl⟩)

/-- The tokens of what is added are none, a star, or start with a parenthesis. -/
theorem Added.texts {more : List Char} (h : Added more) :
    Token.texts more = [] ∨ Token.texts more = ["*"] ∨ "(" ∈ Token.texts more := by
  rcases h with rfl | rfl | ⟨sizes, -, rfl⟩
  · exact .inl Token.texts_nil
  · exact .inr (.inl (by decide +kernel))
  · refine .inr (.inr ?_)
    change "(" ∈ Token.texts ('(' :: _)
    rw [Token.texts_cons (by decide)]
    exact List.mem_cons_self

/-- The tokens of a text whose last mark is cut. -/
theorem Takes.texts_cut {ks rest : List Mark} (h : type.Takes ms) (hms : ms = ks ++ m :: rest)
    (hne : ks ≠ []) (hm : m = .const ∨ m = .rvalue) :
    Token.texts (type.castOf ks m.stump) = (if type.constValue then ["const"] else []) ++
      Token.texts type.nativeName.toList ++ ks.map Mark.text ++ [String.ofList m.stump] := by
  have hstump : Token.texts m.stump = [String.ofList m.stump] := by
    rcases hm with rfl | rfl <;> decide +kernel
  rw [← hstump]
  refine h.texts_castOf ⟨m :: rest, hms.symm⟩ (fun hnil => absurd hnil hne) fun m' hm' => ?_
  have hprecedes : m'.Precedes m :=
    (List.isChain_append.mp (hms ▸ h.chain)).2.2 m' hm' m rfl
  rcases hm with rfl | rfl
  · obtain rfl : m' = .pointer := hprecedes.resolve_right fun hc => hc.2 rfl
    exact Mark.parts_pointer (by decide)
  · have hreference : m'.Precedes .reference :=
      hprecedes.imp_right fun hc => ⟨hc.1, by decide⟩
    exact Mark.parts_of_precedes hreference []

/-- What is printed names the type unless a mark is cut. -/
theorem Prints.isCast_iff {isCut : Bool} {text : List Char} (h : type.Prints ms isCut text)
    (htakes : type.Takes ms) : type.IsCast ms text ↔ isCut = false := by
  cases h with
  | @whole ks more isPrefix isAdded plain last =>
      refine iff_of_true ⟨ks, more, isPrefix, isAdded, ?_⟩ rfl
      refine htakes.texts_castOf isPrefix (fun hnil => ⟨plain hnil, isAdded.head⟩) fun m hm => ?_
      refine isAdded.parts fun hmore => ?_
      have hrefers := last hmore
      rw [List.any_eq_false] at hrefers
      simpa using hrefers m (List.mem_of_getLast? hm)
  | @cut ks rest m split nonempty long =>
      refine iff_of_false ?_ (by decide)
      rintro ⟨kept, more, hkept, hadded, htexts⟩
      rw [htakes.texts_cut split nonempty long, List.append_assoc, List.append_assoc] at htexts
      rw [List.append_assoc _ _ (Token.texts more), List.append_assoc] at htexts
      have hsame : ks.map Mark.text ++ [String.ofList m.stump] =
          kept.map Mark.text ++ Token.texts more :=
        List.append_cancel_left (List.append_cancel_left htexts)
      have hstump : String.ofList m.stump ≠ "(" ∧ String.ofList m.stump ≠ "*" ∧
          String.ofList m.stump ≠ m.text := by
        rcases long with rfl | rfl <;> decide
      rcases hadded.texts with hnone | hstar | hopening
      · -- the marks up to the one that is cut would be kept
        rw [hnone, List.append_nil] at hsame
        have hlength : kept.length = ks.length + 1 := by
          simpa using (congrArg List.length hsame).symm
        have hkept : kept = ks ++ [m] := by
          rw [List.prefix_iff_eq_take.mp hkept, hlength, split]
          simp [List.take_append]
        rw [hkept, List.map_append] at hsame
        exact hstump.2.2 (List.cons.inj (List.append_cancel_left hsame)).1
      · rw [hstar] at hsame
        exact hstump.2.1 (List.cons.inj (List.append_inj' hsame rfl).2).1
      · have hmem : "(" ∈ ks.map Mark.text ++ [String.ofList m.stump] :=
          hsame ▸ List.mem_append_right _ hopening
        have hmark (m : Mark) : m.text ≠ "(" := by cases m <;> decide
        simp [hmark, hstump.1.symm] at hmem

end NativeType

/-! ## What is printed -/

namespace Text

/-- Nothing is replaced in front of the first character that is looked for. -/
theorem replaceChars_append {c : Char} {needle image cs : List Char} (h : c ∉ cs) (n : Nat)
    (ds : List Char) : replaceChars (c :: needle) image (cs.length + n) (cs ++ ds) =
      cs ++ replaceChars (c :: needle) image n ds := by
  induction cs with
  | nil => simp
  | cons d cs ih =>
      obtain ⟨hd, hcs⟩ := not_or.mp (List.mem_cons.not.mp h)
      rw [List.length_cons, Nat.succ_add, List.cons_append, replaceChars,
        if_neg (by simpa [List.isPrefixOf] using fun hc => absurd hc hd), ih hcs]
      rfl

/-- A reference at the end becomes a pointer. -/
theorem replace_reference {s : String} {cs : List Char} {r : Mark} (hr : r.refers = true)
    (hcs : '&' ∉ cs) (hs : s.toList = cs ++ r.text.toList) :
    (replace "&" "*" (replace "&&" "*" s)).toList = cs ++ ['*'] := by
  have hpair : (replace "&&" "*" s).toList = cs ++ if r = .rvalue then ['*'] else ['&'] := by
    unfold replace
    rw [String.toList_ofList, hs, List.length_append]
    refine (replaceChars_append hcs _ _).trans ?_
    cases r with
    | reference => rfl
    | rvalue => rfl
    | const => cases hr
    | pointer => cases hr
  generalize replace "&&" "*" s = pairless at hpair
  unfold replace
  rw [String.toList_ofList, hpair, List.length_append]
  refine (replaceChars_append hcs _ _).trans ?_
  split <;> rfl

end Text

namespace Draft

variable {d : Draft} {ms : List Mark}

/-- A reference to a constant is passed as a value. -/
def byValue (d : Draft) (m : Mapping) : Bool :=
  m.isValue && d.type.constValue && d.declarator.reference

/-- The native type in the annotation of a cast. -/
def printedCast (d : Draft) (m : Mapping) : String :=
  if !m.isValue && d.declarator.indirections == 0 && !d.declarator.reference then
    d.castText m ++ "*"
  else d.castText m

/-- The name with its marks, as it is corrected where a reference is passed. -/
def castBody (d : Draft) (m : Mapping) : List Char :=
  let cs := if d.declarator.indirections = 0 ∧ d.declarator.reference = true then
      (Text.replace "&" "*" (Text.replace "&&" "*" d.cast)).toList
    else d.cast.toList
  if d.byValue m then cs.dropLast else cs

/-- A star where a value is passed by its address. -/
def castStar (d : Draft) (m : Mapping) : List Char :=
  if m.isValue = false ∧ d.declarator.indirections = 0 ∧ d.declarator.reference = false then ['*']
  else []

theorem toList_printedCast (d : Draft) (m : Mapping) : (d.printedCast m).toList =
    (if d.type.constValue then "const ".toList else []) ++ d.castBody m ++ d.castStar m := by
  unfold printedCast castText castBody castStar byValue dropLast
  by_cases hzero : d.declarator.indirections = 0 <;> cases d.declarator.reference <;>
    cases m.isValue <;> cases d.type.constValue <;> simp [hzero]

/-- The dimensions that a cast writes are those behind the first that are known. -/
theorem toList_innerDims (dims : List Int) : (innerDims dims).toList =
    ((dims.tail.filter (· > 0)).map Int.toNat).flatMap
      fun n => ("[" ++ toString n ++ "]").toList := by
  unfold innerDims
  rw [String.toList_join, List.flatMap_map, List.flatMap_map]
  refine List.flatMap_congr fun n hn => ?_
  have hpos : 0 < n := by simpa using (List.mem_filter.mp hn).2
  obtain ⟨k, rfl⟩ := Int.eq_ofNat_of_zero_le hpos.le
  rfl

theorem added_innerDims (dims : List Int) : NativeType.Added
    (if (innerDims dims).isEmpty then "*" else "(*)" ++ innerDims dims).toList := by
  by_cases hinner : (innerDims dims).isEmpty = true
  · rw [if_pos hinner]
    exact .inr (.inl rfl)
  · refine .inr (.inr ⟨(dims.tail.filter (· > 0)).map Int.toNat, fun hnil => hinner ?_, ?_⟩)
    · rw [String.isEmpty_iff, ← String.toList_eq_nil_iff, toList_innerDims, hnil]
      rfl
    · rw [if_neg hinner, String.toList_append, toList_innerDims]

/-- What the dimensions make of the cast: the last character goes with a pointer that is folded,
a pointer or the dimensions behind the first come with an array, or nothing changes. -/
theorem withDims_cases (d : Draft) (view : ArrayView) (dims : List Int) :
    (d.folds view = true ∧ (d.withDims view dims).cast = dropLast d.cast ∧
        (d.withDims view dims).declarator.indirections + 1 = d.declarator.indirections) ∨
      (d.folds view = false ∧ view = .asPointer ∧ dims ≠ [] ∧ ∃ more, NativeType.Added more ∧
        (d.withDims view dims).cast.toList = d.cast.toList ++ more ∧
        (d.withDims view dims).declarator.indirections = d.declarator.indirections + 1) ∨
      (d.folds view = false ∧ (d.withDims view dims).cast = d.cast ∧
        (d.withDims view dims).declarator.indirections = d.declarator.indirections) := by
  unfold withDims folds
  cases view with
  | plain => exact .inr (.inr ⟨rfl, rfl, rfl⟩)
  | asPointer =>
      by_cases hdims : dims = []
      · subst hdims
        exact .inr (.inr ⟨rfl, rfl, rfl⟩)
      · have hempty : ¬ dims.isEmpty = true := by simpa using hdims
        refine .inr (.inl ⟨rfl, rfl, hdims, _, added_innerDims dims, ?_, ?_⟩)
        · dsimp only
          rw [if_neg hempty, String.toList_append]
        · dsimp only
          rw [if_neg hempty]
  | asDimension =>
      by_cases hfolds : (if d.type.anonymous then 0 else 1) < d.declarator.indirections
      · refine .inl ⟨by simpa using hfolds, ?_, ?_⟩
        · dsimp only
          rw [if_pos hfolds]
        · dsimp only
          rw [if_pos hfolds]
          exact Nat.sub_add_cancel (Nat.one_le_of_lt hfolds)
      · refine .inr (.inr ⟨by simpa using hfolds, ?_, ?_⟩)
        · dsimp only
          rw [if_neg hfolds]
        · dsimp only
          rw [if_neg hfolds]

theorem withDims_leaves (d : Draft) (view : ArrayView) (dims : List Int) :
    (d.withDims view dims).type = d.type ∧
      (d.withDims view dims).declarator.reference = d.declarator.reference := by
  unfold withDims
  cases view with
  | plain => exact ⟨rfl, rfl⟩
  | asPointer =>
      dsimp only
      split <;> exact ⟨rfl, rfl⟩
  | asDimension =>
      dsimp only
      split <;> split <;> exact ⟨rfl, rfl⟩

/-- A pointer that is folded leaves another. -/
theorem two_le_of_folds {view : ArrayView} (h : d.folds view = true)
    (hnamed : d.type.anonymous = false) : 2 ≤ d.declarator.indirections := by
  unfold folds at h
  rw [hnamed] at h
  exact Nat.succ_le_of_lt (of_decide_eq_true (Bool.and_eq_true_iff.mp h).2)

/-- Without a reference, the text has the marks as they are written. -/
theorem prints_of_not_refers (hd : d.Spells ms) (h : d.type.Takes ms) (m : Mapping)
    (hrefers : ms.any Mark.refers = false) :
    d.type.Prints ms false (d.printedCast m).toList := by
  have hreference : d.declarator.reference = false := hd.reference.trans hrefers
  have hbody : d.castBody m = d.type.withMarks ms := by
    unfold castBody byValue
    rw [hreference, hd.cast]
    simp
  have hadded : NativeType.Added (d.castStar m) := by
    unfold castStar
    split
    · exact .inr (.inl rfl)
    · exact .inl rfl
  rw [toList_printedCast, hbody]
  refine .whole (List.prefix_refl ms) hadded ?_ fun _ => hrefers
  rintro rfl
  simpa using h.head

/-- A star stands only behind what is no reference. -/
theorem castStar_of_reference (m : Mapping) (h : d.declarator.reference = true) :
    d.castStar m = [] := by
  unfold castStar
  rw [if_neg (by simp [h])]

theorem castBody_eq {cs : List Char} {m : Mapping}
    (h : (if d.declarator.indirections = 0 ∧ d.declarator.reference = true then
      (Text.replace "&" "*" (Text.replace "&&" "*" d.cast)).toList else d.cast.toList) = cs) :
    d.castBody m = if d.byValue m then cs.dropLast else cs := by
  unfold castBody
  rw [h]

/-- A reference alone becomes a pointer, or goes where a value is passed. -/
theorem prints_of_reference {ks : List Mark} {r : Mark} (hd : d.Spells (ks ++ [r]))
    (h : d.type.Takes (ks ++ [r])) (m : Mapping) (hr : r.refers = true)
    (hnone : .pointer ∉ ks ++ [r]) : d.type.Prints (ks ++ [r]) false (d.printedCast m).toList := by
  have hks : ks.any Mark.refers = false := Mark.not_refers_of_chain h.chain
  have hreference : d.declarator.reference = true := by rw [hd.reference]; simp [hr]
  have hzero : d.declarator.indirections = 0 := hd.stars.trans (List.count_eq_zero.mpr hnone)
  have hand : '&' ∉ d.type.withMarks ks := by
    have hname := h.plain (by simp [hr]) hnone
    unfold NativeType.withMarks
    cases d.type.constPointer <;> simp [hname, Mark.and_not_mem_spell hks]
  have hcast : d.cast.toList = d.type.withMarks ks ++ r.text.toList := by
    rw [hd.cast, NativeType.withMarks_append]
    simp
  have hplain : ks = [] → d.type.constPointer = false := by
    rintro rfl
    have hne : r ≠ .const := by
      rintro rfl
      cases hr
    simpa [hne] using h.head
  have hbody : d.castBody m = if d.byValue m then (d.type.withMarks ks ++ ['*']).dropLast
      else d.type.withMarks ks ++ ['*'] := by
    refine castBody_eq ?_
    rw [if_pos ⟨hzero, hreference⟩]
    exact Text.replace_reference hr hand hcast
  have hprefix : ks <+: ks ++ [r] := List.prefix_append _ _
  rw [toList_printedCast, castStar_of_reference m hreference, hbody, List.append_nil]
  cases d.byValue m with
  | false =>
      have hprints := NativeType.Prints.whole hprefix (.inr (.inl rfl)) hplain fun _ => hks
      rw [NativeType.castOf, List.append_assoc] at hprints
      exact hprints
  | true =>
      have hprints := NativeType.Prints.whole hprefix (.inl rfl) hplain fun _ => hks
      rw [NativeType.castOf, List.append_nil] at hprints
      rw [if_pos rfl, List.dropLast_concat]
      exact hprints

/-- Behind pointers, the last character of the text goes where a value is passed. -/
theorem prints_of_pointers {ks : List Mark} {r : Mark} (hd : d.Spells (ks ++ [r])) (m : Mapping)
    (hr : r.refers = true) (hpointer : .pointer ∈ ks) :
    d.type.Prints (ks ++ [r]) (Mark.Cuts (ks ++ [r]) (d.byValue m).toNat)
      (d.printedCast m).toList := by
  have hreference : d.declarator.reference = true := by rw [hd.reference]; simp [hr]
  have hbody : d.castBody m = if d.byValue m then (d.type.withMarks (ks ++ [r])).dropLast
      else d.type.withMarks (ks ++ [r]) := by
    have hone : d.declarator.indirections ≠ 0 := by
      rw [hd.stars]
      exact (List.count_pos_iff.mpr (List.mem_append_left _ hpointer)).ne'
    refine castBody_eq ?_
    rw [if_neg (fun hzero => hone hzero.1), hd.cast]
  rw [toList_printedCast, castStar_of_reference m hreference, hbody, List.append_nil]
  cases d.byValue m with
  | true => exact NativeType.prints_dropLast (List.ne_nil_of_mem hpointer)
  | false =>
      have hwhole : d.type.Prints (ks ++ [r]) false (d.type.castOf (ks ++ [r]) []) :=
        .whole (List.prefix_refl _) (.inl rfl) (absurd · (by simp)) (absurd rfl)
      rw [NativeType.castOf, List.append_nil] at hwhole
      exact hwhole

/-- Seen as they are written, marks are cut only where a value is passed. -/
theorem prints_of_spells (hd : d.Spells ms) (h : d.type.Takes ms) (m : Mapping) :
    d.type.Prints ms (ms.contains .pointer && Mark.Cuts ms (d.byValue m).toNat)
      (d.printedCast m).toList := by
  cases hrefers : ms.any Mark.refers with
  | false =>
      have hvalue : d.byValue m = false := by simp [byValue, hd.reference, hrefers]
      rw [hvalue]
      simpa [Mark.Cuts] using prints_of_not_refers hd h m hrefers
  | true =>
      obtain ⟨ks, r, rfl, hr⟩ := Mark.exists_last_of_refers h.chain hrefers
      by_cases hpointer : .pointer ∈ ks
      · have hcontains : (ks ++ [r]).contains .pointer = true := by simp [hpointer]
        rw [hcontains, Bool.true_and]
        exact prints_of_pointers hd m hr hpointer
      · have hne : r ≠ .pointer := by
          rintro rfl
          cases hr
        have hnone : .pointer ∉ ks ++ [r] := by simp [hpointer, hne.symm]
        have hcontains : (ks ++ [r]).contains .pointer = false := by simpa using hnone
        rw [hcontains, Bool.false_and]
        exact prints_of_reference hd h m hr hnone

/-- With a pointer folded, one more character is dropped. -/
theorem prints_of_folds {d' : Draft} (hd : d.Spells ms) (h : d.type.Takes ms) (m : Mapping)
    (htype : d'.type = d.type) (hreference : d'.declarator.reference = d.declarator.reference)
    (hcast : d'.cast = dropLast d.cast)
    (hstars : d'.declarator.indirections + 1 = d.declarator.indirections)
    (htwo : 2 ≤ d.declarator.indirections) :
    d.type.Prints ms (Mark.Cuts ms (1 + (d.byValue m).toNat)) (d'.printedCast m).toList := by
  have hone : d'.declarator.indirections ≠ 0 := by omega
  have hvalue : d'.byValue m = d.byValue m := by
    unfold byValue
    rw [htype, hreference]
  have hbody : d'.castBody m = if d.byValue m then (d.type.withMarks ms).dropLast.dropLast
      else (d.type.withMarks ms).dropLast := by
    rw [← hvalue]
    refine castBody_eq ?_
    rw [if_neg (fun hzero => hone hzero.1), hcast, dropLast, String.toList_ofList, hd.cast]
  have hstar : d'.castStar m = [] := by
    unfold castStar
    rw [if_neg (fun hzero => hone hzero.2.1)]
  have hcount : 2 ≤ ms.count .pointer := hd.stars ▸ htwo
  rw [toList_printedCast, hstar, hbody, htype, List.append_nil]
  cases hby : d.byValue m with
  | false =>
      cases ms using List.reverseRecOn with
      | nil => simp at hcount
      | append_singleton ks l =>
          refine NativeType.prints_dropLast ?_
          rintro rfl
          have hle : [l].count .pointer ≤ 1 := List.count_le_length
          simp only [List.nil_append] at hcount
          omega
  | true =>
      have hrefers : ms.any Mark.refers = true := by
        rw [← hd.reference]
        exact (Bool.and_eq_true_iff.mp hby).2
      obtain ⟨ks, r, rfl, hr⟩ := Mark.exists_last_of_refers h.chain hrefers
      refine h.prints_dropLast_dropLast hr ?_
      have hne : r ≠ .pointer := by
        rintro rfl
        cases hr
      simpa [List.count_append, List.count_singleton, hne] using hcount

/-- **The text that is printed** for a type with marks, seen in one of the ways. -/
theorem prints_of_withDims (hd : d.Spells ms) (h : d.type.Takes ms) (view : ArrayView)
    (dims : List Int) (harray : view = .asPointer → dims ≠ [] → ms.any Mark.refers = false)
    (m : Mapping) :
    d.type.Prints ms
      (ms.contains .pointer && Mark.Cuts ms ((d.folds view).toNat + (d.byValue m).toNat))
      ((d.withDims view dims).printedCast m).toList := by
  obtain ⟨htype, hreference⟩ := withDims_leaves d view dims
  rcases withDims_cases d view dims with ⟨hfolds, hcast, hstars⟩ |
    ⟨hfolds, hview, hdims, more, hmore, hcast, hstars⟩ | ⟨hfolds, hcast, hstars⟩
  · have htwo := two_le_of_folds hfolds h.named
    have hcontains : ms.contains .pointer = true := by
      have hpos : 0 < ms.count .pointer := hd.stars ▸ Nat.zero_lt_of_lt htwo
      simpa using List.count_pos_iff.mp hpos
    rw [hfolds, hcontains, Bool.true_and]
    exact prints_of_folds hd h m htype hreference hcast hstars htwo
  · have hrefers := harray hview hdims
    have hvalue : d.byValue m = false := by simp [byValue, hd.reference, hrefers]
    have hbody : (d.withDims view dims).castBody m = d.type.withMarks ms ++ more := by
      have hvalue' : (d.withDims view dims).byValue m = false := by
        simp [byValue, hreference, hd.reference, hrefers]
      refine (castBody_eq ?_).trans (if_neg (by simp [hvalue']))
      rw [if_neg (by simp [hstars]), hcast, hd.cast]
    have hstar : (d.withDims view dims).castStar m = [] := by
      unfold castStar
      rw [if_neg (by simp [hstars])]
    have hplain : ms = [] → d.type.constPointer = false := by
      rintro rfl
      simpa using h.head
    have hwhole := NativeType.Prints.whole (List.prefix_refl ms) hmore hplain fun _ => hrefers
    rw [toList_printedCast, hbody, hstar, htype, hfolds, hvalue]
    rw [NativeType.castOf, List.append_assoc] at hwhole
    simpa only [Mark.Cuts, Bool.toNat_false, Nat.add_zero, Bool.and_false, List.append_nil]
      using hwhole
  · have hd' : (d.withDims view dims).Spells ms :=
      ⟨by rw [hcast, htype, hd.cast], hstars.trans hd.stars, hreference.trans hd.reference⟩
    have hvalue : (d.withDims view dims).byValue m = d.byValue m := by
      unfold byValue
      rw [htype, hreference]
    have hprints := prints_of_spells hd' (htype ▸ h) m
    rw [htype, hvalue] at hprints
    rw [hfolds]
    simpa using hprints

/-! ## Where it is printed -/

variable {m : Mapping} {choice : Int}

theorem printedCast_of_like {d' : Draft} {m' : Mapping} (h : d.Like d')
    (hm : m'.isValue = m.isValue) : d'.printedCast m' = d.printedCast m := by
  unfold printedCast castText
  rw [h.cast, h.constValue, h.stars, h.reference, hm]

/-- The mapping with the casts that passing a pointer needs. -/
def settled (d : Draft) (m : Mapping) (choice : Int) : Mapping :=
  if m.isValue then m else (d.annotatePassing m choice).2

theorem isValue_annotatePassing (d : Draft) (m : Mapping) (choice : Int) :
    (d.annotatePassing m choice).2.isValue = m.isValue := by
  unfold annotatePassing
  dsimp only
  split
  · rfl
  split
  · rfl
  split
  · rfl
  split
  · rfl
  split <;> rfl

theorem needsCast_annotatePassing (d : Draft) (h : m.needsCast = true) :
    (d.annotatePassing m choice).2.needsCast = true := by
  unfold annotatePassing
  dsimp only
  split
  · exact h
  split
  · exact h
  split
  · exact h
  split
  · simp [h]
  split
  · rfl
  · exact h

theorem annotateCast_eq (d : Draft) (h : m.needsCast = true) : ∃ before after,
    (d.annotateCast m).type.annotations =
      before ++ "@Cast(\"" ++ d.printedCast m ++ "\") " ++ after := by
  unfold annotateCast printedCast
  rw [h]
  dsimp only
  rw [if_neg (by simp)]
  by_cases hstar : (!m.isValue && d.declarator.indirections == 0 && !d.declarator.reference) = true
  · rw [if_pos hstar, if_pos hstar]
    exact ⟨d.type.annotations, "", by simp [annotate, type, String.append_assoc]⟩
  · rw [if_neg hstar, if_neg hstar]
    exact ⟨"", d.type.annotations, by simp [annotate, type, String.append_assoc]⟩

/-- A cast is annotated if it is needed. -/
theorem annotateShape_eq (d : Draft) (h : (d.settled m choice).needsCast = true) :
    ∃ before after, (d.annotateShape m choice).type.annotations =
      before ++ "@Cast(\"" ++ d.printedCast m ++ "\") " ++ after := by
  unfold settled at h
  unfold annotateShape
  by_cases hvalue : m.isValue = true
  · rw [if_pos hvalue] at h ⊢
    exact d.annotateCast_eq h
  · rw [if_neg hvalue] at h ⊢
    have hlike := (like_annotatePassing d m choice).trans
      (like_annotateConst (d.annotatePassing m choice).1 (d.annotatePassing m choice).2)
    rw [← printedCast_of_like hlike (isValue_annotatePassing d m choice)]
    exact annotateCast_eq _ h

/-- The mapping that a rule gives. -/
def mappingTo (d : Draft) (scope : Scope) (rule : Rule) (choice : Int) (needsCast : Bool) :
    Mapping :=
  let (d, m) := d.mapBy scope rule choice needsCast
  d.settled m choice

theorem mappedTo_eq (d : Draft) {scope : Scope} {rule : Rule} {needsCast : Bool}
    (h : (d.mappingTo scope rule choice needsCast).needsCast = true) : ∃ before after,
    (d.mappedTo scope rule choice needsCast).type.annotations = before ++ "@Cast(\"" ++
      d.printedCast (d.mappingTo scope rule choice needsCast) ++ "\") " ++ after := by
  have hvalue : (d.mappingTo scope rule choice needsCast).isValue =
      (d.mapBy scope rule choice needsCast).2.isValue := by
    unfold mappingTo settled
    dsimp only
    split
    · rfl
    · exact isValue_annotatePassing _ _ _
  have hsame : d.printedCast (d.mappingTo scope rule choice needsCast) =
      (d.mapBy scope rule choice needsCast).1.printedCast
        (d.mapBy scope rule choice needsCast).2 :=
    (printedCast_of_like (like_mapBy d scope rule choice needsCast) hvalue.symm).symm
  rw [hsame]
  exact annotateShape_eq _ h

/-- A rule that asks for a cast gets it, unless the type has its native name on both sides. -/
theorem needsCast_mappingTo (d : Draft) {scope : Scope} {rule : Rule} {needsCast : Bool}
    (hcast : rule.cast = true) (hname : d.type.nativeName ≠
      (d.mapBy scope rule choice needsCast).1.type.targetName) :
    (d.mappingTo scope rule choice needsCast).needsCast = true := by
  have hneeds : (d.mapBy scope rule choice needsCast).2.needsCast = true := by
    have hsame := (like_mapBy d scope rule choice needsCast).typeName
    rw [← hsame] at hname
    change (needsCast || (rule.cast && (d.mapBy scope rule choice needsCast).1.type.nativeName !=
      (d.mapBy scope rule choice needsCast).1.type.targetName)) = true
    simp [hcast, hname]
  unfold mappingTo settled
  dsimp only
  split
  · exact hneeds
  · exact needsCast_annotatePassing _ hneeds

end Draft

/-- The name adds to the annotations. -/
theorem Draft.annotations_nameBy (d : Draft) (table : RuleTable) (scope : Scope)
    (usings : List String) (hint : Option String) (isOperator madeUp : Bool) : ∃ more,
    (d.nameBy table scope usings hint isOperator madeUp).type.annotations =
      d.type.annotations ++ more :=
  ⟨_, String.append_assoc⟩

/-- Parameters of a function leave the type as it is. -/
theorem Draft.type_of_readParameters {d d' : Draft} {readDeclarator : DeclaratorReader}
    {request : DeclaratorRequest} {n : DeclaredName} {s s' : Reading}
    (h : d.readParameters readDeclarator request n false s = .ok d' s') (hstars : n.stars = 0) :
    d'.type = d.type := by
  unfold readParameters at h
  obtain ⟨parameters, s₁, -, h⟩ := bind_eq_ok h
  cases parameters with
  | none =>
      cases h
      rfl
  | some parameters =>
      dsimp only at h
      rw [if_pos (by simp [hstars])] at h
      cases h
      rfl

namespace Declarator

variable {request : DeclaratorRequest} {readDeclarator : DeclaratorReader} {f : Front}
  {s s' : Reading} {groups : List Dimension} {u : Token} {us : List Token} {rule : Rule}
  {d : Declarator}

/-- The draft with its dimensions, before it is mapped. -/
def Front.shape (f : Front) (request : DeclaratorRequest) (groups : List Dimension) : Draft :=
  f.shaped request (f.name.dims ++ groups.map Dimension.extent)

/-- The mapping of the draft by its rule. -/
def Front.mapping (f : Front) (request : DeclaratorRequest) (groups : List Dimension)
    (rule : Rule) : Mapping :=
  (f.shape request groups).mappingTo request.scope rule request.choice
    (request.view == .asPointer && decide ((f.shape request groups).declarator.dims.length > 1))

theorem Front.stars_named (h : f.name.stars = 0) (request : DeclaratorRequest) (dims : List Int) :
    (f.named request dims).stars = 0 := by
  unfold Front.named DeclaredName.spreadStars
  dsimp only
  split
  · exact h
  · rfl

/-- The rest of a declarator annotates the cast. -/
theorem cast_of_readRest (h : readRest readDeclarator request f s = .ok d s')
    (hsees : s.Sees (groups.flatMap Dimension.tokens ++ u :: us))
    (hu : ∀ text ∈ ["[", ":"], u.is text = false) (hplain : f.isTypedef = false)
    (husing : f.isUsing = false) (hstars : f.name.stars = 0)
    (hfinds : (f.shape request groups).Finds s.table s.usings request.scope
      (f.shape request groups, some rule))
    (hneeds : (f.mapping request groups rule).needsCast = true) : ∃ before after,
    d.type.annotations = before ++ "@Cast(\"" ++
      (f.shape request groups).printedCast (f.mapping request groups rule) ++ "\") " ++ after := by
  obtain ⟨_, j₁, hdims, hsees, rfl⟩ :=
    DeclaredName.readDims_all groups hsees (hu "[" (by simp)) f.name.dims
  obtain ⟨_, j₂, hbitfield, hsees, rfl⟩ :=
    Draft.readBitfield_passes (f.shape request groups) hsees (hu ":" (by simp))
  obtain ⟨_, j₃, hmapping, hsees, rfl⟩ := Draft.readMapping_to hsees hfinds
  unfold readRest at h
  rw [bind_of_ok hdims] at h
  change (Draft.readBitfield (f.shape request groups) >>= _) _ = _ at h
  rw [bind_of_ok hbitfield, hplain, husing, bind_of_ok hmapping] at h
  obtain ⟨s₄, s₅, -, h⟩ := bind_eq_ok h
  obtain ⟨d₁, s₆, hparameters, h⟩ := bind_eq_ok h
  obtain ⟨_, s₇, -, h⟩ := bind_eq_ok h
  cases h
  have htype := Draft.type_of_readParameters hparameters (Front.stars_named hstars request _)
  obtain ⟨before, after, hcast⟩ := (f.shape request groups).mappedTo_eq hneeds
  obtain ⟨more, hmore⟩ := Draft.annotations_nameBy _ s₄.table request.scope s₄.usings f.hint
    (f.named request (f.name.dims ++ groups.map Dimension.extent)).isOperator
    request.defaultName.isSome
  refine ⟨before, after ++ more, ?_⟩
  change d₁.type.annotations = _
  rw [htype, hmore]
  change (Draft.mappedTo _ _ _ _ _).type.annotations ++ more = _
  rw [hcast, String.append_assoc]
  rfl

/-! ## The cast of a declarator -/

/-- The native type in the cast of a declarator. -/
def Front.castText (f : Front) (request : DeclaratorRequest) (groups : List Dimension)
    (rule : Rule) : String :=
  (f.shape request groups).printedCast (f.mapping request groups rule)

/-- Whether a mark is cut: the last character goes for a pointer that is folded, and for a reference
to a constant that is passed as a value. -/
def Front.cuts (f : Front) (request : DeclaratorRequest) (groups : List Dimension) (rule : Rule)
    (ms : List Mark) : Bool :=
  ms.contains .pointer && Mark.Cuts ms ((f.draft.folds request.view).toNat +
    (f.draft.byValue (f.mapping request groups rule)).toNat)

/-- The marks behind the name of the type, those read with it and those behind it. -/
def suffix (request : DeclaratorRequest) (type : NativeType)
    (marks : List Token) : List Mark :=
  type.marks (request.number == 0) ++ marks.map Mark.ofToken

theorem Front.dims_named (h : f.name.stars = 0) (request : DeclaratorRequest) (dims : List Int) :
    (f.named request dims).dims = dims := by
  unfold Front.named DeclaredName.spreadStars
  dsimp only
  split
  · rfl
  · simp [h]

/-- **The cast of a declarator.** A declarator whose rule needs a cast is annotated with a text that
names its type, with whole marks and with pointers and dimensions behind them, exactly if no mark is
cut. It is read if neither a width nor parameters follow. -/
theorem read_cast {type : NativeType} {word t : Token} {words marks ts : List Token}
    {s₁ s₂ s₃ : Reading} (hstart : s.Sees (word :: words))
    (htype : NativeType.read request.scope s = .ok (some type) s₁)
    (hskip : skipTo request.number s₁ = .ok true s₂) (hmarks : s₂.Sees (marks ++ t :: ts))
    (hspelt : ∀ m ∈ marks, Draft.marks m = true ∧ m.Spelt) (ht : Draft.marks t = false)
    (hfront : readFront request s = .ok (some f) s₃)
    (hsees : s₃.Sees (groups.flatMap Dimension.tokens ++ u :: us))
    (hbracket : u.is "[" = false) (hcolon : u.is ":" = false) (hplain : f.isTypedef = false)
    (husing : f.isUsing = false) (hstars : f.name.stars = 0)
    (hfinds : (f.shape request groups).Finds s₃.table s₃.usings request.scope
      (f.shape request groups, some rule))
    (hneeds : (f.mapping request groups rule).needsCast = true)
    (htakes : type.Takes (suffix request type marks))
    (harray : request.view = .asPointer → f.name.dims ++ groups.map Dimension.extent ≠ [] →
      (suffix request type marks).any Mark.refers = false) :
    (∀ d s', Declarator.read request s = .ok (some d) s' → ∃ before after,
      d.type.annotations =
        before ++ "@Cast(\"" ++ f.castText request groups rule ++ "\") " ++ after) ∧
    (type.IsCast (suffix request type marks) (f.castText request groups rule).toList ↔
      f.cuts request groups rule (suffix request type marks) = false) ∧
    (0 < s.fuel → f.parens = 0 → u.is "(" = false →
      ∃ d s', Declarator.read request s = .ok (some d) s') := by
  have hu : ∀ text ∈ ["[", ":"], u.is text = false := by simp [hbracket, hcolon]
  refine ⟨fun d s' hread => ?_, ?_, fun hfuel hparens hopening => ?_⟩
  · obtain ⟨reader, hrest⟩ := readRest_of_read hfront hread
    exact cast_of_readRest hrest hsees hu hplain husing hstars hfinds hneeds
  · obtain ⟨hspells, hsame⟩ := spells_of_readFront hstart htype hskip hmarks hspelt ht hfront
    have htakes' : f.draft.type.Takes (suffix request type marks) := by
      rw [hsame]
      exact ⟨htakes.chain, htakes.head, htakes.closed, htakes.plain, htakes.named⟩
    have hprints := Draft.prints_of_withDims hspells htakes' request.view
      (f.name.dims ++ groups.map Dimension.extent) harray (f.mapping request groups rule)
    have hiff := hprints.isCast_iff htakes'
    rw [hsame] at hiff
    have hshape : f.shape request groups =
        f.draft.withDims request.view (f.name.dims ++ groups.map Dimension.extent) := by
      rw [Front.shape, Front.shaped, Front.dims_named hstars]
    rw [Front.castText, hshape]
    exact hiff
  · refine exists_read hfront hfuel fun reader => ?_
    have hu' : ∀ text ∈ ["[", ":", "("], u.is text = false := by simp [hbracket, hcolon, hopening]
    obtain ⟨d, j, hrest, -⟩ := readRest_passes reader hsees hu' hplain hparens hfinds
    exact ⟨d, _, hrest⟩

/-! ### A pointer that is folded -/

/-- A rule that needs a cast. -/
def castRule : Rule :=
  { nativeNames := ["T"], valueTypes := some ["int"], pointerTypes := some ["P"], cast := true }

/-- In front of a text, with a rule that needs a cast. -/
def castInput (text : String) : Reading :=
  .ofTokens (({} : RuleTable).put castRule) (Token.ofText none text)

/-- What is asked for a declarator whose pointers are dimensions. -/
def foldRequest : DeclaratorRequest :=
  { scope := {}, view := .asDimension }

/-- What `T **x;` is read as up to the token behind its name: the type, the state behind the first
star, and the front with the state behind it. -/
def foldFront : Option (NativeType × Reading × Reading × Front × Reading) :=
  match NativeType.read {} (castInput "T **x;") with
  | .ok (some type) s₁ =>
    match skipTo 0 s₁, readFront foldRequest (castInput "T **x;") with
    | .ok true s₂, .ok (some f) s₃ => some (type, s₁, s₂, f, s₃)
    | _, _ => none
  | _ => none

theorem of_foldFront {type : NativeType} {s₁ s₂ s₃ : Reading}
    (h : foldFront = some (type, s₁, s₂, f, s₃)) :
    NativeType.read {} (castInput "T **x;") = .ok (some type) s₁ ∧ skipTo 0 s₁ = .ok true s₂ ∧
      readFront foldRequest (castInput "T **x;") = .ok (some f) s₃ := by
  unfold foldFront at h
  split at h
  next htype =>
    split at h
    next hskip hfront =>
      cases h
      exact ⟨htype, hskip, hfront⟩
    · cases h
  · cases h

/-- The name `T` is a word. -/
theorem closed_word : Token.Closed "T".toList :=
  ⟨{ kind := .identifier, text := "T", location := { line := 0 } }, by decide +kernel, .inl rfl⟩

/-- The second star of `T **x;` is a dimension, and the cast names a pointer to `T`. -/
theorem read_cast_sample : ∃ d s' before after,
    Declarator.read foldRequest (castInput "T **x;") = .ok (some d) s' ∧
      d.type.annotations = before ++ "@Cast(\"" ++ "T*" ++ "\") " ++ after ∧
      ({ nativeName := "T" } : NativeType).IsCast [.pointer, .pointer] "T*".toList := by
  have hstart : (castInput "T **x;").window.raw = false ∧ 0 < (castInput "T **x;").fuel ∧
      (castInput "T **x;").window.index ≤ (castInput "T **x;").window.tokens.size ∧
      (∀ t ∈ (castInput "T **x;").window.tokens.toList.drop (castInput "T **x;").window.index,
        t.is "#" = false ∧ (Expansion.ruleFor? (castInput "T **x;").table t).isNone = true) := by
    decide +kernel
  have hrun : (match foldFront with
      | some (type, _, s₂, f, s₃) =>
        decide (s₂.window.tokens = (Token.ofText none "T **x;").toArray ∧ s₂.window.index = 2 ∧
          s₂.window.raw = false ∧ 0 < s₂.fuel ∧ s₂.window.index ≤ s₂.window.tokens.size ∧
          (∀ t ∈ s₂.window.tokens.toList.drop s₂.window.index,
            t.is "#" = false ∧ (Expansion.ruleFor? s₂.table t).isNone = true)) &&
        decide (s₃.window.tokens = (Token.ofText none "T **x;").toArray ∧ s₃.window.index = 4 ∧
          s₃.window.raw = false ∧ 0 < s₃.fuel ∧ s₃.window.index ≤ s₃.window.tokens.size ∧
          (∀ t ∈ s₃.window.tokens.toList.drop s₃.window.index,
            t.is "#" = false ∧ (Expansion.ruleFor? s₃.table t).isNone = true)) &&
        decide (f.isTypedef = false ∧ f.isUsing = false ∧ f.parens = 0 ∧ f.name.stars = 0 ∧
          s₃.table.findWith? (f.shape foldRequest []).lookupName false = some castRule ∧
          (f.mapping foldRequest [] castRule).needsCast = true ∧
          f.castText foldRequest [] castRule = "T*" ∧
          f.cuts foldRequest [] castRule [.pointer, .pointer] = false) &&
        decide (type.nativeName = "T" ∧ type.anonymous = false ∧ type.constPointer = false ∧
          type.constValue = false ∧ type.marks true = [.pointer])
      | none => false) = true := by
    decide +kernel
  let star : Token := { kind := .punct, text := "*", location := { line := 1 } }
  let name : Token := { kind := .identifier, text := "x", location := { line := 1 } }
  let semicolon : Token := { kind := .punct, text := ";", location := { line := 1 } }
  have hbehind : ((Token.ofText none "T **x;").drop 2).filter (!·.isComment) =
      [star] ++ [name, semicolon] ∧
    ((Token.ofText none "T **x;").drop 4).filter (!·.isComment) = [semicolon] := by
    decide +kernel
  obtain ⟨first, rest, hfirst⟩ : ∃ first rest, (((castInput "T **x;").window.tokens.toList.drop
      (castInput "T **x;").window.index).filter (!·.isComment) ++
        [Window.endToken (castInput "T **x;").window.tokens]) = first :: rest :=
    List.exists_cons_of_ne_nil (by simp)
  have hsees := Reading.sees_of_still hstart.1 hstart.2.1 hstart.2.2.1 hstart.2.2.2
  rw [hfirst] at hsees
  split at hrun
  next type s₁ s₂ f s₃ hfound =>
    obtain ⟨htype, hskip, hfront⟩ := of_foldFront hfound
    simp only [Bool.and_eq_true, decide_eq_true_eq] at hrun
    obtain ⟨⟨⟨⟨hall₂, hindex₂, hraw₂, hfuel₂, hinside₂, hstill₂⟩,
      hall₃, hindex₃, hraw₃, hfuel₃, hinside₃, hstill₃⟩,
      htypedef, husing, hparens, hstars, hrule, hneeds, htext, hcuts⟩,
      hname, hnamed, hpointer, hconst, hmarks⟩ := hrun
    have hsees₂ := Reading.sees_of_still hraw₂ hfuel₂ hinside₂ hstill₂
    have hsees₃ := Reading.sees_of_still hraw₃ hfuel₃ hinside₃ hstill₃
    rw [hindex₂, hall₂, List.toList_toArray, hbehind.1, List.append_assoc] at hsees₂
    rw [hindex₃, hall₃, List.toList_toArray, hbehind.2] at hsees₃
    have hsuffix : suffix foldRequest type [star] = [.pointer, .pointer] := by
      unfold suffix
      change type.marks true ++ _ = _
      rw [hmarks]
      rfl
    have htakes : type.Takes (suffix foldRequest type [star]) := by
      rw [hsuffix]
      exact ⟨by decide, by simp [hpointer], hname ▸ closed_word,
        fun h => absurd h (by decide), hnamed⟩
    have hfinds : (f.shape foldRequest []).Finds s₃.table s₃.usings foldRequest.scope
        (f.shape foldRequest [], some castRule) :=
      Draft.finds_of_plain hrule (by simp [castRule]) (by simp)
    have hgroups : s₃.Sees (([] : List Dimension).flatMap Dimension.tokens ++ semicolon ::
        [Window.endToken (Token.ofText none "T **x;").toArray]) := hsees₃
    obtain ⟨hcast, hwhole, hexists⟩ := read_cast hsees htype hskip hsees₂ (by decide) rfl hfront
      hgroups rfl rfl htypedef husing hstars hfinds hneeds htakes (by simp [foldRequest])
    obtain ⟨d, s', hread⟩ := hexists hstart.2.1 hparens rfl
    obtain ⟨before, after, hannotations⟩ := hcast d s' hread
    rw [htext] at hannotations hwhole
    rw [hsuffix] at hwhole
    refine ⟨d, s', before, after, hread, hannotations, ?_⟩
    have hsample := hwhole.mpr hcuts
    unfold NativeType.IsCast at hsample ⊢
    rwa [hname, hconst] at hsample
  · cases hrun

/-- **The last `const` is cut.** The pointer that `T * * const x;` gives up for a dimension takes
the last character of `const` with it. -/
theorem const_is_cut :
    (match Declarator.read foldRequest (castInput "T * * const x;") with
      | .ok (some d) _ => some d.type.annotations
      | _ => none) = some "@Cast(\"T**cons\") " ∧
    ¬ ({ nativeName := "T" } : NativeType).IsCast [.pointer, .pointer, .const]
      "T**cons".toList := by
  refine ⟨by decide +kernel, ?_⟩
  have htakes : ({ nativeName := "T" } : NativeType).Takes [.pointer, .pointer, .const] :=
    ⟨by decide, by decide, closed_word, by decide, rfl⟩
  have hprints : ({ nativeName := "T" } : NativeType).Prints [.pointer, .pointer, .const] true
      "T**cons".toList :=
    .cut (NativeType.split_concat [.pointer, .pointer] .const) (by decide) (.inl rfl)
  rw [hprints.isCast_iff htakes]
  decide

end Declarator

end HeaderPeers

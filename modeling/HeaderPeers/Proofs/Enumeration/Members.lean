import HeaderPeers.Enumeration.Basic
import HeaderPeers.Proofs.Enumeration.Initializer

/-!
# Expressions over members

Inside a class of values, an expression refers to the value of an earlier name by a field of it.

- `Enumeration.words?_fields` — the words of the expression with its fields.
- `Enumeration.value?_fields` — it is worth what the expression is worth.
-/

namespace HeaderPeers.Enumeration

open Arithmetic

variable {seen : List String} {names : List Char → Option Int} {cs ds p : List Char}
  {ps : List (List Char)} {c d : Char}

/-- A piece, with the field behind it if it is an earlier name. -/
def withField (seen : List String) (p : List Char) : List Char :=
  if seen.contains (String.ofList p) then p ++ ".value".toList else p

/-- The characters of an expression with its fields. -/
def fields (seen : List String) (cs : List Char) : List Char :=
  ((Text.piecesThrough (!Text.isWordChar ·) cs).map fun p => (valuePiece seen p).toList).flatten

theorem fields_nil (seen : List String) : fields seen [] = [] :=
  rfl

theorem toList_valueExpression (seen : List String) (base : String) :
    (valueExpression seen base).toList = fields seen base.toList := by
  simp [valueExpression, fields, String.toList_join, List.flatMap_def, Function.comp_def]

/-- The names of an enumeration are words. -/
def AreWords (seen : List String) : Prop :=
  ∀ name ∈ seen, Text.isWord name.toList = true

theorem withField_of_not_word (hseen : AreWords seen) (h : Text.isWord p = false) :
    withField seen p = p := by
  refine if_neg fun hmem => ?_
  have hword := hseen _ (List.contains_iff_mem.mp hmem)
  rw [String.toList_ofList, h] at hword
  cases hword

theorem dropEndWhile_append_singleton (hp : ∀ c ∈ p, Text.isWordChar c = true)
    (hd : Text.isWordChar d = false) :
    Text.dropEndWhile (!Text.isWordChar ·) (p ++ [d]) = p := by
  have hnone : p.reverse.dropWhile (!Text.isWordChar ·) = p.reverse := by
    cases hreverse : p.reverse with
    | nil => rfl
    | cons c cs =>
        have hc := hp c (List.mem_reverse.mp (hreverse ▸ List.mem_cons_self))
        exact List.dropWhile_cons_of_neg (by simp [hc])
  rw [Text.dropEndWhile, List.reverse_append, List.reverse_singleton, List.singleton_append,
    List.dropWhile_cons_of_pos (by simp [hd]), hnone, List.reverse_reverse]

/-- A piece of letters with the mark behind it. -/
theorem valuePiece_append_singleton (seen : List String) (hp : ∀ c ∈ p, Text.isWordChar c = true)
    (hd : Text.isWordChar d = false) :
    (valuePiece seen (p ++ [d])).toList = withField seen p ++ [d] := by
  unfold valuePiece withField
  dsimp only
  rw [dropEndWhile_append_singleton hp hd, List.drop_left]
  split
  · simp [String.toList_append]
  · simp

theorem valuePiece_of_word (seen : List String) (hp : ∀ c ∈ p, Text.isWordChar c = true) :
    (valuePiece seen p).toList = withField seen p := by
  have hall : Text.dropEndWhile (!Text.isWordChar ·) p = p :=
    dropEndWhile_of_forall fun c hc => by simp [hp c hc]
  unfold valuePiece withField
  dsimp only
  rw [hall, List.drop_length]
  split
  · simp [String.toList_append]
  · simp

theorem piecesThrough_word (hp : ∀ c ∈ p, Text.isWordChar c = true) (hne : p ≠ []) :
    Text.piecesThrough (!Text.isWordChar ·) p = [p] := by
  induction p with
  | nil => exact absurd rfl hne
  | cons c cs ih =>
      have hc := hp c List.mem_cons_self
      rw [Text.piecesThrough, if_neg (by simp [hc])]
      cases cs with
      | nil => rfl
      | cons d ds => rw [ih (fun e he => hp e (List.mem_cons_of_mem _ he)) (List.cons_ne_nil _ _)]

theorem piecesThrough_append (hp : ∀ c ∈ p, Text.isWordChar c = true)
    (hd : Text.isWordChar d = false) (cs : List Char) :
    Text.piecesThrough (!Text.isWordChar ·) (p ++ d :: cs) =
      (p ++ [d]) :: Text.piecesThrough (!Text.isWordChar ·) cs := by
  induction p with
  | nil => rw [List.nil_append, Text.piecesThrough, if_pos (by simp [hd])]; rfl
  | cons c p ih =>
      have hc := hp c List.mem_cons_self
      rw [List.cons_append, Text.piecesThrough, if_neg (by simp [hc]),
        ih fun e he => hp e (List.mem_cons_of_mem _ he)]
      rfl

/-- A mark stays as it is. -/
theorem fields_cons (hseen : AreWords seen) (hd : Text.isWordChar d = false) (cs : List Char) :
    fields seen (d :: cs) = d :: fields seen cs := by
  have hpieces := piecesThrough_append (p := []) (by simp) hd cs
  have hpiece := valuePiece_append_singleton (p := []) seen (by simp) hd
  rw [withField_of_not_word hseen rfl] at hpiece
  rw [List.nil_append] at hpieces
  rw [fields, hpieces, List.map_cons, List.flatten_cons, hpiece]
  rfl

theorem fields_of_word (seen : List String) (hp : ∀ c ∈ p, Text.isWordChar c = true)
    (hne : p ≠ []) : fields seen p = withField seen p := by
  rw [fields, piecesThrough_word hp hne, List.map_singleton, valuePiece_of_word seen hp,
    List.flatten_singleton]

/-- Letters that no others follow are a name with its field, or stay as they are. -/
theorem fields_append (hseen : AreWords seen) (hp : ∀ c ∈ p, Text.isWordChar c = true)
    (hne : p ≠ []) (hcs : ∀ c ∈ cs.head?, Text.isWordChar c = false) :
    fields seen (p ++ cs) = withField seen p ++ fields seen cs := by
  cases cs with
  | nil =>
      rw [List.append_nil, fields_of_word seen hp hne, fields_nil, List.append_nil]
  | cons d cs =>
      have hd := hcs d rfl
      rw [fields_cons hseen hd, fields, piecesThrough_append hp hd, List.map_cons,
        List.flatten_cons, valuePiece_append_singleton seen hp hd, List.append_assoc]
      rfl

/-- A mark, or letters. -/
def IsPiece (p : List Char) : Prop :=
  (∀ c ∈ p, Text.isWordChar c = true) ∨ ∀ c ∈ p, Text.isWordChar c = false

/-- Pieces that no word goes on between. -/
theorem fields_flatten (hseen : AreWords seen) (hps : ∀ p ∈ ps, p ≠ [] ∧ IsPiece p)
    (hapart : ps.IsChain fun p q => ∃ hp hq, joins (p.getLast hp) (q.head hq) = false) :
    fields seen ps.flatten = (ps.map (withField seen)).flatten := by
  induction ps with
  | nil => rfl
  | cons p ps ih =>
      obtain ⟨hne, hpiece⟩ := hps p List.mem_cons_self
      have hrest := ih (fun q hq => hps q (List.mem_cons_of_mem _ hq)) hapart.tail
      rw [List.flatten_cons, List.map_cons, List.flatten_cons, ← hrest]
      rcases hpiece with hword | hmark
      · refine fields_append hseen hword hne fun d hd => ?_
        cases ps with
        | nil => cases hd
        | cons q ps =>
            obtain ⟨_, hq, hjoins⟩ := (List.isChain_cons_cons.mp hapart).1
            obtain rfl : q.head hq = d := by
              rw [List.flatten_cons, List.head?_append_of_ne_nil _ hq, List.head?_eq_some_head hq]
                at hd
              exact Option.some.inj hd
            by_contra hletter
            rw [Bool.not_eq_false] at hletter
            have hlast := hword _ (List.getLast_mem hne)
            simp [joins, isNameChar, hlast, hletter] at hjoins
      · have hstays : Text.isWord p = false := by
          obtain ⟨c, p, rfl⟩ := List.exists_cons_of_ne_nil hne
          have hc := hmark c List.mem_cons_self
          by_contra hword
          rw [Bool.not_eq_false] at hword
          rw [Text.isWordChar_of_isWord hword c List.mem_cons_self] at hc
          cases hc
        rw [withField_of_not_word hseen hstays]
        clear hne hstays hps hapart hrest ih
        induction p with
        | nil => rfl
        | cons c p ih =>
            rw [List.cons_append, fields_cons hseen (hmark c List.mem_cons_self),
              ih fun d hd => hmark d (List.mem_cons_of_mem _ hd)]
            rfl

/-! ## Words -/

theorem isWordChar_of_isNameChar (h : isNameChar c = true) (hdot : c ≠ '.') :
    Text.isWordChar c = true := by
  simpa [isNameChar, hdot] using h

/-- Without dots, a piece is a mark or letters. -/
theorem isPiece_of_isChain (hchain : p.IsChain fun c d => joins c d = true) (hdot : '.' ∉ p) :
    IsPiece p := by
  have hjoins {c d : Char} (h : joins c d = true) (hc : c ≠ '.') (hd : d ≠ '.') :
      Text.isWordChar d = Text.isWordChar c := by
    simp only [joins, Bool.or_eq_true, Bool.and_eq_true, beq_iff_eq] at h
    rcases h with ⟨hnamec, hnamed⟩ | ⟨rfl, -⟩
    · rw [isWordChar_of_isNameChar hnamec hc, isWordChar_of_isNameChar hnamed hd]
    · rfl
  have hsame : ∀ c ∈ p.head?, ∀ d ∈ p, Text.isWordChar d = Text.isWordChar c := by
    induction p with
    | nil => simp
    | cons c p ih =>
        obtain ⟨hc, hp⟩ := not_or.mp (List.mem_cons.not.mp hdot)
        intro e he d hd
        obtain rfl := Option.some.inj he
        rcases List.mem_cons.mp hd with rfl | hd
        · rfl
        · cases p with
          | nil => cases hd
          | cons e p =>
              have hnext := ih hchain.tail hp e rfl d hd
              have he : e ≠ '.' := fun heq => hp (heq ▸ List.mem_cons_self)
              exact hnext.trans (hjoins (List.isChain_cons_cons.mp hchain).1 (Ne.symm hc) he)
  cases p with
  | nil => exact Or.inl (by simp)
  | cons c p =>
      cases hc : Text.isWordChar c with
      | true => exact Or.inl fun d hd => (hsame c rfl d hd).trans hc
      | false => exact Or.inr fun d hd => (hsame c rfl d hd).trans hc

theorem withField_cases (seen : List String) (p : List Char) :
    withField seen p = p ∨ String.ofList p ∈ seen ∧ withField seen p = p ++ ".value".toList := by
  unfold withField
  split
  next h => exact Or.inr ⟨List.contains_iff_mem.mp h, rfl⟩
  · exact Or.inl rfl

theorem isNameChar_field : ∀ c ∈ ".value".toList, isNameChar c = true :=
  List.all_eq_true.mp (by decide +kernel)

/-- The pieces with their fields are the pieces of the whole. -/
theorem splitBy_fields (hseen : AreWords seen) (hdot : '.' ∉ cs) :
    (fields seen cs).splitBy joins = (cs.splitBy joins).map (withField seen) := by
  have hflatten := List.flatten_splitBy joins cs
  have hchains : ∀ p ∈ cs.splitBy joins, p.IsChain fun c d => joins c d = true :=
    fun p hp => List.isChain_of_mem_splitBy hp
  have hapart := List.isChain_getLast_head_splitBy joins cs
  have hsub : ∀ p ∈ cs.splitBy joins, '.' ∉ p := fun p hp hmem =>
    hdot (hflatten ▸ List.mem_flatten.mpr ⟨p, hp, hmem⟩)
  have hpieces : ∀ p ∈ cs.splitBy joins, p ≠ [] ∧ IsPiece p := fun p hp =>
    ⟨List.ne_nil_of_mem_splitBy hp, isPiece_of_isChain (hchains p hp) (hsub p hp)⟩
  refine List.splitBy_eq_iff.mpr ⟨?_, ?_, ?_, ?_⟩
  · rw [← fields_flatten hseen hpieces hapart, hflatten]
  · rintro hnil
    obtain ⟨p, hp, hnil⟩ := List.mem_map.mp hnil
    rcases withField_cases seen p with heq | ⟨-, heq⟩
    · exact (hpieces p hp).1 (heq ▸ hnil)
    · rw [heq] at hnil
      exact (hpieces p hp).1 (List.append_eq_nil_iff.mp hnil).1
  · rintro q hq
    obtain ⟨p, hp, rfl⟩ := List.mem_map.mp hq
    rcases withField_cases seen p with heq | ⟨hmem, heq⟩
    · rw [heq]
      exact hchains p hp
    · rw [heq]
      refine isChain_of_isNameChar fun c hc => ?_
      rcases List.mem_append.mp hc with hc | hc
      · have hword := Text.isWordChar_of_isWord (hseen _ hmem)
        rw [String.toList_ofList] at hword
        simp [isNameChar, hword c hc]
      · exact isNameChar_field c hc
  · rw [List.isChain_map]
    refine hapart.imp_of_mem_imp ?_
    rintro p q hp hq ⟨hpne, hqne, hjoins⟩
    have hhead : (withField seen q).head? = q.head? := by
      rcases withField_cases seen q with heq | ⟨-, heq⟩
      · rw [heq]
      · rw [heq, List.head?_append_of_ne_nil _ hqne]
    have hne (r : List Char) (hr : r ≠ []) : withField seen r ≠ [] := by
      rcases withField_cases seen r with heq | ⟨-, heq⟩
      · rwa [heq]
      · rw [heq]
        exact List.append_ne_nil_of_left_ne_nil hr _
    refine ⟨hne p hpne, hne q hqne, ?_⟩
    have hfirst : (withField seen q).head (hne q hqne) = q.head hqne := by
      rw [List.head?_eq_some_head (hne q hqne), List.head?_eq_some_head hqne] at hhead
      exact Option.some.inj hhead
    rw [hfirst]
    rcases withField_cases seen p with heq | ⟨hmem, heq⟩
    · simpa only [heq] using hjoins
    · -- behind a name no name goes on, and none goes on behind its field
      have hword := Text.isWordChar_of_isWord (hseen _ hmem)
      rw [String.toList_ofList] at hword
      have hlast : (withField seen p).getLast (hne p hpne) = 'e' := by
        simp only [heq]
        rw [List.getLast_append_of_ne_nil _ (by decide +kernel)]
        decide +kernel
      have hname : isNameChar (p.getLast hpne) = true := by
        simp [isNameChar, hword _ (List.getLast_mem hpne)]
      have hnext : isNameChar (q.head hqne) = false := by
        simp only [joins, hname, Bool.true_and, Bool.or_eq_false_iff] at hjoins
        exact hjoins.1
      have hfield : doubles.contains 'e' = false := by decide
      rw [hlast, joins, hnext, hfield, Bool.and_false, Bool.and_false]
      rfl

/-- A name becomes its field. -/
def member (seen : List String) : Word → Word
  | .name cs => .name (withField seen cs)
  | w => w

theorem eq_of_ofPiece?_name (h : Word.ofPiece? p = some (.name cs)) : cs = p := by
  unfold Word.ofPiece? at h
  split_ifs at h
  · cases h
  · exact (Word.name.inj (Option.some.inj h)).symm
  · cases h
  · cases h
  · obtain ⟨op, -, hop⟩ := Option.map_eq_some_iff.mp h
    cases hop

theorem ofPiece?_withField (hseen : AreWords seen) (p : List Char) :
    Word.ofPiece? (withField seen p) = (Word.ofPiece? p).map (member seen) := by
  rcases withField_cases seen p with heq | ⟨hmem, heq⟩
  · have hname {w : Word} (h : Word.ofPiece? p = some w) : member seen w = w := by
      cases w with
      | name cs =>
          obtain rfl := eq_of_ofPiece?_name h
          exact congrArg Word.name heq
      | _ => rfl
    rw [heq]
    cases hpiece : Word.ofPiece? p with
    | none => rfl
    | some w => rw [Option.map_some, hname hpiece]
  · have hword := hseen _ hmem
    rw [String.toList_ofList] at hword
    have hchars := Text.isWordChar_of_isWord hword
    have hall : p.all isNameChar = true :=
      List.all_eq_true.mpr fun c hc => by simp [isNameChar, hchars c hc]
    have hfield : (p ++ ".value".toList).all isNameChar = true := by
      rw [List.all_append, hall, List.all_eq_true.mpr isNameChar_field]
      rfl
    have hdigit : p.head?.any Char.isDigit = false := by
      cases p with
      | nil => rfl
      | cons c p =>
          simp only [Text.isWord, Bool.and_eq_true] at hword
          exact isDigit_of_isWordStart hword.1
    have hne : p ≠ [] := by
      rintro rfl
      cases hword
    unfold Word.ofPiece?
    rw [heq, if_pos hfield, if_pos hall, List.head?_append_of_ne_nil _ hne, if_neg (by simp [hdigit]),
      if_neg (by simp [hdigit]), Option.map_some, member, heq]

theorem all_isBlank_withField (hseen : AreWords seen) (p : List Char) :
    (withField seen p).all Text.isBlank = p.all Text.isBlank := by
  rcases withField_cases seen p with heq | ⟨hmem, heq⟩
  · rw [heq]
  · have hword := hseen _ hmem
    rw [String.toList_ofList] at hword
    cases p with
    | nil => cases hword
    | cons c p =>
        have hblank := Text.isBlank_of_isWordChar
          (Text.isWordChar_of_isWord hword c List.mem_cons_self)
        rw [heq, List.cons_append, List.all_cons, List.all_cons, hblank]
        rfl

/-- **The words of an expression with its fields.** -/
theorem words?_fields (hseen : AreWords seen) (hdot : '.' ∉ cs) :
    words? (fields seen cs) = (words? cs).map (List.map (member seen)) := by
  have hmapM (ps : List (List Char)) : (ps.map (withField seen)).mapM Word.ofPiece? =
      (ps.mapM Word.ofPiece?).map (List.map (member seen)) := by
    induction ps with
    | nil => rfl
    | cons p ps ih =>
        rw [List.map_cons, List.mapM_cons, List.mapM_cons, ih, ofPiece?_withField hseen]
        cases Word.ofPiece? p with
        | none => rfl
        | some w => cases ps.mapM Word.ofPiece? <;> rfl
  have hpieces : pieces (fields seen cs) = (pieces cs).map (withField seen) := by
    unfold pieces
    rw [splitBy_fields hseen hdot, List.filter_map]
    congr 1
    exact List.filter_congr fun p hp => by simp [all_isBlank_withField hseen]
  unfold words?
  rw [hpieces, hmapM]

/-! ## Values -/

/-- What names are worth inside the class of values: the field of an earlier name has the value of
the name. -/
def memberNames (names : List Char → Option Int) (seen : List String) (cs : List Char) :
    Option Int :=
  match seen.find? fun name => cs == name.toList ++ ".value".toList with
  | some name => names name.toList
  | none => names cs

theorem memberNames_withField (names : List Char → Option Int) (seen : List String)
    (hdot : '.' ∉ cs) : memberNames names seen (withField seen cs) = names cs := by
  unfold memberNames
  split
  next name hfind =>
    have hname := List.find?_some hfind
    simp only [beq_iff_eq] at hname
    rcases withField_cases seen cs with heq | ⟨-, heq⟩
    · rw [heq] at hname
      exact absurd (hname ▸ List.mem_append_right _ (by decide +kernel)) hdot
    · rw [heq] at hname
      rw [List.append_cancel_right hname]
  next hfind =>
    rcases withField_cases seen cs with heq | ⟨hmem, heq⟩
    · rw [heq]
    · have hnone := List.find?_eq_none.mp hfind _ hmem
      exact absurd (by simp [heq]) hnone

/-- None of the names has a dot. -/
def IsUndotted (ws : List Word) : Prop :=
  ∀ cs, Word.name cs ∈ ws → '.' ∉ cs

theorem exists_piece_of_mem {ws : List Word} {w : Word} (h : ps.mapM Word.ofPiece? = some ws)
    (hw : w ∈ ws) : ∃ p ∈ ps, Word.ofPiece? p = some w := by
  induction ps generalizing ws with
  | nil =>
      obtain rfl := Option.some.inj h
      cases hw
  | cons p ps ih =>
      rw [List.mapM_cons] at h
      obtain ⟨u, hu, h⟩ := Option.bind_eq_some_iff.mp h
      obtain ⟨us, hus, h⟩ := Option.bind_eq_some_iff.mp h
      obtain rfl := Option.some.inj h
      rcases List.mem_cons.mp hw with rfl | hw
      · exact ⟨p, List.mem_cons_self, hu⟩
      · obtain ⟨q, hq, hword⟩ := ih hus hw
        exact ⟨q, List.mem_cons_of_mem _ hq, hword⟩

theorem isUndotted_of_words? {ws : List Word} (hdot : '.' ∉ cs) (h : words? cs = some ws) :
    IsUndotted ws := by
  intro p hp hmem
  obtain ⟨q, hq, hword⟩ := exists_piece_of_mem h hp
  obtain rfl := eq_of_ofPiece?_name hword
  have hsplit := (List.mem_filter.mp hq).1
  exact hdot (List.flatten_splitBy joins cs ▸ List.mem_flatten.mpr ⟨p, hsplit, hmem⟩)

theorem run_members (names : List Char → Option Int) (seen : List String) {ws : List Word}
    (hdots : IsUndotted ws) (m : Machine) :
    m.run (memberNames names seen) (ws.map (member seen)) = m.run names ws := by
  induction ws generalizing m with
  | nil => rfl
  | cons w ws ih =>
      have hstep : m.step (memberNames names seen) (member seen w) = m.step names w := by
        cases w with
        | name cs =>
            have hname := memberNames_withField names seen (hdots cs List.mem_cons_self)
            unfold Machine.step
            cases m.value? with
            | none => rw [member, Machine.stepOperand, Machine.stepOperand, hname]
            | some v => rfl
        | operator op =>
            unfold Machine.step
            cases m.value? with
            | none => cases op <;> rfl
            | some v => rfl
        | _ => rfl
      rw [List.map_cons, Machine.run_cons, Machine.run_cons, hstep]
      cases m.step names w with
      | none => rfl
      | some m' => exact ih (fun cs hcs => hdots cs (List.mem_cons_of_mem _ hcs)) m'

/-- **An expression with its fields** has the value of the expression. -/
theorem value?_fields (names : List Char → Option Int) (hseen : AreWords seen) {text : String}
    (hdot : '.' ∉ text.toList) :
    value? (memberNames names seen) (String.ofList (fields seen text.toList)) =
      value? names text := by
  unfold value?
  rw [String.toList_ofList, words?_fields hseen hdot]
  cases hwords : words? text.toList with
  | none => rfl
  | some ws =>
      simp only [Option.map_some, Option.bind_some, valueOf?]
      rw [run_members names seen (isUndotted_of_words? hdot hwords)]

theorem complete_value? (stack : List Pending) (v : Int) :
    ∃ w, (complete stack v).value? = some w := by
  induction stack generalizing v with
  | nil => exact ⟨v, rfl⟩
  | cons p stack ih =>
      cases p with
      | sign negative => exact ih _
      | left a op => exact ⟨v, rfl⟩
      | group => exact ⟨v, rfl⟩

/-- What has a value has no call: no parenthesis opens behind a name. -/
theorem isChain_of_run {ws : List Word} {m m' : Machine} (h : m.run names ws = some m') :
    ws.IsChain fun w u => (∃ cs, w = .name cs) → u ≠ .opening := by
  induction ws generalizing m with
  | nil => exact .nil
  | cons w ws ih =>
      rw [Machine.run_cons] at h
      obtain ⟨m₁, hstep, hrun⟩ := Option.bind_eq_some_iff.mp h
      cases ws with
      | nil => exact .singleton w
      | cons u ws =>
          refine List.isChain_cons_cons.mpr ⟨?_, ih hrun⟩
          rintro ⟨cs, rfl⟩ rfl
          -- behind a name there is a value, and no operand is awaited
          have hvalue : ∃ v, m₁.value? = some v := by
            unfold Machine.step at hstep
            split at hstep
            · obtain ⟨v, -, rfl⟩ := Option.map_eq_some_iff.mp hstep
              exact complete_value? m.stack v
            · cases hstep
          obtain ⟨v, hv⟩ := hvalue
          rw [Machine.run_cons, Machine.step, hv] at hrun
          cases hrun

/-! ## Counting on -/

/-- What is written behind a mark does not change what stands in front of it. -/
theorem fields_append_cons (hseen : AreWords seen) (hd : Text.isWordChar d = false)
    (cs ds : List Char) : fields seen (cs ++ d :: ds) = fields seen cs ++ d :: fields seen ds := by
  -- letters that have been passed are kept in front, until a mark is met
  have hgeneral (p : List Char) (hp : ∀ c ∈ p, Text.isWordChar c = true) :
      fields seen (p ++ (cs ++ d :: ds)) = fields seen (p ++ cs) ++ d :: fields seen ds := by
    have hmark (p : List Char) (hp : ∀ c ∈ p, Text.isWordChar c = true) {c : Char}
        (hc : Text.isWordChar c = false) (es : List Char) :
        fields seen (p ++ c :: es) = withField seen p ++ c :: fields seen es := by
      rcases eq_or_ne p [] with rfl | hne
      · rw [withField_of_not_word hseen rfl]
        exact fields_cons hseen hc es
      · have hhead : ∀ e ∈ (c :: es).head?, Text.isWordChar e = false := fun e he =>
          Option.some.inj he ▸ hc
        rw [fields_append hseen hp hne hhead, fields_cons hseen hc]
    induction cs generalizing p with
    | nil =>
        rw [List.nil_append, hmark p hp hd, List.append_nil]
        rcases eq_or_ne p [] with rfl | hne
        · rw [withField_of_not_word hseen rfl]
          rfl
        · rw [fields_of_word seen hp hne]
    | cons c cs ih =>
        cases hc : Text.isWordChar c with
        | true =>
            have hlonger : ∀ e ∈ p ++ [c], Text.isWordChar e = true := by
              intro e he
              rcases List.mem_append.mp he with he | he
              · exact hp e he
              · exact List.mem_singleton.mp he ▸ hc
            have hnext := ih (p ++ [c]) hlonger
            simpa using hnext
        | false =>
            have hnext := ih [] (by simp)
            rw [List.nil_append, List.nil_append] at hnext
            rw [List.cons_append, hmark p hp hc, hmark p hp hc, hnext, List.append_assoc]
            rfl
  exact hgeneral [] (by simp)

end HeaderPeers.Enumeration

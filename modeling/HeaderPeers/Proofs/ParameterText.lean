import HeaderPeers.Proofs.Reading
import HeaderPeers.Declarator.Reader

/-!
# The text of a list of parameters

A list of parameters is printed while it is read, and a counter decides about the
commas: it numbers the entries, kept or not, and starts anew behind a parameter
called `argN`. Here reading is taken apart from printing.

- `Parameters.readListing` — reading alone: the entries, and what closes them.
- `Parameters.readWith_eq` — the parameters are the print of what was read.
- `Parameters.readWith_renders` — the main statement: if the first entry is kept, or
  none, the printed list, the names and the signature are those of the declarators.
-/

namespace HeaderPeers

open ReadM

namespace ReadM

variable {α β γ σ τ : Type}

/-- A turn seen through other states and results. -/
def Turn.map (f : σ → τ) (g : β → γ) : Turn σ β → Turn τ γ
  | .again state => .again (f state)
  | .done result => .done (g result)

/-- A loop seen through other states and results. -/
theorem iterateUpTo_map {f : σ → τ} {g : β → γ} {turn : σ → ReadM (Turn σ β)}
    {turn' : τ → ReadM (Turn τ γ)} (hturn : ∀ state, turn' (f state) = Turn.map f g <$> turn state)
    (n : Nat) (state : σ) :
    iterateUpTo turn' n (f state) = g <$> iterateUpTo turn n state := by
  induction n generalizing state with
  | zero => rfl
  | succ n ih =>
      rw [iterateUpTo, iterateUpTo, hturn, map_eq_pure_bind, bind_assoc, map_eq_pure_bind,
        bind_assoc]
      refine bind_congr fun r => ?_
      rw [pure_bind]
      cases r with
      | again state' => exact (ih state').trans (map_eq_pure_bind _ _)
      | done result => exact (pure_bind _ _).symm

theorem iterate_map {f : σ → τ} {g : β → γ} {turn : σ → ReadM (Turn σ β)}
    {turn' : τ → ReadM (Turn τ γ)} (hturn : ∀ state, turn' (f state) = Turn.map f g <$> turn state)
    (start : σ) : iterate (f start) turn' = g <$> iterate start turn := by
  unfold iterate
  rw [map_eq_pure_bind, bind_assoc]
  refine bind_congr fun s => ?_
  rw [iterateUpTo_map hturn, map_eq_pure_bind]

end ReadM

namespace Parameters

/-! ## What is read -/

/-- An entry of a list of parameters. -/
structure Entry where
  /-- The white space in front of it. -/
  spacing : String
  /-- None for a bare `...`. -/
  declarator : Option Declarator
  value : Option DefaultValue

/-- A parameter that is printed. -/
structure Shown where
  spacing : String
  declarator : Declarator
  value : Option DefaultValue

namespace Shown

/-- The annotations of the type, which note a default value. -/
def annotations (e : Shown) : String :=
  match e.value with
  | some value => noteDefault e.declarator.type.annotations value.qualified
  | none => e.declarator.type.annotations

/-- The default value as a comment. -/
def comment (e : Shown) : String :=
  match e.value with
  | some value => "/*=" ++ value.text ++ "*/"
  | none => ""

/-- A parameter as it is printed. -/
def text (e : Shown) : String :=
  e.spacing ++ e.annotations ++ e.declarator.type.targetName ++ " " ++ e.declarator.targetName
    ++ e.comment

end Shown

/-- An entry that names nothing is not printed, nor is `void`. -/
def Entry.shown? (e : Entry) : Option Shown :=
  (e.declarator.filter fun d => d.type.targetName != "void" || d.indirections > 0).map
    fun declarator => { spacing := e.spacing, declarator, value := e.value }

/-- Whether an entry stays, if of those with a default value only some do. -/
def Entry.stays (e : Entry) (keep : Option Nat) : Bool :=
  e.value.isNone || keep.all (0 < ·)

/-- How many of the entries behind this one stay. -/
def Entry.left (e : Entry) (keep : Option Nat) : Option Nat :=
  if e.value.isSome then keep.map (· - 1) else keep

/-- The parameters that are printed, if only some of those with a default value are. -/
def kept (keep : Option Nat) : List Entry → List Shown
  | [] => []
  | e :: es => (if e.stays keep then e.shown?.toList else []) ++ kept (e.left keep) es

/-- A list of parameters as it was read. -/
structure Listing where
  entries : List Entry
  /-- How many entries with a default value stay. -/
  keep : Option Nat
  /-- The white space before the closing parenthesis; none if the input ends before it. -/
  closing : Option String
  /-- Whether none may be left out, since a default value names something that is skipped. -/
  isWhole : Bool := false

namespace Listing

/-- The parameters that are printed. -/
def shown (l : Listing) : List Shown :=
  kept l.keep l.entries

/-- Whether the first entry is printed. -/
def startsShown (l : Listing) : Bool :=
  !(kept l.keep (l.entries.take 1)).isEmpty

end Listing

/-! ## How it is printed -/

/-- Counts one more entry, and prints it if it is kept. -/
def Progress.take (keep : Option Nat) (p : Progress) (e : Entry) : Progress :=
  let (stays, p) := { p with count := p.count + 1 }.noteValue e.value keep
  match if stays then e.shown? else none with
  | some shown => p.push shown.spacing shown.declarator shown.value
  | none => p

/-- What is printed of some entries. -/
def printed (keep : Option Nat) (entries : List Entry) : Progress :=
  entries.foldl (Progress.take keep) {}

namespace Listing

/-- What is printed of the list. -/
def progress (l : Listing) : Progress :=
  match l.closing with
  | some spacing => (printed l.keep l.entries).close spacing
  | none => printed l.keep l.entries

/-- The parameters that the list is. -/
def parameters (l : Listing) : Parameters :=
  if l.isWhole then { l.progress.parameters with defaults := 0 } else l.progress.parameters

end Listing

/-! ## Reading alone -/

section Reading

variable (readDeclarator : DeclaratorReader) (scope : Scope) (choice : Int) (keep : Option Nat)

/-- Reads an entry, from its first token on; none if it has no type. -/
def readEntry (count : Nat) (t : Token) : ReadM (Option Entry) := do
  let declarator ← readDeclarator { scope, choice, defaultName := some ("arg" ++ toString count) }
  if declarator.any (·.type.nativeName.isEmpty) then return none
  let isPlain ← (do return (← peek).isAny [",", ")"]) <||> (do return (← peek).isEof)
  if isPlain then return some { spacing := t.spacing, declarator, value := none }
  let value ← DefaultValue.read scope
  if value.isSkipped then
    warn t.location
      ("default value '" ++ value.text ++ "' refers to a skipped name; keeping every argument")
  return some { spacing := t.spacing, declarator, value := some value }

/-- One turn of reading entries. -/
def entryTurn : List Entry × Token → ReadM (Turn (List Entry × Token) (Option Listing)) :=
  fun (entries, t) => do
    if t.isEof then return .done (some { entries, keep, closing := none })
    if t.is ")" then
      let _ ← advance
      return .done (some { entries, keep, closing := some t.spacing })
    match ← readEntry readDeclarator scope choice (printed keep entries).count t with
    | none => return .done none
    | some e =>
      let t ← peek
      expect t [",", ")"]
      return .again (entries ++ [e], ← if t.is "," then advance else pure t)

/-- Reads entries up to the closing parenthesis. -/
def readEntries : ReadM (Option Listing) := do
  let first ← advance
  iterate ([], first) (entryTurn readDeclarator scope choice keep)

/-- Reads `(...)`; all entries stay if a default value names something that is skipped. -/
def readListing : ReadM (Option Listing) := do
  if !(← peek).is "(" then return none
  let back ← cursor
  match ← readEntries readDeclarator scope choice keep with
  | none =>
    moveTo back
    return none
  | some l =>
    let isWhole := l.progress.namesSkipped
    if isWhole && keep.isSome then
      moveTo back
      let again ← readEntries readDeclarator scope choice none
      return some { again.getD l with isWhole }
    return some { l with isWhole }

variable {readDeclarator scope choice keep}

/-- An entry is taken once its default value is known. -/
theorem takeEntry_eq (p : Progress) (t : Token) (declarator : Option Declarator)
    (value : Option DefaultValue) :
    (match declarator with
      | some d =>
        if ({ p with count := p.count + 1 }.noteValue value keep).1 &&
            (d.type.targetName != "void" || d.indirections > 0) then
          return some (({ p with count := p.count + 1 }.noteValue value keep).2.push t.spacing d
            value)
        else return some ({ p with count := p.count + 1 }.noteValue value keep).2
      | none => return some ({ p with count := p.count + 1 }.noteValue value keep).2 :
      ReadM (Option Progress)) =
    pure (some (p.take keep { spacing := t.spacing, declarator, value })) := by
  unfold Progress.take Entry.shown?
  cases declarator with
  | none => simp
  | some d =>
      cases hstays : ({ p with count := p.count + 1 }.noteValue value keep).1 <;>
        by_cases hd : d.type.targetName != "void" || d.indirections > 0 <;>
        simp [hd, hstays, Option.filter]

theorem readOne_eq (p : Progress) (t : Token) :
    readOne readDeclarator scope choice keep p t =
      (Option.map (p.take keep)) <$> readEntry readDeclarator scope choice p.count t := by
  unfold readOne readEntry
  rw [map_eq_pure_bind, bind_assoc]
  refine bind_congr fun declarator => ?_
  split
  · rfl
  rw [bind_assoc]
  refine bind_congr fun isPlain => ?_
  cases isPlain with
  | true => exact takeEntry_eq p t declarator none
  | false =>
      simp only [Bool.false_eq_true, if_false, bind_assoc]
      refine bind_congr fun value => ?_
      cases value.isSkipped with
      | true =>
          simp only [if_true, bind_assoc, pure_bind]
          exact bind_congr fun _ => takeEntry_eq p t declarator (some value)
      | false =>
          simp only [Bool.false_eq_true, if_false, pure_bind]
          exact takeEntry_eq p t declarator (some value)

/-- The turns of reading and printing are those of reading alone. -/
theorem readList_eq :
    readList readDeclarator scope choice keep =
      (Option.map Listing.progress) <$> readEntries readDeclarator scope choice keep := by
  unfold readList readEntries
  rw [map_eq_pure_bind, bind_assoc]
  refine bind_congr fun first => ?_
  rw [← map_eq_pure_bind]
  refine iterate_map (f := fun state : List Entry × Token => (printed keep state.1, state.2))
    (fun ⟨entries, t⟩ => ?_) ([], first)
  unfold entryTurn
  dsimp only
  by_cases heof : t.isEof = true
  · rw [if_pos heof, if_pos heof]
    rfl
  rw [if_neg heof, if_neg heof]
  by_cases hclose : t.is ")" = true
  · rw [if_pos hclose, if_pos hclose, map_eq_pure_bind, bind_assoc]
    rfl
  rw [if_neg hclose, if_neg hclose, readOne_eq, map_eq_pure_bind, map_eq_pure_bind, bind_assoc,
    bind_assoc]
  refine bind_congr fun entry => ?_
  rw [pure_bind]
  cases entry with
  | none => rfl
  | some e =>
      have htake : printed keep (entries ++ [e]) = (printed keep entries).take keep e := by
        simp [printed]
      simp only [Option.map_some, bind_assoc, pure_bind]
      refine bind_congr fun t => bind_congr fun _ => ?_
      split <;> simp [Turn.map, htake]

/-- **What is printed is the print of what was read.** -/
theorem readWith_eq :
    readWith readDeclarator scope choice keep =
      (Option.map Listing.parameters) <$> readListing readDeclarator scope choice keep := by
  unfold readWith readListing
  rw [readList_eq, readList_eq, map_eq_pure_bind, map_eq_pure_bind, map_eq_pure_bind, bind_assoc]
  refine bind_congr fun opening => ?_
  by_cases hopening : (!opening.is "(") = true
  · rw [if_pos hopening, if_pos hopening]
    rfl
  rw [if_neg hopening, if_neg hopening, bind_assoc]
  refine bind_congr fun back => ?_
  rw [bind_assoc, bind_assoc]
  refine bind_congr fun l => ?_
  rw [pure_bind]
  cases l with
  | none => rfl
  | some l =>
      dsimp only [Option.map_some]
      cases hskipped : l.progress.namesSkipped with
      | false => rfl
      | true =>
          cases keep with
          | none => rfl
          | some n =>
              simp only [Bool.not_true, Bool.false_eq_true, if_false, Option.isSome_some,
                Bool.and_true, if_true, bind_assoc, pure_bind]
              refine bind_congr fun _ => bind_congr fun again => ?_
              cases again <;> rfl

end Reading

/-! ## What the counter does -/

theorem joinWith_cons (separator part : String) (parts : List String) :
    Text.joinWith separator (part :: parts) =
      part ++ String.join (parts.map (separator ++ ·)) := by
  unfold Text.joinWith
  induction parts generalizing part with
  | nil => simp
  | cons next parts ih =>
      rw [String.intercalate_cons_cons, ih, List.map_cons, String.join_cons]
      simp only [String.append_assoc]

/-- Behind what `p` prints, `q` prints these parameters; each gets its comma if an entry was counted
before. -/
structure Prints (p q : Progress) (shown : List Shown) : Prop where
  counted : 0 < p.count → 0 < q.count
  declarators : q.parameters.declarators =
    p.parameters.declarators ++ shown.map (·.declarator)
  signature : q.parameters.signature = p.parameters.signature ++
    String.join (shown.map fun e => signaturePart e.declarator.type.targetName)
  list : 0 < p.count →
    q.parameters.list = p.parameters.list ++ String.join (shown.map fun e => "," ++ e.text)
  names : 0 < p.count → q.parameters.names = p.parameters.names ++
    String.join (shown.map fun e => ", " ++ e.declarator.targetName)

theorem Prints.nil {p q : Progress} (hcount : 0 < p.count → 0 < q.count)
    (h : q.parameters.declarators = p.parameters.declarators ∧
      q.parameters.signature = p.parameters.signature ∧
      q.parameters.list = p.parameters.list ∧ q.parameters.names = p.parameters.names) :
    Prints p q [] := by
  obtain ⟨hdeclarators, hsignature, hlist, hnames⟩ := h
  refine ⟨hcount, ?_, ?_, fun _ => ?_, fun _ => ?_⟩
  · simp [hdeclarators]
  · simp [hsignature]
  · simp [hlist]
  · simp [hnames]

theorem Prints.trans {p q r : Progress} {es fs : List Shown} (h : Prints p q es)
    (h' : Prints q r fs) : Prints p r (es ++ fs) where
  counted hp := h'.counted (h.counted hp)
  declarators := by rw [h'.declarators, h.declarators, List.map_append, List.append_assoc]
  signature := by
    rw [h'.signature, h.signature, List.map_append, String.join_append, String.append_assoc]
  list hp := by
    rw [h'.list (h.counted hp), h.list hp, List.map_append, String.join_append,
      String.append_assoc]
  names hp := by
    rw [h'.names (h.counted hp), h.names hp, List.map_append, String.join_append,
      String.append_assoc]

/-- How many more entries with a default value stay. -/
def left (keep : Option Nat) (p : Progress) : Option Nat :=
  keep.map (· - p.kept)

/-- A default value is noted and prints nothing; the entry stays if the limit is not reached. -/
theorem prints_noteValue (p : Progress) (e : Entry) (keep : Option Nat) :
    (p.noteValue e.value keep).1 = e.stays (left keep p) ∧
      left keep (p.noteValue e.value keep).2 = e.left (left keep p) ∧
      (p.noteValue e.value keep).2.count = p.count ∧ Prints p (p.noteValue e.value keep).2 [] := by
  have hall : (left keep p).all (0 < ·) = keep.all (p.kept < ·) := by
    cases keep with
    | none => rfl
    | some n => simp [left, Nat.sub_pos_iff_lt]
  unfold Progress.noteValue Entry.stays Entry.left
  cases e.value with
  | none => exact ⟨by simp, by simp, rfl, .nil id ⟨rfl, rfl, rfl, rfl⟩⟩
  | some value =>
      rw [hall]
      dsimp only
      by_cases hstays : keep.all (p.kept < ·) = true
      · rw [if_pos hstays]
        refine ⟨by simp [hstays], ?_, rfl, .nil id ⟨rfl, rfl, rfl, rfl⟩⟩
        cases keep <;> simp [left, Nat.sub_sub]
      · rw [if_neg hstays]
        refine ⟨by simp [hstays], ?_, rfl, .nil id ⟨rfl, rfl, rfl, rfl⟩⟩
        cases keep with
        | none => simp at hstays
        | some n =>
            simp only [Option.all_some, decide_eq_true_eq] at hstays
            simp [left]
            omega

/-- A parameter gets its comma unless it belongs to the first entry, and the next one will. -/
theorem prints_push {p q : Progress} (e : Shown) (hcount : q.count = p.count + 1)
    (hnote : Prints p q []) :
    Prints p (q.push e.spacing e.declarator e.value) [e] ∧
      0 < (q.push e.spacing e.declarator e.value).count := by
  have hnext : 0 < (q.push e.spacing e.declarator e.value).count := by
    unfold Progress.push
    dsimp only
    split <;> omega
  have hdeclarators : q.parameters.declarators = p.parameters.declarators := by
    simpa using hnote.declarators
  have hsignature : q.parameters.signature = p.parameters.signature := by
    simpa using hnote.signature
  refine ⟨⟨fun _ => hnext, ?_, ?_, fun hp => ?_, fun hp => ?_⟩, hnext⟩
  · simp [Progress.push, hdeclarators]
  · simp [Progress.push, hsignature]
  · have hcomma : q.count > 1 := by omega
    have hlist : q.parameters.list = p.parameters.list := by simpa using hnote.list hp
    cases hvalue : e.value <;>
      simp [Progress.push, hcomma, hlist, Shown.text, Shown.annotations, Shown.comment, hvalue,
        String.append_assoc]
  · have hcomma : q.count > 1 := by omega
    have hnames : q.parameters.names = p.parameters.names := by simpa using hnote.names hp
    simp [Progress.push, hcomma, hnames, String.append_assoc]

/-- An entry is counted, noted, and printed if it is kept. -/
theorem take_eq (keep : Option Nat) (p : Progress) (e : Entry) :
    ∃ q, q.count = p.count + 1 ∧ left keep q = e.left (left keep p) ∧ Prints p q [] ∧
      q.parameters.list = p.parameters.list ∧ q.parameters.names = p.parameters.names ∧
      p.take keep e = match if e.stays (left keep p) then e.shown? else none with
        | some shown => q.push shown.spacing shown.declarator shown.value
        | none => q := by
  let counted : Progress := { p with count := p.count + 1 }
  obtain ⟨hstays, hleft, hcount, hnote⟩ := prints_noteValue counted e keep
  have hcounted : Prints p counted [] := .nil Nat.lt_succ_of_lt ⟨rfl, rfl, rfl, rfl⟩
  have hlist := hnote.list (Nat.succ_pos p.count)
  have hnames := hnote.names (Nat.succ_pos p.count)
  refine ⟨(counted.noteValue e.value keep).2, hcount, hleft, hcounted.trans hnote,
    by simpa using hlist, by simpa using hnames, ?_⟩
  have hsame : left keep counted = left keep p := rfl
  rw [← hsame, ← hstays]
  rfl

/-- One entry more. -/
theorem prints_take (p : Progress) (e : Entry) (keep : Option Nat) :
    Prints p (p.take keep e) (if e.stays (left keep p) then e.shown?.toList else []) ∧
      0 < (p.take keep e).count ∧ left keep (p.take keep e) = e.left (left keep p) := by
  obtain ⟨q, hq, hleft, hprints, -, -, htake⟩ := take_eq keep p e
  have hcount : 0 < q.count := by omega
  rw [htake]
  cases hstays : e.stays (left keep p) with
  | false => exact ⟨hprints, hcount, hleft⟩
  | true =>
      simp only [if_true]
      cases e.shown? with
      | none => exact ⟨hprints, hcount, hleft⟩
      | some shown =>
          obtain ⟨hpush, hcount⟩ := prints_push shown hq hprints
          exact ⟨hpush, hcount, hleft⟩

/-- All entries, by induction on them. -/
theorem prints_foldl (p : Progress) (es : List Entry) (keep : Option Nat) :
    Prints p (es.foldl (Progress.take keep) p) (kept (left keep p) es) := by
  induction es generalizing p with
  | nil => exact .nil id ⟨rfl, rfl, rfl, rfl⟩
  | cons e es ih =>
      obtain ⟨htake, -, hleft⟩ := prints_take p e keep
      have hrest := ih (p.take keep e)
      rw [hleft] at hrest
      exact htake.trans hrest

/-! ## The whole list -/

theorem left_start (keep : Option Nat) : left keep {} = keep := by
  cases keep <;> rfl

/-- The first entry is printed without a comma, and the others behind it with one. -/
theorem printed_cons {keep : Option Nat} {e : Entry} {es : List Entry} {shown : Shown}
    (hstays : e.stays keep = true) (hshown : e.shown? = some shown) :
    (printed keep (e :: es)).parameters.list =
        "(" ++ Text.joinWith "," ((kept keep (e :: es)).map Shown.text) ∧
      (printed keep (e :: es)).parameters.names =
        "(" ++ Text.joinWith ", " ((kept keep (e :: es)).map (·.declarator.targetName)) := by
  obtain ⟨q, hcount, -, -, hlist, hnames, htake⟩ := take_eq keep {} e
  obtain ⟨-, hpositive, hleft⟩ := prints_take {} e keep
  have hprints := prints_foldl (Progress.take keep {} e) es keep
  have hprinted : printed keep (e :: es) = es.foldl (Progress.take keep) (Progress.take keep {} e) :=
    rfl
  have hkept : kept keep (e :: es) = shown :: kept (e.left keep) es := by
    rw [kept, hstays, hshown]
    rfl
  have hcomma : ¬ q.count > 1 := by
    rw [hcount]
    decide
  rw [left_start, hstays, hshown] at htake
  rw [hleft, left_start] at hprints
  rw [hprinted, hprints.list hpositive, hprints.names hpositive, hkept, List.map_cons,
    List.map_cons, joinWith_cons, joinWith_cons, htake]
  constructor
  · cases hvalue : shown.value <;>
      simp [Progress.push, hcomma, hlist, Shown.text, Shown.annotations, Shown.comment, hvalue,
        String.append_assoc, Function.comp_def]
  · simp [Progress.push, hcomma, hnames, String.append_assoc, Function.comp_def]

/-- Entries of which none is kept print nothing. -/
theorem printed_of_kept_eq_nil {keep : Option Nat} {es : List Entry} (h : kept keep es = []) :
    (printed keep es).parameters.list = "(" ∧ (printed keep es).parameters.names = "(" := by
  cases es with
  | nil => exact ⟨rfl, rfl⟩
  | cons e es =>
      obtain ⟨q, -, -, -, hlist, hnames, htake⟩ := take_eq keep {} e
      obtain ⟨-, hpositive, hleft⟩ := prints_take {} e keep
      have hprints := prints_foldl (Progress.take keep {} e) es keep
      rw [kept, List.append_eq_nil_iff] at h
      have hnone : (if e.stays keep then e.shown? else none) = none := by
        cases hstays : e.stays keep with
        | false => rfl
        | true => simpa [hstays] using h.1
      have htake : Progress.take keep {} e = q := by
        rw [left_start, hnone] at htake
        exact htake
      rw [hleft, left_start, h.2, htake] at hprints
      rw [htake] at hpositive
      have hprinted : printed keep (e :: es) = es.foldl (Progress.take keep) q := by
        rw [← htake]
        rfl
      rw [hprinted, hprints.list hpositive, hprints.names hpositive, hlist, hnames]
      exact ⟨rfl, rfl⟩

namespace Listing

theorem printed_eq {l : Listing} (h : l.shown = [] ∨ l.startsShown = true) :
    (printed l.keep l.entries).parameters.list =
        "(" ++ Text.joinWith "," (l.shown.map Shown.text) ∧
      (printed l.keep l.entries).parameters.names =
        "(" ++ Text.joinWith ", " (l.shown.map (·.declarator.targetName)) := by
  rcases h with hnone | hfirst
  · rw [hnone]
    exact printed_of_kept_eq_nil hnone
  · unfold startsShown at hfirst
    unfold shown
    cases hentries : l.entries with
    | nil => simp [hentries, kept] at hfirst
    | cons e es =>
        rw [hentries] at hfirst
        cases hstays : e.stays l.keep with
        | false => simp [kept, hstays] at hfirst
        | true =>
            cases hshown : e.shown? with
            | none => simp [kept, hstays, hshown] at hfirst
            | some shown => exact printed_cons hstays hshown

theorem printed_declarators (l : Listing) :
    (printed l.keep l.entries).parameters.declarators = l.shown.map (·.declarator) ∧
      (printed l.keep l.entries).parameters.signature =
        String.join (l.shown.map fun e => signaturePart e.declarator.type.targetName) := by
  have hprints := prints_foldl {} l.entries l.keep
  rw [left_start] at hprints
  exact ⟨hprints.declarators, hprints.signature⟩

end Listing

variable {readDeclarator : DeclaratorReader} {scope : Scope} {choice : Int} {keep : Option Nat}

/-- **The printed list, the names and the signature are those of the declarators.** The parameters
are those of the list that was read. If it was read to its closing parenthesis, and its first entry
was kept or none was, then no comma is missing and none is too many. -/
theorem readWith_renders {s s' : Reading} {p : Parameters}
    (h : readWith readDeclarator scope choice keep s = .ok (some p) s') :
    ∃ l, readListing readDeclarator scope choice keep s = .ok (some l) s' ∧
      p.declarators = l.shown.map (·.declarator) ∧
      p.signature = String.join (p.declarators.map fun d =>
        "_" ++ String.ofList ((Text.lastWord d.type.targetName).toList.filter Text.isWordChar)) ∧
      ∀ spacing ∈ l.closing, l.shown = [] ∨ l.startsShown = true →
        p.list = "(" ++ Text.joinWith "," (l.shown.map Shown.text) ++ spacing ++ ")" ∧
          p.names = "(" ++ Text.joinWith ", " (p.declarators.map (·.targetName)) ++ ")" := by
  rw [readWith_eq, map_eq_pure_bind] at h
  obtain ⟨l, s₁, hread, hprint⟩ := bind_eq_ok h
  cases l with
  | none => cases hprint
  | some l =>
      obtain ⟨hdeclarators, hsignature⟩ := l.printed_declarators
      have hp : l.parameters = p ∧ s₁ = s' := by
        cases hprint
        exact ⟨rfl, rfl⟩
      obtain ⟨rfl, rfl⟩ := hp
      have hparameters : l.parameters.declarators = l.progress.parameters.declarators ∧
          l.parameters.signature = l.progress.parameters.signature ∧
          l.parameters.list = l.progress.parameters.list ∧
          l.parameters.names = l.progress.parameters.names := by
        unfold Listing.parameters
        split <;> exact ⟨rfl, rfl, rfl, rfl⟩
      have hclose : l.progress.parameters.declarators = l.shown.map (·.declarator) ∧
          l.progress.parameters.signature =
            String.join (l.shown.map fun e => signaturePart e.declarator.type.targetName) := by
        unfold Listing.progress
        split <;> exact ⟨hdeclarators, hsignature⟩
      refine ⟨l, hread, hparameters.1.trans hclose.1, ?_, fun spacing hspacing hkept => ?_⟩
      · rw [hparameters.2.1, hparameters.1, hclose.1, hclose.2, List.map_map]
        rfl
      · obtain ⟨hlist, hnames⟩ := Listing.printed_eq hkept
        have hprogress : l.progress = (printed l.keep l.entries).close spacing := by
          unfold Listing.progress
          rw [hspacing]
        rw [hparameters.1, hparameters.2.2.1, hparameters.2.2.2, hclose.1, hprogress, List.map_map]
        constructor
        · unfold Progress.close
          rw [hlist]
        · unfold Progress.close
          rw [hnames]
          rfl

/-- A list with a parameter called `arg7`, default values and a parameter without a name, read so
that one default value stays. -/
def atList : Reading :=
  .ofTokens {} (Token.ofText none "(int a, float arg7 = {1, 2}, char = 3 );")

/-- The comma behind `arg7` is there, and that in front of what was left out is not. -/
theorem readWith_renders_numbered :
    ∃ p, given (readWith Declarator.read {} 0 (some 1)) atList = some p ∧
      p.list = "(@ByVal int a, @ByVal(nullValue = \"\x7b1, 2\x7d\") float arg7/*=\x7b1, 2\x7d*/ )" ∧
      p.names = "(a, arg7)" ∧ p.signature = "_int_float" := by
  obtain ⟨hparameters, hgives, hlist⟩ :
      (given (readWith Declarator.read {} 0 (some 1)) atList).isSome = true ∧
        gives (readWith Declarator.read {} 0 (some 1)) atList = true ∧
        (given (readListing Declarator.read {} 0 (some 1)) atList).map (fun l =>
            (l.closing, l.startsShown, l.shown.map Shown.text,
              l.shown.map fun e => (e.declarator.targetName, e.declarator.type.targetName))) =
          some (some " ", true,
            ["@ByVal int a", " @ByVal(nullValue = \"\x7b1, 2\x7d\") float arg7/*=\x7b1, 2\x7d*/"],
            [("a", "int"), ("arg7", "float")]) := by
    decide +kernel
  obtain ⟨p, hp⟩ := Option.isSome_iff_exists.mp hparameters
  have hrun := eq_ok_of_gives hgives
  rw [hp] at hrun
  obtain ⟨l, hread, hdeclarators, hsignature, htext⟩ := readWith_renders hrun
  rw [given_of_eq_ok hread] at hlist
  simp only [Option.map_some, Option.some.injEq, Prod.mk.injEq] at hlist
  obtain ⟨hclosing, hfirst, hshown, hnames⟩ := hlist
  obtain ⟨hprint, hprintNames⟩ := htext " " hclosing (.inr hfirst)
  have hpairs : p.declarators.map (fun d => (d.targetName, d.type.targetName)) =
      [("a", "int"), ("arg7", "float")] := by
    rw [hdeclarators, List.map_map]
    exact hnames
  have htargets : p.declarators.map (·.targetName) = ["a", "arg7"] := by
    simpa [Function.comp_def] using congrArg (List.map Prod.fst) hpairs
  have htypes : p.declarators.map (·.type.targetName) = ["int", "float"] := by
    simpa [Function.comp_def] using congrArg (List.map Prod.snd) hpairs
  refine ⟨p, hp, ?_, ?_, ?_⟩
  · rw [hprint, hshown]
    decide +kernel
  · rw [hprintNames, htargets]
    decide +kernel
  · have hparts : p.declarators.map (fun d => "_" ++ String.ofList
          ((Text.lastWord d.type.targetName).toList.filter Text.isWordChar)) =
        (p.declarators.map (·.type.targetName)).map signaturePart := by
      rw [List.map_map]
      rfl
    rw [hsignature, hparts, htypes]
    decide +kernel

end Parameters

end HeaderPeers

import HeaderPeers.Enumeration.Basic
import HeaderPeers.Proofs.CodeText

/-!
# Constants as declarations

The constants of an enumeration are printed in runs. Each run is one declaration, and a getter or
a directive that stands for code ends it. Outside of comments, the text is compared with what the
entries ask for.

- `Enumeration.IsRun` — the names of one declaration with their values.
- `Enumeration.Shows` — what has been printed behind an enumerator.
- `Enumeration.constants_complete` — every name, value and directive is printed.
-/

namespace HeaderPeers

open Code

/-- What stands in front of the name in the source. -/
def Enumerator.leadIn (e : Enumerator) : String :=
  e.commentBefore ++ e.spacing

/-- A name with its value, as it is printed. -/
def Enumerator.item (e : Enumerator) : List Glyph :=
  plain (e.name ++ " = ").toList ++ (scan .code e.value.toList).1

/-- What is read of a source: a word, a value without comments, and comments that are closed. -/
structure Enumerator.IsPrintable (e : Enumerator) : Prop where
  name : ∀ c ∈ e.name.toList, Text.isWordChar c = true
  value : (scan .code e.value.toList).2 = .code
  visible : (scan .code e.value.toList).1.map Glyph.char = e.value.toList
  isOpen : IsOpen (scan .code e.value.toList).1
  spacing : ∀ c ∈ e.spacing.toList, Text.isBlank c = true
  leadIn : Quiet .code e.leadIn.toList .code
  after : Quiet .code (Text.trimEnd e.commentAfter).toList .code

instance (e : Enumerator) : Decidable e.IsPrintable :=
  decidable_of_iff (e.name.toList.all Text.isWordChar = true ∧ _ ∧ _ ∧ _ ∧
      e.spacing.toList.all Text.isBlank = true ∧ _ ∧ _)
    ⟨fun ⟨h₁, h₂, h₃, h₄, h₅, h₆, h₇⟩ =>
        ⟨List.all_eq_true.mp h₁, h₂, h₃, h₄, List.all_eq_true.mp h₅, h₆, h₇⟩,
      fun h => ⟨List.all_eq_true.mpr h.1, h.2, h.3, h.4, List.all_eq_true.mpr h.5, h.6, h.7⟩⟩

namespace Enumeration

/-- The text of a directive: complete declarations, perhaps with a line comment at the end. -/
structure IsDirective (text : String) : Prop where
  mode : (scan .code text.toList).2 = .code ∨ (scan .code text.toList).2 = .line
  complete : IsComplete (scan .code text.toList).1

instance (text : String) : Decidable (IsDirective text) :=
  decidable_of_iff (_ ∧ _) ⟨fun ⟨h₁, h₂⟩ => ⟨h₁, h₂⟩, fun h => ⟨h.1, h.2⟩⟩

/-! ## Parts of the text -/

/-- One declaration of constants, without its semicolon. -/
inductive IsRun (type : String) : List Enumerator → List Glyph → Prop
  | first {e : Enumerator} {gap : List Glyph} (h : e.IsPrintable) (hgap : IsBlank gap)
      (hne : gap ≠ []) : IsRun type [e] (plain (leadText type).toList ++ gap ++ e.item)
  | next {es : List Enumerator} {e : Enumerator} {gs gap : List Glyph} (h : e.IsPrintable)
      (hgap : IsBlank gap) (hmore : IsRun type es gs) :
      IsRun type (es ++ [e]) (gs ++ (plain [','] ++ (gap ++ e.item)))

/-- A declaration of the printed text. -/
inductive Part where
  | run (es : List Enumerator) (text : List Glyph)
  /-- The getter of a value, or what a directive stands for. -/
  | other (text : List Glyph)
  | empty

namespace Part

def text : Part → List Glyph
  | run _ text => text
  | other text => text
  | empty => []

/-- The constants that it declares. -/
def enumerators : Part → List Enumerator
  | run es _ => es
  | _ => []

def other? : Part → Option (List Glyph)
  | other text => some text
  | _ => none

/-- A run is one declaration of constants, with white space behind it. -/
def IsSound (type : String) : Part → Prop
  | run es text => ∃ gs gap, IsRun type es gs ∧ IsBlank gap ∧ text = gs ++ gap
  | _ => True

end Part

/-- The declaration of a getter, without its semicolon. -/
def getterDeclaration (type name : String) : String :=
  "public static native @MemberGetter " ++ type ++ " " ++ name ++ "()"

/-- The declarations that an entry asks for besides the constants. -/
def ownDeclarations (type : String) : EnumEntry → List (List Glyph)
  | .directive text => declarations (scan .code text.toList).1
  | .enumerator e =>
    if e.getter then [plain (getterDeclaration type e.name).toList] else []

variable {type text : String} {e : Enumerator} {es : List Enumerator} {p : Printing}
  {ds : List String} {gs hs : List Glyph} {others : List (List Glyph)} {m m' : Mode}

/-! ## Runs -/

theorem isOpen_plain {cs : List Char} (h : ';' ∉ cs) : IsOpen (plain cs) := by
  intro g hg
  obtain ⟨c, hc, rfl⟩ := List.mem_map.mp hg
  simpa [Glyph.ends] using fun heq : c = ';' => h (heq ▸ hc)

theorem semicolon_notMem {cs : List Char} (h : ∀ c ∈ cs, Text.isWordChar c = true) : ';' ∉ cs := by
  intro hmem
  have hword := h _ hmem
  rw [show Text.isWordChar ';' = false by decide +kernel] at hword
  cases hword

theorem isOpen_item (h : e.IsPrintable) : IsOpen e.item := by
  refine (isOpen_plain ?_).append h.isOpen
  rw [String.toList_append, List.mem_append, not_or]
  exact ⟨semicolon_notMem h.name, by decide +kernel⟩

theorem scans_item (h : e.IsPrintable) :
    Scans .code (e.name ++ " = " ++ e.value).toList e.item .code := by
  rw [String.toList_append]
  refine (scans_plain ?_).append (show Scans .code e.value.toList _ _ from Prod.ext rfl h.value)
  rw [String.toList_append]
  exact (isPlain_of_isWordChar h.name).append (by decide +kernel)

/-- A word as the type of constants or of a getter. -/
def IsType (type : String) : Prop :=
  ∀ c ∈ type.toList, Text.isWordChar c = true

theorem toList_leadText (type : String) :
    (leadText type).toList = "public static final ".toList ++ type.toList :=
  String.toList_append

theorem isPlain_leadText (htype : IsType type) : IsPlain (leadText type).toList := by
  rw [toList_leadText]
  exact IsPlain.append (by decide +kernel) (isPlain_of_isWordChar htype)

/-- A run is open, and it does not start with white space. -/
theorem IsRun.isOpen (htype : IsType type) (h : IsRun type es gs) :
    IsOpen gs ∧ ∃ hs, gs = { char := 'p' } :: hs := by
  induction h with
  | @first e gap h hgap hne =>
      have hlead : ';' ∉ (leadText type).toList := by
        rw [toList_leadText, List.mem_append, not_or]
        exact ⟨by decide +kernel, semicolon_notMem htype⟩
      refine ⟨((isOpen_plain hlead).append hgap.isOpen).append (isOpen_item h), ?_⟩
      have hhead : "public static final ".toList = 'p' :: "ublic static final ".toList := by
        decide +kernel
      rw [toList_leadText, hhead]
      exact ⟨_, rfl⟩
  | next h hgap hmore ih =>
      obtain ⟨hopen, hs, rfl⟩ := ih
      exact ⟨hopen.append ((isOpen_plain (by decide)).append (hgap.isOpen.append (isOpen_item h))),
        _, rfl⟩

/-! ## What a text declares -/

/-- The declarations of a text. -/
def DeclaresParts (type : String) (gs : List Glyph) (parts : List Part) : Prop :=
  IsComplete gs ∧ declarations gs = parts.map Part.text ∧ ∀ part ∈ parts, part.IsSound type

theorem DeclaresParts.append {parts more : List Part} (h : DeclaresParts type gs parts)
    (h' : DeclaresParts type hs more) : DeclaresParts type (gs ++ hs) (parts ++ more) := by
  obtain ⟨hcomplete, hparts, hsound⟩ := h
  obtain ⟨hcomplete', hparts', hsound'⟩ := h'
  refine ⟨hcomplete.append hcomplete', ?_, fun part hpart => ?_⟩
  · rw [hcomplete.declarations_append, hparts, hparts', List.map_append]
  · exact (List.mem_append.mp hpart).elim (hsound part) (hsound' part)

theorem declares_blank (h : IsBlank gs) : DeclaresParts type gs [] :=
  ⟨h.isComplete.1, h.isComplete.2, by simp⟩

theorem declares_other (h : IsComplete gs) :
    DeclaresParts type gs ((declarations gs).map Part.other) := by
  refine ⟨h, by simp [Function.comp_def, Part.text], fun part hpart => ?_⟩
  obtain ⟨text, -, rfl⟩ := List.mem_map.mp hpart
  trivial

/-- With a semicolon behind it, a run is one declaration. -/
theorem IsRun.declares (htype : IsType type) (h : IsRun type es gs) (hgap : IsBlank hs) :
    DeclaresParts type (gs ++ hs ++ terminator) [.run es (gs ++ hs)] := by
  obtain ⟨hopen, more, rfl⟩ := h.isOpen htype
  obtain ⟨hcomplete, hdeclarations⟩ := (hopen.append hgap.isOpen).closed
  refine ⟨hcomplete, ?_, fun part hpart => ?_⟩
  rotate_left
  · obtain rfl := List.mem_singleton.mp hpart
    exact ⟨_, _, h, hgap, rfl⟩
  rw [hdeclarations]
  simp [Part.text, Glyph.isBlank, show Text.isBlank 'p' = false by decide]

/-- The text declares these constants, and these declarations besides. -/
def Closes (type : String) (m : Mode) (text : String) (es : List Enumerator)
    (others : List (List Glyph)) : Prop :=
  ∃ gs parts, Scans .code text.toList gs m ∧ DeclaresParts type gs parts ∧
    parts.flatMap Part.enumerators = es ∧ parts.filterMap Part.other? = others ∧ Part.empty ∉ parts

/-- The same, with the last run still open. -/
def Opens (type text : String) (es : List Enumerator) (others : List (List Glyph)) : Prop :=
  ∃ gs rs parts run, Scans .code text.toList (gs ++ rs) .code ∧ DeclaresParts type gs parts ∧
    IsRun type run rs ∧ parts.flatMap Part.enumerators ++ run = es ∧
    parts.filterMap Part.other? = others ∧ Part.empty ∉ parts

theorem Opens.close (htype : IsType type) (h : Opens type text es others) {gap : String}
    (hgap : ∀ c ∈ gap.toList, Text.isBlank c = true) :
    Closes type .code (text ++ gap ++ ";") es others := by
  obtain ⟨gs, rs, parts, run, hscan, hdeclares, hrun, rfl, rfl, hempty⟩ := h
  obtain ⟨hscan', hblank⟩ := scans_blank hgap
  refine ⟨_, _, ?_, hdeclares.append (hrun.declares htype hblank), ?_, ?_, ?_⟩
  · rw [String.toList_append, String.toList_append, ← List.append_assoc, ← List.append_assoc]
    exact (hscan.append hscan').append scans_terminator
  · simp [Part.enumerators]
  · simp [Part.other?]
  · simpa using hempty

/-- Other declarations may stand behind closed ones. -/
theorem Closes.other (h : Closes type m text es others) {more : String}
    (hscan : Scans m more.toList gs m') (hcomplete : IsComplete gs) :
    Closes type m' (text ++ more) es (others ++ declarations gs) := by
  obtain ⟨hs, parts, hscan', hdeclares, rfl, rfl, hempty⟩ := h
  refine ⟨_, _, ?_, hdeclares.append (declares_other hcomplete), ?_, ?_, ?_⟩
  · rw [String.toList_append]
    exact hscan'.append hscan
  · simp [Part.enumerators, List.flatMap_map]
  · simp [Part.other?, List.filterMap_map, Function.comp_def]
  · simpa using hempty

/-- So may a run. -/
theorem Closes.run (htype : IsType type) (h : Closes type m text es others) (he : e.IsPrintable)
    {start gap : String} (hstart : Quiet m start.toList .code)
    (hgap : Scans .code gap.toList gs .code) (hblank : IsBlank gs) (hne : gs ≠ []) :
    Opens type (text ++ start ++ leadText type ++ gap ++ (e.name ++ " = " ++ e.value)) (es ++ [e])
      others := by
  obtain ⟨hs, parts, hscan, hdeclares, rfl, rfl, hempty⟩ := h
  obtain ⟨ws, hscan', hblank'⟩ := hstart.scans
  have hrun : IsRun type [e] _ := .first he hblank hne
  refine ⟨_, _, _, _, ?_, hdeclares.append (declares_blank hblank'), hrun, by simp, by simp,
    by simpa using hempty⟩
  simp only [String.toList_append (s := text ++ start ++ leadText type ++ gap)]
  rw [String.toList_append (s := text ++ start ++ leadText type),
    String.toList_append (s := text ++ start), String.toList_append (s := text)]
  rw [← List.append_assoc, ← List.append_assoc]
  exact (((hscan.append hscan').append (scans_plain (isPlain_leadText htype))).append hgap).append
    (scans_item he)

/-- A run goes on behind a comma. -/
theorem Opens.next (h : Opens type text es others) (he : e.IsPrintable) {gap : String}
    (hgap : Quiet .code gap.toList .code) :
    Opens type (text ++ "," ++ gap ++ (e.name ++ " = " ++ e.value)) (es ++ [e]) others := by
  obtain ⟨gs, rs, parts, run, hscan, hdeclares, hrun, rfl, rfl, hempty⟩ := h
  obtain ⟨ws, hscan', hblank⟩ := hgap.scans
  refine ⟨gs, _, parts, _, ?_, hdeclares, .next he hblank hrun, by simp, rfl, hempty⟩
  rw [String.toList_append (s := text ++ "," ++ gap), String.toList_append (s := text ++ ","),
    String.toList_append (s := text), ← List.append_assoc, ← List.append_assoc,
    ← List.append_assoc]
  exact ((hscan.append (scans_plain (by decide))).append hscan').append (scans_item he)

/-! ## Directives -/

/-- A text may stand behind a line comment if it starts on a line of its own. -/
def Fits (m : Mode) (text : String) : Prop :=
  m = .code ∨ m = .line ∧ StartsLine text.toList

/-- A directive is read as it is on its own. -/
theorem IsDirective.scans (h : IsDirective text) (hfits : Fits m text) :
    ∃ gs m', Scans m text.toList gs m' ∧ (m' = .code ∨ m' = .line) ∧ IsComplete gs ∧
      declarations gs = declarations (scan .code text.toList).1 ∧
        (IsBlank (scan .code text.toList).1 → IsBlank gs) := by
  rcases hfits with rfl | ⟨rfl, hline⟩
  · exact ⟨_, _, rfl, h.mode, h.complete, rfl, id⟩
  · obtain ⟨ws, gs, hws, heq, hscan⟩ := hline.scans_line rfl
    obtain ⟨hcomplete, hnone⟩ := hws.isComplete
    refine ⟨gs, _, hscan, h.mode, ?_, ?_, ?_⟩
    · exact (heq ▸ h.complete : IsComplete (ws ++ gs)).right
    · rw [heq, hcomplete.declarations_append, hnone, List.nil_append]
    · rw [heq]
      exact fun hblank g hg => hblank g (List.mem_append_right _ hg)

/-- So are directives one behind another, if each starts on a line of its own. -/
theorem scans_directives (hds : ∀ t ∈ ds, IsDirective t) (hm : m = .code ∨ m = .line)
    (hfirst : ∀ t ∈ ds.head?, Fits m t) (hlines : ∀ t ∈ ds.tail, StartsLine t.toList) :
    ∃ gs m', Scans m (String.join ds).toList gs m' ∧ (m' = .code ∨ m' = .line) ∧ IsComplete gs ∧
      declarations gs = ds.flatMap (fun t => declarations (scan .code t.toList).1) ∧
        ((∀ t ∈ ds, IsBlank (scan .code t.toList).1) → IsBlank gs) := by
  induction ds generalizing m with
  | nil => exact ⟨[], m, rfl, hm, by simp [Code.IsComplete, pieces, IsBlank], rfl, by simp [IsBlank]⟩
  | cons t ds ih =>
      obtain ⟨gs, m', hscan, hm', hcomplete, hown, hblank⟩ :=
        (hds t List.mem_cons_self).scans (hfirst t rfl)
      have hnext : ∀ u ∈ ds.head?, Fits m' u := fun u hu =>
        hm'.imp_right fun hline => ⟨hline, hlines u (List.mem_of_head? hu)⟩
      obtain ⟨hs, m'', hscan', hm'', hcomplete', hown', hblank'⟩ :=
        ih (fun u hu => hds u (List.mem_cons_of_mem _ hu)) hm' hnext
          fun u hu => hlines u (List.mem_of_mem_tail hu)
      refine ⟨gs ++ hs, m'', ?_, hm'', hcomplete.append hcomplete', ?_, fun hall => ?_⟩
      · rw [String.join_cons, String.toList_append]
        exact hscan.append hscan'
      · rw [hcomplete.declarations_append, hown, hown', List.flatMap_cons]
      · exact (hblank (hall t List.mem_cons_self)).append
          (hblank' fun u hu => hall u (List.mem_cons_of_mem _ hu))

/-- Whether a directive is taken for a comment. -/
def looksSilent (text : String) : Bool :=
  Text.startsWith "//" (Text.trim text)

/-- Directives pile up; one that is not taken for a comment ends the run. -/
theorem foldl_directives (type : String) (p : Printing) (ds : List String) :
    (ds.map EnumEntry.directive).foldl (Printing.push type) p =
      { p with
        extra := p.extra ++ String.join ds
        separator := if p.separator = "," ∧ ds.all looksSilent = false then ";" else p.separator
        lead := if p.separator = "," ∧ ds.all looksSilent = false then "\n" ++ leadText type
          else p.lead } := by
  induction ds generalizing p with
  | nil => simp
  | cons t ds ih =>
      rw [List.map_cons, List.foldl_cons, ih, Printing.push, Printing.pushDirective,
        String.join_cons, ← String.append_assoc, List.all_cons]
      by_cases hcomma : p.separator = ","
      · cases hsilent : looksSilent t <;>
          simp [hcomma, show Text.startsWith "//" (Text.trim t) = _ from hsilent]
      · simp [hcomma]

/-! ## One enumerator -/

/-- Everything that stands before the lead-in of the next name. -/
def due (p : Printing) : String :=
  p.text ++ p.separator ++ p.extra ++ p.lead

/-- A printing that is ready for an enumerator. -/
def ready (type : String) (p : Printing) (e : Enumerator) : Printing :=
  if e.getter then p.pushGetter type e.name else p

theorem isBlank_lastLine {spacing : String} (h : ∀ c ∈ spacing.toList, Text.isBlank c = true) :
    ∀ c ∈ (lastLine spacing).toList, Text.isBlank c = true := by
  intro c hc
  rw [lastLine, Text.throughLastBreak, String.toList_ofList, List.mem_reverse] at hc
  exact h c (List.mem_reverse.mp ((List.takeWhile_sublist _).subset hc))

/-- Behind what is due come the lead-in, the comment that points back, and white space. -/
theorem exists_gap (h : e.IsPrintable) (type : String) (p : Printing) :
    ∃ s, (∀ c ∈ s.toList, Text.isBlank c = true) ∧
      p.pushEnumerator type e =
        { text := due (ready type p e) ++ (e.leadIn ++ Text.trimEnd e.commentAfter ++ s) ++
            (e.name ++ " = " ++ e.value)
          lead := "", separator := "," } ∧
      (e.leadIn ++ Text.trimEnd e.commentAfter ++ s = "" →
        Text.endsWith "," (due (ready type p e)) = true) := by
  have hspace : ∀ c ∈ " ".toList, Text.isBlank c = true := by simp [Text.isBlank]
  have hnone : ∀ c ∈ "".toList, Text.isBlank c = true := by simp
  unfold Printing.pushEnumerator
  dsimp only
  rw [show (if e.getter = true then p.pushGetter type e.name else p) = ready type p e from rfl,
    show (ready type p e).text ++ (ready type p e).separator ++ (ready type p e).extra ++
      (ready type p e).lead = due (ready type p e) from rfl]
  by_cases hafter : e.commentAfter.isEmpty = true
  · have hempty : e.commentAfter = "" := String.isEmpty_iff.mp hafter
    have htrim : Text.trimEnd e.commentAfter = "" := by rw [hempty]; rfl
    rw [if_pos hafter, htrim, String.append_empty]
    by_cases hmissing : (e.spacing.isEmpty &&
        !Text.endsWith "," (due (ready type p e) ++ e.commentBefore)) = true
    · have hspacing : e.spacing = "" :=
        String.isEmpty_iff.mp (Bool.and_eq_true_iff.mp hmissing).1
      refine ⟨" ", hspace, ?_, fun hgap => absurd hgap (by simp)⟩
      dsimp only
      rw [if_pos hmissing]
      simp [Enumerator.leadIn, hspacing, String.append_assoc]
    · refine ⟨"", hnone, ?_, fun hgap => ?_⟩
      · dsimp only
        rw [if_neg hmissing]
        simp [Enumerator.leadIn, String.append_assoc]
      · simp_all [Enumerator.leadIn]
  · rw [if_neg hafter]
    dsimp only
    by_cases hmissing : ((lastLine e.spacing).isEmpty && !Text.endsWith ","
        (due (ready type p e) ++ e.commentBefore ++ e.spacing ++
          Text.trimEnd e.commentAfter)) = true
    · refine ⟨" ", hspace, ?_, fun hgap => absurd hgap (by simp)⟩
      rw [if_pos hmissing]
      simp [Enumerator.leadIn, String.append_assoc]
    · refine ⟨lastLine e.spacing, isBlank_lastLine h.spacing, ?_, fun hgap => ?_⟩
      · rw [if_neg hmissing]
        simp [Enumerator.leadIn, String.append_assoc]
      · obtain ⟨⟨⟨hbefore, hspacing⟩, htrim⟩, hlast⟩ : ((e.commentBefore = "" ∧ e.spacing = "") ∧
            Text.trimEnd e.commentAfter = "") ∧ lastLine e.spacing = "" := by
          simpa [Enumerator.leadIn] using hgap
        rw [hlast, hbefore, hspacing, htrim] at hmissing
        simpa using hmissing

/-- All of that is white space and comments, also behind a line comment. -/
theorem scans_gap (h : e.IsPrintable) (hfits : Fits m e.leadIn) {s : String}
    (hs : ∀ c ∈ s.toList, Text.isBlank c = true) :
    Quiet m (e.leadIn ++ Text.trimEnd e.commentAfter ++ s).toList .code := by
  have hlead : Quiet m e.leadIn.toList .code := by
    rcases hfits with rfl | ⟨rfl, hline⟩
    · exact h.leadIn
    · obtain ⟨gs, hscan, hblank⟩ := h.leadIn.scans
      obtain ⟨ws, hs, -, rfl, hscan'⟩ := hline.scans_line hscan
      exact hscan'.quiet fun g hg => hblank g (List.mem_append_right _ hg)
  rw [String.toList_append, String.toList_append]
  exact (hlead.append h.after).append (quiet_blank hs)

/-! ## Rows -/

/-- An enumerator with the directives in front of it. -/
structure Row where
  directives : List String
  enumerator : Enumerator

def Row.entries (r : Row) : List EnumEntry :=
  r.directives.map .directive ++ [.enumerator r.enumerator]

/-- The rows of a list of entries behind some directives, and the directives behind the last
row. -/
def rows (ds : List String) : List EnumEntry → List Row × List String
  | [] => ([], ds)
  | .directive text :: more => rows (ds ++ [text]) more
  | .enumerator e :: more => ({ directives := ds, enumerator := e } :: (rows [] more).1,
      (rows [] more).2)

theorem rows_entries (ds : List String) (entries : List EnumEntry) :
    ds.map EnumEntry.directive ++ entries =
      (rows ds entries).1.flatMap Row.entries ++ (rows ds entries).2.map .directive := by
  induction entries generalizing ds with
  | nil => simp [rows]
  | cons entry more ih =>
      cases entry with
      | directive text =>
          rw [rows, ← ih]
          simp
      | enumerator e =>
          rw [rows, List.flatMap_cons, List.append_assoc, ← ih]
          simp [Row.entries]

/-- A row as it is read from a source: an entry behind a directive starts on a line of its own. -/
structure Row.IsPrintable (r : Row) : Prop where
  enumerator : r.enumerator.IsPrintable
  directives : ∀ t ∈ r.directives, IsDirective t
  lines : ∀ t ∈ (r.directives ++ [r.enumerator.leadIn]).tail, StartsLine t.toList

instance (r : Row) : Decidable r.IsPrintable :=
  decidable_of_iff (_ ∧ _ ∧ _) ⟨fun ⟨h₁, h₂, h₃⟩ => ⟨h₁, h₂, h₃⟩, fun h => ⟨h.1, h.2, h.3⟩⟩

def Row.own (type : String) (r : Row) : List (List Glyph) :=
  r.entries.flatMap (ownDeclarations type)

theorem toList_append_five (a b c d e : String) : (a ++ b ++ c ++ d ++ e).toList =
    a.toList ++ (b.toList ++ (c.toList ++ (d.toList ++ e.toList))) := by
  simp

/-- A getter is one declaration. -/
theorem scans_getter (htype : IsType type) (he : e.IsPrintable) :
    ∃ gs, Scans .code ("\npublic static native @MemberGetter " ++ type ++ " " ++ e.name
      ++ "();\n").toList gs .code ∧ IsComplete gs ∧
      declarations gs = [plain (getterDeclaration type e.name).toList] := by
  have hwords : (getterDeclaration type e.name).toList = "public static native @MemberGetter ".toList
      ++ (type.toList ++ (" ".toList ++ (e.name.toList ++ "()".toList))) := toList_append_five ..
  have htext : ("\npublic static native @MemberGetter " ++ type ++ " " ++ e.name
      ++ "();\n").toList = "\n".toList ++ (getterDeclaration type e.name).toList ++ [';'] ++
        "\n".toList := by
    have hfront : "\npublic static native @MemberGetter ".toList =
        "\n".toList ++ "public static native @MemberGetter ".toList := by decide +kernel
    have hback : "();\n".toList = "()".toList ++ ([';'] ++ "\n".toList) := by decide +kernel
    rw [toList_append_five, hfront, hback, hwords]
    simp only [List.append_assoc]
  have hplain : IsPlain (getterDeclaration type e.name).toList := by
    rw [hwords]
    exact .append (by decide +kernel) (.append (isPlain_of_isWordChar htype)
      (.append (by decide +kernel) (.append (isPlain_of_isWordChar he.name) (by decide +kernel))))
  have hopen : IsOpen (plain (getterDeclaration type e.name).toList) := by
    refine isOpen_plain ?_
    rw [hwords]
    simp only [List.mem_append, not_or]
    exact ⟨by decide +kernel, semicolon_notMem htype, by decide +kernel, semicolon_notMem he.name,
      by decide +kernel⟩
  have hbreak : IsBlank (plain "\n".toList) := by decide +kernel
  obtain ⟨hcomplete, hdeclares⟩ := (hbreak.isOpen.append hopen).closed
  refine ⟨_, ?_, hcomplete.append hbreak.isComplete.1, ?_⟩
  · rw [htext]
    exact (((scans_plain (by decide +kernel)).append (scans_plain hplain)).append
      scans_terminator).append (scans_plain (by decide +kernel))
  · have hhead : "public static native @MemberGetter ".toList =
        'p' :: "ublic static native @MemberGetter ".toList := by decide +kernel
    obtain ⟨cs, hcs⟩ : ∃ cs, (getterDeclaration type e.name).toList = 'p' :: cs :=
      ⟨_, by rw [hwords, hhead, List.cons_append]⟩
    rw [hcomplete.declarations_append, hdeclares, hbreak.isComplete.2,
      dropWhile_blank_append hbreak, hcs, plain, List.map_cons, List.dropWhile_cons_of_neg
        (by simp [Glyph.isBlank, show Text.isBlank 'p' = false by decide]), List.append_nil]

/-! ## One row behind another -/

/-- What has been printed behind an enumerator: its run is still open. -/
structure Shows (type : String) (p : Printing) (es : List Enumerator)
    (others : List (List Glyph)) : Prop where
  separator : p.separator = ","
  lead : p.lead = ""
  extra : p.extra = ""
  text : Opens type p.text es others

theorem endsWith_comma_leadText (htype : IsType type) (text : String) :
    Text.endsWith "," (text ++ leadText type) = false := by
  have hnotMem : ',' ∉ (leadText type).toList := by
    rw [toList_leadText, List.mem_append, not_or]
    refine ⟨by decide +kernel, fun hmem => ?_⟩
    have hword := htype _ hmem
    rw [show Text.isWordChar ',' = false by decide +kernel] at hword
    cases hword
  have hne : (leadText type).toList ≠ [] := by
    rw [toList_leadText]
    exact List.append_ne_nil_of_left_ne_nil (by decide +kernel) _
  rw [Text.endsWith, ← Bool.not_eq_true, List.isSuffixOf_iff_suffix, String.toList_append]
  rintro ⟨front, hfront⟩
  have hlast := congrArg List.getLast? hfront
  rw [List.getLast?_append_of_ne_nil _ hne, show ",".toList = [','] by decide +kernel,
    List.getLast?_concat] at hlast
  exact hnotMem (List.mem_of_getLast? hlast.symm)

/-- An enumerator behind the words that start a declaration opens a run. -/
theorem shows_run (htype : IsType type) (he : e.IsPrintable) {start : String}
    (hclosed : Closes type m text es others) (hstart : Quiet m start.toList .code)
    (hdue : due (ready type p e) = text ++ start ++ leadText type) :
    Shows type (p.pushEnumerator type e) (es ++ [e]) others := by
  obtain ⟨s, hs, heq, hgap⟩ := exists_gap he type p
  obtain ⟨gs, hscan, hblank⟩ := (scans_gap he (Or.inl rfl) hs).scans
  have hne : (e.leadIn ++ Text.trimEnd e.commentAfter ++ s).toList ≠ [] := by
    intro hnil
    have hcomma := hgap (String.toList_eq_nil_iff.mp hnil)
    rw [hdue, endsWith_comma_leadText htype] at hcomma
    cases hcomma
  rw [heq, hdue]
  exact ⟨rfl, rfl, rfl, hclosed.run htype he hstart hscan hblank (hscan.ne_nil hne)⟩

/-- A getter ends the run before it, and its value opens another. -/
theorem Shows.pushGetter (htype : IsType type) (he : e.IsPrintable) (hgetter : e.getter = true)
    (h : Shows type p es others) :
    Shows type (p.pushEnumerator type e) (es ++ [e])
      (others ++ ownDeclarations type (.enumerator e)) := by
  obtain ⟨gs, hscan, hcomplete, hown⟩ := scans_getter htype he
  have hnone : ∀ c ∈ "".toList, Text.isBlank c = true := by simp
  have hclosed := (h.text.close htype hnone).other hscan hcomplete
  rw [hown] at hclosed
  rw [ownDeclarations, if_pos hgetter]
  refine shows_run htype he hclosed (show Quiet .code "".toList .code by decide +kernel) ?_
  simp [due, ready, hgetter, Printing.pushGetter, h.separator]

theorem Row.own_eq (type : String) (r : Row) :
    r.own type = r.directives.flatMap (fun t => declarations (scan .code t.toList).1) ++
      ownDeclarations type (.enumerator r.enumerator) := by
  simp [Row.own, Row.entries, List.flatMap_map, ownDeclarations]

/-- The directives of a row, and the enumerator behind them. -/
theorem Row.IsPrintable.scans {r : Row} (h : r.IsPrintable) :
    ∃ gs m, Scans .code (String.join r.directives).toList gs m ∧ (m = .code ∨ m = .line) ∧
      IsComplete gs ∧
      declarations gs = r.directives.flatMap (fun t => declarations (scan .code t.toList).1) ∧
      ((∀ t ∈ r.directives, IsBlank (scan .code t.toList).1) → IsBlank gs) ∧
      Fits m r.enumerator.leadIn := by
  have hlines := h.lines
  cases hds : r.directives with
  | nil =>
      exact ⟨[], .code, rfl, Or.inl rfl, by simp [Code.IsComplete, pieces, IsBlank], rfl,
        by simp [IsBlank], Or.inl rfl⟩
  | cons t ds =>
      rw [hds, List.cons_append, List.tail_cons] at hlines
      obtain ⟨gs, m, hscan, hm, hcomplete, hown, hblank⟩ :=
        scans_directives (hds ▸ h.directives) (Or.inl rfl) (fun _ _ => Or.inl rfl)
          (show ∀ u ∈ (t :: ds).tail, StartsLine u.toList from
            fun u hu => hlines u (List.mem_append_left _ hu))
      exact ⟨gs, m, hscan, hm, hcomplete, hown, hblank,
        hm.imp_right fun hline => ⟨hline, hlines _ (by simp)⟩⟩

/-- Nothing of a row behind another is lost: no directive stands in front of a getter, and
directives that are all taken for comments are comments only. -/
structure Row.IsKept (r : Row) : Prop where
  getter : r.enumerator.getter = true → r.directives = []
  silent : r.directives.all looksSilent = true →
    ∀ t ∈ r.directives, IsBlank (scan .code t.toList).1

instance (r : Row) : Decidable r.IsKept :=
  decidable_of_iff (_ ∧ _) ⟨fun ⟨h₁, h₂⟩ => ⟨h₁, h₂⟩, fun h => ⟨h.1, h.2⟩⟩

/-- Nothing of the first row is lost: no directive stands in front of a getter, and the directives
in front of a constant do not end with a line comment. -/
structure Row.IsKeptFirst (r : Row) : Prop where
  getter : r.enumerator.getter = true → r.directives = []
  mode : r.enumerator.getter = false → (scan .code (String.join r.directives).toList).2 = .code

instance (r : Row) : Decidable r.IsKeptFirst :=
  decidable_of_iff (_ ∧ _) ⟨fun ⟨h₁, h₂⟩ => ⟨h₁, h₂⟩, fun h => ⟨h.1, h.2⟩⟩

theorem foldl_row (type : String) (p : Printing) (r : Row) :
    r.entries.foldl (Printing.push type) p =
      ((r.directives.map EnumEntry.directive).foldl (Printing.push type) p).pushEnumerator type
        r.enumerator := by
  rw [Row.entries, List.foldl_append]
  rfl

/-- A row behind an open run. -/
theorem Shows.push_row (htype : IsType type) (h : Shows type p es others) {r : Row}
    (hr : r.IsPrintable) (hkept : r.IsKept) :
    Shows type (r.entries.foldl (Printing.push type) p) (es ++ [r.enumerator])
      (others ++ r.own type) := by
  obtain ⟨gs, m, hscan, hm, hcomplete, hown, hblank, hfits⟩ := hr.scans
  rw [foldl_row, r.own_eq, ← hown]
  cases hgetter : r.enumerator.getter with
  | true =>
      have hnone := hkept.getter hgetter
      rw [hown, hnone]
      exact h.pushGetter htype hr.enumerator hgetter
  | false =>
      rw [foldl_directives, h.separator, h.extra, h.lead, ownDeclarations, hgetter]
      simp only [true_and, String.empty_append, Bool.false_eq_true, if_false, List.append_nil]
      cases hsilent : r.directives.all looksSilent with
      | true =>
          -- comments only: the run goes on behind a comma
          have hquiet := hblank (hkept.silent hsilent)
          obtain ⟨s, hs, heq, -⟩ := exists_gap hr.enumerator type
            { p with extra := String.join r.directives, separator := ",", lead := "" }
          rw [hquiet.isComplete.2, List.append_nil]
          simp only [Bool.true_eq_false, if_false]
          rw [heq]
          refine ⟨rfl, rfl, rfl, ?_⟩
          have hnext := h.text.next hr.enumerator (show Quiet .code (String.join r.directives ++
              (r.enumerator.leadIn ++ Text.trimEnd r.enumerator.commentAfter ++ s)).toList .code by
            rw [String.toList_append]
            exact (hscan.quiet hquiet).append (scans_gap hr.enumerator hfits hs))
          simpa [due, ready, hgetter, String.append_assoc] using hnext
      | false =>
          -- the run ends, and another starts behind the directives
          have hnone : ∀ c ∈ "".toList, Text.isBlank c = true := by simp
          have hclosed := (h.text.close htype hnone).other hscan hcomplete
          have hbreak : Quiet m "\n".toList .code := by
            rcases hm with rfl | rfl <;> decide +kernel
          refine shows_run htype hr.enumerator hclosed hbreak ?_
          simp [due, ready, hgetter, String.append_assoc]

/-- The first row. -/
theorem shows_first (htype : IsType type) (hseparator : p.separator = "") (hextra : p.extra = "")
    (hlead : p.lead = leadText type) (hclosed : Closes type .code p.text [] []) {r : Row}
    (hr : r.IsPrintable) (hkept : r.IsKeptFirst) :
    Shows type (r.entries.foldl (Printing.push type) p) [r.enumerator] (r.own type) := by
  obtain ⟨gs, m, hscan, hm, hcomplete, hown, -, -⟩ := hr.scans
  have hnone : Quiet .code "".toList .code := by decide +kernel
  rw [foldl_row, r.own_eq, ← hown, foldl_directives, hseparator, hextra, hlead]
  simp only [String.empty_append, false_and, if_false, String.reduceEq]
  cases hgetter : r.enumerator.getter with
  | true =>
      obtain ⟨hs, hscan', hcomplete', hown'⟩ := scans_getter htype hr.enumerator
      have hother := hclosed.other hscan' hcomplete'
      rw [hown'] at hother
      rw [hown, hkept.getter hgetter, ownDeclarations, if_pos hgetter]
      refine shows_run htype hr.enumerator hother hnone ?_
      simp [due, ready, hgetter, Printing.pushGetter]
  | false =>
      obtain rfl : m = .code := (congrArg Prod.snd hscan).symm.trans (hkept.mode hgetter)
      rw [ownDeclarations, hgetter]
      have hother := hclosed.other hscan hcomplete
      rw [List.nil_append] at hother
      simp only [Bool.false_eq_true, if_false, List.append_nil]
      refine shows_run htype hr.enumerator hother hnone ?_
      simp [due, ready, hgetter]

/-- All rows behind an open run. -/
theorem Shows.push_rows (htype : IsType type) {rs : List Row} (h : Shows type p es others)
    (hrs : ∀ r ∈ rs, r.IsPrintable) (hkept : ∀ r ∈ rs, r.IsKept) :
    Shows type ((rs.flatMap Row.entries).foldl (Printing.push type) p)
      (es ++ rs.map (·.enumerator)) (others ++ rs.flatMap (·.own type)) := by
  induction rs generalizing p es others with
  | nil => simpa using h
  | cons r rs ih =>
      have hnext := h.push_row htype (hrs r List.mem_cons_self) (hkept r List.mem_cons_self)
      rw [List.flatMap_cons, List.foldl_append]
      simpa using ih hnext (fun q hq => hrs q (List.mem_cons_of_mem _ hq))
        fun q hq => hkept q (List.mem_cons_of_mem _ hq)

/-! ## What is kept of the texts of directives -/

theorem prefix_due (p : Printing) : p.text.toList <+: (due p).toList := by
  simp only [due, String.toList_append, List.append_assoc]
  exact List.prefix_append _ _

theorem infix_due (p : Printing) : p.extra.toList <:+: (due p).toList := by
  simp only [due, String.toList_append]
  exact List.infix_append _ _ _

theorem prefix_due_pushEnumerator (he : e.IsPrintable) (type : String) (p : Printing) :
    (due (ready type p e)).toList <+: (p.pushEnumerator type e).text.toList := by
  obtain ⟨s, -, heq, -⟩ := exists_gap he type p
  simp only [heq, String.toList_append, List.append_assoc]
  exact List.prefix_append _ _

theorem prefix_pushEnumerator (he : e.IsPrintable) (type : String) (p : Printing) :
    p.text.toList <+: (p.pushEnumerator type e).text.toList := by
  have htext : (ready type p e).text = p.text := by
    unfold ready
    split <;> rfl
  rw [← htext]
  exact (prefix_due _).trans (prefix_due_pushEnumerator he type p)

theorem prefix_row {r : Row} (hr : r.IsPrintable) (type : String) (p : Printing) :
    p.text.toList <+: (r.entries.foldl (Printing.push type) p).text.toList := by
  have htext :
      ((r.directives.map EnumEntry.directive).foldl (Printing.push type) p).text = p.text := by
    rw [foldl_directives]
  rw [foldl_row, ← htext]
  exact prefix_pushEnumerator hr.enumerator type _

theorem infix_join {t : String} (ht : t ∈ ds) : t.toList <:+: (String.join ds).toList := by
  obtain ⟨front, back, rfl⟩ := List.append_of_mem ht
  exact ⟨(String.join front).toList, (String.join back).toList, by simp [String.join_append]⟩

/-- The directives of a row are printed, unless a getter stands behind them. -/
theorem infix_row {r : Row} (hr : r.IsPrintable)
    (hgetter : r.enumerator.getter = true → r.directives = []) {t : String}
    (ht : t ∈ r.directives) :
    t.toList <:+: (r.entries.foldl (Printing.push type) p).text.toList := by
  have hnot : r.enumerator.getter = false := by
    cases hcases : r.enumerator.getter with
    | false => rfl
    | true =>
        rw [hgetter hcases] at ht
        cases ht
  rw [foldl_row, foldl_directives]
  refine List.IsInfix.trans ?_ (prefix_due_pushEnumerator hr.enumerator type _).isInfix
  rw [ready, hnot]
  refine ((infix_join ht).trans ?_).trans (infix_due _)
  simp only [Bool.false_eq_true, if_false, String.toList_append]
  exact (List.suffix_append _ _).isInfix

theorem infix_rows {rs : List Row} (hrs : ∀ r ∈ rs, r.IsPrintable)
    (hgetter : ∀ r ∈ rs, r.enumerator.getter = true → r.directives = []) {t : String}
    (ht : (∃ r ∈ rs, t ∈ r.directives) ∨ t.toList <:+: p.text.toList) :
    t.toList <:+: ((rs.flatMap Row.entries).foldl (Printing.push type) p).text.toList := by
  induction rs generalizing p with
  | nil => simpa using ht
  | cons r rs ih =>
      rw [List.flatMap_cons, List.foldl_append]
      refine ih (fun q hq => hrs q (List.mem_cons_of_mem _ hq))
        (fun q hq => hgetter q (List.mem_cons_of_mem _ hq)) ?_
      have hr := hrs r List.mem_cons_self
      rcases ht with ⟨q, hq, ht⟩ | ht
      · rcases List.mem_cons.mp hq with rfl | hq
        · exact Or.inr (infix_row hr (hgetter q List.mem_cons_self) ht)
        · exact Or.inl ⟨q, hq, ht⟩
      · exact Or.inr (ht.trans (prefix_row hr type p).isInfix)

/-! ## The whole text -/

/-- An enumeration as it is read from a source in which each entry behind a directive starts on a
line of its own. -/
structure IsPrintable (e : Enumeration) : Prop where
  name : '*' ∉ e.nativeName.toList
  type : IsType e.targetType
  rows : ∀ r ∈ (rows [] e.entries).1, r.IsPrintable
  last : ∀ t ∈ (Enumeration.rows [] e.entries).2, IsDirective t
  lines : ∀ t ∈ (Enumeration.rows [] e.entries).2.tail, StartsLine t.toList

instance (e : Enumeration) : Decidable e.IsPrintable :=
  decidable_of_iff (_ ∧ e.targetType.toList.all Text.isWordChar = true ∧ _ ∧ _ ∧ _)
    ⟨fun ⟨h₁, h₂, h₃, h₄, h₅⟩ => ⟨h₁, List.all_eq_true.mp h₂, h₃, h₄, h₅⟩,
      fun h => ⟨h.1, List.all_eq_true.mpr h.2, h.3, h.4, h.5⟩⟩

/-- Nothing is lost of any row. -/
structure IsKept (e : Enumeration) : Prop where
  first : ∀ r ∈ (rows [] e.entries).1.head?, r.IsKeptFirst
  others : ∀ r ∈ (rows [] e.entries).1.tail, r.IsKept

instance (e : Enumeration) : Decidable e.IsKept :=
  decidable_of_iff (_ ∧ _) ⟨fun ⟨h₁, h₂⟩ => ⟨h₁, h₂⟩, fun h => ⟨h.1, h.2⟩⟩

theorem quiet_block {cs : List Char} (h : '*' ∉ cs) : Quiet .block cs .block := by
  induction cs with
  | nil => exact ⟨by simp [IsBlank, scan], rfl⟩
  | cons c cs ih =>
      obtain ⟨hc, hcs⟩ := not_or.mp (List.mem_cons.not.mp h)
      have hstep : Quiet .block [c] .block := by
        simp [Quiet, scan, Mode.step, Ne.symm hc, IsBlank]
      exact hstep.append (ih hcs)

/-- What is printed before the first entry. -/
def heading (e : Enumeration) (spacing : String) : String :=
  spacing ++ "/** " ++ e.kindText ++ " " ++ e.nativeName ++ " */\n" ++ lastLine spacing

theorem quiet_heading {e : Enumeration} (hname : '*' ∉ e.nativeName.toList) {spacing : String}
    (hspacing : ∀ c ∈ spacing.toList, Text.isBlank c = true) :
    Quiet .code (e.heading spacing).toList .code := by
  have hkind : '*' ∉ e.kindText.toList := by
    unfold kindText
    split <;> decide +kernel
  have hopen : Quiet .code "/** ".toList .block := by decide +kernel
  have hspace : Quiet .block " ".toList .block := by decide +kernel
  have hclose : Quiet .block " */\n".toList .code := by decide +kernel
  have hlines := quiet_blank (isBlank_lastLine hspacing)
  have htext : (e.heading spacing).toList = spacing.toList ++ ("/** ".toList ++
      (e.kindText.toList ++ (" ".toList ++ e.nativeName.toList))) ++ " */\n".toList ++
        (lastLine spacing).toList := by
    rw [heading, String.toList_append, String.toList_append, toList_append_five]
  rw [htext]
  exact (((quiet_blank hspacing).append (hopen.append ((quiet_block hkind).append
    (hspace.append (quiet_block hname))))).append hclose).append hlines

/-- The rows have all enumerators. -/
theorem map_rows (ds : List String) (entries : List EnumEntry) :
    (rows ds entries).1.map (·.enumerator) = entries.filterMap fun
      | .enumerator e => some e
      | .directive _ => none := by
  induction entries generalizing ds with
  | nil => rfl
  | cons entry more ih =>
      cases entry with
      | directive text => exact ih _
      | enumerator e =>
          rw [rows, List.map_cons, ih]
          rfl

/-- The printing in front of the last directives. -/
def printed (e : Enumeration) (spacing : String) : Printing :=
  ((rows [] e.entries).1.flatMap Row.entries).foldl (Printing.push e.targetType)
    { text := e.heading spacing, lead := leadText e.targetType }

theorem constants_eq (e : Enumeration) (spacing ending : String) :
    e.constants spacing ending = (e.printed spacing).text ++ ending ++ ";" ++
      ((e.printed spacing).extra ++ String.join (rows [] e.entries).2) := by
  have hentries := rows_entries [] e.entries
  rw [List.map_nil, List.nil_append] at hentries
  have hfold : e.entries.foldl (Printing.push e.targetType)
      { text := e.heading spacing, lead := leadText e.targetType } =
        ((rows [] e.entries).2.map .directive).foldl (Printing.push e.targetType)
          (e.printed spacing) := by
    rw [printed, ← List.foldl_append, ← hentries]
  exact congrArg (fun p : Printing => p.text ++ ending ++ ";" ++ p.extra)
    (hfold.trans (foldl_directives ..))

/-- With an enumerator, the text ends one run at least. -/
theorem closes_constants {e : Enumeration} (h : e.IsPrintable) (hkept : e.IsKept)
    (hrows : (rows [] e.entries).1 ≠ []) {spacing ending : String}
    (hspacing : ∀ c ∈ spacing.toList, Text.isBlank c = true)
    (hending : ∀ c ∈ ending.toList, Text.isBlank c = true) :
    ∃ m, Closes e.targetType m (e.constants spacing ending) e.enumerators
      (e.entries.flatMap (ownDeclarations e.targetType)) := by
  have hentries := rows_entries [] e.entries
  rw [List.map_nil, List.nil_append] at hentries
  have hfirst := hkept.first
  have hothers := hkept.others
  have hprintable := h.rows
  have hmap := map_rows [] e.entries
  rw [constants_eq, printed]
  generalize hall : (rows [] e.entries).1 = all at *
  obtain ⟨r, rs, rfl⟩ := List.exists_cons_of_ne_nil hrows
  obtain ⟨gs, hscan, hblank⟩ := (quiet_heading h.name hspacing).scans
  have hstart : Closes e.targetType .code (e.heading spacing) [] [] :=
    ⟨gs, [], hscan, declares_blank hblank, rfl, rfl, List.not_mem_nil⟩
  have hshows := (shows_first h.type (p := { text := e.heading spacing, lead := leadText e.targetType })
    rfl rfl rfl hstart (hprintable r List.mem_cons_self) (hfirst r rfl)).push_rows h.type
      (fun q hq => hprintable q (List.mem_cons_of_mem _ hq)) hothers
  obtain ⟨hs, m, hscan', -, hcomplete, hown, -⟩ :=
    scans_directives h.last (Or.inl rfl) (fun _ _ => Or.inl rfl) h.lines
  have hclosed := (hshows.text.close h.type hending).other hscan' hcomplete
  rw [List.flatMap_cons, List.foldl_append, hshows.extra, String.empty_append]
  refine ⟨m, ?_⟩
  convert hclosed using 1
  · exact hmap.symm
  · rw [hentries, hown]
    simp [List.flatMap_append, List.flatMap_assoc, List.flatMap_map, Row.own, ownDeclarations]

/-- Without enumerators there is a lone semicolon in front of what the directives stand for. -/
theorem declares_constants_nil {e : Enumeration} (h : e.IsPrintable)
    (hrows : (rows [] e.entries).1 = []) {spacing ending : String}
    (hspacing : ∀ c ∈ spacing.toList, Text.isBlank c = true)
    (hending : ∀ c ∈ ending.toList, Text.isBlank c = true) :
    ∃ gs m, Scans .code (e.constants spacing ending).toList gs m ∧
      DeclaresParts e.targetType gs
        (.empty :: (e.entries.flatMap (ownDeclarations e.targetType)).map .other) := by
  have hentries := rows_entries [] e.entries
  rw [List.map_nil, List.nil_append, hrows, List.flatMap_nil, List.nil_append] at hentries
  obtain ⟨gs, hscan, hblank⟩ := ((quiet_heading h.name hspacing).append (quiet_blank hending)).scans
  obtain ⟨hs, m, hscan', -, hcomplete, hown, -⟩ :=
    scans_directives h.last (Or.inl rfl) (fun _ _ => Or.inl rfl) h.lines
  obtain ⟨hclosed, hempty⟩ := hblank.isOpen.closed
  have hstart : DeclaresParts e.targetType (gs ++ terminator) [.empty] := by
    refine ⟨hclosed, ?_, by simp [Part.IsSound]⟩
    rw [hempty, List.dropWhile_eq_nil_iff.mpr hblank]
    rfl
  refine ⟨gs ++ terminator ++ hs, m, ?_, ?_⟩
  · rw [constants_eq, printed, hrows, String.toList_append, String.toList_append,
      String.toList_append]
    exact (hscan.append scans_terminator).append hscan'
  · have hall := hstart.append (declares_other hcomplete)
    rw [hown] at hall
    rw [hentries]
    simpa [List.flatMap_map, ownDeclarations] using hall

/-- **Constants.** If no directive stands in front of a getter, the first constant is not behind a
line comment, and directives that are taken for comments are comments, then the text is a list of
complete declarations. The runs have each enumerator once and in order, the other declarations are
the getters and what the directives stand for, and each directive occurs in the text. -/
theorem constants_complete {e : Enumeration} (h : e.IsPrintable) (hkept : e.IsKept)
    {spacing ending : String} (hspacing : ∀ c ∈ spacing.toList, Text.isBlank c = true)
    (hending : ∀ c ∈ ending.toList, Text.isBlank c = true) :
    let text := e.constants spacing ending
    let code := (scan .code text.toList).1
    IsComplete code ∧
      (∃ parts : List Part, declarations code = parts.map Part.text ∧
        (∀ part ∈ parts, part.IsSound e.targetType) ∧
        parts.flatMap Part.enumerators = e.enumerators ∧
        parts.filterMap Part.other? = e.entries.flatMap (ownDeclarations e.targetType) ∧
        (Part.empty ∈ parts ↔ e.enumerators = [])) ∧
      ∀ t, EnumEntry.directive t ∈ e.entries → t.toList <:+: text.toList := by
  intro text code
  have hnames : (rows [] e.entries).1.map (·.enumerator) = e.enumerators := map_rows [] e.entries
  have hdeclares : ∃ parts : List Part, DeclaresParts e.targetType code parts ∧
      parts.flatMap Part.enumerators = e.enumerators ∧
      parts.filterMap Part.other? = e.entries.flatMap (ownDeclarations e.targetType) ∧
      (Part.empty ∈ parts ↔ e.enumerators = []) := by
    by_cases hrows : (rows [] e.entries).1 = []
    · obtain ⟨gs, m, hscan, hdeclares⟩ := declares_constants_nil h hrows hspacing hending
      have hnone : e.enumerators = [] := by rw [← hnames, hrows, List.map_nil]
      have hcode : code = gs := congrArg Prod.fst hscan
      refine ⟨.empty :: (e.entries.flatMap (ownDeclarations e.targetType)).map .other,
        hcode ▸ hdeclares, ?_, ?_, ?_⟩
      · simp [hnone, Part.enumerators, List.flatMap_map]
      · rw [List.filterMap_cons_none rfl, List.filterMap_map]
        exact List.filterMap_some
      · simp [hnone]
    · obtain ⟨m, gs, parts, hscan, hdeclares, hes, hothers, hempty⟩ :=
        closes_constants h hkept hrows hspacing hending
      have hcode : code = gs := congrArg Prod.fst hscan
      refine ⟨parts, hcode ▸ hdeclares, hes, hothers, iff_of_false hempty ?_⟩
      rw [← hnames]
      simpa using hrows
  obtain ⟨parts, ⟨hcomplete, htexts, hsound⟩, hrest⟩ := hdeclares
  refine ⟨hcomplete, ⟨parts, htexts, hsound, hrest⟩, fun t ht => ?_⟩
  have hentries := rows_entries [] e.entries
  have hgetter : ∀ r ∈ (rows [] e.entries).1, r.enumerator.getter = true → r.directives = [] := by
    have hfirst := hkept.first
    have hothers := hkept.others
    cases hall : (rows [] e.entries).1 with
    | nil => simp
    | cons r rs =>
        rw [hall] at hfirst hothers
        rintro q (_ | ⟨_, hq⟩)
        · exact (hfirst r rfl).getter
        · exact (hothers q hq).getter
  rw [List.map_nil, List.nil_append] at hentries
  rw [hentries, List.mem_append] at ht
  have htext : text.toList = _ := congrArg String.toList (constants_eq e spacing ending)
  rw [htext, String.toList_append, String.toList_append, String.toList_append]
  rcases ht with ht | ht
  · obtain ⟨r, hr, ht⟩ := List.mem_flatMap.mp ht
    have hin : t ∈ r.directives := by simpa [Row.entries] using ht
    have hinfix : t.toList <:+: (e.printed spacing).text.toList :=
      infix_rows h.rows hgetter (Or.inl ⟨r, hr, hin⟩)
    exact hinfix.trans (by simp only [List.append_assoc]; exact (List.prefix_append _ _).isInfix)
  · have hin : t ∈ (rows [] e.entries).2 := by simpa using ht
    refine (infix_join hin).trans (List.IsSuffix.isInfix ?_)
    rw [String.toList_append]
    exact (List.suffix_append _ _).trans (List.suffix_append _ _)

/-- An enumerator on a line of its own. -/
def sampleEnumerator (name : String) (getter : Bool) : Enumerator :=
  { nativeName := name, name, base := if getter then name ++ "()" else "", getter
    spacing := "\n  " }

def sampleEnumeration (entries : List EnumEntry) : Enumeration :=
  { nativeName := "E", name := "E", targetType := "int", isScoped := false, entries }

/-- A directive between constants, and a getter behind them. -/
theorem constants_complete_sample :
    let e := sampleEnumeration [.enumerator (sampleEnumerator "A" false),
      .directive "\npublic static final int K = 1;", .enumerator (sampleEnumerator "B" false),
      .enumerator (sampleEnumerator "C" true)]
    e.IsPrintable ∧ e.IsKept ∧ IsComplete (scan .code (e.constants "\n" "\n").toList).1 := by
  intro e
  have hprintable : e.IsPrintable := by decide +kernel
  have hkept : e.IsKept := by decide +kernel
  have hbreak : ∀ c ∈ "\n".toList, Text.isBlank c = true := by simp [Text.isBlank]
  exact ⟨hprintable, hkept, (constants_complete hprintable hkept hbreak hbreak).1⟩

/-- A directive in front of a getter is lost. One that stays a comment swallows the start of the
first run, and one with a comment in front of it does not end the run before it. -/
theorem directives_are_lost :
    let code (e : Enumeration) := (scan .code (e.constants "" "").toList).1
    let lost := sampleEnumeration [.enumerator (sampleEnumerator "A" false),
      .directive "\npublic static final int K = 1;", .enumerator (sampleEnumerator "B" true)]
    let swallowed := sampleEnumeration [.directive "\n// #pragma once",
      .enumerator (sampleEnumerator "A" false)]
    let broken := sampleEnumeration [.enumerator (sampleEnumerator "A" false),
      .directive " // note\npublic static final int K = 1;",
      .enumerator (sampleEnumerator "B" false)]
    lost.IsPrintable ∧
      ¬ "\npublic static final int K = 1;".toList <:+: (lost.constants "" "").toList ∧
    swallowed.IsPrintable ∧ declarations (code swallowed) = [plain "A = 0".toList] ∧
    broken.IsPrintable ∧ declarations (code broken) =
      [plain "public static final int\n  A = 0, \npublic static final int K = 1".toList,
        plain "B = 0".toList] := by
  decide +kernel

end Enumeration

end HeaderPeers

import HeaderPeers.Proofs.Variable.Added

/-!
# Indenting text piece by piece

The white space that is due in front of the lines of an outline is a state: the first line that is
printed takes it as it is, and leaves its last line break and indentation to those behind. Lines
that come in several texts are indented like the lines of one text, as long as no line is cut
between two of them, and from the first line on all that is printed starts on a line of its own.

- `Text.lines_append` — whole lines in front of a text are lines of their own.
- `Outline.indentLines_append` — lines are indented one after the other.
- `Outline.BreaksLines` — a line break is due; no declaration that is added changes that.
- `Outline.rescan_append` — the statement.
-/

namespace HeaderPeers

/-! ## Whole lines -/

namespace Text

/-- A text that no line goes on behind: it is empty or ends in a line feed. -/
def IsWhole (s : String) : Prop :=
  s = "" ∨ endsWith "\n" s = true

instance (s : String) : Decidable (IsWhole s) :=
  inferInstanceAs (Decidable (_ ∨ _))

/-- A text that starts on a line of its own. -/
def BreaksLine (s : String) : Prop :=
  ∃ line, s = "\n" ++ line

variable {p : Char → Bool} {as : List Char} {a s : String}

theorem getLast?_of_isWhole (h : IsWhole a) : ∀ c ∈ a.toList.getLast?, c = '\n' := by
  rcases h with rfl | h
  · exact nofun
  · obtain ⟨front, hfront⟩ := List.isSuffixOf_iff_suffix.mp h
    intro c hc
    rw [← hfront] at hc
    simpa using hc.symm

theorem piecesThrough_ne_nil (h : as ≠ []) : piecesThrough p as ≠ [] := by
  obtain ⟨c, cs, rfl⟩ := List.exists_cons_of_ne_nil h
  rw [piecesThrough]
  split
  · exact List.cons_ne_nil _ _
  · split <;> exact List.cons_ne_nil _ _

/-- Pieces that are closed stay as they are, by induction on their text: only a character that
closes no piece goes to the one behind it, and the last one does. -/
theorem piecesThrough_append (h : ∀ c ∈ as.getLast?, p c = true) (bs : List Char) :
    piecesThrough p (as ++ bs) = piecesThrough p as ++ piecesThrough p bs := by
  induction as with
  | nil => rfl
  | cons c cs ih =>
      have hlast : ∀ d ∈ cs.getLast?, p d = true := by
        intro d hd
        refine h d ?_
        rw [List.getLast?_cons, Option.mem_def.mp hd]
        rfl
      by_cases hc : p c = true
      · rw [List.cons_append, piecesThrough, if_pos hc, piecesThrough, if_pos hc, ih hlast]
        rfl
      · have hne : cs ≠ [] := by
          rintro rfl
          exact hc (h c rfl)
        obtain ⟨piece, pieces, hpieces⟩ :=
          List.exists_cons_of_ne_nil (piecesThrough_ne_nil (p := p) hne)
        rw [List.cons_append, piecesThrough, if_neg hc, piecesThrough, if_neg hc, ih hlast, hpieces]
        rfl

/-- Whole lines in front of a text are lines of their own. -/
theorem lines_append (h : IsWhole a) (b : String) : lines (a ++ b) = lines a ++ lines b := by
  have hclosed : ∀ c ∈ a.toList.getLast?, (c == '\n') = true := fun c hc =>
    beq_iff_eq.mpr (getLast?_of_isWhole h c hc)
  simp only [lines, lineList, String.toList_append, piecesThrough_append hclosed, List.map_append]

theorem lines_ne_nil (h : s ≠ "") : lines s ≠ [] := by
  have hchars : s.toList ≠ [] := by simpa using h
  have hpieces := piecesThrough_ne_nil (p := (· == '\n')) hchars
  simpa [lines, lineList] using hpieces

end Text

namespace Outline

variable {o : Outline} {spacing text : String}

/-! ## Lines -/

/-- Lines are indented one after the other, with what is due carried along. -/
theorem indentLines_append (spacing : String) (xs ys : List String) :
    indentLines spacing (xs ++ ys) =
      ((indentLines spacing xs).1 ++ (indentLines (indentLines spacing xs).2 ys).1,
        (indentLines (indentLines spacing xs).2 ys).2) := by
  induction xs generalizing spacing with
  | nil => simp [indentLines]
  | cons x xs ih => simp only [List.cons_append, indentLines, ih, String.append_assoc]

/-- What is due behind a line does not depend on how many there are. -/
theorem indentLines_of_ne_nil {lines : List String} (h : lines ≠ []) (spacing : String) :
    (indentLines spacing lines).2 = nextSpacing spacing := by
  induction lines generalizing spacing with
  | nil => exact absurd rfl h
  | cons line lines ih =>
      rcases eq_or_ne lines [] with rfl | hne
      · rfl
      · rw [indentLines]
        exact (ih hne _).trans (nextSpacing_nextSpacing spacing)

theorem breaksLine_nextSpacing (spacing : String) : Text.BreaksLine (nextSpacing spacing) := by
  obtain heq | ⟨-, after, -, heq⟩ := nextSpacing_cases spacing
  · exact ⟨"", heq⟩
  · exact ⟨after, heq⟩

theorem breaksLine_indentLines {lines : List String} (h : lines ≠ [])
    (hspacing : Text.BreaksLine spacing) : Text.BreaksLine (indentLines spacing lines).1 := by
  obtain ⟨line, more, rfl⟩ := List.exists_cons_of_ne_nil h
  obtain ⟨indent, rfl⟩ := hspacing
  refine ⟨indent ++ (line ++ (indentLines (nextSpacing ("\n" ++ indent)) more).1), ?_⟩
  simp only [indentLines, String.append_assoc]

/-- A text that is not empty leaves the last line break of the spacing behind, and what follows it. -/
theorem rescan_spacing (hspacing : o.spacing = some spacing) (htext : text ≠ "") :
    (o.rescan text).2.spacing = some (nextSpacing spacing) := by
  unfold rescan
  rw [hspacing]
  exact congrArg some (indentLines_of_ne_nil (Text.lines_ne_nil htext) spacing)

/-! ## Declarations behind a line break -/

/-- A line break is due. -/
def BreaksLines (o : Outline) : Prop :=
  ∃ spacing, o.spacing = some spacing ∧ Text.BreaksLine spacing

/-- A declaration is printed on lines of its own. -/
def StandsAlone (d : Declaration) : Prop :=
  d.text = "" ∨ Text.BreaksLine d.text

/-- Behind some of these declarations come others, each on lines of its own. -/
def StandsBehind (old ds : List Declaration) : Prop :=
  ∃ kept new, ds = kept ++ new ∧ kept.Sublist old ∧ ∀ d ∈ new, StandsAlone d

theorem StandsBehind.of_sublist {old ds : List Declaration} (h : ds.Sublist old) :
    StandsBehind old ds :=
  ⟨ds, [], (List.append_nil ds).symm, h, nofun⟩

theorem StandsBehind.trans {old ds later : List Declaration} (h : StandsBehind old ds)
    (h' : StandsBehind ds later) : StandsBehind old later := by
  obtain ⟨kept, new, rfl, hkept, hnew⟩ := h
  obtain ⟨kept', new', rfl, hkept', hnew'⟩ := h'
  obtain ⟨front, back, rfl, hfront, hback⟩ := List.sublist_append_iff.mp hkept'
  refine ⟨front, back ++ new', List.append_assoc _ _ _, hfront.trans hkept, fun d hd => ?_⟩
  exact (List.mem_append.mp hd).elim (fun hd => hnew d (hback.subset hd)) (hnew' d)

/-- A later outline: a line break is due, and what is new stands on lines of its own. -/
structure GoesOn (o o' : Outline) : Prop where
  breaksLines : o'.BreaksLines
  behind : StandsBehind o.toList o'.toList

/-- Adds declarations one after the other, each with the rules that are known by then. -/
def addAll (o : Outline) (ds : List (RuleTable × Declaration)) : Outline :=
  ds.foldl (fun o x => (o.add x.1 x.2).2) o

theorem BreaksLines.rescan (h : o.BreaksLines) (text : String) :
    (o.rescan text).2.BreaksLines ∧ ((o.rescan text).1 = "" ∨ Text.BreaksLine (o.rescan text).1) := by
  obtain ⟨spacing, hspacing, hbreaks⟩ := h
  rcases eq_or_ne text "" with rfl | htext
  · have hempty : o.rescan "" = ("", o) := by
      obtain ⟨declarations, due, statement⟩ := o
      cases hspacing
      rfl
    rw [hempty]
    exact ⟨⟨spacing, hspacing, hbreaks⟩, Or.inl rfl⟩
  · refine ⟨⟨_, rescan_spacing hspacing htext, breaksLine_nextSpacing spacing⟩, Or.inr ?_⟩
    unfold Outline.rescan
    rw [hspacing]
    exact breaksLine_indentLines (Text.lines_ne_nil htext) hbreaks

/-- What is due changes only when a text is printed. -/
theorem insert_spacing (o : Outline) (d : Declaration) :
    (o.insert d).spacing = o.spacing ∨ (o.insert d).spacing = (o.rescan d.text).2.spacing := by
  have hdue (ds : Array Declaration) :
      ({ o with declarations := ds }.rescan d.text).2.spacing = (o.rescan d.text).2.spacing := by
    unfold Outline.rescan
    cases hspacing : o.spacing with
    | none => exact hspacing.symm
    | some spacing => rfl
  unfold insert
  dsimp only
  split
  · exact Or.inr rfl
  · split
    · exact Or.inl rfl
    · exact Or.inr (hdue _)

/-- **One declaration.** Where a line break is due, it is printed on lines of its own or not at all,
and a line break is due again. -/
theorem BreaksLines.insert (h : o.BreaksLines) (d : Declaration) : GoesOn o (o.insert d) := by
  obtain ⟨hrescanned, hprinted⟩ := h.rescan d.text
  have hstored : StandsAlone (o.stored d) := hprinted
  constructor
  · rcases insert_spacing o d with hsame | hnext
    · obtain ⟨spacing, hspacing, hbreaks⟩ := h
      exact ⟨spacing, hsame.trans hspacing, hbreaks⟩
    · obtain ⟨spacing, hspacing, hbreaks⟩ := hrescanned
      exact ⟨spacing, hnext.trans hspacing, hbreaks⟩
  · have hnew : ∀ e ∈ [o.stored d], StandsAlone e := List.forall_mem_singleton.mpr hstored
    rcases insert_cases o d with ⟨-, heq⟩ | ⟨-, -, heq⟩ | ⟨-, -, heq⟩
    · exact ⟨_, _, heq, List.Sublist.refl _, hnew⟩
    · exact .of_sublist (heq ▸ List.filter_sublist)
    · exact ⟨_, _, heq, List.filter_sublist, hnew⟩

/-- **A run of steps**, by induction on it. -/
theorem BreaksLines.foldl {α : Type} {step : Outline → α → Outline}
    (hstep : ∀ (o : Outline) (x : α), o.BreaksLines → GoesOn o (step o x)) (xs : List α)
    (h : o.BreaksLines) : GoesOn o (xs.foldl step o) := by
  induction xs generalizing o with
  | nil => exact ⟨h, .of_sublist (List.Sublist.refl _)⟩
  | cons x xs ih =>
      obtain ⟨hbreaks, hfirst⟩ := hstep o x h
      obtain ⟨hrest, hmore⟩ := ih hbreaks
      exact ⟨hrest, hfirst.trans hmore⟩

/-- A declaration with its helpers; one that is held back or skipped changes nothing. -/
theorem BreaksLines.add (h : o.BreaksLines) (table : RuleTable) (d : Declaration) :
    GoesOn o (o.add table d).2 := by
  unfold Outline.add
  split
  · have hheld : (o.holdBack table d).spacing = o.spacing ∧
        (o.holdBack table d).toList = o.toList := by
      unfold holdBack
      split <;> exact ⟨rfl, rfl⟩
    obtain ⟨spacing, hspacing, hbreaks⟩ := h
    exact ⟨⟨spacing, hheld.1.trans hspacing, hbreaks⟩,
      .of_sublist (hheld.2 ▸ List.Sublist.refl _)⟩
  · split
    · exact ⟨h, .of_sublist (List.Sublist.refl _)⟩
    · exact h.foldl (fun _ d h => h.insert d) d.unfold

theorem BreaksLines.addAll (h : o.BreaksLines) (ds : List (RuleTable × Declaration)) :
    GoesOn o (o.addAll ds) :=
  h.foldl (fun _ x h => h.add x.1 x.2) ds

/-! ## Texts -/

/-- **Indenting text piece by piece.** Whatever white space is due, a text of whole lines and
another text behind it are printed as the two in one, and the same is due afterwards. Once a text
that is not empty was printed, a line break is due, so that every declaration that is added later
stands on lines of its own. -/
theorem rescan_append (o : Outline) {spacing : String} (hspacing : o.spacing = some spacing) :
    (∀ a b : String, Text.IsWhole a →
      (o.rescan a).1 ++ ((o.rescan a).2.rescan b).1 = (o.rescan (a ++ b)).1 ∧
        ((o.rescan a).2.rescan b).2 = (o.rescan (a ++ b)).2) ∧
      ∀ text : String, text ≠ "" →
        (∃ indent, (o.rescan text).2.spacing = some ("\n" ++ indent)) ∧
          ∀ later : List (RuleTable × Declaration),
            StandsBehind o.toList ((o.rescan text).2.addAll later).toList := by
  constructor
  · intro a b ha
    unfold rescan
    rw [hspacing]
    simp only [Text.lines_append ha, indentLines_append, and_self]
  · intro text htext
    have hdue := rescan_spacing hspacing htext
    obtain ⟨indent, hindent⟩ := breaksLine_nextSpacing spacing
    refine ⟨⟨indent, hdue.trans (congrArg some hindent)⟩, fun later => ?_⟩
    have hbreaks : (o.rescan text).2.BreaksLines := ⟨_, hdue, indent, hindent⟩
    have hmore := (hbreaks.addAll later).behind
    rwa [toList, rescan_declarations] at hmore

/-- An outline in a class: a blank line is due, and two levels of white space. -/
def sampleOutline : Outline :=
  { spacing := some "\n\n    " }

/-- A text with both kinds of line ends, one without its last, and a declaration behind it. -/
theorem rescan_append_sample :
    sampleOutline.spacing = some "\n\n    " ∧ Text.IsWhole "a\r\n\n" ∧
      (sampleOutline.rescan "a\r\n\n").1 ++
          ((sampleOutline.rescan "a\r\n\n").2.rescan "b\nc").1 = "\n\n    a\n    \n    b\n    c" ∧
      (sampleOutline.rescan "c").2.spacing = some "\n    " ∧
      StandsBehind sampleOutline.toList
        ((sampleOutline.rescan "c").2.addAll
          [({}, { text := "d\n", signature := "d" })]).toList := by
  have hwhole : Text.IsWhole "a\r\n\n" := by decide
  obtain ⟨happend, hlater⟩ := rescan_append sampleOutline rfl
  refine ⟨rfl, hwhole, ?_, by decide +kernel, (hlater "c" (by decide)).2 _⟩
  rw [(happend "a\r\n\n" "b\nc" hwhole).1]
  decide +kernel

/-- A line that is cut between two texts becomes two. -/
example : (sampleOutline.rescan "a").1 ++ ((sampleOutline.rescan "a").2.rescan "b").1 ≠
    (sampleOutline.rescan ("a" ++ "b")).1 := by
  decide +kernel

end Outline

end HeaderPeers

import HeaderPeers.Outline
import Mathlib.Data.List.Infix

/-!
# Parts of a text

Where one text occurs in another: in a piece of it, in one of its lines, and in the lines after
they have been indented.

- `Text.hasPart_iff` — a part is an infix.
- `Text.hasPart_rescan` — what a line holds is not lost with new spacing.
-/

namespace HeaderPeers

namespace Text

theorem cutChars?_isSome_iff {needle cs : List Char} :
    (cutChars? needle cs).isSome = true ↔ needle <:+: cs := by
  induction cs with
  | nil => simp [cutChars?]
  | cons c cs ih =>
      rw [cutChars?, List.infix_cons_iff, ← List.isPrefixOf_iff_prefix, ← ih]
      by_cases h : needle.isPrefixOf (c :: cs) = true <;> simp [h]

theorem hasPart_iff {needle s : String} :
    hasPart needle s = true ↔ needle.toList <:+: s.toList :=
  cutChars?_isSome_iff

theorem hasPart_between (front needle back : String) :
    hasPart needle (front ++ needle ++ back) = true :=
  hasPart_iff.mpr ⟨front.toList, back.toList, by rw [String.toList_append, String.toList_append]⟩

theorem startsWith_iff {head s : String} :
    startsWith head s = true ↔ head.toList <+: s.toList :=
  List.isPrefixOf_iff_prefix

theorem endsWith_iff {tail s : String} :
    endsWith tail s = true ↔ tail.toList <:+ s.toList :=
  List.isSuffixOf_iff_suffix

variable {p : Char → Bool} {needle cs line : List Char}

theorem exists_piece_of_prefix (hne : needle ≠ []) (hp : ∀ c ∈ needle, p c = false)
    (h : needle <+: cs) :
    ∃ piece pieces, piecesThrough p cs = piece :: pieces ∧ needle <+: piece := by
  induction cs generalizing needle with
  | nil => exact absurd (List.prefix_nil.mp h) hne
  | cons c cs ih =>
      obtain rfl | ⟨needle, rfl, hrest⟩ := List.prefix_cons_iff.mp h
      · exact absurd rfl hne
      have hc : p c = false := hp c List.mem_cons_self
      by_cases hnil : needle = []
      · subst hnil
        cases hpieces : piecesThrough p cs with
        | nil => exact ⟨[c], [], by simp [piecesThrough, hc, hpieces], List.prefix_rfl⟩
        | cons piece pieces =>
            exact ⟨c :: piece, pieces, by simp [piecesThrough, hc, hpieces], by simp⟩
      · obtain ⟨piece, pieces, hpieces, hpiece⟩ :=
          ih hnil (fun d hd => hp d (List.mem_cons_of_mem c hd)) hrest
        exact ⟨c :: piece, pieces, by simp [piecesThrough, hc, hpieces],
          (List.prefix_cons_inj c).mpr hpiece⟩

/-- A part without a terminator lies in one piece. -/
theorem exists_piece_of_infix (hne : needle ≠ []) (hp : ∀ c ∈ needle, p c = false)
    (h : needle <:+: cs) : ∃ piece ∈ piecesThrough p cs, needle <:+: piece := by
  induction cs with
  | nil => exact absurd (List.infix_nil.mp h) hne
  | cons c cs ih =>
      obtain hstart | hrest := List.infix_cons_iff.mp h
      · obtain ⟨piece, pieces, hpieces, hpiece⟩ := exists_piece_of_prefix hne hp hstart
        exact ⟨piece, hpieces ▸ List.mem_cons_self, hpiece.isInfix⟩
      obtain ⟨piece, hmem, hpiece⟩ := ih hrest
      by_cases hc : p c = true
      · exact ⟨piece, by simp [piecesThrough, hc, hmem], hpiece⟩
      cases hpieces : piecesThrough p cs with
      | nil => simp [hpieces] at hmem
      | cons first pieces =>
          rw [hpieces] at hmem
          obtain rfl | hmem := List.mem_cons.mp hmem
          · exact ⟨c :: piece, by simp [piecesThrough, hc, hpieces],
              hpiece.trans (List.suffix_cons c piece).isInfix⟩
          · exact ⟨piece, by simp [piecesThrough, hc, hpieces, hmem], hpiece⟩

theorem infix_dropLast (hne : needle ≠ []) (hlast : ∀ c ∈ line.getLast?, c ∉ needle)
    (h : needle <:+: line) : needle <:+: line.dropLast := by
  obtain rfl | ⟨body, c, rfl⟩ := List.eq_nil_or_concat line
  · exact h
  rw [List.concat_eq_append] at *
  obtain hend | hbody := List.infix_concat_iff.mp h
  · obtain rfl | ⟨rest, rfl, -⟩ := List.suffix_concat_iff.mp hend
    · exact absurd rfl hne
    · exact absurd (by simp) (hlast c (by simp))
  · simpa using hbody

/-- A part without line breaks lies in one line. -/
theorem exists_line_of_infix (hne : needle ≠ []) (hlf : '\n' ∉ needle) (hcr : '\r' ∉ needle)
    (h : needle <:+: cs) : ∃ line ∈ lineList cs, needle <:+: line := by
  have hp : ∀ c ∈ needle, (c == '\n') = false := fun c hc => by
    simpa using fun heq : c = '\n' => hlf (heq ▸ hc)
  obtain ⟨piece, hmem, hpiece⟩ := exists_piece_of_infix hne hp h
  refine ⟨_, List.mem_map_of_mem hmem, ?_⟩
  split
  next hfeed =>
    have hbody : needle <:+: piece.dropLast :=
      infix_dropLast hne (fun c hc => by rw [hfeed] at hc; cases hc; exact hlf) hpiece
    unfold dropReturn
    split
    next hreturn =>
      exact infix_dropLast hne (fun c hc => by rw [hreturn] at hc; cases hc; exact hcr) hbody
    · exact hbody
  · exact hpiece

theorem infix_indentLines {needle : List Char} {line : String} {lines : List String}
    (hmem : line ∈ lines) (h : needle <:+: line.toList) (spacing : String) :
    needle <:+: (Outline.indentLines spacing lines).1.toList := by
  induction lines generalizing spacing with
  | nil => cases hmem
  | cons first lines ih =>
      rw [Outline.indentLines, String.toList_append, String.toList_append]
      obtain rfl | hmem := List.mem_cons.mp hmem
      · exact (h.trans (List.suffix_append _ _).isInfix).trans (List.prefix_append _ _).isInfix
      · exact (ih hmem _).trans (List.suffix_append _ _).isInfix

/-- What a line holds is still there when the line has been indented. -/
theorem hasPart_rescan {needle text : String} (o : Outline) (hne : needle.toList ≠ [])
    (hlf : '\n' ∉ needle.toList) (hcr : '\r' ∉ needle.toList) (h : hasPart needle text = true) :
    hasPart needle (o.rescan text).1 = true := by
  unfold Outline.rescan
  split
  · exact h
  · obtain ⟨line, hmem, hline⟩ := exists_line_of_infix hne hlf hcr (hasPart_iff.mp h)
    refine hasPart_iff.mpr (infix_indentLines (List.mem_map_of_mem hmem) ?_ _)
    simpa using hline

end Text

end HeaderPeers

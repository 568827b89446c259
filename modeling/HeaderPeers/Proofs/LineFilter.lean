import HeaderPeers.LineFilter
import Mathlib.Data.List.Basic

/-!
# What a line filter keeps

The same ranges of lines, kept by one filter and left out by the other, share the lines of a text
between them. A range that is kept starts with the line that opens it and ends with the line that
closes it, so that a second pass goes through the same places; a line that stays outside of all
ranges opens none.

- `LineFilter.Merges` — two lists that make up a third, each in its order.
- `LineFilter.keep_again` — a filter keeps all it has kept.
- `LineFilter.lines_apply` — the filtered text has the lines that were kept.
- `LineFilter.apply_shares` — the two texts share the lines, and a second pass changes nothing.
-/

namespace HeaderPeers

/-! ## Lines of a text -/

namespace Text

variable {line cs : List Char}

/-- A text without line feeds is one piece. -/
theorem piecesThrough_whole (h : '\n' ∉ cs) (hne : cs ≠ []) :
    piecesThrough (· == '\n') cs = [cs] := by
  induction cs with
  | nil => exact absurd rfl hne
  | cons c cs ih =>
      obtain ⟨hc, hcs⟩ := not_or.mp (List.mem_cons.not.mp h)
      rw [piecesThrough, if_neg (by simpa using Ne.symm hc)]
      cases cs with
      | nil => rfl
      | cons d cs => rw [ih hcs (List.cons_ne_nil d cs)]

theorem piecesThrough_break (h : '\n' ∉ line) (cs : List Char) :
    piecesThrough (· == '\n') (line ++ '\n' :: cs) =
      (line ++ ['\n']) :: piecesThrough (· == '\n') cs := by
  induction line with
  | nil => rfl
  | cons c line ih =>
      obtain ⟨hc, hline⟩ := not_or.mp (List.mem_cons.not.mp h)
      rw [List.cons_append, piecesThrough, if_neg (by simpa using Ne.symm hc), ih hline]
      rfl

/-- A text without line feeds is one line. -/
theorem lineList_whole (h : '\n' ∉ cs) (hne : cs ≠ []) : lineList cs = [cs] := by
  have hlast : cs.getLast? ≠ some '\n' := fun hlast => h (List.mem_of_getLast? hlast)
  rw [lineList, piecesThrough_whole h hne, List.map_singleton, if_neg hlast]

/-- The first line of a text is what stands before its first line feed, unless that is a carriage
return. -/
theorem lineList_break (h : '\n' ∉ line) (hreturn : line.getLast? ≠ some '\r') (cs : List Char) :
    lineList (line ++ '\n' :: cs) = line :: lineList cs := by
  rw [lineList, piecesThrough_break h, List.map_cons, List.getLast?_concat, if_pos rfl,
    List.dropLast_concat, dropReturn, if_neg hreturn]
  rfl

/-- The lines of a text without carriage returns hold no terminators. -/
theorem not_mem_of_mem_lineList (h : '\r' ∉ cs) (hline : line ∈ lineList cs) :
    '\n' ∉ line ∧ '\r' ∉ line := by
  induction hn : cs.length using Nat.strongRecOn generalizing cs with
  | _ n ih =>
    subst hn
    by_cases hfeed : '\n' ∈ cs
    · obtain ⟨first, rest, rfl, hfirst⟩ := List.eq_append_cons_of_mem hfeed
      obtain ⟨hreturn, hrest⟩ := not_or.mp (List.mem_append.not.mp h)
      rw [lineList_break hfirst fun hlast => hreturn (List.mem_of_getLast? hlast)] at hline
      rcases List.mem_cons.mp hline with rfl | hline
      · exact ⟨hfirst, hreturn⟩
      · refine ih rest.length ?_ (fun hmem => hrest (List.mem_cons_of_mem _ hmem)) hline rfl
        rw [List.length_append, List.length_cons]
        omega
    · rcases eq_or_ne cs [] with rfl | hne
      · cases hline
      · rw [lineList_whole hfeed hne] at hline
        rw [List.mem_singleton.mp hline]
        exact ⟨hfeed, h⟩

/-- Lines with a line feed behind each are the lines of the text they make up. -/
theorem lines_join {lines : List String}
    (h : ∀ line ∈ lines, '\n' ∉ line.toList ∧ '\r' ∉ line.toList) :
    Text.lines (String.join (lines.map (· ++ "\n"))) = lines := by
  induction lines with
  | nil => rfl
  | cons line lines ih =>
      obtain ⟨hline, hlines⟩ := List.forall_mem_cons.mp h
      have htext : (String.join ((line :: lines).map (· ++ "\n"))).toList =
          line.toList ++ '\n' :: (String.join (lines.map (· ++ "\n"))).toList := by
        simp
      have hmore := ih hlines
      unfold Text.lines at hmore ⊢
      rw [htext, lineList_break hline.1 fun hlast => hline.2 (List.mem_of_getLast? hlast),
        List.map_cons, hmore, String.ofList_toList]

end Text

/-! ## Two filters with the same ranges -/

namespace LineFilter

variable {ranges : List LineRange}

/-- Two lists merged into one, each in its order. -/
inductive Merges {α : Type} : List α → List α → List α → Prop
  | nil : Merges [] [] []
  | left {x : α} {xs ys zs : List α} : Merges xs ys zs → Merges (x :: xs) ys (x :: zs)
  | right {y : α} {xs ys zs : List α} : Merges xs ys zs → Merges xs (y :: ys) (y :: zs)

/-- A line is outside of all ranges only if none was open, and then none is open behind it. -/
theorem eq_none_of_step {filter : LineFilter} {place next : Place} {line : String}
    (h : filter.step place line = (false, next)) : place = none ∧ next = none := by
  unfold step at h
  split at h
  · cases h
  · split at h
    · cases h
    · exact ⟨rfl, (Prod.mk.inj h).2.symm⟩

/-- The places in a text do not depend on whether the ranges are left out. -/
theorem step_skip (skip : Bool) (place : Place) (line : String) :
    step ⟨ranges, skip⟩ place line = step ⟨ranges, false⟩ place line :=
  rfl

/-- Each line is kept by one of the filters. -/
theorem keep_merges (place : Place) (lines : List String) :
    Merges (keep ⟨ranges, false⟩ place lines) (keep ⟨ranges, true⟩ place lines) lines := by
  induction lines generalizing place with
  | nil => exact .nil
  | cons line lines ih =>
      rw [keep, keep, step_skip true]
      cases hstep : step ⟨ranges, false⟩ place line with
      | mk inRange next =>
          cases inRange with
          | true => exact .left (ih next)
          | false => exact .right (ih next)

theorem keep_ranges_again (place : Place) (lines : List String) :
    keep ⟨ranges, false⟩ place (keep ⟨ranges, false⟩ place lines) =
      keep ⟨ranges, false⟩ place lines := by
  induction lines generalizing place with
  | nil => rfl
  | cons line lines ih =>
      rw [keep]
      cases hstep : step ⟨ranges, false⟩ place line with
      | mk inRange next =>
          cases inRange with
          | true =>
              change keep _ place (line :: keep _ next lines) = line :: keep _ next lines
              rw [keep, hstep]
              change line :: keep _ next (keep _ next lines) = line :: keep _ next lines
              rw [ih]
          | false =>
              obtain ⟨rfl, rfl⟩ := eq_none_of_step hstep
              exact ih none

/-- Wherever in a range the first pass starts, the lines it keeps are outside of all ranges. -/
theorem keep_others_again (place : Place) (lines : List String) :
    keep ⟨ranges, true⟩ none (keep ⟨ranges, true⟩ place lines) =
      keep ⟨ranges, true⟩ place lines := by
  induction lines generalizing place with
  | nil => rfl
  | cons line lines ih =>
      rw [keep]
      cases hstep : step ⟨ranges, true⟩ place line with
      | mk inRange next =>
          cases inRange with
          | true => exact ih next
          | false =>
              obtain ⟨rfl, rfl⟩ := eq_none_of_step hstep
              change keep _ none (line :: keep _ none lines) = line :: keep _ none lines
              rw [keep, hstep]
              change line :: keep _ none (keep _ none lines) = line :: keep _ none lines
              rw [ih]

/-- A filter keeps all it has kept. -/
theorem keep_again (filter : LineFilter) (lines : List String) :
    filter.keep none (filter.keep none lines) = filter.keep none lines := by
  obtain ⟨ranges, skip⟩ := filter
  cases skip with
  | false => exact keep_ranges_again none lines
  | true => exact keep_others_again none lines

theorem mem_of_mem_keep {filter : LineFilter} {place : Place} {line : String}
    {lines : List String} (h : line ∈ filter.keep place lines) : line ∈ lines := by
  induction lines generalizing place with
  | nil => cases h
  | cons first lines ih =>
      rw [keep] at h
      dsimp only at h
      split at h
      · rcases List.mem_cons.mp h with rfl | h
        · exact List.mem_cons_self
        · exact List.mem_cons_of_mem _ (ih h)
      · exact List.mem_cons_of_mem _ (ih h)

/-- The filtered text has the lines that were kept. -/
theorem lines_apply (filter : LineFilter) {text : String} (h : '\r' ∉ text.toList) :
    Text.lines (filter.apply text) = filter.keep none (Text.lines text) := by
  refine Text.lines_join fun line hline => ?_
  obtain ⟨cs, hcs, rfl⟩ := List.mem_map.mp (mem_of_mem_keep hline)
  rw [String.toList_ofList]
  exact Text.not_mem_of_mem_lineList h hcs

/-- **Two filters with the same ranges**, one that keeps them and one that leaves them out, share
the lines of a text: each line goes to one of them, in the order of the text. What a filter has
made of a text it leaves as it is. -/
theorem apply_shares (ranges : List LineRange) (text : String) (h : '\r' ∉ text.toList) :
    Merges (Text.lines (apply ⟨ranges, false⟩ text)) (Text.lines (apply ⟨ranges, true⟩ text))
        (Text.lines text) ∧
      ∀ skip, apply ⟨ranges, skip⟩ (apply ⟨ranges, skip⟩ text) = apply ⟨ranges, skip⟩ text := by
  refine ⟨?_, fun skip => ?_⟩
  · rw [lines_apply _ h, lines_apply _ h]
    exact keep_merges none (Text.lines text)
  · change String.join ((keep _ none (Text.lines (apply _ text))).map (· ++ "\n")) = apply _ text
    rw [lines_apply _ h, keep_again]
    rfl

/-- A range with an end, and lines of their own. -/
def sampleRanges : List LineRange :=
  [⟨(· == "#if WIN"), some (· == "#endif")⟩, ⟨(· == "// only"), none⟩]

def sampleText : String :=
  "a\n#if WIN\nb\n#endif\n// only\n\n#if WIN\nc"

/-- Both at work, with a range left open at the end of the text. -/
theorem apply_shares_sample :
    '\r' ∉ sampleText.toList ∧
      Merges (Text.lines (apply ⟨sampleRanges, false⟩ sampleText))
        (Text.lines (apply ⟨sampleRanges, true⟩ sampleText)) (Text.lines sampleText) ∧
      apply ⟨sampleRanges, true⟩ (apply ⟨sampleRanges, true⟩ sampleText) =
        apply ⟨sampleRanges, true⟩ sampleText ∧
      apply ⟨sampleRanges, false⟩ sampleText = "#if WIN\nb\n#endif\n// only\n#if WIN\nc\n" ∧
      apply ⟨sampleRanges, true⟩ sampleText = "a\n\n" := by
  have h : '\r' ∉ sampleText.toList := by decide
  obtain ⟨hshared, hagain⟩ := apply_shares sampleRanges sampleText h
  exact ⟨h, hshared, hagain true, by decide +kernel, by decide +kernel⟩

end LineFilter

end HeaderPeers

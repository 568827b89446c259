import HeaderPeers.Source
import HeaderPeers.Proofs.LineBreaks
import HeaderPeers.Proofs.LineNumbers
import Mathlib.Data.List.TakeWhile

/-!
# The lines that tokens point at

Two things count lines. A token is on the line that the tokenizer was on, which
turns every line terminator into a line feed first; a source file is cut at its
line feeds as they stand. The two agree on line feeds, with or without a carriage
return before them. A carriage return of its own is a line terminator to the
tokenizer only, so each of them before a token puts the token one line further
than the source file has it.

- `Text.loneReturns` — the carriage returns that only the tokenizer counts.
- `Text.exists_split` — a cut of the unified text is a cut of the text.
- `Text.exists_splitChars_getElem?` — the piece that a place of a text is in.
- `SourceFile.token_line` — where each token is, and when its line is there.
-/

namespace HeaderPeers

namespace Text

/-! ## Line terminators -/

/-- The number of carriage returns without a line feed behind them. -/
def loneReturns : List Char → Nat
  | [] => 0
  | '\r' :: '\n' :: cs => loneReturns cs
  | '\r' :: cs => loneReturns cs + 1
  | _ :: cs => loneReturns cs

/-- Each line feed is one when terminators are unified, and so is each carriage
return without one. -/
theorem count_break_unifyBreaks (cs : List Char) :
    (unifyBreaks cs).count '\n' = cs.count '\n' + loneReturns cs := by
  fun_induction unifyBreaks cs with
  | case1 => rfl
  | case2 cs ih => simp [loneReturns, ih, Nat.add_right_comm]
  | case3 cs hcs ih => simp [loneReturns, ih, Nat.add_assoc]
  | case4 c cs hcrlf hcr ih =>
      have hlone : loneReturns (c :: cs) = loneReturns cs := by
        rw [loneReturns]
        · exact hcrlf
        · exact hcr
      simp only [List.count_cons, ih, hlone, Nat.add_right_comm]

/-- A text can be cut wherever the unified text can. -/
theorem exists_split {cs u v : List Char} (h : unifyBreaks cs = u ++ v) :
    ∃ front back, cs = front ++ back ∧ unifyBreaks front = u ∧ unifyBreaks back = v := by
  fun_induction unifyBreaks cs generalizing u with
  | case1 =>
      obtain ⟨rfl, rfl⟩ := List.append_eq_nil_iff.mp h.symm
      exact ⟨[], [], rfl, rfl, rfl⟩
  | case2 cs ih =>
      cases u with
      | nil => exact ⟨[], _, rfl, rfl, h⟩
      | cons c u =>
          obtain ⟨rfl, hrest⟩ := List.cons.inj h
          obtain ⟨front, back, rfl, hu, hv⟩ := ih hrest
          exact ⟨'\r' :: '\n' :: front, back, rfl, by rw [unifyBreaks, hu], hv⟩
  | case3 cs hcs ih =>
      cases u with
      | nil =>
          refine ⟨[], '\r' :: cs, rfl, rfl, ?_⟩
          rw [unifyBreaks]
          · exact h
          · exact hcs
      | cons c u =>
          obtain ⟨rfl, hrest⟩ := List.cons.inj h
          obtain ⟨front, back, rfl, hu, hv⟩ := ih hrest
          refine ⟨'\r' :: front, back, rfl, ?_, hv⟩
          rw [unifyBreaks, hu]
          rintro rest rfl
          exact hcs _ rfl
  | case4 c cs hcrlf hcr ih =>
      cases u with
      | nil =>
          refine ⟨[], c :: cs, rfl, rfl, ?_⟩
          rw [unifyBreaks]
          · exact h
          · exact hcrlf
          · exact hcr
      | cons d u =>
          obtain ⟨rfl, hrest⟩ := List.cons.inj h
          obtain ⟨front, back, rfl, hu, hv⟩ := ih hrest
          refine ⟨c :: front, back, rfl, ?_, hv⟩
          rw [unifyBreaks, hu]
          · exact fun _ hc _ => hcr hc
          · exact hcr

/-- Up to its first line feed, the unified text is what the text starts with. -/
theorem takeWhile_unifyBreaks_prefix (cs : List Char) :
    (unifyBreaks cs).takeWhile (!· == '\n') <+: cs.takeWhile (!· == '\n') := by
  fun_induction unifyBreaks cs with
  | case1 => exact List.prefix_rfl
  | case2 cs ih => exact List.nil_prefix
  | case3 cs hcs ih => exact List.nil_prefix
  | case4 c cs hcrlf hcr ih =>
      by_cases hc : c = '\n'
      · simp [hc]
      · simpa [hc, List.cons_prefix_cons] using ih

/-! ## Pieces -/

variable {p q : Char → Bool}

theorem takeWhile_prefix_append (p : Char → Bool) (cs ds : List Char) :
    cs.takeWhile p <+: (cs ++ ds).takeWhile p := by
  rw [List.takeWhile_append]
  split
  · exact (List.takeWhile_prefix p).trans (List.prefix_append cs _)
  · exact List.prefix_rfl

/-- The first piece goes up to the first cut. -/
theorem exists_splitChars_eq_cons (p : Char → Bool) (cs : List Char) :
    ∃ pieces, splitChars p cs = cs.takeWhile (!p ·) :: pieces := by
  induction cs with
  | nil => exact ⟨[], rfl⟩
  | cons c cs ih =>
      obtain ⟨pieces, hpieces⟩ := ih
      by_cases hc : p c = true
      · exact ⟨splitChars p cs, by simp [splitChars, hpieces, hc]⟩
      · exact ⟨pieces, by simp [splitChars, hpieces, hc]⟩

theorem splitChars_cons (p : Char → Bool) (c : Char) (cs : List Char) :
    ∃ piece pieces, splitChars p cs = piece :: pieces ∧ splitChars p (c :: cs) =
      if p c then [] :: piece :: pieces else (c :: piece) :: pieces := by
  obtain ⟨pieces, hpieces⟩ := exists_splitChars_eq_cons p cs
  exact ⟨_, pieces, hpieces, by rw [splitChars, hpieces]⟩

/-- There is one piece more than there are cuts. -/
theorem length_splitChars (p : Char → Bool) (cs : List Char) :
    (splitChars p cs).length = cs.countP p + 1 := by
  induction cs with
  | nil => rfl
  | cons c cs ih =>
      obtain ⟨piece, pieces, hpieces, hsplit⟩ := splitChars_cons p c cs
      rw [hpieces] at ih
      by_cases hc : p c = true
      · rw [hsplit, if_pos hc, List.countP_cons_of_pos hc, List.length_cons, ih]
      · rw [hsplit, if_neg hc, List.countP_cons_of_neg hc, ← ih]
        rfl

/-- What stands behind so many cuts is in the piece of that number, up to the
next cut. -/
theorem exists_splitChars_getElem? (p : Char → Bool) (front back : List Char) :
    ∃ start, (splitChars p (front ++ back))[front.countP p]? =
      some (start ++ back.takeWhile (!p ·)) := by
  induction front with
  | nil =>
      obtain ⟨pieces, hpieces⟩ := exists_splitChars_eq_cons p back
      exact ⟨[], by rw [List.nil_append, hpieces]; rfl⟩
  | cons c front ih =>
      obtain ⟨start, hstart⟩ := ih
      obtain ⟨piece, pieces, hpieces, hsplit⟩ := splitChars_cons p c (front ++ back)
      rw [hpieces] at hstart
      rw [List.cons_append, hsplit]
      by_cases hc : p c = true
      · rw [if_pos hc, List.countP_cons_of_pos hc, List.getElem?_cons_succ]
        exact ⟨start, hstart⟩
      · rw [if_neg hc, List.countP_cons_of_neg hc]
        cases hn : front.countP p with
        | zero =>
            rw [hn, List.getElem?_cons_zero, Option.some.injEq] at hstart
            exact ⟨c :: start, by rw [List.getElem?_cons_zero, hstart]; rfl⟩
        | succ n =>
            rw [hn, List.getElem?_cons_succ] at hstart
            exact ⟨start, by rw [List.getElem?_cons_succ, hstart]⟩

/-- What holds no such character stays when a text is trimmed at its end. -/
theorem infix_dropEndWhile {cs part : List Char} (h : part <:+: cs)
    (hpart : ∀ c ∈ part, q c = false) : part <:+: dropEndWhile q cs := by
  rcases List.eq_nil_or_concat part with rfl | ⟨start, c, rfl⟩
  · exact List.nil_infix
  obtain ⟨before, after, rfl⟩ := h
  have hc : q c = false := hpart c (by simp)
  have hstop : (before ++ start.concat c).reverse.dropWhile q =
      (before ++ start.concat c).reverse := by
    simp [hc]
  rw [dropEndWhile, List.reverse_append, List.dropWhile_append]
  split
  · rw [hstop, List.reverse_reverse]
    exact (List.suffix_append before _).isInfix
  · rw [List.reverse_append, List.reverse_reverse]
    exact ⟨before, _, rfl⟩

end Text

namespace SourceFile

/-- What a line holds stands in it when its terminator is gone. -/
theorem exists_line_of_getElem? {file : SourceFile} {n : Nat} {piece part : List Char}
    (h : (Text.splitChars (· == '\n') file.content.toList)[n]? = some piece)
    (hpart : part <:+: piece) (hbreak : ∀ c ∈ part, c ≠ '\n' ∧ c ≠ '\r') :
    ∃ line, file.line? (1 + n) = some line ∧ part <:+: line.toList := by
  have hpieces : file.pieces[n]? = some (String.ofList piece) := by
    rw [pieces, Text.split, List.getElem?_map, h]
    rfl
  have hzero : (1 + n == 0) = false := by
    rw [Nat.add_comm]
    rfl
  refine ⟨String.ofList (Text.dropEndWhile (fun c => c == '\n' || c == '\r') piece), ?_, ?_⟩
  · rw [line?, hzero, if_neg Bool.false_ne_true, Nat.add_sub_cancel_left, hpieces,
      Option.map_some, String.toList_ofList]
  · rw [String.toList_ofList]
    refine Text.infix_dropEndWhile hpart fun c hc => ?_
    obtain ⟨hfeed, hreturn⟩ := hbreak c hc
    simp [hfeed, hreturn]

theorem lineCount_eq (file : SourceFile) :
    file.lineCount = file.content.toList.count '\n' + 1 := by
  rw [lineCount, pieces, Text.split, List.length_map, Text.length_splitChars]
  rfl

/-- **Lines of tokens.** A file is made up of its tokens and white space, once
line terminators are unified. Each token is as many lines behind line one as
there are line terminators before it, lone carriage returns among them. If there
are none of those before it, its line is one of the file's, and what is read of
the token up to its first line feed stands in that line. -/
theorem token_line (file : SourceFile) (name : Option String) :
    ∃ pieces : List (Token × List Char), pieces.map (·.1) = Token.ofText name file.content ∧
      ∀ before t source after, pieces = before ++ (t, source) :: after →
        Spells (after = []) t.kind t.text.toList source ∧
        ∃ front back, file.content.toList = front ++ back ∧
          Text.unifyBreaks front = Token.written before ++ t.spacing.toList ∧
          Text.unifyBreaks back = source ++ Token.written after ∧
          t.location.line = 1 + front.count '\n' + Text.loneReturns front ∧
          (Text.loneReturns front = 0 →
            1 ≤ t.location.line ∧ t.location.line ≤ file.lineCount ∧
              ∃ line, file.line? t.location.line = some line ∧
                source.takeWhile (!· == '\n') <:+: line.toList) := by
  obtain ⟨pieces, h, hlines⟩ :=
    Token.exists_numbered_pieces name 1 (Text.unifyBreaks file.content.toList)
  refine ⟨pieces, h.tokens_eq, fun before t source after hsplit =>
    ⟨h.spells before t source after hsplit, ?_⟩⟩
  have hcut : Text.unifyBreaks file.content.toList =
      (Token.written before ++ t.spacing.toList) ++ (source ++ Token.written after) := by
    have htext : Token.written pieces = Text.unifyBreaks file.content.toList := h.text_eq
    rw [← htext, hsplit]
    simp [Token.written]
  obtain ⟨front, back, hcontent, hfront, hback⟩ := Text.exists_split hcut
  have hline : t.location.line = 1 + front.count '\n' + Text.loneReturns front := by
    rw [hlines before t source after hsplit, ← hfront, Text.count_break_unifyBreaks,
      Nat.add_assoc]
  refine ⟨front, back, hcontent, hfront, hback, hline, fun hlone => ?_⟩
  rw [hlone, Nat.add_zero] at hline
  obtain ⟨start, hpiece⟩ := Text.exists_splitChars_getElem? (· == '\n') front back
  rw [← hcontent] at hpiece
  -- up to its first line feed the token is read as it stands in the file
  have hsource : source.takeWhile (!· == '\n') <+: back.takeWhile (!· == '\n') := by
    refine List.IsPrefix.trans ?_ (Text.takeWhile_unifyBreaks_prefix back)
    rw [hback]
    exact Text.takeWhile_prefix_append _ source _
  have hbreak : ∀ c ∈ source.takeWhile (!· == '\n'), c ≠ '\n' ∧ c ≠ '\r' := by
    intro c hc
    refine ⟨by simpa using List.mem_takeWhile_imp hc, ?_⟩
    rintro rfl
    refine Text.return_not_mem_unifyBreaks back (hback ▸ List.mem_append_left _ ?_)
    exact (List.takeWhile_prefix _).subset hc
  refine ⟨by omega, ?_, ?_⟩
  · rw [hline, lineCount_eq, hcontent, List.count_append]
    omega
  · rw [hline]
    exact exists_line_of_getElem? hpiece
      (hsource.isInfix.trans (List.suffix_append start _).isInfix) hbreak

/-- Two declarations with a lone carriage return between them. -/
def returnFile : SourceFile :=
  { id := 0, path := "a.h", content := "int a;\rint b;", dialect := .cpp }

/-- The second one is on line two, and the file has one line. -/
theorem token_line_behind_return :
    (∃ t ∈ Token.ofText none returnFile.content, t.text = "b" ∧ t.location.line = 2) ∧
      returnFile.lineCount = 1 ∧ returnFile.line? 2 = none := by
  refine ⟨?_, by decide, by decide⟩
  have h : (Token.ofText none returnFile.content).any
      (fun t => t.text == "b" && t.location.line == 2) = true := by cbv
  obtain ⟨t, ht, hb⟩ := List.any_eq_true.mp h
  exact ⟨t, ht, by simpa using hb⟩

end SourceFile

end HeaderPeers

import HeaderPeers.Proofs.Lexer
import HeaderPeers.Window.Basic

/-!
# Line numbers

A token is on the line where its first character stands: one more than there are
line feeds before that character. The line of the end of the input is not counted
but made from the last token, whose text need not be what it was read from. Still
no rewriting of a text adds or takes away a line feed (`Spells.count_break`), so
that the end is on the last line.
-/

namespace HeaderPeers

/-- A source has as many line feeds as the text it is read as. -/
theorem Spells.count_break {isLast : Prop} {kind : Kind} {text source : List Char}
    (h : Spells isLast kind text source) : text.count '\n' = source.count '\n' := by
  cases h with
  | verbatim same => rw [same]
  | continuation _ broken shown =>
      rw [broken, shown]
      rfl
  | leftOpen quote inside _ literal _ _ closed =>
      have hquote : quote ≠ '\n' := by
        rintro rfl
        simp at literal
      have hclosing : [quote].count '\n' = 0 :=
        List.count_eq_zero.mpr (by simpa using hquote.symm)
      rw [closed, List.count_append, hclosing, Nat.add_zero]
  | number _ rewritten =>
      obtain ⟨plain, hplain, htext⟩ := rewritten
      have hmarks : (Number.withoutMarks source).count '\n' = source.count '\n' :=
        List.count_filter (by decide)
      have hcount : plain.count '\n' = source.count '\n' := by
        rcases hplain with rfl | hwidth
        · exact hmarks
        · rw [← hmarks, ← hwidth]
          simp
      rcases htext with rfl | ⟨-, rfl⟩
      · exact hcount
      · simpa using hcount

namespace Token

/-- The text that some tokens were read from. -/
def written (pieces : List (Token × List Char)) : List Char :=
  pieces.flatMap fun p => p.1.spacing.toList ++ p.2

/-- The tokens of a text that starts on a line have the lines on which they
start. -/
def Numbered (line : Nat) (pieces : List (Token × List Char)) : Prop :=
  ∀ before (t : Token) source after, pieces = before ++ (t, source) :: after →
    t.location.line = line + (written before ++ t.spacing.toList).count '\n'

theorem Numbered.cons {t : Token} {source : List Char} {line : Nat}
    {pieces : List (Token × List Char)}
    (ht : t.location.line = line + t.spacing.toList.count '\n')
    (h : Numbered (t.location.line + source.count '\n') pieces) :
    Numbered line ((t, source) :: pieces) := by
  intro before u source' after hsplit
  cases before with
  | nil =>
      obtain ⟨⟨rfl, rfl⟩, rfl⟩ : (t = u ∧ source = source') ∧ pieces = after := by
        simpa using hsplit
      exact ht
  | cons p before =>
      obtain ⟨rfl, hrest⟩ := List.cons.inj hsplit
      rw [h before u source' after hrest, ht]
      simp only [written, List.flatMap_cons, List.count_append]
      omega

/-- Every text is made up of its tokens, each with its line. -/
theorem exists_numbered_pieces (file : Option String) (line : Nat) (cs : List Char) :
    ∃ pieces, Pieces (scan .counted file line cs) cs pieces ∧ Numbered line pieces := by
  fun_induction scan .counted file line cs with
  | case1 line cs spacing hrest hspacing =>
      have hcs : spacing ++ cs.dropWhile Text.isBlank = cs := List.takeWhile_append_dropWhile
      rw [hrest, List.isEmpty_iff.mp hspacing] at hcs
      exact ⟨[], hcs ▸ pieces_nil, by simp [Numbered]⟩
  | case2 line cs spacing line' hrest hspacing =>
      have hcs : spacing ++ cs.dropWhile Text.isBlank = cs := List.takeWhile_append_dropWhile
      refine ⟨_, pieces_nil.cons (.verbatim rfl) (by simpa [hrest] using hcs), ?_⟩
      refine Numbered.cons ?_ (by simp [Numbered])
      rw [String.toList_ofList]
      rfl
  | case3 line cs spacing line' c rest hrest lexeme ih =>
      obtain ⟨pieces, hpieces, hlines⟩ := ih
      have hlast : lexeme.rest = [] →
          scan .counted file (Numbering.counted.advance line' lexeme.source) lexeme.rest = [] := by
        intro hnil
        rw [hnil, scan_nil]
      refine ⟨_, hpieces.cons_read hrest hlast rfl rfl rfl, Numbered.cons ?_ hlines⟩
      rw [String.toList_ofList]
      rfl

/-- The end of the input is on the line where the text ends. -/
theorem endToken_line {line : Nat} {tokens : List Token} {cs : List Char}
    {pieces : List (Token × List Char)} (h : Pieces tokens cs pieces)
    (hlines : Numbered line pieces) (hne : tokens ≠ []) :
    (Window.endToken tokens.toArray).location.line = line + cs.count '\n' := by
  have htokens := h.tokens_eq
  have hcs : written pieces = cs := h.text_eq
  rcases List.eq_nil_or_concat' pieces with rfl | ⟨before, ⟨last, source⟩, rfl⟩
  · exact absurd htokens.symm hne
  · have hlast : last.location.line = line + (written before ++ last.spacing.toList).count '\n' :=
      hlines before last source [] rfl
    have hspells : last.text.toList.count '\n' = source.count '\n' :=
      (h.spells before last source [] rfl).count_break
    have hback : tokens.toArray.back? = some last := by
      simp [← htokens]
    rw [Window.endToken, hback, ← hcs]
    simp only [eof, Text.countChar, hspells, hlast, written, List.flatMap_append,
      List.flatMap_singleton, List.count_append]
    omega

/-- Behind the last token there is only the end. -/
theorem get_behind_tokens (tokens : List Token) (table : RuleTable) (fuel : Nat) :
    ({ Window.ofTokens tokens with index := tokens.length } : Window).get (fuel + 1) table 0 =
      some (Window.endToken tokens.toArray,
        { Window.ofTokens tokens with index := tokens.length }) := by
  have hnone : tokens.toArray[tokens.length]? = none := by simp
  have hvisit : Window.visit table tokens.toArray tokens.length = tokens.toArray := by
    simp [Window.visit, Window.resolveAt, Window.opensAt, Window.expandAt]
  simp [Window.get, Window.position, Window.ofTokens, Window.seek, Window.tokenAt, hvisit]

/-- **Lines.** For every text there are sources, one for each token, that make up
the text with its white space, once every line terminator is a line feed. Each
token is on line one, and as many lines further as there are line feeds before
its source. If there is a token at all, what is found behind the last one is the
end of the input, and it is as many lines behind the first as the text has line
feeds. -/
theorem line_of_tokens (file : Option String) (text : String) :
    ∃ pieces : List (Token × List Char),
      pieces.map (·.1) = ofText file text ∧
      written pieces = (Text.replace "\r" "\n" (Text.replace "\r\n" "\n" text)).toList ∧
      (∀ before t source after, pieces = before ++ (t, source) :: after →
        Spells (after = []) t.kind t.text.toList source ∧
        t.location.line = 1 + (written before ++ t.spacing.toList).count '\n') ∧
      (ofText file text ≠ [] → ∀ table fuel, ∃ t,
        let w := { Window.ofTokens (ofText file text) with index := (ofText file text).length }
        w.get (fuel + 1) table 0 = some (t, w) ∧ t.isEof = true ∧
        t.location.line =
          1 + (Text.replace "\r" "\n" (Text.replace "\r\n" "\n" text)).toList.count '\n') := by
  obtain ⟨pieces, h, hlines⟩ := exists_numbered_pieces file 1 (Text.unifyBreaks text.toList)
  rw [Text.toList_replace_breaks]
  refine ⟨pieces, h.tokens_eq, h.text_eq, fun before t source after hsplit =>
    ⟨h.spells before t source after hsplit, hlines before t source after hsplit⟩,
    fun hne table fuel => ⟨_, get_behind_tokens _ table fuel, ?_, endToken_line h hlines hne⟩⟩
  unfold Window.endToken
  split <;> rfl

end Token

end HeaderPeers

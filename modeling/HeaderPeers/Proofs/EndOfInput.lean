import HeaderPeers.Proofs.LineNumbers
import HeaderPeers.Proofs.WholeInput

/-!
# The end of the input

Where only comments are left the end is seen, and it is seen again from any place
behind them. What is seen there says where the last token ends, so an error at the
end is reported on the last line of the text.

- `Reading.SeesEnd` — the end is at the cursor.
- `Reading.SeesEnd.takeBefore` — the comments before the end are taken.
- `Token.line_of_endToken` — the line on which the end is.
-/

namespace HeaderPeers

open ReadM

/-- The end of a text is on its last line, if the last token of the text is still there. -/
theorem Token.line_of_endToken {file : Option String} {text : String} {tokens : Array Token}
    {last : Token} (hlast : (Token.ofText file text).getLast? = some last)
    (htokens : tokens.back? = some last) :
    (Window.endToken tokens).location.line =
      1 + (Text.replace "\r" "\n" (Text.replace "\r\n" "\n" text)).toList.count '\n' := by
  obtain ⟨pieces, h, hlines⟩ := exists_numbered_pieces file 1 (Text.unifyBreaks text.toList)
  have hback : (Token.ofText file text).toArray.back? = some last := by
    rw [List.back?_toArray, hlast]
  have hsame : Window.endToken tokens = Window.endToken (Token.ofText file text).toArray := by
    unfold Window.endToken
    rw [htokens, hback]
  have hne : Token.ofText file text ≠ [] := by
    intro hnil
    rw [hnil] at hlast
    cases hlast
  rw [Text.toList_replace_breaks, hsame]
  exact endToken_line h hlines hne

namespace Reading

/-- The end of the input is seen from the cursor: only comments are left, and looking again changes
nothing. -/
structure SeesEnd (s : Reading) (t : Token) : Prop where
  seen : peek s = .ok t s
  cooked : s.window.raw = false
  eq_endToken : t = Window.endToken s.window.tokens
  comments : ∀ i, s.window.index ≤ i → i < s.window.size → Window.CommentAt s.window.tokens i

variable {s : Reading} {t : Token}

theorem seek_of_atEnd (hbound : 0 < s.bound) (h : s.window.AtEnd) (count : Nat) :
    Window.seek s.table s.bound s.window.tokens s.window.index count =
      some (s.window.tokens, s.window.index) := by
  obtain ⟨n, hn⟩ := Nat.exists_eq_add_one.mpr hbound
  rw [hn, Window.seek, if_neg (Nat.not_lt.mpr h), Window.visit_of_size_le _ h]

theorem tokenAt_of_atEnd (h : s.window.AtEnd) :
    Window.tokenAt s.window.tokens s.window.index = Window.endToken s.window.tokens := by
  rw [Window.tokenAt, Array.getElem?_eq_none h]
  rfl

/-- Behind the last token the cursor stays where it is. -/
theorem advance_of_atEnd (hraw : s.window.raw = false) (hbound : 0 < s.bound)
    (h : s.window.AtEnd) : advance s = .ok (Window.endToken s.window.tokens) s := by
  have hseek := seek_of_atEnd hbound h 1
  simp only [advance, Window.next, Window.position, hraw, Bool.false_eq_true, if_false,
    Int.toNat_one, hseek, Option.map_some, tokenAt_of_atEnd h]
  rw [← hraw]

theorem peek_of_atEnd (hraw : s.window.raw = false) (hbound : 0 < s.bound)
    (h : s.window.AtEnd) : peek s = .ok (Window.endToken s.window.tokens) s := by
  have hseek := seek_of_atEnd hbound h 0
  simp only [peek, peekAt, Window.get, Window.position, hraw, Bool.false_eq_true, if_false,
    Int.toNat_zero, hseek, Option.map_some, tokenAt_of_atEnd h]
  rw [← hraw]

theorem seesEnd_of_atEnd (hraw : s.window.raw = false) (hbound : 0 < s.bound)
    (h : s.window.AtEnd) : s.SeesEnd (Window.endToken s.window.tokens) where
  seen := peek_of_atEnd hraw hbound h
  cooked := hraw
  eq_endToken := rfl
  comments _ hi hlt := absurd hlt (Nat.not_lt.mpr (Nat.le_trans h hi))

theorem SeesEnd.isEof (h : s.SeesEnd t) : t.isEof = true :=
  h.eq_endToken ▸ Window.isEof_endToken _

theorem SeesEnd.bound_pos (h : s.SeesEnd t) : 0 < s.bound := by
  by_contra hzero
  have hbound : s.bound = 0 := Nat.eq_zero_of_not_pos hzero
  have hpeek := h.seen
  simp [peek, peekAt, Window.get, Window.position, h.cooked, hbound, Window.seek] at hpeek

/-- The comments in front of the end are taken. -/
theorem SeesEnd.takeBefore (h : s.SeesEnd t) :
    ∃ comment i, Comment.takeBefore s = .ok comment (s.atIndex i) ∧
      (s.atIndex i).window.AtEnd := by
  obtain ⟨hstart, hbefore⟩ := Comment.comments_runStart s.window.tokens s.window.index
  obtain ⟨-, hstop⟩ := Comment.comments_runFrom s.window.tokens
    (Comment.runStart s.window.tokens s.window.index)
  refine ⟨_, _, rfl, Nat.le_of_not_lt fun hlt => hstop ?_⟩
  by_cases hindex : s.window.index ≤ Comment.runStart s.window.tokens s.window.index +
      (Comment.runFrom s.window.tokens (Comment.runStart s.window.tokens s.window.index)).length
  · exact h.comments _ hindex hlt
  · exact hbefore _ (Nat.le_add_right _ _) (Nat.lt_of_not_le hindex)

end Reading

end HeaderPeers

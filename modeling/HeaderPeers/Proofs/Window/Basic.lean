import HeaderPeers.Window.Basic
import Mathlib.Data.List.Basic

/-!
# Positions of a window

Preprocessing cuts the tokens at a position and puts others in place of those
from there on. Here the cut is seen as an append of lists.
-/

namespace HeaderPeers

/-! ## The end -/

namespace Token

variable {t : Token} {text : String} {word : Keyword}

theorem isEof_of_is (h : t.is text = true) : t.isEof = false := by
  simp_all [is, isEof]

theorem isEof_of_isWord (h : t.isWord = true) : t.isEof = false := by
  unfold isWord at h
  unfold isEof
  split at h <;> simp_all

theorem isEof_of_isKeyword (h : t.isKeyword word = true) : t.isEof = false := by
  simp_all [isKeyword, isEof]

theorem isEof_of_isKeywordWith {p : Keyword → Bool} (h : t.isKeywordWith p = true) :
    t.isEof = false := by
  unfold isKeywordWith at h
  split at h
  next hkind => simp [isEof, hkind]
  · cases h

/-- The end is nothing else. -/
theorem is_of_isEof (h : t.isEof = true) (text : String) : t.is text = false := by
  cases his : t.is text with
  | false => rfl
  | true => simp [isEof_of_is his] at h

theorem isWord_of_isEof (h : t.isEof = true) : t.isWord = false := by
  cases hword : t.isWord with
  | false => rfl
  | true => simp [isEof_of_isWord hword] at h

theorem isKeyword_of_isEof (h : t.isEof = true) (word : Keyword) : t.isKeyword word = false := by
  cases hword : t.isKeyword word with
  | false => rfl
  | true => simp [isEof_of_isKeyword hword] at h

end Token

namespace Window

theorem isEof_endToken (tokens : Array Token) : (endToken tokens).isEof = true := by
  unfold endToken
  split <;> rfl

theorem tail_eq_drop (tokens : Array Token) (i : Nat) :
    tail tokens i = tokens.toList.drop i := by
  simp [tail, List.take_of_length_le]

theorem toList_replaceTail (tokens : Array Token) (i : Nat) (ts : List Token) :
    (replaceTail tokens i ts).toList = tokens.toList.take i ++ ts := by
  simp [replaceTail]

theorem tail_append (before ts : List Token) :
    tail (before ++ ts).toArray before.length = ts := by
  simp [tail_eq_drop]

theorem replaceTail_append (before ts ts' : List Token) :
    replaceTail (before ++ ts).toArray before.length ts' = (before ++ ts').toArray := by
  apply Array.toList_inj.mp
  simp [toList_replaceTail]

/-- What stands before a position stays when the rest is replaced. -/
theorem size_replaceTail {tokens : Array Token} {i : Nat} (h : i ≤ tokens.size)
    (ts : List Token) : (replaceTail tokens i ts).size = i + ts.length := by
  rw [← Array.length_toList, toList_replaceTail, List.length_append, List.length_take,
    Array.length_toList, Nat.min_eq_left h]

theorem take_replaceTail {tokens : Array Token} {i : Nat} (h : i ≤ tokens.size)
    (ts : List Token) : (replaceTail tokens i ts).toList.take i = tokens.toList.take i := by
  have hlength : (tokens.toList.take i).length = i := by
    rw [List.length_take, Array.length_toList, Nat.min_eq_left h]
  rw [toList_replaceTail]
  exact List.take_left' hlength

theorem tail_replaceTail {tokens : Array Token} {i : Nat} (h : i ≤ tokens.size)
    (ts : List Token) : tail (replaceTail tokens i ts) i = ts := by
  have hlength : (tokens.toList.take i).length = i := by
    rw [List.length_take, Array.length_toList, Nat.min_eq_left h]
  rw [tail_eq_drop, toList_replaceTail]
  exact List.drop_left' hlength

theorem length_tail (tokens : Array Token) (i : Nat) :
    (tail tokens i).length = tokens.size - i := by
  rw [tail_eq_drop, List.length_drop, Array.length_toList]

theorem opensAt_append (before : List Token) (mark word : Token) (ts : List Token) :
    opensAt (before ++ mark :: word :: ts).toArray before.length =
      Conditional.opens [mark, word] := by
  simp [opensAt]

theorem opensAt_eq_opens (tokens : Array Token) (i : Nat) :
    opensAt tokens i = Conditional.opens (tokens.toList.drop i) := by
  by_cases hi : i < tokens.size
  · rw [List.drop_eq_getElem_cons (by simpa using hi)]
    by_cases hnext : i + 1 < tokens.size
    · rw [List.drop_eq_getElem_cons (by simpa using hnext)]
      simp [opensAt, Conditional.opens, hi, hnext]
    · rw [List.drop_of_length_le (by simpa using Nat.le_of_not_lt hnext)]
      simp [opensAt, Conditional.opens, hnext]
  · rw [List.drop_of_length_le (by simpa using Nat.le_of_not_lt hi)]
    simp [opensAt, Conditional.opens, hi]

end Window

end HeaderPeers

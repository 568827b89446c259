import HeaderPeers.Proofs.AliasTarget

/-!
# Shortening dotted names

Inside a class a target name is written without the part that it shares with the class. The two
names are compared one character after the other and the last dot that they share is remembered;
what is left out are whole segments, the longest common start of both names but for the last
segment of the one that is shortened.

- `Dotted.commonStart` — the longest common start of two lists.
- `Scope.commonDots_segment` — the comparison of two segments with dots behind them.
- `Scope.commonDots_join` — the dot that is remembered stands behind the common start.
- `Scope.shorten_segments` — the statement.
-/

namespace HeaderPeers

/-! ## Dotted names -/

namespace Dotted

/-- A part of a dotted name. -/
def IsSegment (s : String) : Prop :=
  s ≠ "" ∧ '.' ∉ s.toList

instance (s : String) : Decidable (IsSegment s) :=
  inferInstanceAs (Decidable (_ ∧ _))

/-- Segments with dots between them. -/
def join (segments : List String) : String :=
  Text.joinWith "." segments

/-- The characters of segments with a dot behind each. -/
def closed (segments : List String) : List Char :=
  segments.flatMap fun s => s.toList ++ ['.']

/-- The longest common start of two lists. -/
def commonStart : List String → List String → List String
  | x :: xs, y :: ys => if x = y then x :: commonStart xs ys else []
  | _, _ => []

/-- A common start of two lists that all others are part of. -/
structure IsLongestStart (xs ys start : List String) : Prop where
  left : start <+: xs
  right : start <+: ys
  longest : ∀ other, other <+: xs → other <+: ys → other <+: start

variable {xs ys : List String}

theorem isLongestStart_commonStart (xs ys : List String) :
    IsLongestStart xs ys (commonStart xs ys) := by
  induction xs generalizing ys with
  | nil => exact ⟨List.nil_prefix, List.nil_prefix, fun _ hleft _ => hleft⟩
  | cons x xs ih =>
      cases ys with
      | nil => exact ⟨List.nil_prefix, List.nil_prefix, fun _ _ hright => hright⟩
      | cons y ys =>
          rw [commonStart]
          by_cases hxy : x = y
          · subst hxy
            rw [if_pos rfl]
            obtain ⟨hleft, hright, hlongest⟩ := ih ys
            refine ⟨(List.prefix_cons_inj x).mpr hleft, (List.prefix_cons_inj x).mpr hright,
              fun other hxs hys => ?_⟩
            rcases List.prefix_cons_iff.mp hxs with rfl | ⟨rest, rfl, hrest⟩
            · exact List.nil_prefix
            · exact (List.prefix_cons_inj x).mpr
                (hlongest rest hrest ((List.prefix_cons_inj x).mp hys))
          · rw [if_neg hxy]
            refine ⟨List.nil_prefix, List.nil_prefix, fun other hxs hys => ?_⟩
            rcases List.prefix_cons_iff.mp hxs with rfl | ⟨rest, rfl, -⟩
            · exact List.nil_prefix
            · exact absurd (List.cons_prefix_cons.mp hys).1 hxy

/-- A start without the last segment leaves some of them. -/
theorem exists_kept {start : List String} (h : start <+: xs.dropLast) (hne : xs ≠ []) :
    ∃ kept, kept ≠ [] ∧ xs = start ++ kept := by
  obtain ⟨rest, hrest⟩ := h
  refine ⟨rest ++ [xs.getLast hne], by simp, ?_⟩
  rw [← List.append_assoc, hrest, List.dropLast_append_getLast hne]

/-! ## Characters -/

@[simp] theorem closed_nil : closed [] = [] := rfl

@[simp] theorem closed_cons (s : String) (segments : List String) :
    closed (s :: segments) = s.toList ++ '.' :: closed segments := by
  simp [closed]

theorem toList_join_cons {s : String} {segments : List String} (h : segments ≠ []) :
    (join (s :: segments)).toList = s.toList ++ '.' :: (join segments).toList := by
  obtain ⟨t, segments, rfl⟩ := List.exists_cons_of_ne_nil h
  simp [join, Text.joinWith, String.intercalate_cons_cons]

/-- A dot behind a dotted name closes its last segment. -/
theorem toList_join_dot {segments : List String} (h : segments ≠ []) :
    (join segments ++ ".").toList = closed segments := by
  induction segments with
  | nil => exact absurd rfl h
  | cons s segments ih =>
      rcases eq_or_ne segments [] with rfl | hne
      · simp [join, Text.joinWith]
      · rw [String.toList_append] at ih ⊢
        rw [toList_join_cons hne, closed_cons, ← ih hne]
        simp

/-- In front of further segments each has a dot behind it. -/
theorem toList_join_append (xs : List String) (h : ys ≠ []) :
    (join (xs ++ ys)).toList = closed xs ++ (join ys).toList := by
  induction xs with
  | nil => rfl
  | cons x xs ih =>
      have hne : xs ++ ys ≠ [] := List.append_ne_nil_of_right_ne_nil xs h
      rw [List.cons_append, toList_join_cons hne, ih, closed_cons, List.append_assoc,
        List.cons_append]

theorem two_le_length_closed (hne : xs ≠ []) (h : ∀ x ∈ xs, IsSegment x) :
    2 ≤ (closed xs).length := by
  obtain ⟨x, xs, rfl⟩ := List.exists_cons_of_ne_nil hne
  have hx : 0 < x.toList.length := List.length_pos_iff.mpr
    (by simpa using (h x List.mem_cons_self).1)
  rw [closed_cons, List.length_append, List.length_cons]
  omega

end Dotted

namespace Scope

open Dotted

/-! ## Comparing names -/

/-- **Two segments** with dots behind them are compared to the end only if they are the same; then
the dot behind them is shared, and the comparison goes on. By induction on the first one: a segment
that is the start of another one meets its dot too early. -/
theorem commonDots_segment {n g : List Char} (hn : '.' ∉ n) (hg : '.' ∉ g) (i : Nat)
    (cs ds : List Char) :
    commonDots i (n ++ '.' :: cs) (g ++ '.' :: ds) =
      if n = g then max (i + n.length) (commonDots (i + n.length + 1) cs ds) else 0 := by
  induction n generalizing g i with
  | nil =>
      cases g with
      | nil => simp [commonDots]
      | cons d g =>
          have hd : '.' ≠ d := (List.ne_and_not_mem_of_not_mem_cons hg).1
          simp [commonDots, hd]
  | cons c n ih =>
      obtain ⟨hc, hn⟩ := List.ne_and_not_mem_of_not_mem_cons hn
      cases g with
      | nil => simp [commonDots, Ne.symm hc]
      | cons d g =>
          have hrest := ih hn (List.ne_and_not_mem_of_not_mem_cons hg).2 (i + 1)
          by_cases hcd : c = d
          · subst hcd
            have hdot : (c == '.') = false := beq_eq_false_iff_ne.mpr (Ne.symm hc)
            rw [List.cons_append, List.cons_append, commonDots]
            simp only [bne_self_eq_false, Bool.false_eq_true, if_false, hdot, hrest,
              List.cons.injEq, true_and, List.length_cons]
            rw [Nat.add_right_comm i 1, Nat.add_assoc i]
          · simp [commonDots, hcd]

/-- **The dot that is remembered** is the last one of the common start, by induction on the
segments of the name. The last segment has no dot behind it and is never part of the start. -/
theorem commonDots_join {ns gs : List String} (hns : ∀ n ∈ ns, IsSegment n)
    (hgs : ∀ g ∈ gs, IsSegment g) (i : Nat) :
    commonDots i (join ns).toList (closed gs) =
      if commonStart gs ns.dropLast = [] then 0
      else i + (closed (commonStart gs ns.dropLast)).length - 1 := by
  induction ns generalizing gs i with
  | nil => cases gs <;> simp [join, Text.joinWith, commonDots, commonStart]
  | cons n ns ih =>
      obtain ⟨hn, hns⟩ := List.forall_mem_cons.mp hns
      rcases eq_or_ne ns [] with rfl | hne
      · have hundotted : '.' ∉ (join [n]).toList := by simpa [join, Text.joinWith] using hn.2
        rw [commonDots_eq_zero i hundotted]
        cases gs <;> simp [commonStart]
      · rw [toList_join_cons hne, List.dropLast_cons_of_ne_nil hne]
        cases gs with
        | nil =>
            obtain ⟨c, cs, hcs⟩ := List.exists_cons_of_ne_nil
              (show n.toList ++ '.' :: (join ns).toList ≠ [] by simp)
            simp [hcs, commonDots, commonStart]
        | cons g gs =>
            obtain ⟨hg, hgs⟩ := List.forall_mem_cons.mp hgs
            rw [closed_cons, commonDots_segment hn.2 hg.2, ih hns hgs, commonStart]
            by_cases hsame : n = g
            · subst hsame
              rw [if_pos rfl, if_pos rfl]
              by_cases hmore : commonStart gs ns.dropLast = []
              · simp [hmore]
              · have hlength : 0 < (closed (commonStart gs ns.dropLast)).length := by
                  obtain ⟨s, start, hstart⟩ := List.exists_cons_of_ne_nil hmore
                  simp [hstart]
                simp only [hmore, reduceIte, List.cons_ne_nil, closed_cons, List.length_append,
                  List.length_cons]
                omega
            · have hchars : n.toList ≠ g.toList := fun h => hsame (String.toList_injective h)
              rw [if_neg hchars, if_neg (Ne.symm hsame)]
              rfl

/-- A class without a name shares nothing. -/
theorem commonDots_dot (cs : List Char) : commonDots 0 cs ['.'] = 0 := by
  cases cs with
  | nil => rfl
  | cons c cs =>
      rw [commonDots]
      split
      · rfl
      · split <;> simp [commonDots]

/-- **Shortening goes by segments.** In a class, a name loses the segments that it shares with the
name of the class at its start, as many as there are, but never its last one. -/
theorem shorten_segments {scope : Scope} {group : NativeType} {gs ns : List String}
    (hgroup : scope.group = some group) (htarget : group.targetName = join gs)
    (hgs : ∀ g ∈ gs, IsSegment g) (hns : ∀ n ∈ ns, IsSegment n) :
    let shared := commonStart gs ns.dropLast
    IsLongestStart gs ns.dropLast shared ∧
      scope.shorten (join ns) = join (ns.drop shared.length) ∧
      (ns.drop shared.length).getLast? = ns.getLast? := by
  intro shared
  have hlongest : IsLongestStart gs ns.dropLast shared := isLongestStart_commonStart gs ns.dropLast
  have hdots : commonDots 0 (join ns).toList (group.targetName ++ ".").toList =
      if shared = [] then 0 else (closed shared).length - 1 := by
    rcases eq_or_ne gs [] with rfl | hne
    · have hempty : shared = [] := List.prefix_nil.mp hlongest.left
      rw [htarget, if_pos hempty]
      exact commonDots_dot _
    · rw [htarget, toList_join_dot hne, commonDots_join hns hgs, Nat.zero_add]
  have hshorten : scope.shorten (join ns) =
      if shared = [] then join ns
      else String.ofList ((join ns).toList.drop (closed shared).length) := by
    unfold shorten
    rw [hgroup]
    dsimp only
    rw [hdots]
    by_cases hempty : shared = []
    · rw [if_pos hempty, if_pos hempty, if_neg (Nat.lt_irrefl 0)]
    · have hlength := two_le_length_closed hempty fun s hs => hgs s (hlongest.left.subset hs)
      rw [if_neg hempty, if_neg hempty, if_pos (by omega)]
      congr 2
      omega
  refine ⟨hlongest, ?_⟩
  by_cases hempty : shared = []
  · rw [hshorten, if_pos hempty, hempty]
    exact ⟨rfl, rfl⟩
  · have hne : ns ≠ [] := by
      rintro rfl
      exact hempty (List.prefix_nil.mp hlongest.right)
    obtain ⟨kept, hkept, hns⟩ := exists_kept hlongest.right hne
    rw [hshorten, if_neg hempty]
    generalize shared = start at hns
    subst hns
    rw [toList_join_append start hkept, List.drop_left, List.drop_left, String.ofList_toList,
      List.getLast?_append_of_ne_nil start hkept]
    exact ⟨rfl, rfl⟩

/-- A class inside another one, with letters of more than one byte. -/
def sampleClass : NativeType :=
  { nativeName := "Größe::Maß", targetName := "Größe.Maß" }

def insideSample : Scope :=
  { group := some sampleClass }

/-- The name of the inner class is the start of a longer segment, which stays whole. -/
theorem shorten_segments_sample :
    insideSample.group = some sampleClass ∧
      sampleClass.targetName = Dotted.join ["Größe", "Maß"] ∧
      (∀ g ∈ ["Größe", "Maß"], Dotted.IsSegment g) ∧
      (∀ n ∈ ["Größe", "Maßband", "Maß"], Dotted.IsSegment n) ∧
      insideSample.shorten "Größe.Maßband.Maß" = "Maßband.Maß" := by
  have htarget : sampleClass.targetName = Dotted.join ["Größe", "Maß"] := by decide +kernel
  have hgs : ∀ g ∈ ["Größe", "Maß"], Dotted.IsSegment g := by decide
  have hns : ∀ n ∈ ["Größe", "Maßband", "Maß"], Dotted.IsSegment n := by decide
  exact ⟨rfl, htarget, hgs, hns, (shorten_segments rfl htarget hgs hns).2.1⟩

/-- The last segment stays even where the class has it too. -/
example : insideSample.shorten "Größe.Maß" = "Maß" := by decide +kernel

end Scope

end HeaderPeers

import HeaderPeers.Comment
import HeaderPeers.Proofs.NameKeys
import HeaderPeers.Proofs.TextParts
import HeaderPeers.Proofs.TokenTexts

/-!
# Comments that move

What is printed of a run of comments is put together one comment after another: as it was, as a
block of its own, or as a line of a block that a comment behind it closes. The text so far stands
outside of all comments, in a line comment or in an open block, and the flag of the collector tells
whether a block is to be closed. The text holds comments only as long as nothing that goes into a
block closes it early, each line comment keeps its line break, and a line of documentation opens a
block wherever none is open. The marks that decide this are looked for in the text so far, where
the inside of a comment may hold them as well.

- `Token.Remarks` — a text that is read as comments only.
- `Comment.Sound` — where the text so far stands, kept by each comment (`Sound.push`).
- `Comment.comments_stay` — what is printed of a run is read as comments only.
- `Comment.banner_hides_opening` — a line comment with `/*` keeps a block from being opened.
-/

namespace HeaderPeers

/-! ## Comments as they are read -/

namespace Comment

/-- What closes a block stands at the end of the text at most. -/
def Contained (cs : List Char) : Prop :=
  ¬ ['*', '/'] <:+: cs.dropLast

instance (cs : List Char) : Decidable (Contained cs) :=
  inferInstanceAs (Decidable (¬ _))

/-- Each line feed stands behind a backslash, and no backslash at the end; `last` is the character
before the text. -/
def Unbroken (last : Char) : List Char → Prop
  | [] => last ≠ '\\'
  | c :: cs => (c = '\n' → last = '\\') ∧ Unbroken c cs

instance decidableUnbroken (last : Char) : (cs : List Char) → Decidable (Unbroken last cs)
  | [] => inferInstanceAs (Decidable (last ≠ '\\'))
  | c :: cs =>
    have := decidableUnbroken c cs
    inferInstanceAs (Decidable (_ ∧ _))

/-- A line comment that may end with its line. -/
def IsLine (cs : List Char) : Prop :=
  ['/', '/'] <+: cs ∧ Unbroken '/' (cs.drop 2)

/-- A block comment with its end. -/
def IsBlock (cs : List Char) : Prop :=
  ['/', '*'] <+: cs ∧ ['*', '/'] <:+ cs.drop 2 ∧ Contained (cs.drop 2)

instance (cs : List Char) : Decidable (IsLine cs) :=
  inferInstanceAs (Decidable (_ ∧ _))

instance (cs : List Char) : Decidable (IsBlock cs) :=
  inferInstanceAs (Decidable (_ ∧ _))

theorem exists_of_isLine {cs : List Char} (h : IsLine cs) :
    ∃ body, cs = '/' :: '/' :: body ∧ Unbroken '/' body := by
  obtain ⟨⟨body, rfl⟩, hbody⟩ := h
  exact ⟨body, rfl, hbody⟩

theorem exists_of_isBlock {cs : List Char} (h : IsBlock cs) :
    ∃ inside, cs = '/' :: '*' :: inside ∧ ['*', '/'] <:+ inside ∧ Contained inside := by
  obtain ⟨⟨inside, rfl⟩, hinside⟩ := h
  exact ⟨inside, rfl, hinside⟩

end Comment

namespace Lexeme

open Comment

variable {last : Char} {cs : List Char}

/-- A line comment goes up to the line feed. -/
theorem lineTail_unbroken (h : Unbroken last cs) {rest : List Char}
    (hrest : rest = [] ∨ rest.head? = some '\n') : lineTail last (cs ++ rest) = (cs, rest) := by
  induction cs generalizing last with
  | nil =>
      cases rest with
      | nil => rfl
      | cons c rest =>
          obtain rfl : c = '\n' := by simpa using hrest
          have hlast : last ≠ '\\' := h
          simp [lineTail, hlast]
  | cons c cs ih =>
      have hgo : ¬ (c == '\n' && last != '\\') = true := by
        simpa using h.1
      rw [List.cons_append, lineTail, if_neg hgo, ih h.2]

/-- A block comment goes up to the first mark that closes it. -/
theorem blockTail_contained (hend : ['*', '/'] <:+ last :: cs) (h : Contained (last :: cs))
    (rest : List Char) : blockTail last (cs ++ rest) = (cs, rest) := by
  induction cs generalizing last with
  | nil => exact absurd hend.length_le (by simp)
  | cons c cs ih =>
      rw [List.cons_append, blockTail]
      by_cases hclose : (last == '*' && c == '/') = true
      · obtain ⟨rfl, rfl⟩ : last = '*' ∧ c = '/' := by simpa using hclose
        cases cs with
        | nil => rfl
        | cons d cs => exact absurd (List.prefix_append ['*', '/'] _).isInfix h
      · rw [if_neg hclose]
        cases cs with
        | nil =>
            obtain ⟨rfl, rfl⟩ : '*' = last ∧ '/' = c := by
              simpa using hend.eq_of_length rfl
            exact absurd rfl hclose
        | cons d cs =>
            have htail : ['*', '/'] <:+ c :: d :: cs :=
              (List.suffix_cons_iff.mp hend).resolve_left fun heq => by simp at heq
            rw [ih htail fun hmark => h (List.infix_cons hmark)]

end Lexeme

namespace Token

open Comment

variable {cs ds : List Char}

/-- Only comments are read from the text. -/
def Remarks (cs : List Char) : Prop :=
  ∀ t ∈ scan .fixed none 0 cs, t.isComment = true

theorem remarks_nil : Remarks [] := by
  rw [Remarks, scan_nil]
  exact List.forall_mem_nil _

theorem Remarks.of_read {c : Char} (hc : Text.isBlank c = false)
    (hkind : (Lexeme.read c cs).kind = .comment) (h : Remarks (Lexeme.read c cs).rest) :
    Remarks (c :: cs) := by
  have hscan := scan_of_blanks (List.forall_mem_nil _) hc cs
  rw [List.nil_append] at hscan
  rw [Remarks, hscan]
  exact List.forall_mem_cons.mpr ⟨beq_iff_eq.mpr hkind, h⟩

/-- White space at the end of a text is a comment. -/
theorem remarks_of_blanks (h : ∀ c ∈ cs, Text.isBlank c = true) : Remarks cs := by
  have hdrop : cs.dropWhile Text.isBlank = [] := List.dropWhile_eq_nil_iff.mpr h
  rw [Remarks, scan]
  split
  next =>
    split
    · exact List.forall_mem_nil _
    · intro t ht
      rw [List.mem_singleton.mp ht]
      rfl
  next c rest hrest => rw [hdrop] at hrest; cases hrest

theorem Remarks.behind_blanks (h : Remarks cs) (hds : ∀ c ∈ ds, Text.isBlank c = true) :
    Remarks (ds ++ cs) := by
  rcases blank_or_lexeme cs with hblank | ⟨blanks, c, rest, rfl, hblanks, hc⟩
  · exact remarks_of_blanks fun c hmem => (List.mem_append.mp hmem).elim (hds c) (hblank c)
  · have hmore : ∀ x ∈ ds ++ blanks, Text.isBlank x = true := fun x hx =>
      (List.mem_append.mp hx).elim (hds x) (hblanks x)
    rw [Remarks, scan_of_blanks hblanks hc] at h
    rw [← List.append_assoc, Remarks, scan_of_blanks hmore hc]
    obtain ⟨hfirst, hrest⟩ := List.forall_mem_cons.mp h
    exact List.forall_mem_cons.mpr ⟨hfirst, hrest⟩

theorem remarks_line (h : IsLine cs) (hds : ds = [] ∨ ds.head? = some '\n') (hmore : Remarks ds) :
    Remarks (cs ++ ds) := by
  obtain ⟨body, rfl, hbody⟩ := exists_of_isLine h
  have htail : Lexeme.lineTail '/' ('/' :: (body ++ ds)) = ('/' :: body, ds) := by
    have hcons : Unbroken '/' ('/' :: body) := ⟨fun heq => absurd heq (by decide), hbody⟩
    exact Lexeme.lineTail_unbroken hcons hds
  have hread : Lexeme.read '/' ('/' :: (body ++ ds)) =
      .verbatim .comment ('/' :: '/' :: body) ds := by
    change Lexeme.verbatim .comment ('/' :: (Lexeme.lineTail '/' ('/' :: (body ++ ds))).1)
      (Lexeme.lineTail '/' ('/' :: (body ++ ds))).2 = _
    rw [htail]
  refine Remarks.of_read (by decide) (congrArg Lexeme.kind hread) ?_
  change Remarks (Lexeme.read '/' ('/' :: (body ++ ds))).rest
  rw [hread]
  exact hmore

theorem remarks_block (h : IsBlock cs) (hmore : Remarks ds) : Remarks (cs ++ ds) := by
  obtain ⟨inside, rfl, hend, hinside⟩ := exists_of_isBlock h
  have htail : Lexeme.blockTail '\x00' (inside ++ ds) = (inside, ds) := by
    refine Lexeme.blockTail_contained (hend.trans (List.suffix_cons _ _)) ?_ ds
    cases inside with
    | nil => exact absurd hend.length_le (by simp)
    | cons c inside =>
        rintro hmark
        rcases List.infix_cons_iff.mp hmark with hstart | hmark
        · exact absurd (List.cons_prefix_cons.mp hstart).1 (by decide)
        · exact hinside hmark
  have hread : Lexeme.read '/' ('*' :: (inside ++ ds)) =
      .verbatim .comment ('/' :: '*' :: inside) ds := by
    change Lexeme.verbatim .comment ('/' :: '*' :: (Lexeme.blockTail '\x00' (inside ++ ds)).1)
      (Lexeme.blockTail '\x00' (inside ++ ds)).2 = _
    rw [htail]
  refine Remarks.of_read (by decide) (congrArg Lexeme.kind hread) ?_
  change Remarks (Lexeme.read '/' ('*' :: (inside ++ ds))).rest
  rw [hread]
  exact hmore

/-- The kinds of tokens do not depend on where the text stands. -/
theorem kinds_scan (numbering numbering' : Numbering) (file file' : Option String)
    (line line' : Nat) (cs : List Char) :
    (scan numbering file line cs).map (·.kind) = (scan numbering' file' line' cs).map (·.kind) := by
  fun_induction scan numbering file line cs generalizing line' with
  | case1 line cs spacing hdrop hempty =>
      rw [scan]
      split
      next => rw [if_pos hempty]
      next hdrop' => rw [hdrop] at hdrop'; cases hdrop'
  | case2 line cs spacing line₁ hdrop hempty =>
      rw [scan]
      split
      next => rw [if_neg hempty]; rfl
      next hdrop' => rw [hdrop] at hdrop'; cases hdrop'
  | case3 line cs spacing line₁ c rest hdrop lexeme ih =>
      rw [scan.eq_def numbering' file' line']
      dsimp only
      split
      next hdrop' => rw [hdrop] at hdrop'; cases hdrop'
      next hdrop' =>
        rw [hdrop] at hdrop'
        obtain ⟨rfl, rfl⟩ := List.cons.inj hdrop'
        exact congrArg (lexeme.kind :: ·) (ih _)

theorem Remarks.ofText (h : Remarks cs) (hreturn : '\r' ∉ cs) (file : Option String) :
    ∀ t ∈ Token.ofText file (String.ofList cs), t.isComment = true := by
  intro t ht
  rw [Token.ofText, String.toList_ofList, Text.unifyBreaks_of_not_mem hreturn] at ht
  have hkind := List.mem_map_of_mem (f := (·.kind)) ht
  rw [kinds_scan .counted .fixed file none 1 0] at hkind
  obtain ⟨u, hu, hsame⟩ := List.mem_map.mp hkind
  have hcomment := h u hu
  rwa [isComment, hsame] at hcomment

end Token

namespace Comment

open Token

variable {cs ds front inside x : List Char}

/-! ## Where a text of comments ends -/

/-- Behind the text, a text of comments is read as on its own. -/
def Settled (cs : List Char) : Prop :=
  ∀ ds, Remarks ds → Remarks (cs ++ ds)

theorem Settled.append (h : Settled cs) (h' : Settled ds) : Settled (cs ++ ds) := by
  intro rest hrest
  rw [List.append_assoc]
  exact h _ (h' rest hrest)

theorem Settled.remarks (h : Settled cs) : Remarks cs := by
  simpa using h [] remarks_nil

theorem settled_blanks (h : ∀ c ∈ cs, Text.isBlank c = true) : Settled cs :=
  fun _ hds => hds.behind_blanks h

theorem settled_block (h : IsBlock cs) : Settled cs :=
  fun _ hds => remarks_block h hds

theorem unbroken_of_forall {last : Char} (hlast : last ≠ '\\')
    (h : ∀ c ∈ cs, c ≠ '\n' ∧ c ≠ '\\') : Unbroken last cs := by
  induction cs generalizing last with
  | nil => exact hlast
  | cons c cs ih =>
      obtain ⟨hc, hcs⟩ := List.forall_mem_cons.mp h
      exact ⟨fun heq => absurd heq hc.1, ih hc.2 hcs⟩

theorem Unbroken.append {last : Char} (h : Unbroken last cs)
    (hds : ∀ c ∈ ds, c ≠ '\n' ∧ c ≠ '\\') : Unbroken last (cs ++ ds) := by
  induction cs generalizing last with
  | nil => exact unbroken_of_forall h hds
  | cons c cs ih => exact ⟨h.1, ih h.2⟩

theorem IsLine.append (h : IsLine cs) (hds : ∀ c ∈ ds, c ≠ '\n' ∧ c ≠ '\\') :
    IsLine (cs ++ ds) := by
  obtain ⟨body, rfl, hbody⟩ := exists_of_isLine h
  exact ⟨List.prefix_append ['/', '/'] _, hbody.append hds⟩

/-- A line comment is settled by its line break. -/
theorem settled_line (h : IsLine cs) (hblank : ∀ c ∈ ds, Text.isBlank c = true)
    (hbreak : '\n' ∈ ds) : Settled (cs ++ ds) := by
  obtain ⟨before, after, rfl, hbefore⟩ := List.eq_append_cons_of_mem hbreak
  have hblank' : ∀ c ∈ '\n' :: after, Text.isBlank c = true := fun c hc =>
    hblank c (List.mem_append_right _ hc)
  have hline : IsLine (cs ++ before) := h.append fun c hc =>
    ⟨fun heq => hbefore (heq ▸ hc), fun heq => absurd (hblank c (List.mem_append_left _ hc))
      (by rw [heq]; decide)⟩
  intro rest hrest
  have hmore : Remarks ('\n' :: after ++ rest) := hrest.behind_blanks hblank'
  rw [← List.append_assoc, List.append_assoc]
  exact remarks_line hline (.inr rfl) hmore

/-- The text ends in a block comment that nothing has closed. -/
def IsOpen (cs : List Char) : Prop :=
  ∃ front inside, cs = front ++ '/' :: '*' :: inside ∧ Settled front ∧
    ¬ ['*', '/'] <:+: inside

/-- What closes a block lies in one of two texts, or half of it in each. -/
theorem infix_mark_append (h : ['*', '/'] <:+: cs ++ ds) :
    ['*', '/'] <:+: cs ∨ ['*', '/'] <:+: ds ∨ cs.getLast? = some '*' ∧ ds.head? = some '/' := by
  induction cs with
  | nil => exact .inr (.inl h)
  | cons c cs ih =>
      rcases List.infix_cons_iff.mp h with hstart | hrest
      · obtain ⟨hc, hstart⟩ := List.cons_prefix_cons.mp hstart
        cases cs with
        | nil =>
            obtain ⟨rest, hrest⟩ := hstart
            exact .inr (.inr ⟨congrArg some hc.symm, (congrArg List.head? hrest).symm⟩)
        | cons d cs =>
            have hd := (List.cons_prefix_cons.mp hstart).1
            exact .inl (hc ▸ hd ▸ (List.prefix_append ['*', '/'] cs).isInfix)
      · rcases ih hrest with hfront | hback | ⟨hlast, hhead⟩
        · exact .inl (List.infix_cons hfront)
        · exact .inr (.inl hback)
        · refine .inr (.inr ⟨?_, hhead⟩)
          rw [List.getLast?_cons, hlast]
          rfl

/-- Two texts are apart if what closes a block cannot stand on their border. -/
def Apart (cs ds : List Char) : Prop :=
  cs.getLast? = some '*' → ds.head? ≠ some '/'

theorem not_infix_inside (h : ¬ ['*', '/'] <:+: inside)
    (hapart : Apart (front ++ '/' :: '*' :: inside) x) (hx : ¬ ['*', '/'] <:+: x) :
    ¬ ['*', '/'] <:+: inside ++ x := by
  intro hmark
  rcases infix_mark_append hmark with hmark | hmark | ⟨hlast, hhead⟩
  · exact h hmark
  · exact hx hmark
  · refine hapart ?_ hhead
    rw [List.getLast?_append, List.getLast?_cons_cons, List.getLast?_cons, hlast]
    rfl

theorem IsOpen.append (h : IsOpen front) (hapart : Apart front x) (hx : ¬ ['*', '/'] <:+: x) :
    IsOpen (front ++ x) := by
  obtain ⟨cs, inside, rfl, hcs, hinside⟩ := h
  exact ⟨cs, inside ++ x, by simp, hcs, not_infix_inside hinside hapart hx⟩

theorem IsOpen.blanks (h : IsOpen cs) (hblank : ∀ d ∈ ds, Text.isBlank d = true) :
    IsOpen (cs ++ ds) := by
  refine h.append (fun _ hhead => ?_) fun hmark => ?_
  · exact absurd (hblank '/' (List.mem_of_head? hhead)) (by decide)
  · exact absurd (hblank '/' (hmark.subset (by simp))) (by decide)

theorem not_infix_of_contained (h : Contained x) (hend : ¬ ['*', '/'] <:+ x) :
    ¬ ['*', '/'] <:+: x := by
  intro hmark
  rcases List.eq_nil_or_concat x with rfl | ⟨front, c, rfl⟩
  · exact absurd hmark.length_le (by simp)
  · rw [List.concat_eq_append] at *
    rcases List.infix_concat_iff.mp hmark with hsuffix | hfront
    · exact hend hsuffix
    · exact h (by rwa [List.dropLast_concat])

theorem contained_of_suffix (h : Contained ds) (hsuffix : cs <:+ ds) : Contained cs := by
  obtain ⟨front, rfl⟩ := hsuffix
  cases cs with
  | nil => decide
  | cons c cs =>
      rw [Contained, List.dropLast_append_of_ne_nil (List.cons_ne_nil c cs)] at h
      exact fun hmark => h (hmark.trans (List.suffix_append front _).isInfix)

theorem isBlock_opening (h : Contained ('/' :: '*' :: '*' :: x))
    (hend : ['*', '/'] <:+ '/' :: '*' :: '*' :: x) : IsBlock ('/' :: '*' :: '*' :: x) := by
  have hsuffix : '*' :: x <:+ '/' :: '*' :: '*' :: x := List.suffix_append ['/', '*'] _
  refine ⟨List.prefix_append ['/', '*'] _, ?_, contained_of_suffix h hsuffix⟩
  cases x with
  | nil => exact absurd hend (by decide)
  | cons c x => exact List.suffix_of_suffix_length_le hend hsuffix (by simp)

/-- A text that goes into a block: one that is open, or one it opens itself. -/
def Enters (front x : List Char) : Prop :=
  Settled front ∧ ['/', '*', '*'] <+: x ∨ IsOpen front ∧ Apart front x

theorem apart_dropLast (h : Apart cs x) : Apart cs x.dropLast := by
  intro hlast hhead
  refine h hlast ?_
  obtain ⟨rest, hrest⟩ := List.head?_eq_some_iff.mp hhead
  obtain ⟨last, hlast⟩ := List.dropLast_prefix x
  rw [← hlast, hrest]
  rfl

/-- What closes the block at its end leaves all comments. -/
theorem Enters.settled (h : Enters front x) (hx : Contained x) (hend : ['*', '/'] <:+ x) :
    Settled (front ++ x) := by
  rcases h with ⟨hfront, rest, rfl⟩ | ⟨⟨cs, inside, rfl, hcs, hinside⟩, hapart⟩
  · exact hfront.append (settled_block (isBlock_opening hx hend))
  · have hne : x ≠ [] := fun heq => absurd (heq ▸ hend).length_le (by simp)
    have hblock : IsBlock ('/' :: '*' :: (inside ++ x)) := by
      refine ⟨List.prefix_append ['/', '*'] _, hend.trans (List.suffix_append inside x), ?_⟩
      change ¬ ['*', '/'] <:+: (inside ++ x).dropLast
      rw [List.dropLast_append_of_ne_nil hne]
      exact not_infix_inside hinside (apart_dropLast hapart) hx
    simpa using hcs.append (settled_block hblock)

/-- What does not close the block stays in it. -/
theorem Enters.isOpen (h : Enters front x) (hx : Contained x) (hend : ¬ ['*', '/'] <:+ x) :
    IsOpen (front ++ x) := by
  have hnone := not_infix_of_contained hx hend
  rcases h with ⟨hfront, rest, rfl⟩ | ⟨hopen, hapart⟩
  · refine ⟨front, '*' :: rest, rfl, hfront, fun hmark => hnone (hmark.trans ?_)⟩
    exact (List.suffix_append ['/', '*'] _).isInfix
  · exact hopen.append hapart hnone

theorem IsOpen.closed (h : IsOpen cs) : Settled (cs ++ " */".toList) := by
  have hopen : IsOpen (cs ++ [' ']) := h.blanks (by simp [Text.isBlank])
  have hapart : Apart (cs ++ [' ']) ['*', '/'] := fun hlast => by simp at hlast
  have hclosed : Enters (cs ++ [' ']) ['*', '/'] := .inr ⟨hopen, hapart⟩
  simpa using hclosed.settled (by decide) List.suffix_rfl

/-! ## What one comment adds -/

/-- Whether a comment of a run is left out because it belongs to what stands before it. -/
def pointsBehind (t : Token) : Bool :=
  isDoc t.text && pointsBack t.text

/-- Whether a line of documentation is made part of a block. -/
def isBlockLine (text : String) : Bool :=
  Text.startsWith "/// " text || Text.startsWith "//!" text

/-- What is printed of documentation. -/
def docText (c : Collected) (t : Token) : String :=
  if isBlockLine t.text then blockLine c.text t.text
  else if Text.startsWith "///" t.text then t.text
  else "/**" ++ behind 3 t.text

variable {c : Collected} {t : Token}

theorem push_behind (h : pointsBehind t = true) : c.push t = c := by
  obtain ⟨hdoc, hback⟩ := Bool.and_eq_true_iff.mp h
  rw [Collected.push, if_pos hdoc, if_pos hback]

theorem push_doc (hdoc : isDoc t.text = true) (hback : pointsBack t.text = false) :
    c.push t = { text := c.text ++ t.spacing ++ docText c t
                 openBlock := c.openBlock || isBlockLine t.text } := by
  rw [Collected.push, if_pos hdoc, hback, if_neg Bool.false_ne_true, docText]
  change (if isBlockLine t.text = true then _ else _) = _
  by_cases hline : isBlockLine t.text = true
  · rw [if_pos hline, if_pos hline, hline, Bool.or_true]
  · rw [if_neg hline, if_neg hline, Bool.eq_false_iff.mpr hline, Bool.or_false]
    by_cases hplain : Text.startsWith "///" t.text = true
    · rw [if_pos hplain, if_pos hplain, Token.spaced, String.append_assoc]
    · rw [if_neg hplain, if_neg hplain, String.append_assoc, String.append_assoc]

theorem push_other (h : isDoc t.text = false) :
    c.push t = { c.closed with text := c.closed.text ++ t.spaced } := by
  rw [Collected.push, h, if_neg Bool.false_ne_true]

theorem toList_behind (n : Nat) (text : String) :
    (behind n text).toList = text.toList.drop n :=
  String.toList_ofList

theorem toList_opening (text : String) :
    ("/**" ++ behind 3 text).toList = '/' :: '*' :: '*' :: text.toList.drop 3 := by
  rw [String.toList_append, toList_behind]
  rfl

/-- Documentation that starts a line comment. -/
theorem startsWith_of_isLine (hline : IsLine t.text.toList) (hdoc : isDoc t.text = true)
    (hplain : isBlockLine t.text = false) : Text.startsWith "///" t.text = true := by
  obtain ⟨body, htext, -⟩ := exists_of_isLine hline
  obtain ⟨start, hstart, hprefix⟩ := List.any_eq_true.mp hdoc
  simp only [List.mem_cons, List.not_mem_nil, or_false] at hstart
  rcases hstart with rfl | rfl | rfl | rfl
  · simp [Text.startsWith, htext] at hprefix
  · simp [Text.startsWith, htext] at hprefix
  · exact hprefix
  · rw [isBlockLine, hprefix, Bool.or_true] at hplain
    cases hplain

theorem startsWith_of_isBlock (hblock : IsBlock t.text.toList) {mark : String}
    (hmark : ['/', '/'] <+: mark.toList) : Text.startsWith mark t.text = false := by
  obtain ⟨inside, htext, -⟩ := exists_of_isBlock hblock
  refine Bool.eq_false_iff.mpr fun h => ?_
  have hprefix := hmark.trans (Text.startsWith_iff.mp h)
  rw [htext] at hprefix
  exact absurd (List.cons_prefix_cons.mp (List.cons_prefix_cons.mp hprefix).2).1 (by decide)

theorem docText_of_isBlock (hblock : IsBlock t.text.toList) :
    docText c t = "/**" ++ behind 3 t.text := by
  rw [docText, isBlockLine, startsWith_of_isBlock hblock (by decide),
    startsWith_of_isBlock hblock (by decide), startsWith_of_isBlock hblock (by decide)]
  rfl

theorem closes_of_isBlock (hblock : IsBlock cs) :
    ['*', '/'] <:+ '/' :: '*' :: '*' :: cs.drop 3 := by
  obtain ⟨inside, rfl, hend, -⟩ := exists_of_isBlock hblock
  cases inside with
  | nil => exact absurd hend.length_le (by simp)
  | cons d inside =>
      rcases List.suffix_cons_iff.mp hend with hwhole | hbehind
      · obtain ⟨-, rfl⟩ := List.cons.inj hwhole
        exact List.suffix_append ['/', '*'] _
      · exact hbehind.trans (List.suffix_append ['/', '*', '*'] _)

/-! ## Where the text so far stands -/

/-- The text ends in a line comment. -/
def InLine (cs : List Char) : Prop :=
  ∃ front line, cs = front ++ line ∧ Settled front ∧ IsLine line

theorem InLine.append (h : InLine cs) (hds : ∀ d ∈ ds, d ≠ '\n' ∧ d ≠ '\\') :
    InLine (cs ++ ds) := by
  obtain ⟨front, line, rfl, hfront, hline⟩ := h
  exact ⟨front, line ++ ds, List.append_assoc _ _ _, hfront, hline.append hds⟩

/-- The text ends outside of all comments or, if `p` holds, in a line comment. -/
def Ends (cs : List Char) (p : Prop) : Prop :=
  Settled cs ∨ p ∧ InLine cs

variable {p : Prop}

theorem Ends.spaced (h : Ends cs p) (hblank : ∀ d ∈ ds, Text.isBlank d = true)
    (hbreak : p → '\n' ∈ ds) : Settled (cs ++ ds) := by
  rcases h with hset | ⟨hp, front, line, rfl, hfront, hline⟩
  · exact hset.append (settled_blanks hblank)
  · rw [List.append_assoc]
    exact hfront.append (settled_line hline hblank (hbreak hp))

theorem Ends.remarks (h : Ends cs p) : Remarks cs := by
  rcases h with hset | ⟨-, front, line, rfl, hfront, hline⟩
  · exact hset.remarks
  · exact hfront _ (by simpa using remarks_line hline (.inl rfl) remarks_nil)

/-- Where the text so far stands, and what the flag says about it; with `p`, the next comment has
to start on a line of its own. -/
inductive Sound (c : Collected) (p : Prop) : Prop
  | outside (hset : Settled c.text.toList)
      (hflag : c.openBlock = true → Text.endsWith "*/" c.text = true)
  | line (hline : InLine c.text.toList)
      (hflag : c.openBlock = true → Text.hasPart "*/" c.text = true) (hp : p)
  | block (hopen : IsOpen c.text.toList) (hflag : c.openBlock = true)
      (hend : Text.endsWith "*/" c.text = false) (hp : p)

theorem Sound.imp {q : Prop} (h : Sound c p) (hpq : p → q) : Sound c q := by
  cases h with
  | outside hset hflag => exact .outside hset hflag
  | line hline hflag hp => exact .line hline hflag (hpq hp)
  | block hopen hflag hend hp => exact .block hopen hflag hend (hpq hp)

theorem hasPart_of_endsWith {mark text : String} (h : Text.endsWith mark text = true) :
    Text.hasPart mark text = true :=
  Text.hasPart_iff.mpr (Text.endsWith_iff.mp h).isInfix

theorem hasPart_append {mark text : String} (h : Text.hasPart mark text = true) (more : String) :
    Text.hasPart mark (text ++ more) = true := by
  rw [Text.hasPart_iff, String.toList_append]
  exact (Text.hasPart_iff.mp h).trans (List.prefix_append _ _).isInfix

/-- A block that is closed, if one is open. -/
theorem Sound.closed (h : Sound c p) :
    Ends c.closed.text.toList p ∧
      (c.closed.openBlock = true → Text.hasPart "*/" c.closed.text = true) := by
  unfold Collected.closed
  by_cases hclose : (c.openBlock && !Text.endsWith "*/" c.text) = true
  · rw [if_pos hclose]
    obtain ⟨hflag, hend⟩ : c.openBlock = true ∧ Text.endsWith "*/" c.text = false := by
      simpa using hclose
    refine ⟨?_, fun heq => by cases heq⟩
    rw [String.toList_append]
    cases h with
    | outside hset hclosed => rw [hclosed hflag] at hend; cases hend
    | line hline _ hp => exact .inr ⟨hp, hline.append (by simp)⟩
    | block hopen _ _ hp => exact .inl hopen.closed
  · rw [if_neg hclose]
    cases h with
    | outside hset hclosed =>
        exact ⟨.inl hset, fun hflag => hasPart_of_endsWith (hclosed hflag)⟩
    | line hline hmark hp => exact ⟨.inr ⟨hp, hline⟩, hmark⟩
    | block hopen hflag hend _ => simp [hflag, hend] at hclose

/-- What goes into a block leaves it closed or open. -/
theorem Sound.enter (h : Enters front x) (hx : Contained x) (hlen : 2 ≤ x.length)
    (htext : c.text.toList = front ++ x)
    (hopen : ¬ ['*', '/'] <:+ x → c.openBlock = true ∧ p) : Sound c p := by
  by_cases hend : ['*', '/'] <:+ x
  · refine .outside (htext ▸ h.settled hx hend) fun _ => Text.endsWith_iff.mpr ?_
    exact htext ▸ hend.trans (List.suffix_append front x)
  · obtain ⟨hflag, hp⟩ := hopen hend
    refine .block (htext ▸ h.isOpen hx hend) hflag (Bool.eq_false_iff.mpr fun hmark => hend ?_) hp
    have hsuffix := Text.endsWith_iff.mp hmark
    rw [htext] at hsuffix
    exact List.suffix_of_suffix_length_le hsuffix (List.suffix_append front x) hlen

/-! ## Runs of comments -/

/-- What the next comment has to meet: what goes into a block closes it at its end at most, and a
line of documentation finds an open block or opens one. -/
structure Fits (c : Collected) (t : Token) : Prop where
  inside : isBlockLine t.text = true ∨ c.openBlock = true ∨ Text.startsWith "///" t.text = false →
    Contained (docText c t).toList
  opens : isBlockLine t.text = true →
    c.openBlock = true ∨ Text.startsWith "/**" (docText c t) = true

/-- A comment as it stands in a header. -/
def IsComplete (t : Token) : Prop :=
  IsLine t.text.toList ∨ IsBlock t.text.toList

theorem length_docText : 2 ≤ (docText c t).toList.length := by
  unfold docText blockLine
  split
  · rw [String.toList_append, List.length_append]
    split <;> exact Nat.le_add_right_of_le (by decide)
  split
  next hstart => exact Nat.le_of_succ_le (Text.startsWith_iff.mp hstart).length_le
  · rw [toList_opening]
    exact Nat.le_add_left 2 _

theorem opens_of_hasPart (hline : isBlockLine t.text = true)
    (h : Text.hasPart "*/" c.text = true) : Text.startsWith "/**" (docText c t) = true := by
  rw [docText, if_pos hline, blockLine, h, Bool.or_true, Bool.true_or, if_pos rfl]
  exact Text.startsWith_iff.mpr (String.toList_append ▸ List.prefix_append _ _)

theorem Sound.pushOther (h : Sound c p) (ht : IsComplete t) (hdoc : isDoc t.text = false)
    (hblank : ∀ d ∈ t.spacing.toList, Text.isBlank d = true)
    (hbreak : p → '\n' ∈ t.spacing.toList) : Sound (c.push t) (IsLine t.text.toList) := by
  obtain ⟨hends, hflag⟩ := h.closed
  have hset := hends.spaced hblank hbreak
  have htext : (c.push t).text.toList =
      c.closed.text.toList ++ t.spacing.toList ++ t.text.toList := by
    rw [push_other hdoc, Token.spaced, String.toList_append, String.toList_append,
      List.append_assoc]
  have hopen : (c.push t).openBlock = c.closed.openBlock := by rw [push_other hdoc]
  rcases ht with hline | hblock
  · refine .line ⟨_, _, htext, hset, hline⟩ (fun hpush => ?_) hline
    rw [push_other hdoc]
    exact hasPart_append (hflag (hopen ▸ hpush)) _
  · refine .outside (htext ▸ hset.append (settled_block hblock)) fun _ => ?_
    refine Text.endsWith_iff.mpr (htext ▸ ?_)
    exact (hblock.2.1.trans (List.drop_suffix 2 _)).trans (List.suffix_append _ _)

/-- Documentation behind a text that ends outside of all blocks. -/
theorem Sound.pushDoc_ends (hset : Settled (c.text.toList ++ t.spacing.toList))
    (hflag : c.openBlock = true → Text.hasPart "*/" c.text = true) (ht : IsComplete t)
    (hdoc : isDoc t.text = true) (hback : pointsBack t.text = false) (hfits : Fits c t) :
    Sound (c.push t) (IsLine t.text.toList) := by
  have htext : (c.push t).text.toList =
      c.text.toList ++ t.spacing.toList ++ (docText c t).toList := by
    rw [push_doc hdoc hback, String.toList_append, String.toList_append]
  have hopen : (c.push t).openBlock = (c.openBlock || isBlockLine t.text) := by
    rw [push_doc hdoc hback]
  rcases ht with hline | hblock
  · by_cases hrewritten : isBlockLine t.text = true
    · have hopens : Text.startsWith "/**" (docText c t) = true :=
        (hfits.opens hrewritten).elim (fun h => opens_of_hasPart hrewritten (hflag h)) id
      refine .enter (.inl ⟨hset, Text.startsWith_iff.mp hopens⟩) (hfits.inside (.inl hrewritten))
        length_docText htext fun _ => ⟨?_, hline⟩
      rw [hopen, hrewritten, Bool.or_true]
    · have hplain := startsWith_of_isLine hline hdoc (Bool.eq_false_iff.mpr hrewritten)
      have hsame : docText c t = t.text := by rw [docText, if_neg hrewritten, if_pos hplain]
      refine .line ⟨_, _, htext, hset, hsame ▸ hline⟩ (fun hpush => ?_) hline
      rw [hopen, Bool.eq_false_iff.mpr hrewritten, Bool.or_false] at hpush
      rw [push_doc hdoc hback]
      exact hasPart_append (hasPart_append (hflag hpush) _) _
  · have hmarked : (docText c t).toList = '/' :: '*' :: '*' :: t.text.toList.drop 3 := by
      rw [docText_of_isBlock hblock, toList_opening]
    have hplain := (startsWith_of_isBlock hblock (by decide) : Text.startsWith "///" t.text = false)
    refine .enter (.inl ⟨hset, ?_⟩) (hfits.inside (.inr (.inr hplain))) length_docText htext
      fun hend => absurd (hmarked ▸ closes_of_isBlock hblock) hend
    rw [hmarked]
    exact List.prefix_append ['/', '*', '*'] _

/-- Documentation behind a text that ends in an open block. -/
theorem Sound.pushDoc_open (h : IsOpen c.text.toList) (hflag : c.openBlock = true)
    (ht : IsComplete t) (hdoc : isDoc t.text = true) (hback : pointsBack t.text = false)
    (hblank : ∀ d ∈ t.spacing.toList, Text.isBlank d = true) (hbreak : '\n' ∈ t.spacing.toList)
    (hfits : Fits c t) : Sound (c.push t) (IsLine t.text.toList) := by
  have hapart : Apart (c.text.toList ++ t.spacing.toList) (docText c t).toList := by
    intro hlast
    rw [List.getLast?_append_of_ne_nil _ (List.ne_nil_of_mem hbreak)] at hlast
    exact absurd (hblank _ (List.mem_of_getLast? hlast)) (by decide)
  refine .enter (.inr ⟨h.blanks hblank, hapart⟩) (hfits.inside (.inr (.inl hflag)))
    length_docText ?_ fun hend => ⟨?_, ?_⟩
  · rw [push_doc hdoc hback, String.toList_append, String.toList_append]
  · rw [push_doc hdoc hback, hflag, Bool.true_or]
  · refine ht.resolve_right fun hblock => hend ?_
    rw [docText_of_isBlock hblock, toList_opening]
    exact closes_of_isBlock hblock

/-- **One comment** that is not left out keeps the text so far sound. -/
theorem Sound.push (h : Sound c p) (ht : IsComplete t) (hkept : pointsBehind t = false)
    (hblank : ∀ d ∈ t.spacing.toList, Text.isBlank d = true)
    (hbreak : p → '\n' ∈ t.spacing.toList) (hfits : isDoc t.text = true → Fits c t) :
    Sound (c.push t) (IsLine t.text.toList) := by
  by_cases hdoc : isDoc t.text = true
  · have hback : pointsBack t.text = false := by rwa [pointsBehind, hdoc, Bool.true_and] at hkept
    cases h with
    | outside hset hflag =>
        exact .pushDoc_ends (hset.append (settled_blanks hblank))
          (fun hopen => hasPart_of_endsWith (hflag hopen)) ht hdoc hback (hfits hdoc)
    | line hline hflag hp =>
        exact .pushDoc_ends (Ends.spaced (.inr ⟨hp, hline⟩) hblank hbreak) hflag ht hdoc hback
          (hfits hdoc)
    | block hopen hflag _ hp =>
        exact .pushDoc_open hopen hflag ht hdoc hback hblank (hbreak hp) (hfits hdoc)
  · exact h.pushOther ht (Bool.eq_false_iff.mpr hdoc) hblank hbreak

/-- Each comment of a run meets what the comments before it have left. -/
def FitsAll (c : Collected) : List Token → Prop
  | [] => True
  | t :: run => (isDoc t.text = true → pointsBack t.text = false → Fits c t) ∧
      FitsAll (c.push t) run

/-- A run of comments in a header: each line comment ends with its line. -/
structure IsRun (run : List Token) : Prop where
  complete : ∀ t ∈ run, IsComplete t
  blank : ∀ t ∈ run, ∀ d ∈ t.spacing.toList, Text.isBlank d = true
  unified : ∀ t ∈ run, '\r' ∉ t.spaced.toList
  breaks : run.IsChain fun t u => IsLine t.text.toList → '\n' ∈ u.spacing.toList

/-- A run whose marks are where they seem to be: each comment fits, a comment that is left out
takes no line break with it, and a comment that points back becomes one block. -/
structure IsHarmless (run : List Token) : Prop where
  fits : FitsAll {} run
  apart : run.IsChain fun t u => pointsBehind t = true → '\n' ∈ u.spacing.toList
  back : ∀ t ∈ run, pointsBehind t = true → Contained (backText t).toList

variable {run : List Token}

theorem sound_foldl (h : Sound c p) (hcomplete : ∀ t ∈ run, IsComplete t)
    (hblank : ∀ t ∈ run, ∀ d ∈ t.spacing.toList, Text.isBlank d = true)
    (hbreaks : run.IsChain fun t u => IsLine t.text.toList → '\n' ∈ u.spacing.toList)
    (hapart : run.IsChain fun t u => pointsBehind t = true → '\n' ∈ u.spacing.toList)
    (hfirst : p → ∀ t ∈ run.head?, '\n' ∈ t.spacing.toList) (hfits : FitsAll c run) :
    ∃ q, Sound (run.foldl Collected.push c) q := by
  induction run generalizing c p with
  | nil => exact ⟨p, h⟩
  | cons t run ih =>
      obtain ⟨ht, hcomplete⟩ := List.forall_mem_cons.mp hcomplete
      obtain ⟨htblank, hblank⟩ := List.forall_mem_cons.mp hblank
      obtain ⟨hbreak, hbreaks⟩ := List.isChain_cons.mp hbreaks
      obtain ⟨hnext, hapart⟩ := List.isChain_cons.mp hapart
      obtain ⟨hfit, hfits⟩ := hfits
      by_cases hbehind : pointsBehind t = true
      · rw [List.foldl_cons, push_behind hbehind] at *
        exact ih (h.imp fun _ => trivial) hcomplete hblank hbreaks hapart
          (fun _ u hu => hnext u hu hbehind) hfits
      · have hkept : pointsBehind t = false := Bool.eq_false_iff.mpr hbehind
        have hpush := h.push ht hkept htblank (fun hp => hfirst hp t rfl) fun hdoc =>
          hfit hdoc (by rwa [pointsBehind, hdoc, Bool.true_and] at hkept)
        exact ih hpush hcomplete hblank hbreaks hapart (fun hline u hu => hbreak u hu hline) hfits

theorem IsRun.remarks_before (h : IsRun run) (hharmless : IsHarmless run) :
    Remarks (before run).toList := by
  have hstart : Sound {} False := .outside (fun _ hds => hds) fun heq => by cases heq
  obtain ⟨q, hsound⟩ := sound_foldl hstart h.complete h.blank h.breaks hharmless.apart
    False.elim hharmless.fits
  exact hsound.closed.1.remarks

theorem block_of_backText (ht : IsComplete t) (hback : pointsBack t.text = true) :
    ∃ x, (backText t).toList = t.spacing.toList ++ '/' :: '*' :: '*' :: x ∧
      ['*', '/'] <:+ '/' :: '*' :: '*' :: x := by
  unfold backText
  dsimp only
  split
  next hstart =>
    have hblock : IsBlock t.text.toList := by
      refine ht.resolve_left fun hline => ?_
      obtain ⟨body, htext, -⟩ := exists_of_isLine hline
      simp [Text.startsWith, htext] at hstart
    refine ⟨t.text.toList.drop 4, ?_, ?_⟩
    · simp [toList_behind]
    · have hclose := closes_of_isBlock hblock
      have hpoint : t.text.toList[3]? = some '<' := by simpa [pointsBack] using hback
      obtain ⟨hlen, hget⟩ := List.getElem?_eq_some_iff.mp hpoint
      rw [List.drop_eq_getElem_cons hlen, hget] at hclose
      have hbody : ['*', '/'] <:+ t.text.toList.drop 4 := by
        simpa [List.suffix_cons_iff] using hclose
      exact hbody.trans (List.suffix_append ['/', '*', '*'] _)
  · refine ⟨(Text.trimEnd (behind 4 t.text)).toList ++ [' ', '*', '/'], by simp, ?_⟩
    generalize (Text.trimEnd (behind 4 t.text)).toList = body
    exact ⟨'/' :: '*' :: '*' :: (body ++ [' ']), by simp⟩

theorem settled_backText (ht : IsComplete t) (hbehind : pointsBehind t = true)
    (hblank : ∀ d ∈ t.spacing.toList, Text.isBlank d = true)
    (h : Contained (backText t).toList) : Settled (backText t).toList := by
  obtain ⟨x, htext, hend⟩ := block_of_backText ht (Bool.and_eq_true_iff.mp hbehind).2
  rw [htext] at h ⊢
  have hblock := isBlock_opening (contained_of_suffix h (List.suffix_append _ _)) hend
  exact (settled_blanks hblank).append (settled_block hblock)

theorem settled_join {texts : List String} (h : ∀ text ∈ texts, Settled text.toList) :
    Settled (String.join texts).toList := by
  rw [String.toList_join]
  induction texts with
  | nil => exact fun _ hds => hds
  | cons text texts ih =>
      obtain ⟨htext, htexts⟩ := List.forall_mem_cons.mp h
      exact htext.append (ih htexts)

theorem IsRun.remarks_after (h : IsRun run) (hharmless : IsHarmless run) :
    Remarks (after run).toList := by
  have hjoin : Settled (String.join ((run.filter pointsBehind).map backText)).toList := by
    refine settled_join fun text htext => ?_
    obtain ⟨t, ht, rfl⟩ := List.mem_map.mp htext
    obtain ⟨hmem, hbehind⟩ := List.mem_filter.mp ht
    exact settled_backText (h.complete t hmem) hbehind (h.blank t hmem)
      (hharmless.back t hmem hbehind)
  unfold after
  dsimp only
  split
  · exact hjoin.remarks
  · rw [String.toList_append]
    exact hjoin _ (remarks_of_blanks (by simp [Text.isBlank]))

/-! ### Line breaks -/

theorem unified_closed (h : '\r' ∉ c.text.toList) : '\r' ∉ c.closed.text.toList := by
  unfold Collected.closed
  split
  · simp [h]
  · exact h

theorem unified_push (hc : '\r' ∉ c.text.toList) (ht : '\r' ∉ t.spaced.toList) :
    '\r' ∉ (c.push t).text.toList := by
  obtain ⟨hspacing, htext⟩ : '\r' ∉ t.spacing.toList ∧ '\r' ∉ t.text.toList := by
    simpa [Token.spaced] using ht
  have hbehind : '\r' ∉ t.text.toList.drop 3 := fun h => htext (List.mem_of_mem_drop h)
  unfold Collected.push blockLine
  dsimp only
  split_ifs <;>
    simp [hc, hspacing, htext, hbehind, toList_behind, Token.spaced, unified_closed]

theorem unified_before (h : ∀ t ∈ run, '\r' ∉ t.spaced.toList) : '\r' ∉ (before run).toList := by
  have hrun (c : Collected) (hc : '\r' ∉ c.text.toList) :
      '\r' ∉ (run.foldl Collected.push c).text.toList := by
    induction run generalizing c with
    | nil => exact hc
    | cons t run ih =>
        obtain ⟨ht, hrest⟩ := List.forall_mem_cons.mp h
        exact ih hrest _ (unified_push hc ht)
  exact unified_closed (hrun {} (by simp))

theorem unified_backText (h : '\r' ∉ t.spaced.toList) : '\r' ∉ (backText t).toList := by
  obtain ⟨hspacing, htext⟩ : '\r' ∉ t.spacing.toList ∧ '\r' ∉ t.text.toList := by
    simpa [Token.spaced] using h
  have hbehind : '\r' ∉ t.text.toList.drop 4 := fun h => htext (List.mem_of_mem_drop h)
  have htrim : '\r' ∉ (Text.trimEnd (behind 4 t.text)).toList := by
    rw [Text.trimEnd, String.toList_ofList, toList_behind, Text.dropEndWhile, List.mem_reverse]
    exact fun h => hbehind (List.mem_reverse.mp ((List.dropWhile_sublist _).subset h))
  unfold backText
  dsimp only
  split <;> simp [hspacing, hbehind, htrim, toList_behind]

theorem unified_after (h : ∀ t ∈ run, '\r' ∉ t.spaced.toList) : '\r' ∉ (after run).toList := by
  have hjoin : '\r' ∉ (String.join ((run.filter pointsBehind).map backText)).toList := by
    rw [String.toList_join]
    intro hmem
    obtain ⟨text, htext, hmem⟩ := List.mem_flatMap.mp hmem
    obtain ⟨t, ht, rfl⟩ := List.mem_map.mp htext
    exact unified_backText (h t (List.mem_filter.mp ht).1) hmem
  unfold after
  dsimp only
  split
  · exact hjoin
  · rw [String.toList_append]
    exact fun hmem => (List.mem_append.mp hmem).elim hjoin (by simp)

/-- **Comments stay comments** where the marks of a run are what they seem. -/
theorem comments_stay (h : IsRun run) (hharmless : IsHarmless run) (file : Option String) :
    (∀ t ∈ Token.ofText file (before run), t.isComment = true) ∧
      ∀ t ∈ Token.ofText file (after run), t.isComment = true := by
  have hbefore := (h.remarks_before hharmless).ofText (unified_before h.unified) file
  have hafter := (h.remarks_after hharmless).ofText (unified_after h.unified) file
  rw [String.ofList_toList] at hbefore hafter
  exact ⟨hbefore, hafter⟩

instance : Decidable (IsComplete t) :=
  inferInstanceAs (Decidable (_ ∨ _))

instance : Decidable (Fits c t) :=
  decidable_of_iff (_ ∧ _) ⟨fun h => ⟨h.1, h.2⟩, fun h => ⟨h.inside, h.opens⟩⟩

instance decidableFitsAll (c : Collected) : (run : List Token) → Decidable (FitsAll c run)
  | [] => inferInstanceAs (Decidable True)
  | t :: run =>
    have := decidableFitsAll (c.push t) run
    inferInstanceAs (Decidable (_ ∧ _))

instance : Decidable (IsHarmless run) :=
  decidable_of_iff (_ ∧ _ ∧ _) ⟨fun h => ⟨h.1, h.2.1, h.2.2⟩, fun h => ⟨h.fits, h.apart, h.back⟩⟩

/-- A comment of each style of documentation, one of them for what stands before the run. -/
def sampleRun : List Token :=
  [{ kind := .comment, text := "// a" },
   { kind := .comment, text := "/// B.", spacing := "\n" },
   { kind := .comment, text := "//! C.", spacing := "\n" },
   { kind := .comment, text := "/**< D. */", spacing := "\n" },
   { kind := .comment, text := "/*! E. */", spacing := "\n" }]

theorem comments_stay_sample :
    (IsRun sampleRun ∧ IsHarmless sampleRun) ∧
      before sampleRun = "// a\n/** B.\n *  C.\n/** E. */" ∧ after sampleRun = "\n/** D. */\n" ∧
        (∀ t ∈ Token.ofText none (before sampleRun), t.isComment = true) ∧
          ∀ t ∈ Token.ofText none (after sampleRun), t.isComment = true := by
  have hrun : IsRun sampleRun :=
    { complete := by decide +kernel, blank := by simp [sampleRun, Text.isBlank]
      unified := by decide +kernel, breaks := by decide +kernel }
  have hharmless : IsHarmless sampleRun := by decide +kernel
  exact ⟨⟨hrun, hharmless⟩, by decide +kernel, by decide +kernel,
    comments_stay hrun hharmless none⟩

/-- A line comment that holds what opens a block, and documentation behind it. -/
def bannerRun : List Token :=
  [{ kind := .comment, text := "//* Part" },
   { kind := .comment, text := "/// Doc.", spacing := "\n" }]

/-- The block of the documentation is taken to be open already, and its line is left without. -/
theorem banner_hides_opening :
    IsRun bannerRun ∧ before bannerRun = "//* Part\n *  Doc. */" ∧
      ¬ ∀ t ∈ Token.ofText none (before bannerRun), t.isComment = true := by
  have hprinted : before bannerRun = "//* Part\n *  Doc. */" := by decide +kernel
  have hsome : (Token.ofText none "//* Part\n *  Doc. */").all Token.isComment = false := by cbv
  refine ⟨⟨?_, ?_, ?_, ?_⟩, hprinted, fun hcomments => ?_⟩
  · decide +kernel
  · simp [bannerRun, Text.isBlank]
  · decide +kernel
  · decide +kernel
  · rw [hprinted, ← List.all_eq_true, hsome] at hcomments
    cases hcomments

end Comment
end HeaderPeers

import HeaderPeers.Text.Basic
import HeaderPeers.Text.Letter
import Mathlib.Data.List.Basic
import Mathlib.Data.List.TakeWhile
import Mathlib.Tactic.SplitIfs

/-!
# Code outside of comments

What a printed text says to its reader: the characters that stand outside of comments, with those
of literals marked, and the declarations they make up.

- `Code.scan` — the text without its comments, read one character after another.
- `Code.declarations` — what stands between the semicolons.
- `Code.IsComplete` — nothing is left behind the last semicolon.
-/

namespace HeaderPeers.Code

/-- What the reader of a text is inside of. -/
inductive Mode where
  | code
  /-- Behind a slash that may open a comment. -/
  | slash
  | line
  | block
  /-- Behind a star that may close a comment. -/
  | star
  | literal (mark : Char)
  /-- Behind a backslash in a literal. -/
  | escape (mark : Char)
deriving DecidableEq, Repr

/-- A character outside of comments. -/
structure Glyph where
  char : Char
  /-- It is part of a literal. -/
  quoted : Bool := false
deriving DecidableEq, Repr

namespace Glyph

def isBlank (g : Glyph) : Bool :=
  !g.quoted && Text.isBlank g.char

/-- Whether it ends a declaration. -/
def ends (g : Glyph) : Bool :=
  !g.quoted && g.char == ';'

end Glyph

/-- Takes a character of code. -/
def codeStep (c : Char) : List Glyph × Mode :=
  if c == '/' then ([], .slash)
  else if c == '"' || c == '\'' then ([{ char := c, quoted := true }], .literal c)
  else ([{ char := c }], .code)

/-- Takes one character. A block counts as a space, and a line that is a comment as its break. -/
def Mode.step : Mode → Char → List Glyph × Mode
  | code, c => codeStep c
  | slash, c =>
    if c == '/' then ([], line)
    else if c == '*' then ([], block)
    else ({ char := '/' } :: (codeStep c).1, (codeStep c).2)
  | line, c => if c == '\n' then ([{ char := c }], code) else ([], line)
  | block, c => if c == '*' then ([], star) else ([], block)
  | star, c =>
    if c == '/' then ([{ char := ' ' }], code)
    else if c == '*' then ([], star)
    else ([], block)
  | literal mark, c =>
    ([{ char := c, quoted := true }],
      if c == '\\' then escape mark else if c == mark then code else literal mark)
  | escape mark, c => ([{ char := c, quoted := true }], literal mark)

/-- What is read of a text, and what the reader is inside of behind it. -/
def scan : Mode → List Char → List Glyph × Mode
  | mode, [] => ([], mode)
  | mode, c :: cs =>
    ((mode.step c).1 ++ (scan (mode.step c).2 cs).1, (scan (mode.step c).2 cs).2)

/-- The pieces before each semicolon, and the rest. -/
def pieces : List Glyph → List (List Glyph) × List Glyph
  | [] => ([], [])
  | g :: gs =>
    if g.ends then ([] :: (pieces gs).1, (pieces gs).2)
    else match (pieces gs).1 with
      | [] => ([], g :: (pieces gs).2)
      | piece :: more => ((g :: piece) :: more, (pieces gs).2)

/-- White space only. -/
def IsBlank (gs : List Glyph) : Prop :=
  ∀ g ∈ gs, g.isBlank = true

instance (gs : List Glyph) : Decidable (IsBlank gs) :=
  inferInstanceAs (Decidable (∀ g ∈ gs, g.isBlank = true))

/-- The declarations, each without the white space in front of it. -/
def declarations (gs : List Glyph) : List (List Glyph) :=
  (pieces gs).1.map (·.dropWhile Glyph.isBlank)

/-- Nothing is left behind the last declaration. -/
def IsComplete (gs : List Glyph) : Prop :=
  IsBlank (pieces gs).2

instance (gs : List Glyph) : Decidable (IsComplete gs) :=
  inferInstanceAs (Decidable (IsBlank _))

/-- The glyphs of a text without comments and literals. -/
def plain (cs : List Char) : List Glyph :=
  cs.map fun c => { char := c }

variable {cs ds : List Char} {gs hs : List Glyph} {m m' m'' : Mode}

/-! ## Scanning -/

/-- A text read from one mode into another. -/
def Scans (m : Mode) (cs : List Char) (gs : List Glyph) (m' : Mode) : Prop :=
  scan m cs = (gs, m')

theorem scans_nil (m : Mode) : Scans m [] [] m :=
  rfl

theorem Scans.append (h : Scans m cs gs m') (h' : Scans m' ds hs m'') :
    Scans m (cs ++ ds) (gs ++ hs) m'' := by
  unfold Scans at *
  induction cs generalizing m gs with
  | nil =>
      obtain ⟨rfl, rfl⟩ := Prod.mk.inj h
      exact h'
  | cons c cs ih =>
      rw [scan] at h
      obtain ⟨rfl, hmode⟩ := Prod.mk.inj h
      rw [List.cons_append, scan, ih (Prod.ext rfl hmode), List.append_assoc]

/-- Neither a slash nor the mark of a literal. -/
def IsPlain (cs : List Char) : Prop :=
  ∀ c ∈ cs, c ≠ '/' ∧ c ≠ '"' ∧ c ≠ '\''

instance (cs : List Char) : Decidable (IsPlain cs) :=
  List.decidableBAll (fun c => c ≠ '/' ∧ c ≠ '"' ∧ c ≠ '\'') cs

theorem IsPlain.append (h : IsPlain cs) (h' : IsPlain ds) : IsPlain (cs ++ ds) := by
  intro c hc
  exact (List.mem_append.mp hc).elim (h c) (h' c)

theorem scans_plain (h : IsPlain cs) : Scans .code cs (plain cs) .code := by
  induction cs with
  | nil => rfl
  | cons c cs ih =>
      obtain ⟨hslash, hstring, hchar⟩ := h c List.mem_cons_self
      have hstep : Scans .code [c] [{ char := c }] .code := by
        simp [Scans, scan, Mode.step, codeStep, hslash, hstring, hchar]
      exact hstep.append (ih fun d hd => h d (List.mem_cons_of_mem _ hd))

theorem isPlain_of_isBlank (h : ∀ c ∈ cs, Text.isBlank c = true) : IsPlain cs := by
  intro c hc
  have hblank := h c hc
  refine ⟨?_, ?_, ?_⟩ <;> rintro rfl <;> exact absurd hblank (by decide)

theorem isPlain_of_isWordChar (h : ∀ c ∈ cs, Text.isWordChar c = true) : IsPlain cs := by
  intro c hc
  have hword := h c hc
  refine ⟨?_, ?_, ?_⟩ <;> rintro rfl <;> exact absurd hword (by decide +kernel)

theorem isBlank_plain (h : ∀ c ∈ cs, Text.isBlank c = true) : IsBlank (plain cs) := by
  rintro g hg
  obtain ⟨c, hc, rfl⟩ := List.mem_map.mp hg
  simpa [Glyph.isBlank] using h c hc

/-- White space is read as itself. -/
theorem scans_blank (h : ∀ c ∈ cs, Text.isBlank c = true) :
    Scans .code cs (plain cs) .code ∧ IsBlank (plain cs) :=
  ⟨scans_plain (isPlain_of_isBlank h), isBlank_plain h⟩

/-- The reader does not get back into code without a trace. -/
theorem Scans.ne_nil (h : Scans m cs gs .code) (hne : cs ≠ []) : gs ≠ [] := by
  unfold Scans at h
  induction cs generalizing m gs with
  | nil => exact absurd rfl hne
  | cons c cs ih =>
      rw [scan] at h
      obtain ⟨rfl, hmode⟩ := Prod.mk.inj h
      rcases eq_or_ne cs [] with rfl | hmore
      · have hstep (hcode : (m.step c).2 = .code) : (m.step c).1 ≠ [] := by
          cases m with
          | escape mark => cases hcode
          | literal mark => simp [Mode.step]
          | code | slash | line | block | star =>
              simp only [Mode.step, codeStep] at hcode ⊢
              split_ifs at hcode ⊢ <;> simp_all
        exact fun hnil => hstep hmode (List.append_eq_nil_iff.mp hnil).1
      · exact fun hnil => ih (Prod.ext rfl hmode) hmore (List.append_eq_nil_iff.mp hnil).2

/-- What is behind a line comment up to its break does not count. -/
theorem scan_line (h : '\n' ∉ cs) : Scans .line cs [] .line := by
  induction cs with
  | nil => rfl
  | cons c cs ih =>
      obtain ⟨hc, hcs⟩ := not_or.mp (List.mem_cons.not.mp h)
      have hstep : Scans .line [c] [] .line := by simp [Scans, scan, Mode.step, Ne.symm hc]
      exact hstep.append (ih hcs)

/-- White space and comments, from one mode into another. -/
def Quiet (m : Mode) (cs : List Char) (m' : Mode) : Prop :=
  IsBlank (scan m cs).1 ∧ (scan m cs).2 = m'

instance (m m' : Mode) (cs : List Char) : Decidable (Quiet m cs m') :=
  inferInstanceAs (Decidable (_ ∧ _))

theorem Quiet.scans (h : Quiet m cs m') : ∃ gs, Scans m cs gs m' ∧ IsBlank gs :=
  ⟨_, Prod.ext rfl h.2, h.1⟩

theorem Scans.quiet (h : Scans m cs gs m') (hblank : IsBlank gs) : Quiet m cs m' := by
  rw [Scans] at h
  rw [Quiet, h]
  exact ⟨hblank, rfl⟩

theorem IsBlank.append (h : IsBlank gs) (h' : IsBlank hs) : IsBlank (gs ++ hs) := by
  intro g hg
  exact (List.mem_append.mp hg).elim (h g) (h' g)

theorem Quiet.append (h : Quiet m cs m') (h' : Quiet m' ds m'') : Quiet m (cs ++ ds) m'' := by
  obtain ⟨gs, hscan, hblank⟩ := h.scans
  obtain ⟨hs, hscan', hblank'⟩ := h'.scans
  exact (hscan.append hscan').quiet (hblank.append hblank')

theorem quiet_blank (h : ∀ c ∈ cs, Text.isBlank c = true) : Quiet .code cs .code :=
  (scans_blank h).1.quiet (scans_blank h).2

/-! ## Lines -/

/-- The text starts on a line of its own: before its first line break there is nothing but white
space, and comments that end with the line. -/
def StartsLine (cs : List Char) : Prop :=
  '\n' ∈ cs ∧ IsBlank (scan .code (cs.takeWhile (· != '\n'))).1 ∧
    (scan .code (cs.takeWhile (· != '\n'))).2 ∈ [Mode.code, .line]

instance (cs : List Char) : Decidable (StartsLine cs) :=
  inferInstanceAs (Decidable (_ ∧ _ ∧ _))

/-- Behind a line comment, a text that starts on a line of its own is read as behind code. -/
theorem StartsLine.scans_line (h : StartsLine cs) (hscan : Scans .code cs gs m) :
    ∃ blank hs, IsBlank blank ∧ gs = blank ++ hs ∧ Scans .line cs hs m := by
  obtain ⟨hbreak, hblank, hmode⟩ := h
  let front := cs.takeWhile (· != '\n')
  have hfront : '\n' ∉ front := fun hmem => by simpa using List.mem_takeWhile_imp hmem
  obtain ⟨rest, hcs⟩ : ∃ rest, cs = front ++ '\n' :: rest := by
    cases hrest : cs.dropWhile (· != '\n') with
    | nil =>
        have hall := List.dropWhile_eq_nil_iff.mp hrest _ hbreak
        simp at hall
    | cons c rest =>
        have hhead := List.head?_dropWhile_not (· != '\n') cs
        rw [hrest] at hhead
        obtain rfl : c = '\n' := by simpa using hhead
        exact ⟨rest, by rw [← hrest]; exact (List.takeWhile_append_dropWhile).symm⟩
  have hnewline : Scans (scan .code front).2 ['\n'] [{ char := '\n' }] .code := by
    simp only [List.mem_cons, List.not_mem_nil, or_false] at hmode
    rcases hmode with hmode | hmode <;> rw [show (scan .code front).2 = _ from hmode] <;> rfl
  have hrest : Scans .code rest (scan .code rest).1 (scan .code rest).2 := rfl
  have hwhole := (Scans.append (show Scans .code front _ _ from rfl) hnewline).append hrest
  rw [List.append_assoc, List.singleton_append, ← hcs] at hwhole
  obtain ⟨hgs, hm⟩ := Prod.mk.inj (hwhole.symm.trans hscan)
  refine ⟨(scan .code front).1, { char := '\n' } :: (scan .code rest).1, hblank, ?_, ?_⟩
  · rw [← hgs, List.append_assoc, List.singleton_append]
  · rw [hcs, ← hm]
    exact (scan_line hfront).append
      ((show Scans .line ['\n'] [{ char := '\n' }] .code from rfl).append hrest)

/-! ## Declarations -/

theorem pieces_append (gs hs : List Glyph) :
    pieces (gs ++ hs) = match (pieces hs).1 with
      | [] => ((pieces gs).1, (pieces gs).2 ++ (pieces hs).2)
      | piece :: more => ((pieces gs).1 ++ ((pieces gs).2 ++ piece) :: more, (pieces hs).2) := by
  induction gs with
  | nil => cases hpieces : pieces hs with | mk done rest => cases done <;> simp [pieces, hpieces]
  | cons g gs ih =>
      rw [List.cons_append, pieces, pieces, ih]
      cases (pieces hs).1 <;> cases g.ends <;> cases (pieces gs).1 <;> rfl

theorem dropWhile_blank_append (h : IsBlank gs) (hs : List Glyph) :
    (gs ++ hs).dropWhile Glyph.isBlank = hs.dropWhile Glyph.isBlank := by
  rw [List.dropWhile_append, List.dropWhile_eq_nil_iff.mpr h]
  rfl

/-- Behind complete declarations, others are read as on their own. -/
theorem IsComplete.declarations_append (h : IsComplete gs) (hs : List Glyph) :
    declarations (gs ++ hs) = declarations gs ++ declarations hs := by
  unfold declarations
  rw [pieces_append]
  cases (pieces hs).1 with
  | nil => simp
  | cons piece more => simp [dropWhile_blank_append h]

theorem IsComplete.append (h : IsComplete gs) (h' : IsComplete hs) : IsComplete (gs ++ hs) := by
  unfold IsComplete at *
  rw [pieces_append]
  cases (pieces hs).1 with
  | nil => exact h.append h'
  | cons piece more => exact h'

theorem IsComplete.right (happend : IsComplete (gs ++ hs)) : IsComplete hs := by
  unfold IsComplete at *
  rw [pieces_append] at happend
  cases hpieces : (pieces hs).1 with
  | nil =>
      rw [hpieces] at happend
      exact fun g hg => happend g (List.mem_append_right _ hg)
  | cons piece more =>
      rw [hpieces] at happend
      exact happend

/-- No semicolon ends it. -/
def IsOpen (gs : List Glyph) : Prop :=
  ∀ g ∈ gs, g.ends = false

instance (gs : List Glyph) : Decidable (IsOpen gs) :=
  inferInstanceAs (Decidable (∀ g ∈ gs, g.ends = false))

theorem IsOpen.append (h : IsOpen gs) (h' : IsOpen hs) : IsOpen (gs ++ hs) := by
  intro g hg
  exact (List.mem_append.mp hg).elim (h g) (h' g)

theorem IsOpen.pieces_eq (h : IsOpen gs) : pieces gs = ([], gs) := by
  induction gs with
  | nil => rfl
  | cons g gs ih =>
      rw [pieces, ih fun d hd => h d (List.mem_cons_of_mem _ hd), h g List.mem_cons_self]
      rfl

theorem IsBlank.isOpen (h : IsBlank gs) : IsOpen gs := by
  intro g hg
  have hblank := h g hg
  unfold Glyph.isBlank Glyph.ends at *
  by_contra hends
  simp only [Bool.and_eq_true, Bool.not_eq_true', beq_iff_eq, Bool.not_eq_false] at hblank hends
  rw [hends.2] at hblank
  exact absurd hblank.2 (by decide)

/-- White space holds no declarations. -/
theorem IsBlank.isComplete (h : IsBlank gs) : IsComplete gs ∧ declarations gs = [] := by
  unfold IsComplete declarations
  rw [h.isOpen.pieces_eq]
  exact ⟨h, rfl⟩

/-- The semicolon. -/
def terminator : List Glyph :=
  [{ char := ';' }]

theorem scans_terminator : Scans .code [';'] terminator .code :=
  rfl

/-- A semicolon makes one declaration complete. -/
theorem IsOpen.closed (h : IsOpen gs) :
    IsComplete (gs ++ terminator) ∧
      declarations (gs ++ terminator) = [gs.dropWhile Glyph.isBlank] := by
  unfold IsComplete declarations
  rw [pieces_append, h.pieces_eq]
  simp [terminator, pieces, Glyph.ends, IsBlank]

end HeaderPeers.Code

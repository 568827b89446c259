import HeaderPeers.Proofs.Exclusion
import HeaderPeers.Proofs.LineFilter

/-!
# The line terminator of a build

A build uses the first line terminator of its headers as they are read. A line filter puts the lines
that stay together anew, each with a line feed behind it, before the terminator is looked for. So
without a filter it is the first one that the headers hold as they are stored, while with one it is
a line feed unless the first line that stays holds a carriage return.

- `Text.LineBreak.allOf` — all line terminators of a text.
- `Builder.Current` — what a builder has read is what the files hold.
- `Builder.build_lineBreak` — the line terminator of a build, and those of its text.
- `Builder.filtered_terminator_is_lost` — a filter that leaves nothing out loses the terminator.
-/

namespace HeaderPeers

/-! ## The headers that have been read -/

/-- Paths to the same file hold the same text. -/
def Files.Faithful (files : Files) : Prop :=
  ∀ path other, Path.same path other = true → ∀ text text', (files path).text? = some text →
    (files other).text? = some text' → text = text'

/-- The headers of a map are in the order of their identities, and what is kept of each is what is
read of its file. -/
structure SourceMap.Current (map : SourceMap) (read : String → String) (files : Files) : Prop where
  numbered : ∀ (i : Nat) (file : SourceFile), map.files[i]? = some file → file.id = i
  content : ∀ file ∈ map.files, ∀ path text, Path.same path file.path = true →
    (files path).text? = some text → file.content = read text

namespace SourceMap

variable {map : SourceMap} {read : String → String} {files : Files} {path content : String}

theorem current_empty (read : String → String) (files : Files) : ({} : SourceMap).Current read files
  where
  numbered i file h := by simp at h
  content file h := by simp at h

/-- A header is what is read of its file, whether it was known before or not. -/
theorem Current.add (h : map.Current read files) (hfiles : files.Faithful)
    (hcontent : (files path).text? = some content) (dialect : Dialect) :
    (map.add path (read content) dialect).2.Current read files ∧
      ∃ file, (map.add path (read content) dialect).2.get?
        (map.add path (read content) dialect).1 = some file ∧ file.content = read content := by
  unfold SourceMap.add
  cases hknown : map.ofPath? path with
  | some file =>
      have hmem : file ∈ map.files := List.mem_of_find?_eq_some hknown
      have hsame : Path.same path file.path = true := by
        have hfound := List.find?_some hknown
        exact hfound
      obtain ⟨i, hi⟩ := List.mem_iff_getElem?.mp hmem
      refine ⟨h, file, ?_, h.content file hmem path content hsame hcontent⟩
      have hget : map.files[file.id]? = some file := by rwa [h.numbered i file hi]
      exact hget
  | none =>
      refine ⟨⟨fun i file hfile => ?_, fun file hfile other text hsame htext => ?_⟩,
        ⟨map.files.length, path, read content, dialect⟩, List.getElem?_concat_length, rfl⟩
      · rcases Nat.lt_trichotomy i map.files.length with hlt | rfl | hgt
        · rw [List.getElem?_append_left hlt] at hfile
          exact h.numbered i file hfile
        · rw [List.getElem?_concat_length] at hfile
          exact (congrArg SourceFile.id (Option.some.inj hfile)).symm
        · rw [List.getElem?_eq_none (by simp; omega)] at hfile
          cases hfile
      · rcases List.mem_append.mp hfile with hfile | hfile
        · exact h.content file hfile other text hsame htext
        · obtain rfl := List.mem_singleton.mp hfile
          exact congrArg read (hfiles other path hsame text content htext hcontent).symm

end SourceMap

/-! ## The terminators of a text -/

namespace Text

variable {line cs ds : List Char} {c : Char} {k : LineBreak}

namespace LineBreak

/-- All line terminators of a text, in order. -/
def allOf : List Char → List LineBreak
  | [] => []
  | '\r' :: '\n' :: cs => crlf :: allOf cs
  | '\r' :: cs => cr :: allOf cs
  | '\n' :: cs => lf :: allOf cs
  | _ :: cs => allOf cs

theorem firstOf?_eq (cs : List Char) : firstOf? cs = (allOf cs).head? := by
  fun_induction allOf cs with
  | case1 => rfl
  | case2 cs ih => rfl
  | case3 cs hcs ih =>
      rw [firstOf?]
      · rfl
      · exact hcs
  | case4 cs ih => rfl
  | case5 c cs h₁ h₂ h₃ ih => rw [firstOf?, ih] <;> assumption

theorem allOf_feed (cs : List Char) : allOf ('\n' :: cs) = lf :: allOf cs :=
  rfl

theorem allOf_return (h : cs.head? ≠ some '\n') : allOf ('\r' :: cs) = cr :: allOf cs := by
  rw [allOf]
  rintro ds rfl
  exact h rfl

theorem allOf_other (hfeed : c ≠ '\n') (hreturn : c ≠ '\r') (cs : List Char) :
    allOf (c :: cs) = allOf cs := by
  rw [allOf]
  · rintro ds rfl
    exact absurd rfl hreturn
  · exact hreturn
  · exact hfeed

/-- The terminator of a line with a line feed put behind it: a carriage return in the line comes
first, and joins the line feed only at the end of the line. -/
def behind (line : List Char) : LineBreak :=
  match line.dropWhile (· != '\r') with
  | [] => lf
  | [_] => crlf
  | _ => cr

theorem firstOf?_line (h : '\n' ∉ line) (rest : List Char) :
    firstOf? (line ++ '\n' :: rest) = some (behind line) := by
  induction line with
  | nil => rfl
  | cons c line ih =>
      obtain ⟨hc, hline⟩ := not_or.mp (List.mem_cons.not.mp h)
      by_cases hreturn : c = '\r'
      · subst hreturn
        cases line with
        | nil => rfl
        | cons d line =>
            rw [firstOf?_eq, List.cons_append, allOf_return]
            · rfl
            · exact fun hd => hline (Option.some.inj hd ▸ List.mem_cons_self)
      · have hbehind : behind (c :: line) = behind line := by
          simp [behind, hreturn]
        have hmore := ih hline
        rw [firstOf?_eq] at hmore ⊢
        rw [List.cons_append, allOf_other (Ne.symm hc) hreturn, hmore, hbehind]

/-- Only line feeds end the lines of a text without carriage returns. -/
theorem forall_lf_iff : (∀ x ∈ allOf cs, x = lf) ↔ '\r' ∉ cs := by
  fun_induction allOf cs with
  | case1 => simp
  | case2 cs ih => simp
  | case3 cs hcs ih => simp
  | case4 cs ih => simp [ih]
  | case5 c cs h₁ h₂ h₃ ih => simpa [Ne.symm h₂] using ih

theorem forall_cr (h : '\n' ∉ cs) : ∀ x ∈ allOf cs, x = cr := by
  fun_induction allOf cs with
  | case1 => simp
  | case2 cs ih => simp at h
  | case3 cs hcs ih => simpa using ih fun hmem => h (List.mem_cons_of_mem _ hmem)
  | case4 cs ih => simp at h
  | case5 c cs h₁ h₂ h₃ ih => exact ih fun hmem => h (List.mem_cons_of_mem _ hmem)

/-- A text with another terminator in place of each line feed. -/
def respell (k : LineBreak) (cs : List Char) : List Char :=
  cs.flatMap fun c => if c = '\n' then k.text.toList else [c]

theorem respell_feed : respell k ('\n' :: cs) = k.text.toList ++ respell k cs := by
  simp [respell]

theorem respell_other (h : c ≠ '\n') : respell k (c :: cs) = c :: respell k cs := by
  simp [respell, h]

theorem respell_lf (cs : List Char) : respell lf cs = cs := by
  induction cs with
  | nil => rfl
  | cons c cs ih =>
      by_cases hc : c = '\n'
      · rw [hc, respell_feed, ih]
        rfl
      · rw [respell_other hc, ih]

theorem feed_not_mem_respell_cr (cs : List Char) : '\n' ∉ respell cr cs := by
  induction cs with
  | nil => simp [respell]
  | cons c cs ih =>
      by_cases hc : c = '\n'
      · rw [hc, respell_feed]
        simpa [text] using ih
      · rw [respell_other hc]
        simpa using ⟨Ne.symm hc, ih⟩

/-- A carriage return of the text itself is told apart from those put in. -/
theorem forall_crlf_respell : (∀ x ∈ allOf (respell crlf cs), x = crlf) ↔ '\r' ∉ cs := by
  have hhead (cs : List Char) : (respell crlf cs).head? ≠ some '\n' := by
    cases cs with
    | nil => simp [respell]
    | cons c cs =>
        by_cases hc : c = '\n'
        · rw [hc, respell_feed]
          simp [text]
        · rw [respell_other hc]
          simpa using hc
  induction cs with
  | nil => simp [respell, allOf]
  | cons c cs ih =>
      by_cases hc : c = '\n'
      · subst hc
        have hall : allOf (respell crlf ('\n' :: cs)) = crlf :: allOf (respell crlf cs) := by
          rw [respell_feed]
          rfl
        simp [hall, ih]
      · rw [respell_other hc]
        by_cases hreturn : c = '\r'
        · subst hreturn
          simp [allOf_return (hhead cs)]
        · rw [allOf_other hc hreturn]
          simp [Ne.symm hreturn, ih]

/-- **The terminators of a text** after line feeds were replaced are all one, if that is a carriage
return or the text held none. -/
theorem forall_respell_iff : (∀ x ∈ allOf (respell k cs), x = k) ↔ k = cr ∨ '\r' ∉ cs := by
  cases k with
  | lf => simpa [respell_lf] using forall_lf_iff
  | crlf => simpa using forall_crlf_respell
  | cr => simpa using forall_cr (feed_not_mem_respell_cr cs)

end LineBreak

/-- A character replaced by a text. -/
theorem replaceChars_char (a : Char) (image : List Char) {n : Nat} (h : cs.length ≤ n) :
    replaceChars [a] image n cs = cs.flatMap fun c => if c = a then image else [c] := by
  induction n generalizing cs with
  | zero =>
      obtain rfl := List.length_eq_zero_iff.mp (Nat.le_zero.mp h)
      rfl
  | succ n ih =>
      cases cs with
      | nil => rfl
      | cons c cs =>
          have hcs : cs.length ≤ n := Nat.le_of_succ_le_succ h
          by_cases hc : c = a
          · simp [replaceChars, hc, ih hcs]
          · simp [replaceChars, hc, Ne.symm hc, ih hcs]

theorem toList_replace_feed (k : LineBreak) (s : String) :
    (replace "\n" k.text s).toList = k.respell s.toList := by
  rw [replace, String.toList_ofList]
  exact replaceChars_char '\n' k.text.toList (Nat.le_refl _)

end Text

/-! ## Tokens hold no carriage return -/

theorem Text.return_not_mem_unifyBreaks (cs : List Char) : '\r' ∉ unifyBreaks cs := by
  fun_induction unifyBreaks cs with
  | case1 => simp
  | case2 cs ih => simpa using ih
  | case3 cs hcs ih => simpa using ih
  | case4 c cs hcs hc ih => simpa using ⟨Ne.symm hc, ih⟩

/-- What is spelled otherwise than it stands is made of characters of the source and of others that
end no line. -/
theorem Spells.return_not_mem {isLast : Prop} {kind : Kind} {text source : List Char}
    (h : Spells isLast kind text source) (hsource : '\r' ∉ source) : '\r' ∉ text := by
  cases h with
  | verbatim same => exact same ▸ hsource
  | number numeric rewritten =>
      obtain ⟨plain, hplain, htext⟩ := rewritten
      have hmarks : '\r' ∉ Number.withoutMarks source := fun hmem =>
        hsource (List.mem_of_mem_filter hmem)
      have hkept : '\r' ∉ plain := by
        rcases hplain with rfl | hwide
        · exact hmarks
        · exact fun hmem => hmarks (hwide ▸ List.mem_append_left _ hmem)
      rcases htext with rfl | ⟨-, rfl⟩
      · exact hkept
      · simpa using hkept
  | continuation isComment broken shown => simp [shown]
  | leftOpen quote inside atEnd literal opens unclosed closed =>
      rw [closed]
      rcases literal with ⟨-, rfl⟩ | ⟨-, rfl⟩ <;> simpa using hsource

/-- However the lines of a header end, its tokens hold line feeds only. -/
theorem Token.return_not_mem_ofText (file : Option String) (text : String) :
    ∀ t ∈ Token.ofText file text, '\r' ∉ t.spacing.toList ∧ '\r' ∉ t.text.toList := by
  obtain ⟨pieces, h⟩ := Token.exists_pieces .counted file 1 (Text.unifyBreaks text.toList)
  intro t ht
  rw [Token.ofText, ← h.tokens_eq] at ht
  obtain ⟨⟨u, source⟩, hpiece, rfl⟩ := List.mem_map.mp ht
  obtain ⟨before, after, hsplit⟩ := List.append_of_mem hpiece
  have hwhole : '\r' ∉ u.spacing.toList ++ source := fun hmem =>
    Text.return_not_mem_unifyBreaks text.toList
      (h.text_eq ▸ List.mem_flatMap.mpr ⟨_, hpiece, hmem⟩)
  obtain ⟨hspacing, hsource⟩ := not_or.mp (List.mem_append.not.mp hwhole)
  exact ⟨hspacing, (h.spells before u source after hsplit).return_not_mem hsource⟩

/-! ## The text of a build -/

namespace Build

/-- The text of the rules without a name, with line feeds. -/
def front (b : Build) : String :=
  String.join (b.header.map (· ++ "\n"))

/-- The text of the declarations, with the line terminators they have. -/
def body (b : Build) : String :=
  String.join (b.declarations.map (·.text))

/-- Line feeds become the terminator of the build. -/
theorem toList_text (b : Build) : b.text.toList =
    b.lineBreak.respell b.front.toList ++ b.lineBreak.respell b.body.toList := by
  have happend : b.lineBreak.respell b.front.toList ++ b.lineBreak.respell b.body.toList =
      b.lineBreak.respell (b.front ++ b.body).toList := by
    simp [Text.LineBreak.respell]
  rw [happend, text]
  split
  next hlf =>
    rw [eq_of_beq hlf, Text.LineBreak.respell_lf]
    rfl
  next => exact Text.toList_replace_feed _ _

end Build

/-! ## What a filter keeps -/

namespace Text

/-- Up to a line feed stands the first line, with a carriage return before it left out. -/
theorem lineList_feed {line : List Char} (h : '\n' ∉ line) (cs : List Char) :
    lineList (line ++ '\n' :: cs) = dropReturn line :: lineList cs := by
  rw [lineList, piecesThrough_break h, List.map_cons, List.getLast?_concat, if_pos rfl,
    List.dropLast_concat]
  rfl

/-- No line holds a line feed, by induction on the length of the text. -/
theorem feed_not_mem_line {line cs : List Char} (h : line ∈ lineList cs) : '\n' ∉ line := by
  induction hn : cs.length using Nat.strongRecOn generalizing cs with
  | _ n ih =>
    subst hn
    by_cases hfeed : '\n' ∈ cs
    · obtain ⟨first, rest, rfl, hfirst⟩ := List.eq_append_cons_of_mem hfeed
      rw [lineList_feed hfirst] at h
      rcases List.mem_cons.mp h with rfl | h
      · unfold dropReturn
        split
        · exact fun hmem => hfirst (List.dropLast_subset _ hmem)
        · exact hfirst
      · refine ih rest.length ?_ h rfl
        rw [List.length_append, List.length_cons]
        omega
    · rcases eq_or_ne cs [] with rfl | hne
      · cases h
      · rw [lineList_whole hfeed hne] at h
        exact List.mem_singleton.mp h ▸ hfeed

end Text

namespace LineFilter

/-- The lines of a text that stay. -/
def kept (filter : LineFilter) (text : String) : List String :=
  filter.keep none (Text.lines text)

/-- The first terminator of a filtered text is the one behind its first line. -/
theorem firstOf?_apply (filter : LineFilter) (text : String) :
    Text.LineBreak.firstOf? (filter.apply text).toList =
      (filter.kept text).head?.map fun line => .behind line.toList := by
  have happly : filter.apply text = String.join ((filter.kept text).map (· ++ "\n")) := rfl
  rw [happly]
  cases hkept : filter.kept text with
  | nil => rfl
  | cons line lines =>
      have hline : '\n' ∉ line.toList := by
        have hmem : line ∈ filter.keep none (Text.lines text) := by
          rw [kept] at hkept
          simp [hkept]
        obtain ⟨cs, hcs, rfl⟩ := List.mem_map.mp (mem_of_mem_keep hmem)
        rw [String.toList_ofList]
        exact Text.feed_not_mem_line hcs
      have htext : (String.join ((line :: lines).map (· ++ "\n"))).toList =
          line.toList ++ '\n' :: (String.join (lines.map (· ++ "\n"))).toList := by simp
      rw [htext, Text.LineBreak.firstOf?_line hline]
      rfl

end LineFilter

/-! ## What a builder reads -/

/-- The first line terminator of a file as it is stored. -/
def Files.lineBreak? (files : Files) (path : String) : Option Text.LineBreak :=
  (files path).text?.bind fun text => Text.LineBreak.firstOf? text.toList

/-- The lines of a file that a filter keeps. -/
def Files.keptLines (files : Files) (filter : LineFilter) (path : String) : List String :=
  ((files path).text?.map filter.kept).getD []

namespace Builder

variable {b b' : Builder} {files : Files} {p p' : Progress}

/-- The text of a header as it is read. -/
def filtered (b : Builder) (content : String) : String :=
  match b.lineFilter with
  | some filter => filter.apply content
  | none => content

/-- The first line terminator of headers as they are read. -/
def shownBreak? (b : Builder) (files : Files) (paths : List String) : Option Text.LineBreak :=
  paths.findSome? fun path => (files path).text?.bind fun text =>
    Text.LineBreak.firstOf? (b.filtered text).toList

/-- What has been read is what the files hold, filtered, and what has been done so far uses the first
terminator of its headers. -/
structure Shown (b : Builder) (files : Files) (p : Progress) : Prop where
  current : b.sources.Current b.filtered files
  shown : p.lineBreak = b.shownBreak? files p.files

/-- Reading a header changes neither the sources nor the filter, and gives its terminator. -/
theorem readHeader_lineBreak (b : Builder) (outline : Outline) (name : String) (file : SourceFile)
    (dialect : Dialect) :
    (b.readHeader outline name file dialect).2.sources = b.sources ∧
      (b.readHeader outline name file dialect).2.lineFilter = b.lineFilter ∧
      ∀ out, (b.readHeader outline name file dialect).1 = .ok out →
        out.2 = Text.LineBreak.firstOf? file.content.toList := by
  unfold readHeader
  dsimp only
  generalize ReadM.perform _ _ = run
  obtain ⟨outcome, after⟩ := run
  cases outcome with
  | error failure => exact ⟨rfl, rfl, fun out h => nomatch h⟩
  | ok =>
      refine ⟨rfl, rfl, fun out h => ?_⟩
      obtain rfl := Except.ok.inj h
      rfl

/-- One header: passed over, or read behind those before. -/
theorem Shown.readInclude (h : b.Shown files p) (hfiles : files.Faithful) {i : Include}
    (hread : b.readInclude files p i = (.ok p', b')) :
    b'.Shown files p' ∧ b'.lineFilter = b.lineFilter := by
  unfold Builder.readInclude at hread
  generalize (b.resolve? files i.name).getD (nominalPath i.name) = path at hread
  dsimp only at hread
  split at hread
  · cases hread
    exact ⟨h, rfl⟩
  split at hread
  · cases hread
  split at hread
  · cases hread
  next content hcontent =>
    obtain ⟨hcurrent, file, hfile, htext⟩ := h.current.add hfiles hcontent i.dialect
    have hregister : b.register path content i.dialect =
        ({ b with sources := (b.sources.add path (b.filtered content) i.dialect).2 }, file) :=
      Prod.ext rfl (congrArg (Option.getD · _) hfile)
    rw [hregister] at hread
    obtain ⟨hsources, hfilter, hbreak⟩ := readHeader_lineBreak
      { b with sources := (b.sources.add path (b.filtered content) i.dialect).2 } p.outline i.name
      file i.dialect
    dsimp only at hread
    split at hread
    · cases hread
    next outline lineBreak b₁ hheader =>
      rw [hheader] at hsources hfilter hbreak
      cases hread
      have hsame : b'.filtered = b.filtered := by
        funext content
        rw [filtered, hfilter]
        rfl
      refine ⟨⟨?_, ?_⟩, hfilter⟩
      · rw [hsame, hsources]
        exact hcurrent
      · have hlast : lineBreak = Text.LineBreak.firstOf? (b.filtered content).toList :=
          (hbreak _ rfl).trans (by rw [htext])
        have hboth : b'.shownBreak? files (p.files ++ [path]) =
            (b.shownBreak? files p.files).or lineBreak := by
          simp [shownBreak?, hsame, hcontent, hlast]
        rw [hboth, h.shown]
        cases b.shownBreak? files p.files <;> rfl

/-- Headers in order, by induction on these. -/
theorem Shown.readIncludes (hfiles : files.Faithful) (includes : List Include) :
    ∀ {b : Builder} {p : Progress}, b.Shown files p →
      b.readIncludes files p includes = (.ok p', b') →
      b'.Shown files p' ∧ b'.lineFilter = b.lineFilter := by
  induction includes with
  | nil =>
      intro b p h hread
      cases hread
      exact ⟨h, rfl⟩
  | cons i more ih =>
      intro b p h hread
      rw [Builder.readIncludes] at hread
      split at hread
      · cases hread
      next p₁ b₁ hfirst =>
        obtain ⟨hshown, hfilter⟩ := h.readInclude hfiles hfirst
        obtain ⟨hshown', hfilter'⟩ := ih hshown hread
        exact ⟨hshown', hfilter'.trans hfilter⟩

theorem printContainers_keeps (b : Builder) : b.printContainers.2.sources = b.sources ∧
    b.printContainers.2.lineFilter = b.lineFilter := by
  unfold printContainers
  split <;> exact ⟨rfl, rfl⟩

/-- Without a filter headers are read as they are stored. -/
theorem shownBreak?_of_none (h : b.lineFilter = none) (files : Files) (paths : List String) :
    b.shownBreak? files paths = paths.findSome? files.lineBreak? := by
  have hsame : b.filtered = id := by
    funext content
    rw [filtered, h]
    rfl
  rw [shownBreak?, hsame]
  rfl

/-- With a filter only the first line that stays counts. -/
theorem shownBreak?_of_some {filter : LineFilter} (h : b.lineFilter = some filter) (files : Files)
    (paths : List String) : b.shownBreak? files paths =
      (paths.flatMap (files.keptLines filter)).head?.map fun line => .behind line.toList := by
  have hsame : b.filtered = filter.apply := by
    funext content
    rw [filtered, h]
  have hone (path : String) : ((files path).text?.bind fun text =>
      Text.LineBreak.firstOf? (b.filtered text).toList) =
      (files.keptLines filter path).head?.map fun line => .behind line.toList := by
    rw [hsame, Files.keptLines]
    cases (files path).text? with
    | none => rfl
    | some text =>
        simp only [Option.bind_some]
        exact filter.firstOf?_apply text
  rw [shownBreak?]
  simp only [hone]
  induction paths with
  | nil => rfl
  | cons path paths ih =>
      rw [List.findSome?_cons, List.flatMap_cons, List.head?_append, ih]
      cases (files.keptLines filter path).head? <;> rfl

/-- **The line terminator of a build.** Without a filter it is the first one that its headers hold as
they are stored, and with one that of the first line that stays. In the text of the build the
declarations have no other, if it is a carriage return or they hold none of these themselves; the
tokens they are read from hold none. -/
theorem build_lineBreak {includes : List Include} {build : Build} (hfiles : files.Faithful)
    (hcurrent : b.sources.Current b.filtered files)
    (hbuild : (b.build files includes).1 = .ok build) :
    (b.lineFilter = none →
      build.lineBreak = (build.files.findSome? files.lineBreak?).getD .lf) ∧
    (∀ filter, b.lineFilter = some filter → build.lineBreak =
      (((build.files.flatMap (files.keptLines filter)).head?.map fun line =>
        .behind line.toList).getD .lf)) ∧
    ∃ front body, build.text.toList = front ++ body ∧
      body = build.lineBreak.respell build.body.toList ∧
      ((∀ x ∈ Text.LineBreak.allOf body, x = build.lineBreak) ↔
        build.lineBreak = .cr ∨ '\r' ∉ build.body.toList) ∧
      ∀ file content, ∀ t ∈ Token.ofText file content,
        '\r' ∉ t.spacing.toList ∧ '\r' ∉ t.text.toList := by
  have hshown : build.lineBreak = (b.shownBreak? files build.files).getD .lf := by
    obtain ⟨hsources, hfilter⟩ := b.printContainers_keeps
    rw [Builder.build] at hbuild
    split at hbuild
    · cases hbuild
    next outline b₁ hcontainers =>
      rw [hcontainers] at hsources hfilter
      have hsame : b₁.filtered = b.filtered := by
        funext content
        rw [filtered, hfilter]
        rfl
      have hstart : b₁.Shown files { outline } := ⟨by rwa [hsame, hsources], rfl⟩
      split at hbuild
      · cases hbuild
      next p b₂ hread =>
        obtain ⟨hend, hfilter'⟩ := hstart.readIncludes hfiles includes hread
        have hsame' : b₂.filtered = b.filtered := by
          funext content
          rw [filtered, hfilter', hfilter]
          rfl
        obtain rfl := Except.ok.inj hbuild
        change p.lineBreak.getD .lf = _
        rw [hend.shown, shownBreak?, hsame']
        rfl
  refine ⟨fun hnone => ?_, fun filter hsome => ?_, _, _, build.toList_text, rfl,
    Text.LineBreak.forall_respell_iff, Token.return_not_mem_ofText⟩
  · rw [hshown, shownBreak?_of_none hnone]
  · rw [hshown, shownBreak?_of_some hsome]

theorem faithful_onlyFile (path content : String) : (Project.onlyFile path content).Faithful := by
  have htext (other text : String) (h : (Project.onlyFile path content other).text? = some text) :
      (Project.onlyFile path content path).text? = some text := by
    by_cases hother : other = path
    · exact hother ▸ h
    · rw [Project.onlyFile, if_neg (by simpa using hother)] at h
      cases h
  intro first second _ text text' h h'
  exact Option.some.inj ((htext first text h).symm.trans (htext second text' h'))

/-- A header as it was written on another system. -/
def returning : Files :=
  Project.onlyFile "a.h" "int a;\r\nint b;\r\n"

/-- Without a filter the line terminator stays. -/
theorem build_lineBreak_crlf : ∃ build,
    (({ table := {} } : Builder).build returning [{ name := "a.h" }]).1 = .ok build ∧
      build.files = ["a.h"] ∧ build.lineBreak = .crlf := by
  have hrun : (({ table := {} } : Builder).build returning [{ name := "a.h" }]).1.toOption.map
      (·.files) = some ["a.h"] := by decide +kernel
  obtain ⟨build, hbuild, hfiles⟩ := Option.map_eq_some_iff.mp hrun
  have hok : (({ table := {} } : Builder).build returning [{ name := "a.h" }]).1 = .ok build := by
    cases houtcome : (({ table := {} } : Builder).build returning [{ name := "a.h" }]).1 with
    | error fault => rw [houtcome] at hbuild; cases hbuild
    | ok built => rw [houtcome] at hbuild; cases hbuild; rfl
  refine ⟨build, hok, hfiles, ?_⟩
  have hbreak := (build_lineBreak (faithful_onlyFile _ _)
    (SourceMap.current_empty _ _) hok).1 rfl
  rw [hbreak, hfiles]
  decide +kernel

/-- A filter that leaves nothing out makes a line feed of it. -/
theorem filtered_terminator_is_lost :
    let filter : LineFilter := ⟨[⟨(· == "nothing"), none⟩], true⟩
    let b : Builder := { table := {}, lineFilter := some filter }
    returning.keptLines filter "a.h" = ["int a;", "int b;"] ∧
      returning.lineBreak? "a.h" = some .crlf ∧
      (b.build returning [{ name := "a.h" }]).1.toOption.map
        (fun build => (build.files, build.lineBreak)) = some (["a.h"], .lf) := by
  decide +kernel

end Builder

end HeaderPeers

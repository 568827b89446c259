import HeaderPeers.Build
import HeaderPeers.Proofs.NameRules
import HeaderPeers.Proofs.RuleGrowth
import HeaderPeers.Proofs.Reading

/-!
# Excluded headers

The names that a project excludes are the names of one rule, put before all
others, which says that a file is passed over. It is looked up by the last name of
the path that a header is read from, and a header may put a rule of its own in
front of it. Where neither makes a difference, a build does what it would do if
the excluded headers were not listed.

- `Path.fileName?_join` — a plain file name is the last name of its path in any
  directory.
- `Builder.Grows` — what reading headers leaves of a builder.
- `Builder.Skips` — a rule that passes over a file, in front of all others.
- `Project.build_eq_of_excluded` — when a listed header that is excluded is not
  read.
- `Project.excluded_path_is_missed` — a name with a directory is not found.
-/

set_option mvcgen.warning false

namespace HeaderPeers

/-! ## The last name of a path -/

namespace Text

variable {p : Char → Bool} {w : List Char}

theorem splitChars_piece (hw : ∀ c ∈ w, p c = false) : splitChars p w = [w] := by
  induction w with
  | nil => rfl
  | cons c w ih =>
      have hrest := ih fun d hd => hw d (List.mem_cons_of_mem _ hd)
      simp [splitChars, hrest, hw c List.mem_cons_self]

/-- What stands behind the last separator is the last piece, and not the only one. -/
theorem exists_splitChars_append {c : Char} (hc : p c = true) (hw : ∀ d ∈ w, p d = false)
    (cs : List Char) : ∃ piece pieces, splitChars p (cs ++ c :: w) = piece :: pieces ++ [w] := by
  induction cs with
  | nil => exact ⟨[], [], by simp [splitChars, splitChars_piece hw, hc]⟩
  | cons d cs ih =>
      obtain ⟨piece, pieces, hsplit⟩ := ih
      by_cases hd : p d = true
      · exact ⟨[], piece :: pieces, by simp [splitChars, hsplit, hd]⟩
      · exact ⟨d :: piece, pieces, by simp [splitChars, hsplit, hd]⟩

end Text

namespace Path

/-- Whether a text is one name, and no way to a directory. -/
def isName (name : String) : Bool :=
  !name.toList.contains '/' && name != "" && name != "." && name != ".."

variable {name path : String}

theorem ne_separator_of_isName (hname : isName name = true) :
    ∀ c ∈ name.toList, (c == '/') = false := by
  simp only [isName, Bool.and_eq_true, Bool.not_eq_true', List.contains_eq_mem,
    decide_eq_false_iff_not] at hname
  intro c hc
  simpa using fun h : c = '/' => hname.1.1.1 (h ▸ hc)

/-- A path whose last piece is a name ends in it. -/
theorem fileName?_of_split (pieces : List String) (hname : isName name = true)
    (hsplit : Text.split (· == '/') path = pieces ++ [name]) : fileName? path = some name := by
  have hslash : name ≠ "/" := by
    rintro rfl
    cases hname
  simp only [isName, Bool.and_eq_true, bne_iff_ne, ne_eq] at hname
  obtain ⟨⟨⟨-, hempty⟩, hdot⟩, hup⟩ := hname
  have hlast : ∀ names : List String,
      ((names ++ [name]).filter fun n => n != "" && n != ".").getLast? = some name := by
    intro names
    simp [List.filter_append, hempty, hdot]
  have hcomponents : (components path).getLast? = some name := by
    unfold components
    rw [hsplit]
    split
    · rw [List.getLast?_cons, hlast pieces, Option.getD_some]
    · cases pieces with
      | nil => simp [hempty]
      | cons first more =>
          simp only [List.cons_append, List.getLast?_append, hlast more, Option.some_or]
  simp [fileName?, hcomponents, hslash, hdot, hup]

theorem fileName?_name (hname : isName name = true) : fileName? name = some name := by
  refine fileName?_of_split [] hname ?_
  rw [Text.split, Text.splitChars_piece (ne_separator_of_isName hname)]
  simp

theorem fileName?_behind (hname : isName name = true) (directory : String) :
    fileName? (directory ++ "/" ++ name) = some name := by
  obtain ⟨piece, pieces, hpieces⟩ := Text.exists_splitChars_append (p := (· == '/'))
    (c := '/') rfl (ne_separator_of_isName hname) directory.toList
  refine fileName?_of_split ((piece :: pieces).map String.ofList) hname ?_
  simp [Text.split, hpieces]

/-- **Plain names.** In whatever directory a file with a plain name lies, that
name is the last name of its path. -/
theorem fileName?_join (hname : isName name = true) (directory : String) :
    fileName? (join directory name) = some name := by
  unfold join
  split
  · exact fileName?_name hname
  split
  next h =>
    rcases Bool.or_eq_true_iff.mp h with hempty | hends
    · rw [String.isEmpty_iff.mp hempty, String.empty_append]
      exact fileName?_name hname
    · obtain ⟨before, hbefore⟩ := List.isSuffixOf_iff_suffix.mp hends
      have hdirectory : directory = String.ofList before ++ "/" := by
        rw [← String.toList_inj, ← hbefore]
        simp
      rw [hdirectory]
      exact fileName?_behind hname _
  · exact fileName?_behind hname directory

end Path

/-- The path of a header that could not be read. -/
def Build.Fault.path? : Build.Fault → Option String
  | .reading _ => none
  | .missing path => some path
  | .unreadable path => some path

/-- Whether a path is neither among the headers that were read nor the one that
could not be. -/
def Build.avoids {α : Type} (path : String) (files : α → List String) :
    Except Build.Fault α → Bool
  | .ok result => !(files result).contains path
  | .error fault => fault.path? != some path

/-! ## What reading leaves of a builder -/

/-- A layer in good order is an invariant of reading. -/
@[reducible]
def RuleTable.soundness : ReadInvariant where
  holds _ s := s.table.top.Sound
  core t _ _ := t.top.Sound
  place _ := True
  place_of_le _ _ := trivial
  moved hs _ := hs
  looked hs _ := hs
  warned hs := hs
  bared hs := hs
  covered _ hs' := hs'
  entered hs := hs
  left _ hs' := hs'
  anywhere _ := trivial
  learned hs := hs.putEntry _ _
  printed hs := hs
  named hs := hs
  respaced hs := hs
  core_learned hs := hs.putEntry _ _
  core_printed hs := hs

section
open Std.Do ReadM

theorem Container.printAll_keeps [ReadInvariant] {raw : Bool} (scope : Scope) :
    Keeps raw (Container.printAll scope) := by
  have hprint (family : String) (rule : Rule) : Keeps raw (printFor scope family rule) := by
    mvcgen [printFor]
    exact NativeType.read_keepsInside scope
  mvcgen [printAll, hprint]

end

namespace ReadM

variable {α : Type}

/-- What an invariant says of the table holds in the end, however a step ends. -/
theorem Keeps.perform {inv : ReadInvariant} {P : RuleTable → Prop} {step : ReadM α} {s : Reading}
    (hkeeps : Keeps false step) (hstart : inv.holds false s)
    (hend : ∀ s', inv.holds false s' → P s'.table) : P (perform step s).2.table :=
  hend _ (holds_perform hkeeps hstart)

end ReadM

namespace Builder

/-- Rules are added, each list staying in order, and files are looked for in the
same places. -/
structure Grows (b b' : Builder) : Prop where
  table : b.table.Extends b'.table
  sound : b.table.top.Sound → b'.table.top.Sound
  searchPath : b'.searchPath = b.searchPath

variable {b b₁ b₂ b₃ : Builder} {files : Files}

theorem Grows.refl (b : Builder) : b.Grows b :=
  ⟨.refl b.table, id, rfl⟩

theorem Grows.trans (h₁ : b₁.Grows b₂) (h₂ : b₂.Grows b₃) : b₁.Grows b₃ :=
  ⟨⟨h₂.table.under.trans h₁.table.under, h₁.table.top.trans h₂.table.top⟩,
    h₂.sound ∘ h₁.sound, h₂.searchPath.trans h₁.searchPath⟩

/-- What is put together from steps that keep every invariant lets the table grow. -/
theorem Grows.of_keeps {α : Type} {step : ReadM α}
    (hkeeps : ∀ _ : ReadInvariant, ReadM.Keeps false step) (b : Builder) (tokens : List Token)
    (outline : Outline) (warnings : List Diagnostic) :
    b.Grows { b with
      table := (ReadM.perform step { Reading.ofTokens b.table tokens with outline }).2.table
      warnings } := by
  refine ⟨?_, fun hsound => ?_, rfl⟩
  · exact (hkeeps b.table.growth).perform (.refl b.table) fun _ hs => hs
  · exact (hkeeps RuleTable.soundness).perform (P := fun table => table.top.Sound) hsound
      fun _ hs => hs

theorem printContainers_grows (b : Builder) : b.Grows b.printContainers.2 := by
  have hgrows (warnings : List Diagnostic) : b.Grows { b with
      table := (ReadM.perform (Container.printAll {}) (.ofTokens b.table [])).2.table, warnings } :=
    Grows.of_keeps (fun _ => Container.printAll_keeps {}) b [] {} warnings
  unfold printContainers
  split
  next hrun => simpa only [hrun] using hgrows b.warnings
  next after hrun => simpa only [hrun] using hgrows (b.warnings ++ after.warnings.toList)

theorem readHeader_grows (b : Builder) (outline : Outline) (name : String) (file : SourceFile)
    (dialect : Dialect) : b.Grows (b.readHeader outline name file dialect).2 := by
  have hgrows := Grows.of_keeps (fun _ => Statement.readAll_keeps (fun _ => trivial) { cOnly := dialect == .c }) b
    (Token.ofText (some file.path) file.content)
    (b.addComment outline ("\n// Parsed from " ++ name ++ "\n\n"))
  unfold readHeader
  dsimp only
  generalize hrun : ReadM.perform _ _ = run
  obtain ⟨outcome, after⟩ := run
  have hafter := hgrows (b.warnings ++ after.warnings.toList)
  rw [hrun] at hafter
  cases outcome <;> exact hafter

/-- The path that a header is read from, or reported by if it is nowhere. -/
def pathOf (b : Builder) (files : Files) (i : Include) : String :=
  (b.resolve? files i.name).getD (nominalPath i.name)

theorem readInclude_grows (b : Builder) (files : Files) (p : Progress) (i : Include) :
    b.Grows (b.readInclude files p i).2 := by
  unfold readInclude
  rw [← pathOf]
  generalize b.pathOf files i = path
  dsimp only
  split
  · exact .refl b
  split
  · exact .refl b
  split
  · exact .refl b
  next content _ =>
    have hregister : b.Grows (b.register path content i.dialect).1 := ⟨.refl b.table, id, rfl⟩
    have hread := hregister.trans (readHeader_grows _ p.outline i.name
      (b.register path content i.dialect).2 i.dialect)
    split
    next h => rwa [h] at hread
    next h => rwa [h] at hread

theorem readIncludes_grows (files : Files) (includes : List Include) :
    ∀ (b : Builder) (p : Progress), b.Grows (b.readIncludes files p includes).2 := by
  induction includes with
  | nil => exact fun b _ => .refl b
  | cons i more ih =>
      intro b p
      have hfirst := b.readInclude_grows files p i
      unfold readIncludes
      split
      next hread => simpa only [hread] using hfirst
      next b' hread =>
        rw [hread] at hfirst
        exact hfirst.trans (ih b' _)

/-! ## A rule in front of all others -/

/-- The key that a rule for a file is looked up under first. -/
def fileKey (path : String) : String :=
  Name.normalize ((Path.fileName? path).getD "") false false

/-- An entry in front of all others under the key of a file passes over it. -/
structure Skips (b : Builder) (entry : Entry) (path : String) : Prop where
  skip : entry.rule.skip = true
  first : (b.table.top.find? (fileKey path)).bind List.head? = some entry

theorem Skips.isExcluded {entry : Entry} {path : String} (h : b.Skips entry path) :
    b.isExcluded path = true := by
  obtain ⟨list, hfind, hhead⟩ := Option.bind_eq_some_iff.mp h.first
  have hget : b.table.top.get ((Path.fileName? path).getD "") true = list := by
    have hfind' : b.table.top.find?
        (Name.normalize ((Path.fileName? path).getD "") false false) = some list := hfind
    simp only [Layer.get, hfind']
  simp [Builder.isExcluded, RuleTable.find?, RuleTable.findWith?, RuleTable.layers, hget, hhead,
    h.skip]

/-- An entry that is first in a list without repetition is first in every part of
the list that has it. -/
theorem head?_of_sublist {α : Type} {a : α} {list list' : List α} (hsub : list.Sublist list')
    (hnodup : list'.Nodup) (hmem : a ∈ list) (hhead : list'.head? = some a) :
    list.head? = some a := by
  obtain ⟨rest, rfl⟩ := List.head?_eq_some_iff.mp hhead
  cases hsub with
  | cons _ hrest => exact absurd (hrest.subset hmem) (List.nodup_cons.mp hnodup).1
  | cons_cons _ _ => rfl

/-- What is passed over at first and in the end is passed over all the time. -/
theorem Skips.between {entry : Entry} {path : String} (h : b₁.Skips entry path)
    (h₁₂ : b₁.Grows b₂) (h₂₃ : b₂.Grows b₃) (h₃ : b₃.Skips entry path)
    (hsound : b₃.table.top.Sound) : b₂.Skips entry path := by
  obtain ⟨list₁, hfind₁, hhead₁⟩ := Option.bind_eq_some_iff.mp h.first
  obtain ⟨list₂, hfind₂, hsub₁₂⟩ := h₁₂.table.top _ _ hfind₁
  obtain ⟨list₃, hfind₃, hsub₂₃⟩ := h₂₃.table.top _ _ hfind₂
  have hhead₃ : list₃.head? = some entry := by simpa [hfind₃] using h₃.first
  have hnodup : list₃.Nodup := by
    obtain ⟨before, behind, hlists, -⟩ := List.lookup_eq_some_iff.mp hfind₃
    exact List.Nodup.of_map _ (hsound.belongs (fileKey path) list₃ (by simp [hlists])).nodup
  refine ⟨h.skip, Option.bind_eq_some_iff.mpr ⟨list₂, hfind₂, ?_⟩⟩
  exact head?_of_sublist hsub₂₃ hnodup (hsub₁₂.subset (List.mem_of_head? hhead₁)) hhead₃

/-! ## Builds without the excluded headers -/

theorem pathOf_of_grows (h : b.Grows b') (files : Files) (i : Include) :
    b'.pathOf files i = b.pathOf files i := by
  simp only [pathOf, resolve?, candidates, h.searchPath]

theorem readInclude_of_isExcluded {p : Progress} {i : Include}
    (h : b.isExcluded (b.pathOf files i) = true) : b.readInclude files p i = (.ok p, b) := by
  unfold readInclude
  rw [← pathOf]
  simp only [h, if_true]

theorem avoids_ok {p : Progress} {path : String} :
    Build.avoids path Progress.files (.ok p) = true ↔ path ∉ p.files := by
  simp [Build.avoids]

theorem readInclude_avoids {p : Progress} {path : String} (h : b.isExcluded path = true)
    (hnew : path ∉ p.files) (files : Files) (i : Include) :
    Build.avoids path Progress.files (b.readInclude files p i).1 = true := by
  unfold readInclude
  rw [← pathOf]
  by_cases hpath : b.pathOf files i = path
  · simpa only [hpath, h, if_true] using avoids_ok.mpr hnew
  generalize b.pathOf files i = other at hpath
  dsimp only
  split
  · exact avoids_ok.mpr hnew
  split
  · simpa [Build.avoids, Build.Fault.path?] using hpath
  split
  · simpa [Build.avoids, Build.Fault.path?] using hpath
  split
  · rfl
  · simpa [Build.avoids, hnew] using fun h : path = other => hpath h.symm

section
variable {start : Builder} {entry : Entry}

/-- Headers that are passed over all the time might as well not be listed. -/
theorem readIncludes_eq_filter (out : Include → Bool) (includes : List Include) :
    ∀ (b : Builder) (p : Progress), start.Grows b →
      (b.readIncludes files p includes).2.table.top.Sound →
      (∀ i ∈ includes, out i = true → start.Skips entry (start.pathOf files i) ∧
        (b.readIncludes files p includes).2.Skips entry (start.pathOf files i)) →
      b.readIncludes files p includes = b.readIncludes files p (includes.filter (!out ·)) := by
  induction includes with
  | nil => exact fun _ _ _ _ _ => rfl
  | cons i more ih =>
      intro b p hgrows hsound hskips
      have hend := b.readIncludes_grows files (i :: more) p
      have hmore := fun j hj => hskips j (List.mem_cons_of_mem i hj)
      by_cases hout : out i = true
      · obtain ⟨hstart, hfinal⟩ := hskips i List.mem_cons_self hout
        have hpassed : b.readInclude files p i = (.ok p, b) := by
          have hskips := hstart.between hgrows hend hfinal hsound
          rw [← pathOf_of_grows hgrows] at hskips
          exact readInclude_of_isExcluded hskips.isExcluded
        have hrun : b.readIncludes files p (i :: more) = b.readIncludes files p more := by
          simp only [readIncludes, hpassed]
        rw [hrun] at hsound hmore ⊢
        rw [List.filter_cons_of_neg (by simp [hout])]
        exact ih b p hgrows hsound hmore
      · rw [List.filter_cons_of_pos (by simp [hout])]
        have hfirst := b.readInclude_grows files p i
        simp only [readIncludes] at hsound hmore ⊢
        cases hread : b.readInclude files p i with
        | mk outcome b' =>
          rw [hread] at hfirst
          cases outcome with
          | error fault => rfl
          | ok p' =>
            simp only [hread] at hsound hmore
            exact ih b' p' (hgrows.trans hfirst) hsound hmore

/-- A path that is passed over all the time is never read. -/
theorem readIncludes_avoids {path : String} (includes : List Include) :
    ∀ (b : Builder) (p : Progress), start.Grows b → start.Skips entry path →
      (b.readIncludes files p includes).2.table.top.Sound →
      (b.readIncludes files p includes).2.Skips entry path → path ∉ p.files →
      Build.avoids path Progress.files (b.readIncludes files p includes).1 = true := by
  induction includes with
  | nil => exact fun _ _ _ _ _ _ hnew => avoids_ok.mpr hnew
  | cons i more ih =>
      intro b p hgrows hstart hsound hfinal hnew
      have hend := b.readIncludes_grows files (i :: more) p
      have hexcluded := (hstart.between hgrows hend hfinal hsound).isExcluded
      have hfirst := b.readInclude_grows files p i
      have hstep := readInclude_avoids hexcluded hnew files i
      simp only [readIncludes] at hsound hfinal ⊢
      cases hread : b.readInclude files p i with
      | mk outcome b' =>
        rw [hread] at hfirst hstep
        cases outcome with
        | error fault => exact hstep
        | ok p' =>
          simp only [hread] at hsound hfinal
          exact ih b' p' (hgrows.trans hfirst) hstart hsound hfinal (avoids_ok.mp hstep)

/-- What a build makes of the headers that were read. -/
def built : Except Build.Fault Progress × Builder → Except Build.Fault Build × Builder
  | (.error fault, b) => (.error fault, b)
  | (.ok p, b) =>
    (.ok {
      header := b.table.unnamed.filterMap (·.targetText)
      declarations := p.outline.toList
      files := p.files
      lineBreak := p.lineBreak.getD .lf
      warnings := b.warnings.map (·.text) }, b)

theorem build_eq_built {outline : Outline} (h : b.printContainers = (.ok outline, b'))
    (files : Files) (includes : List Include) :
    b.build files includes = built (b'.readIncludes files { outline } includes) := by
  unfold build
  simp only [h]
  generalize b'.readIncludes files { outline } includes = read
  obtain ⟨outcome, after⟩ := read
  cases outcome <;> rfl

theorem built_snd (read : Except Build.Fault Progress × Builder) : (built read).2 = read.2 := by
  obtain ⟨outcome, b⟩ := read
  cases outcome <;> rfl

theorem avoids_built {path : String} {read : Except Build.Fault Progress × Builder}
    (h : Build.avoids path Progress.files read.1 = true) :
    Build.avoids path Build.files (built read).1 = true := by
  obtain ⟨outcome, b⟩ := read
  cases outcome <;> exact h

/-- A build does not read what is passed over before it and after it. -/
theorem build_eq_filter (entry : Entry) (out : Include → Bool) (includes : List Include)
    (hsound : b.table.top.Sound)
    (hskips : ∀ i ∈ includes, out i = true → b.Skips entry (b.pathOf files i) ∧
      (b.build files includes).2.Skips entry (b.pathOf files i)) :
    b.build files includes = b.build files (includes.filter (!out ·)) ∧
      ∀ i ∈ includes, out i = true →
        Build.avoids (b.pathOf files i) Build.files (b.build files includes).1 = true := by
  have hgrows := b.printContainers_grows
  cases hcontainers : b.printContainers with
  | mk outcome b' =>
    rw [hcontainers] at hgrows
    cases outcome with
    | error failure =>
      have hfailed (includes : List Include) :
          b.build files includes = (.error (.reading failure), b') := by
        simp only [build, hcontainers]
      rw [hfailed, hfailed]
      exact ⟨rfl, fun _ _ _ => rfl⟩
    | ok outline =>
      simp only [build_eq_built hcontainers, built_snd] at hskips ⊢
      have hsound' := (hgrows.trans (b'.readIncludes_grows files includes { outline })).sound hsound
      refine ⟨?_, fun i hi hout => ?_⟩
      · rw [readIncludes_eq_filter out includes b' { outline } hgrows hsound' hskips]
      · obtain ⟨hstart, hfinal⟩ := hskips i hi hout
        exact avoids_built (readIncludes_avoids includes b' { outline } hgrows hstart hsound' hfinal
          List.not_mem_nil)

end

end Builder

/-! ## Projects -/

namespace Project

variable {p : Project}

/-- The rule that passes over the excluded headers, as it is put before all others. -/
def exclusion (p : Project) : Entry :=
  ⟨0, { nativeNames := p.selection.exclude, skip := true }⟩

/-- Whether a header is to be excluded. -/
def excludes (p : Project) (i : Include) : Bool :=
  p.selection.exclude.contains i.name

theorem table_reachable (p : Project) : p.table.Reachable :=
  (RuleTable.Reachable.foldl_put .empty Rule.builtin).child.foldl_put _

/-- What is put behind the others leaves the first where it is. -/
theorem find?_foldl_put_head {key : String} {entry : Entry} (rules : List Rule) (table : RuleTable)
    (h : (table.top.find? key).bind List.head? = some entry) :
    ((rules.foldl (fun t r => t.put r) table).top.find? key).bind List.head? = some entry := by
  induction rules generalizing table with
  | nil => exact h
  | cons rule rules ih =>
      refine ih _ ?_
      obtain ⟨list, hfind, hhead⟩ := Option.bind_eq_some_iff.mp h
      obtain ⟨rest, rfl⟩ := List.head?_eq_some_iff.mp hhead
      simp only [RuleTable.put, Layer.find?_putAt, hfind]
      split
      · simp only [Layer.place, Option.getD_some, Option.bind_some]
        split <;> rfl
      · exact hhead

/-- A header with a plain name is read from a path that ends in its name. -/
theorem fileName?_pathOf {i : Include} (hname : Path.isName i.name = true)
    (hopen : i.name.toList.head? ≠ some '<') (hclose : i.name.toList.getLast? ≠ some '>')
    (b : Builder) (files : Files) : Path.fileName? (b.pathOf files i) = some i.name := by
  have hopens : i.name.toList.dropWhile (· == '<') = i.name.toList := by
    cases hcs : i.name.toList with
    | nil => rfl
    | cons c cs => simpa [hcs] using hopen
  have hcloses : i.name.toList.reverse.dropWhile (· == '>') = i.name.toList.reverse := by
    rw [← List.head?_reverse] at hclose
    cases hcs : i.name.toList.reverse with
    | nil => rfl
    | cons c cs => simpa [hcs] using hclose
  have hnominal : Builder.nominalPath i.name = i.name := by
    rw [Builder.nominalPath, hopens, Text.dropEndWhile, hcloses, List.reverse_reverse,
      String.ofList_toList]
  have hcandidates : ∀ path ∈ b.candidates i.name, Path.fileName? path = some i.name := by
    have hplain : Builder.bracketed? i.name = none := by
      have hstart : Text.startsWith "<" i.name = false := by
        unfold Text.startsWith
        cases hcs : i.name.toList with
        | nil => rfl
        | cons c cs =>
            have hc : '<' ≠ c := by simpa [hcs, eq_comm] using hopen
            simp [List.isPrefixOf, hc]
      simp [Builder.bracketed?, Text.dropHead?, hstart]
    simp only [Builder.candidates, hplain, List.forall_mem_cons, List.forall_mem_map]
    exact ⟨Path.fileName?_name hname, fun directory _ => Path.fileName?_join hname directory⟩
  unfold Builder.pathOf
  cases hresolve : b.resolve? files i.name with
  | none => rw [Option.getD_none, hnominal, Path.fileName?_name hname]
  | some path => exact hcandidates path (List.mem_of_find?_eq_some hresolve)

/-- An excluded header with a plain name is looked up under a key of its own name. -/
theorem fileKey_mem_keysOf {i : Include} (hname : Path.isName i.name = true)
    (hopen : i.name.toList.head? ≠ some '<') (hclose : i.name.toList.getLast? ≠ some '>')
    (b : Builder) (files : Files) :
    Builder.fileKey (b.pathOf files i) ∈ Layer.keysOf i.name := by
  rw [Builder.fileKey, fileName?_pathOf hname hopen hclose]
  exact List.mem_cons_self

/-- At first the exclusions are found under all their keys. -/
theorem ofProject_skips {base path name : String} (hname : name ∈ p.selection.exclude)
    (hkey : Builder.fileKey path ∈ Layer.keysOf name) :
    (Builder.ofProject p base).Skips p.exclusion path := by
  refine ⟨rfl, ?_⟩
  have hsome : p.selection.exclude.isEmpty = false := by
    cases hlist : p.selection.exclude with
    | nil => simp [hlist] at hname
    | cons _ _ => rfl
  have htable : (Builder.ofProject p base).table =
      p.rules.foldl (fun t r => t.put r) (RuleTable.standard.put p.exclusion.rule) := by
    simp [Builder.ofProject, table, hsome, exclusion]
  rw [htable]
  refine find?_foldl_put_head _ _ ?_
  have hkeys : Builder.fileKey path ∈ (Layer.namesOf p.exclusion.rule).flatMap Layer.keysOf := by
    simp only [Layer.namesOf, exclusion, hsome, Bool.false_eq_true, if_false]
    exact List.mem_flatMap.mpr ⟨name, hname, hkey⟩
  simp only [RuleTable.put, Layer.find?_putAt, if_pos hkeys]
  rfl

/-- **Excluded headers.** A build of a project does what it would do if the headers
that are excluded were not listed: none of them is read, and it is no fault if one
is nowhere. This is so if the last name of the path of each of them has the key of
an excluded name, and no header puts a rule for that key in front of the
exclusion. -/
theorem build_eq_of_excluded (p : Project) (base : String) (files : Files)
    (hkey : ∀ i ∈ p.headers, p.excludes i = true → ∃ name ∈ p.selection.exclude,
      Builder.fileKey ((Builder.ofProject p base).pathOf files i) ∈ Layer.keysOf name)
    (hfirst : ∀ i ∈ p.headers, p.excludes i = true →
      ((Builder.ofProject p base).build files p.headers).2.Skips p.exclusion
        ((Builder.ofProject p base).pathOf files i)) :
    (Builder.ofProject p base).build files p.headers =
        (Builder.ofProject p base).build files (p.headers.filter (!p.excludes ·)) ∧
      ∀ i ∈ p.headers, p.excludes i = true →
        Build.avoids ((Builder.ofProject p base).pathOf files i) Build.files
          ((Builder.ofProject p base).build files p.headers).1 = true := by
  have hsound : (Builder.ofProject p base).table.top.Sound :=
    p.table_reachable.sound _ List.mem_cons_self
  refine Builder.build_eq_filter p.exclusion p.excludes p.headers hsound fun i hi hout => ?_
  obtain ⟨name, hname, hnamed⟩ := hkey i hi hout
  exact ⟨ofProject_skips hname hnamed, hfirst i hi hout⟩

/-- A project whose headers are all excluded. -/
def ofExcluded : Project where
  name := "p"
  selection :=
    { includePaths := ["include"], includes := ["x.h"], cIncludes := ["z.h"]
      exclude := ["x.h", "z.h"] }

/-- Nothing but one file. -/
def onlyFile (path content : String) : Files := fun other =>
  if other == path then .holds content.toUTF8 else .missing

/-- One of the headers is nowhere, the other one is found on the search path. -/
theorem build_eq_of_excluded_plain :
    let b := Builder.ofProject ofExcluded ""
    let files := onlyFile "include/z.h" "int f();\n"
    ofExcluded.headers.all ofExcluded.excludes = true ∧
      (∀ i ∈ ofExcluded.headers, (b.build files ofExcluded.headers).2.Skips ofExcluded.exclusion
        (b.pathOf files i)) ∧
      b.build files ofExcluded.headers = b.build files [] ∧
      Build.avoids "x.h" Build.files (b.build files ofExcluded.headers).1 = true ∧
      Build.avoids "include/z.h" Build.files (b.build files ofExcluded.headers).1 = true := by
  intro b files
  have hkey : ∀ i ∈ ofExcluded.headers, ofExcluded.excludes i = true →
      ∃ name ∈ ofExcluded.selection.exclude,
        Builder.fileKey (b.pathOf files i) ∈ Layer.keysOf name := by
    intro i hi hout
    have hplain : Path.isName i.name = true ∧ i.name.toList.head? ≠ some '<' ∧
        i.name.toList.getLast? ≠ some '>' := by
      revert i
      decide
    obtain ⟨hname, hopen, hclose⟩ := hplain
    exact ⟨i.name, List.contains_iff_mem.mp hout, fileKey_mem_keysOf hname hopen hclose b files⟩
  have hfirst : ∀ i ∈ ofExcluded.headers,
      ((b.build files ofExcluded.headers).2.table.top.find?
        (Builder.fileKey (b.pathOf files i))).bind List.head? = some ofExcluded.exclusion := by
    decide +kernel
  obtain ⟨heq, havoids⟩ := build_eq_of_excluded ofExcluded "" files hkey
    fun i hi _ => ⟨rfl, hfirst i hi⟩
  exact ⟨by decide, fun i hi => ⟨rfl, hfirst i hi⟩, heq,
    havoids { name := "x.h" } (by decide) (by decide),
    havoids { name := "z.h", dialect := .c } (by decide) (by decide)⟩

/-! ## Names that are not found -/

/-- What is found for a name belongs under one of its keys. -/
theorem exists_key_of_mem_get {layer : Layer} (hsound : layer.Sound) {name : String} {part : Bool}
    {entry : Entry} (h : entry ∈ layer.get name part) :
    ∃ key ∈ Layer.lookupKeys name part, ∃ list, layer.find? key = some list ∧ entry ∈ list ∧
      ∃ own ∈ Layer.namesOf entry.rule, key ∈ Layer.keysOf own := by
  rw [Layer.get_eq_firstKey] at h
  cases hfind : (layer.firstKey? name part).bind layer.find? with
  | none => simp [hfind] at h
  | some list =>
      have hmem : entry ∈ list := by simpa [hfind] using h
      obtain ⟨key, hkey, hlist⟩ := Option.bind_eq_some_iff.mp hfind
      obtain ⟨before, behind, hlists, -⟩ := List.lookup_eq_some_iff.mp hlist
      have hbelongs := hsound.belongs key list (by simp [hlists])
      exact ⟨key, List.mem_of_find?_eq_some hkey, list, hlist, hmem, hbelongs.named entry hmem⟩

/-- What holds of all rules that are put holds of all that are found. -/
theorem forall_rule_foldl_put {P : Rule → Prop} (rules : List Rule)
    (hrules : ∀ rule ∈ rules, P rule) (table : RuleTable)
    (htable : ∀ key list, table.top.find? key = some list → ∀ entry ∈ list, P entry.rule) :
    ∀ key list, (rules.foldl RuleTable.put table).top.find? key = some list →
      ∀ entry ∈ list, P entry.rule := by
  induction rules generalizing table with
  | nil => exact htable
  | cons rule rules ih =>
      exact ih (fun other hother => hrules other (List.mem_cons_of_mem _ hother)) _
        (Layer.forall_mem_putEntry (P := fun entry => P entry.rule) htable
          (hrules rule List.mem_cons_self))

theorem under_foldl_put (rules : List Rule) (table : RuleTable) :
    (rules.foldl RuleTable.put table).under = table.under := by
  induction rules generalizing table with
  | nil => rfl
  | cons rule rules ih => exact ih (table.put rule)

/-- The only built-in rule that passes over something is the one about attributes. -/
theorem nativeNames_of_skip {key : String} {list : List Entry}
    (hfind : RuleTable.builtin.top.find? key = some list) {entry : Entry} (hentry : entry ∈ list)
    (hskip : entry.rule.skip = true) :
    entry.rule.nativeNames = ["__attribute__", "__declspec"] := by
  have hrules : ∀ rule ∈ Rule.builtin,
      rule.skip = true → rule.nativeNames = ["__attribute__", "__declspec"] := by
    decide +kernel
  exact forall_rule_foldl_put Rule.builtin hrules {} nofun key list hfind entry hentry hskip

/-- A file that no rule of the project is about is not passed over. -/
theorem isExcluded_eq_false {b : Builder} {path : String}
    (hunder : b.table.under = RuleTable.standard.under)
    (htop : b.table.top.get ((Path.fileName? path).getD "") true = [])
    (hkeys : ∀ key ∈ Layer.lookupKeys ((Path.fileName? path).getD "") true,
      ∀ name ∈ ["__attribute__", "__declspec"], key ∉ Layer.keysOf name) :
    b.isExcluded path = false := by
  generalize hname : (Path.fileName? path).getD "" = name at htop hkeys
  have hbuiltin : RuleTable.builtin.top.Sound :=
    (RuleTable.Reachable.foldl_put .empty Rule.builtin).sound _ List.mem_cons_self
  have hfind : b.table.find? name = ((RuleTable.builtin.top.get name true).head?).map (·.rule) := by
    have hlayers : b.table.layers = [b.table.top, RuleTable.builtin.top] := by
      have hbottom : RuleTable.builtin.under = [] := under_foldl_put Rule.builtin {}
      rw [RuleTable.layers, hunder, RuleTable.standard, RuleTable.child, RuleTable.layers, hbottom]
    simp [RuleTable.find?, RuleTable.findWith?, hlayers, htop]
  rw [Builder.isExcluded, hname, hfind]
  cases hhead : (RuleTable.builtin.top.get name true).head? with
  | none => rfl
  | some entry =>
      obtain ⟨key, hkey, list, hlist, hmem, own, hown, hnamed⟩ :=
        exists_key_of_mem_get hbuiltin (List.mem_of_head? hhead)
      by_contra hskip
      have hnames := nativeNames_of_skip hlist hmem (by simpa using hskip)
      have hattribute : own ∈ ["__attribute__", "__declspec"] := by
        simpa [Layer.namesOf, hnames] using hown
      exact hkeys key hkey own hattribute hnamed

/-- A header that is nowhere is a fault if it is not passed over. -/
theorem readInclude_missing {b : Builder} {files : Files} {i : Include}
    (hexcluded : b.isExcluded (b.pathOf files i) = false)
    (hfile : (files (b.pathOf files i)).isFile = false) (p : Builder.Progress) :
    b.readInclude files p i = (.error (.missing (b.pathOf files i)), b) := by
  unfold Builder.readInclude
  rw [← Builder.pathOf]
  simp [hexcluded, hfile]

/-- Without rules for containers none is printed. -/
theorem printContainers_eq {b : Builder}
    (h : ∀ family ∈ containerFamilies, b.table.topRules family = []) :
    b.printContainers = (.ok {}, b) := by
  have hnone : ∀ (families : List String) (s : Reading),
      (∀ family ∈ families, s.table.topRules family = []) →
      (families.forM fun family => do
        let rules := (← ReadM.table).topRules family
        rules.forM (Container.printFor {} family)) s = .ok () s := by
    intro families s
    induction families with
    | nil => exact fun _ => rfl
    | cons family families ih =>
        intro hfamilies
        have hrest := ih fun other hother => hfamilies other (List.mem_cons_of_mem _ hother)
        have hfirst : (do
            let rules := (← ReadM.table).topRules family
            rules.forM (Container.printFor {} family) : ReadM PUnit) s = .ok () s := by
          change (s.table.topRules family).forM (Container.printFor {} family) s = _
          rw [hfamilies family List.mem_cons_self]
          rfl
        exact (ReadM.bind_of_ok hfirst _).trans hrest
  have hrun : ReadM.perform (Container.printAll {}) (.ofTokens b.table []) =
      (.ok (), .ofTokens b.table []) := by
    rw [ReadM.perform, Container.printAll, hnone containerFamilies _ h]
  unfold Builder.printContainers
  rw [hrun]
  simp [Reading.ofTokens]

/-- A build stops at its first header if that is nowhere and not passed over. -/
theorem build_missing {b : Builder} (files : Files) (i : Include)
    (hcontainers : ∀ family ∈ containerFamilies, b.table.topRules family = [])
    (hexcluded : b.isExcluded (b.pathOf files i) = false)
    (hfile : (files (b.pathOf files i)).isFile = false) (more : List Include) :
    (b.build files (i :: more)).1 = .error (.missing (b.pathOf files i)) := by
  rw [Builder.build_eq_built (printContainers_eq hcontainers), Builder.readIncludes,
    readInclude_missing hexcluded hfile]
  rfl

/-- A name with a directory is not found, so that an excluded header is missed. -/
theorem excluded_path_is_missed :
    let p : Project :=
      { name := "p", selection := { includes := ["sub/y.h"], exclude := ["sub/y.h"] } }
    p.headers.all p.excludes = true ∧
      ((Builder.ofProject p "").build (fun _ => .missing) p.headers).1 =
        .error (.missing "sub/y.h") := by
  intro p
  refine ⟨by decide, ?_⟩
  have hcontainers : ∀ family ∈ containerFamilies,
      (Builder.ofProject p "").table.topRules family = [] := by
    decide +kernel
  have hpath : (Builder.ofProject p "").pathOf (fun _ => .missing) { name := "sub/y.h" } =
      "sub/y.h" := by
    decide +kernel
  have hexcluded : (Builder.ofProject p "").isExcluded "sub/y.h" = false :=
    isExcluded_eq_false rfl (by decide +kernel) (by decide +kernel)
  have hbuild := build_missing (fun _ => .missing) { name := "sub/y.h" } hcontainers
    (by rw [hpath, hexcluded]) rfl []
  rwa [hpath] at hbuild

end Project

end HeaderPeers

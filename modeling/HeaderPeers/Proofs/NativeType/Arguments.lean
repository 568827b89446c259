import HeaderPeers.Proofs.NameKeys
import HeaderPeers.Proofs.NativeType.Words
import HeaderPeers.Proofs.Window.Transparency

/-!
# Template arguments

An argument is a path with `const` in front of it or behind it, and marks of pointers
and references. What it is read as is compared with how it was written. A type is read
up to the first mark only, and what stands behind that goes into the name as text.

- `NativeType.Suffix` — the marks behind a path.
- `NativeType.readArguments_reads` — what a list of arguments is read as.
- `NativeType.faithful_iff` — the arguments that are spelled as they were written.
-/

namespace HeaderPeers

open ReadM

variable {s : Reading} {t u : Token} {ts us rest : List Token}

theorem Token.joined_append (ts us : List Token) : joined (ts ++ us) = joined ts ++ joined us := by
  simp [joined, String.join_append]

/-- What is seen from the start of an input without directives and macros. -/
theorem Reading.sees_ofTokens {table : RuleTable} (h : table.Plain)
    (hmarks : ∀ t ∈ ts, t.is "#" = false) :
    (Reading.ofTokens table ts).Sees
      (ts.filter (!·.isComment) ++ [Window.endToken ts.toArray]) := by
  have hsees : Window.Sees table ts.toArray 0 _ := Window.sees_of_still (Nat.zero_le _)
    fun t ht => ⟨hmarks t (by simpa using ht), h.ruleFor? t⟩
  rw [List.drop_zero] at hsees
  have hfuel : (Reading.ofTokens table ts).fuel = 1000000 + 1000 * ts.length := rfl
  exact ⟨rfl, by omega, Nat.zero_le _, hsees⟩

/-! ## Types without rules -/

namespace RuleTable.Bare

variable {table : RuleTable}

theorem findWith? (h : table.Bare) (name : String) (part : Bool) :
    table.findWith? name part = none := by
  refine List.findSome?_eq_none_iff.mpr fun layer hlayer => ?_
  simp [h.get hlayer]

/-- Without rules, a name stands for itself. -/
theorem settleName (h : table.Bare) (name : String) (candidates : List String) :
    NativeType.settleName table name candidates = (name, none) := by
  induction candidates with
  | nil => rfl
  | cons candidate more ih =>
      rw [NativeType.settleName, h.findWith?]
      simpa [h.find?] using ih

/-- Without rules, only the target name of a type is looked up. -/
theorem resolve (h : table.Bare) {scope : Scope} {type : NativeType}
    (hname : NativeType.IsName type.nativeName)
    (hunbound : scope.template.bind (NativeType.substitute? · type.nativeName) = none)
    (hoperator : type.operator = false) (usings : List String) :
    type.resolve table scope usings =
      { type with targetName := NativeType.plainTarget type.nativeName } := by
  have hinstantiate : type.instantiate scope = type := by
    unfold NativeType.instantiate
    rw [hunbound]
  unfold NativeType.resolve
  simp only [hname.hoist_eq, hinstantiate, h.settleName]
  cases type with
  | mk =>
    dsimp only at hoperator
    subst hoperator
    simp [NativeType.mapBy]

/-- Without rules, each identifier that is no fundamental word may stand in a path. -/
theorem pathWord (h : table.Bare) (ht : t.IsName)
    (hnamed : Name.fundamentalWords.contains t.text = false) : t.PathWord table :=
  ⟨ht.kind, ht.word, hnamed, h.plain.ruleFor? t, by simp [h.find?]⟩

end RuleTable.Bare

namespace NativeType

/-! ## Arguments as they are written -/

/-- The word `const`. -/
def IsConst (t : Token) : Prop :=
  t.kind = .keyword .const_ ∧ t.text = "const"

/-- Stars, each perhaps with `const` behind it, and perhaps a reference at the end. -/
inductive Suffix : List Token → Prop
  | nil : Suffix []
  | reference {t : Token} (ht : t.IsMark "&" ∨ t.IsMark "&&") : Suffix [t]
  | star {t : Token} {ts : List Token} (ht : t.IsMark "*") (h : Suffix ts) : Suffix (t :: ts)
  | constStar {t c : Token} {ts : List Token} (ht : t.IsMark "*") (hc : IsConst c)
      (h : Suffix ts) : Suffix (t :: c :: ts)

/-- The first mark of a suffix, and what is behind it only if that is a star. -/
theorem Suffix.cases_head (h : Suffix ts) : ts = [] ∨ ∃ t us, ts = t :: us ∧
    (∃ text ∈ ["*", "&", "&&"], t.IsMark text) ∧ (us = [] ∨ t.IsMark "*") := by
  cases h with
  | nil => exact Or.inl rfl
  | reference ht =>
      refine Or.inr ⟨_, _, rfl, ?_, Or.inl rfl⟩
      rcases ht with ht | ht
      · exact ⟨"&", by decide, ht⟩
      · exact ⟨"&&", by decide, ht⟩
  | star ht h => exact Or.inr ⟨_, _, rfl, ⟨"*", by decide, ht⟩, Or.inr ht⟩
  | constStar ht hc h => exact Or.inr ⟨_, _, rfl, ⟨"*", by decide, ht⟩, Or.inr ht⟩

/-- None of them ends an argument or opens a bracket. -/
theorem Suffix.quiet (h : Suffix ts) : ∀ t ∈ ts, t.isEof = false ∧
    t.isAny [",", ">", "..."] = false ∧ t.isAny ["<", "("] = false ∧
      t.isAny [">", ")"] = false := by
  have hmark {t : Token} {text : String} (htext : text ∈ ["*", "&", "&&"]) (ht : t.IsMark text) :
      t.isEof = false ∧ t.isAny [",", ">", "..."] = false ∧ t.isAny ["<", "("] = false ∧
        t.isAny [">", ")"] = false := by
    refine ⟨ht.isEof_eq, ?_⟩
    simp only [List.mem_cons, List.not_mem_nil, or_false] at htext
    rcases htext with rfl | rfl | rfl <;> simp [Token.isAny, ht.is_eq]
  have hconst {t : Token} (ht : IsConst t) : t.isEof = false ∧
      t.isAny [",", ">", "..."] = false ∧ t.isAny ["<", "("] = false ∧
        t.isAny [">", ")"] = false := by
    simp [Token.isEof, ht.1, Token.isAny, Token.is, ht.2]
  induction h with
  | nil => simp
  | reference ht =>
      rintro _ (_ | ⟨_, hnil⟩)
      · rcases ht with ht | ht
        · exact hmark (by decide) ht
        · exact hmark (by decide) ht
      · cases hnil
  | star ht h ih =>
      rintro _ (_ | ⟨_, hmem⟩)
      · exact hmark (by decide) ht
      · exact ih _ hmem
  | constStar ht hc h ih =>
      rintro _ (_ | ⟨_, _ | ⟨_, hmem⟩⟩)
      · exact hmark (by decide) ht
      · exact hconst hc
      · exact ih _ hmem

/-- A template argument as it is written. -/
structure Argument where
  /-- `const` in front. -/
  front : Option Token
  /-- `::` in front of the path. -/
  root : Option Token
  path : List Token
  /-- `const` behind the path. -/
  back : Option Token
  suffix : List Token

namespace Argument

def words (a : Argument) : List Token :=
  a.front.toList ++ (a.root.toList ++ (a.path ++ a.back.toList))

def tokens (a : Argument) : List Token :=
  a.words ++ a.suffix

/-- The path without the white space in it. -/
def name (a : Argument) : String :=
  Token.joined (a.root.toList ++ a.path)

/-- `[const] P [const]` with marks behind it, where `P` is a path that is bound to nothing
else. Each token is what its text is read as. -/
structure Sound (table : RuleTable) (scope : Scope) (a : Argument) : Prop where
  front : ∀ t ∈ a.front, IsConst t
  root : ∀ t ∈ a.root, t.IsMark "::"
  path : Token.IsPath table a.path
  back : ∀ t ∈ a.back, IsConst t
  suffix : Suffix a.suffix
  genuine : ∀ t ∈ a.tokens, Token.faces t.text.toList = [t.face]
  unbound : scope.template.bind (substitute? · a.name) = none

end Argument

/-! ## Reading them -/

theorem IsConst.push (hc : IsConst t) (type : NativeType) :
    type.push t = if type.nativeName.isEmpty then { type with constValue := true }
      else { type with constPointer := true } := by
  have hcolons : t.is "::" = false := by simp [Token.is, hc.2]
  have hconst : t.isKeyword .const_ = true := by simp [Token.isKeyword, hc.1]
  rw [NativeType.push, hcolons, if_neg (by simp), hconst, if_pos rfl]

theorem IsConst.joins (hc : IsConst t) (table : RuleTable) (type : NativeType) :
    Joins table type t :=
  .modifier hc.1 (Or.inl rfl) (by rw [hc.2]; decide +kernel)

theorem push_of_pathWord {table : RuleTable} (ht : t.PathWord table) (type : NativeType) :
    type.push t = { type with nativeName := type.nativeName ++ t.text } := by
  have hdecorates : t.isKeywordWith Keyword.decorates = false := by
    simp [Token.isKeywordWith, ht.kind]
  have hkeyword (word : Keyword) : t.isKeyword word = false := by simp [Token.isKeyword, ht.kind]
  have hnamed := ht.named
  simp only [push, ht.text_ne "::" (by decide), hkeyword, hdecorates, hnamed, Bool.false_eq_true,
    if_false]

theorem push_of_colons (ht : t.IsMark "::") (type : NativeType) :
    type.push t = { type with nativeName := type.nativeName ++ "::" } := by
  rw [push, ht.is_eq, if_pos (by simp)]

/-- A path goes on with the name. -/
theorem spells_path {table : RuleTable} {path : List Token} (hpath : Token.IsPath table path)
    {type : NativeType} (hopen : type.isOpen = true) :
    Spells table type path ∧
      path.foldl push type = { type with nativeName := type.nativeName ++ Token.joined path } := by
  induction hpath generalizing type with
  | word ht =>
      have hname : Token.IsName _ := ⟨ht.kind, ht.word⟩
      exact ⟨⟨.name hname ht.named hopen ht.unannotated, trivial⟩, by simp [push_of_pathWord ht]⟩
  | @colons t mark path ht hmark hpath ih =>
      have hname : t.IsName := ⟨ht.kind, ht.word⟩
      let next : NativeType := { type with nativeName := type.nativeName ++ t.text ++ "::" }
      have hnext : next.isOpen = true := by simp [next, isOpen, endsWith_append]
      obtain ⟨hspells, hfold⟩ := ih hnext
      refine ⟨⟨.name hname ht.named hopen ht.unannotated, .colons hmark, ?_⟩, ?_⟩
      · rwa [push_of_pathWord ht, push_of_colons hmark]
      · rw [List.foldl_cons, List.foldl_cons, push_of_pathWord ht, push_of_colons hmark]
        refine hfold.trans ?_
        simp only [next, Token.joined_cons, hmark.2, String.append_assoc]

/-- A path starts and ends with letters. -/
theorem joined_path_ends {table : RuleTable} {path : List Token} (hpath : Token.IsPath table path) :
    (∃ c cs, (Token.joined path).toList = c :: cs ∧ Text.isWordChar c = true) ∧
      ∃ c, (Token.joined path).toList.getLast? = some c ∧ Text.isWordChar c = true := by
  have hword (t : Token) (ht : t.PathWord table) : ∃ c cs, t.text.toList = c :: cs ∧
      ∀ d ∈ c :: cs, Text.isWordChar d = true := by
    have hisWord := ht.word
    have hchars := Text.isWordChar_of_isWord hisWord
    cases htext : t.text.toList with
    | nil =>
        rw [htext] at hisWord
        cases hisWord
    | cons c cs => exact ⟨c, cs, rfl, htext ▸ hchars⟩
  constructor
  · obtain ⟨t, ts, rfl, ht, -⟩ := hpath.exists_head
    obtain ⟨c, cs, htext, hchars⟩ := hword t ht
    exact ⟨c, cs ++ (Token.joined ts).toList, by simp [htext], hchars c List.mem_cons_self⟩
  · induction hpath with
    | @word t ht =>
        obtain ⟨c, cs, htext, hchars⟩ := hword t ht
        have hlast := List.getLast?_eq_some_getLast (List.cons_ne_nil c cs)
        exact ⟨_, by simpa [htext] using hlast, hchars _ (List.getLast_mem _)⟩
    | colons ht hmark hpath ih =>
        obtain ⟨c, hlast, hc⟩ := ih
        refine ⟨c, ?_, hc⟩
        rw [Token.joined_cons, Token.joined_cons, String.toList_append, String.toList_append,
          List.getLast?_append, List.getLast?_append, hlast]
        rfl

namespace Argument

variable {table : RuleTable} {scope : Scope} {a : Argument}

/-- The name of an argument is not trimmed any more. -/
theorem Sound.trim_name (h : a.Sound table scope) : Text.trim a.name = a.name := by
  obtain ⟨⟨c, cs, hhead, hc⟩, d, hlast, hd⟩ := joined_path_ends h.path
  have hname : a.name.toList =
      (Token.joined a.root.toList).toList ++ (Token.joined a.path).toList := by
    rw [name, Token.joined_append, String.toList_append]
  refine Text.trim_of_ends ?_ ?_
  · rw [hname, hhead]
    cases hroot : a.root with
    | none =>
        rintro e he
        obtain rfl : c = e := by simpa using he
        exact Text.isBlank_of_isWordChar hc
    | some t =>
        rintro e he
        obtain rfl : ':' = e := by simpa [(h.root t hroot).2] using he
        decide
  · rw [hname, List.getLast?_append, hlast]
    rintro e he
    obtain rfl : d = e := by simpa using he
    exact Text.isBlank_of_isWordChar hd

theorem Sound.name_ne (h : a.Sound table scope) : a.name ≠ "" := by
  obtain ⟨⟨c, cs, hhead, -⟩, -⟩ := joined_path_ends h.path
  intro hempty
  rw [name, Token.joined_append, String.append_eq_empty_iff] at hempty
  rw [hempty.2] at hhead
  cases hhead

/-- What the words of an argument spell. -/
theorem Sound.spells (h : a.Sound table scope) :
    Spells table {} a.words ∧ a.words.foldl push {} =
      { nativeName := a.name, constValue := a.front.isSome, constPointer := a.back.isSome } := by
  let named : NativeType := { constValue := a.front.isSome }
  have hfront : Spells table {} a.front.toList ∧ a.front.toList.foldl push {} = named := by
    cases hfront : a.front with
    | none => exact ⟨trivial, by simp [named, hfront]⟩
    | some c =>
        have hc := h.front c hfront
        exact ⟨⟨hc.joins table _, trivial⟩, by simp [named, hfront, hc.push]⟩
  let rooted : NativeType := { named with nativeName := Token.joined a.root.toList }
  have hroot : Spells table named a.root.toList ∧ a.root.toList.foldl push named = rooted ∧
      rooted.isOpen = true := by
    cases hroot : a.root with
    | none => exact ⟨trivial, by simp [rooted, named, hroot], by simp [rooted, isOpen, hroot]⟩
    | some t =>
        have ht := h.root t hroot
        refine ⟨⟨.colons ht, trivial⟩, ?_, ?_⟩
        · simp [rooted, named, hroot, push_of_colons ht, ht.2]
        · simpa [rooted, isOpen, hroot, ht.2] using endsWith_append "" "::"
  obtain ⟨hpath, hjoined⟩ := spells_path h.path hroot.2.2
  have hname : ({ rooted with nativeName := rooted.nativeName ++ Token.joined a.path } :
      NativeType) = { named with nativeName := a.name } := by
    simp [rooted, named, name, Token.joined_append]
  rw [hname] at hjoined
  have hback : Spells table { named with nativeName := a.name } a.back.toList ∧
      a.back.toList.foldl push { named with nativeName := a.name } =
        { named with nativeName := a.name, constPointer := a.back.isSome } := by
    cases hback : a.back with
    | none => exact ⟨trivial, by simp [named]⟩
    | some c =>
        have hc := h.back c hback
        exact ⟨⟨hc.joins table _, trivial⟩, by simp [named, hc.push, h.name_ne]⟩
  have hspells : Spells table {} a.words := by
    rw [words, spells_append, spells_append, spells_append, hfront.2, hroot.2.1, hjoined]
    exact ⟨hfront.1, hroot.1, hpath, hback.1⟩
  refine ⟨hspells, ?_⟩
  rw [words, List.foldl_append, List.foldl_append, List.foldl_append, hfront.2, hroot.2.1, hjoined,
    hback.2]

/-- How the type that is read is spelled. -/
def spelled (a : Argument) : String :=
  (if a.front.isSome then "const " else "") ++ (a.name ++ Token.joined a.suffix.tail) ++
    (if a.back.isSome then " const" else "") ++ (a.suffix.head?.elim "" (·.text))

end Argument

/-- Tokens that neither end an argument nor open a bracket are collected up to its end. -/
theorem toArgumentEnd_passes {α : Type} {collect : α → Token → α} {start : α} {first stop : Token}
    (hts : ∀ t ∈ ts, t.isEof = false ∧ t.isAny [",", ">", "..."] = false ∧
      t.isAny ["<", "("] = false ∧ t.isAny [">", ")"] = false)
    (hstop : stop.isAny [",", ">"] = true) (h : s.Sees (ts ++ stop :: rest))
    (hfirst : (ts ++ stop :: rest).head? = some first) :
    Passes (toArgumentEnd start collect first) s (stop :: rest)
      (· = (ts.foldl collect start, stop)) := by
  refine iterate_passes h fun n hn => ?_
  have hlength : ts.length < n := by
    simp only [List.length_append, List.length_cons] at hn
    omega
  clear hn
  induction ts generalizing s n start first with
  | nil =>
      obtain ⟨n, rfl⟩ := Nat.exists_eq_add_one.mpr hlength
      obtain rfl := Option.some.inj hfirst
      refine iterateUpTo_done ?_
      dsimp only
      rw [if_pos (by simp [hstop])]
      exact passes_pure h ⟨_, rfl, rfl⟩
  | cons t ts ih =>
      obtain ⟨n, rfl⟩ := Nat.exists_eq_add_one.mpr (Nat.zero_lt_of_lt hlength)
      obtain rfl := Option.some.inj hfirst
      obtain ⟨next, more, hnext⟩ : ∃ next more, ts ++ stop :: rest = next :: more := by
        cases ts with
        | nil => exact ⟨stop, rest, rfl⟩
        | cons u ts => exact ⟨u, _, rfl⟩
      obtain ⟨heof, hquiet, hopens, hcloses⟩ := hts t List.mem_cons_self
      have hends : t.isAny [",", ">"] = false := by
        simp only [Token.isAny, List.any_cons, List.any_nil, Bool.or_false,
          Bool.or_eq_false_iff] at hquiet ⊢
        exact ⟨hquiet.1, hquiet.2.1⟩
      rw [List.cons_append, hnext] at h
      refine iterateUpTo_again (?_ : Passes _ s (next :: more) fun r => ∃ a',
        r = Turn.again a' ∧ a' = ((0 : Int), collect start t, next)) ?_
      · dsimp only
        rw [if_neg (by simp [heof, hends]), hopens, hcloses]
        exact (advance_passes h).bind_eq fun j h => passes_pure h ⟨_, rfl, rfl⟩
      · rintro _ j rfl h
        rw [← hnext] at h
        exact ih (fun u hu => hts u (List.mem_cons_of_mem _ hu)) h (by rw [hnext]; rfl) _
          (Nat.lt_of_succ_lt_succ hlength)

/-- The type that an argument is read as: all but its first mark is in the name. -/
structure Argument.Reads (a : Argument) (type : NativeType) : Prop where
  nativeName : type.nativeName = a.name ++ Token.joined a.suffix.tail
  spelling : type.spelling = a.spelled

/-- What an argument with at most one mark is read as is spelled with that. -/
theorem spelling_mark (type : NativeType) {name : String}
    (hm : ∃ text ∈ ["*", "&", "&&"], t.IsMark text) (htype : type.indirections = 0 ∧
      type.reference = false ∧ type.rvalue = false) (target annotations : String)
    (constructed : Bool) :
    ({ type.mark t with
      nativeName := name, targetName := target, annotations := annotations
      constructor := constructed } : NativeType).spelling =
      { type with nativeName := name }.spelling ++ t.text := by
  obtain ⟨text, htext, ht⟩ := hm
  simp only [List.mem_cons, List.not_mem_nil, or_false] at htext
  obtain ⟨hstars, hreference, hrvalue⟩ := htype
  rcases htext with rfl | rfl | rfl <;>
    simp [mark, ht.is_eq, ht.2, NativeType.spelling, hstars, hreference, hrvalue,
      String.append_assoc]

theorem foldl_text (name : String) (ts : List Token) :
    ts.foldl (fun name t => name ++ t.text) name = name ++ Token.joined ts := by
  induction ts generalizing name with
  | nil => simp
  | cons t ts ih => rw [List.foldl_cons, ih, Token.joined_cons, String.append_assoc]

/-- **Reading one argument.** -/
theorem readArgument_reads (n : Nat) {scope : Scope} {a : Argument} {stop : Token}
    (hbare : s.table.Bare) (ha : a.Sound s.table scope) (hstop : stop.IsMark "," ∨ stop.IsMark ">")
    (h : s.Sees (a.tokens ++ stop :: rest)) :
    Passes (readArgument (nestUpTo readWith (n + 1)) scope) s (stop :: rest)
      fun (type, t) => a.Reads type ∧ t = stop := by
  obtain ⟨hspells, hfold⟩ := ha.spells
  have hends : stop.isAny [",", ">"] = true := by
    rcases hstop with hstop | hstop <;> simp [Token.isAny, hstop.is_eq]
  have hdots : stop.is "..." = false := by
    rcases hstop with hstop | hstop <;> simp [hstop.is_eq]
  let base : NativeType :=
    { nativeName := a.name, constValue := a.front.isSome, constPointer := a.back.isSome }
  have hwords (m : Option Token) : (ofWords a.words m).nativeName = a.name := by
    rw [nativeName_ofWords, hfold, ha.trim_name]
  have hresolve (m : Option Token) : (ofWords a.words m).resolve s.table scope s.usings =
      { ofWords a.words m with targetName := plainTarget a.name } := by
    have hname := isName_ofWords (m := m) hspells (by rw [hwords]; exact ha.name_ne)
    have hlooked := hbare.resolve hname (by rw [hwords]; exact ha.unbound)
      (isPlain_ofWords _ _).operator s.usings
    exact hlooked.trans (congrArg (fun name => { ofWords a.words m with
      targetName := plainTarget name }) (hwords m))
  rcases ha.suffix.cases_head with hnil | ⟨t, more, hsuffix, ht, hmore⟩
  · have hbase : ofWords a.words none = base := by
      simp [ofWords, hfold, base, ha.trim_name]
    have htokens : a.tokens ++ stop :: rest =
        a.words ++ ((none : Option Token).toList ++ stop :: rest) := by
      simp [Argument.tokens, hnil]
    rw [htokens] at h
    have hdone : ∀ j, (s.atIndex j).Sees (stop :: rest) →
        Passes (readPart (nestUpTo readWith n) scope (a.words.foldl push {})) (s.atIndex j)
          (stop :: rest) (· = .done (a.words.foldl push {})) := by
      intro j h
      rcases hstop with hstop | hstop
      · exact readPart_of_ends (by decide) hstop h
      · exact readPart_of_ends (by decide) hstop h
    refine (readWith_passes (m := none) hspells hdone hdots h).bind ?_
    rintro _ j ⟨type, rfl, -, target, constructed, htype⟩ h
    rw [hresolve, hbase] at htype
    refine (peek_passes h).bind_eq fun j h => ?_
    rw [if_pos hends]
    refine passes_pure h ⟨⟨?_, ?_⟩, rfl⟩
    · simp [htype, base, hnil]
    · simp [htype, base, hnil, NativeType.spelling, Argument.spelled]
  · have hbase : ofWords a.words (some t) = base.mark t := by
      obtain ⟨text, htext, ht⟩ := ht
      simp only [List.mem_cons, List.not_mem_nil, or_false] at htext
      rcases htext with rfl | rfl | rfl <;>
        simp [ofWords, hfold, base, ha.trim_name, mark, ht.is_eq]
    obtain ⟨u, us, hnext, hquiet⟩ : ∃ u us, more ++ stop :: rest = u :: us ∧
        u.is "..." = false ∧ (more ≠ [] → u.isAny [",", ">"] = false) := by
      cases more with
      | nil => exact ⟨stop, rest, rfl, hdots, fun hne => absurd rfl hne⟩
      | cons u more =>
          obtain ⟨-, hquiet, -⟩ := ha.suffix.quiet u (by simp [hsuffix])
          simp only [Token.isAny, List.any_cons, List.any_nil, Bool.or_false,
            Bool.or_eq_false_iff] at hquiet
          exact ⟨u, more ++ stop :: rest, rfl, hquiet.2.2, fun _ => by
            simp [Token.isAny, hquiet.1, hquiet.2.1]⟩
    have htokens : a.tokens ++ stop :: rest = a.words ++ ((some t).toList ++ u :: us) := by
      simp [Argument.tokens, hsuffix, hnext]
    rw [htokens] at h
    refine (readWith_passes (m := some t) hspells ht hquiet.1 h).bind ?_
    rintro _ j ⟨type, rfl, -, target, constructed, htype⟩ h
    rw [hresolve, hbase] at htype
    have hname : type.nativeName = a.name := by
      obtain ⟨text, htext, ht⟩ := ht
      simp only [List.mem_cons, List.not_mem_nil, or_false] at htext
      rcases htext with rfl | rfl | rfl <;> simp [htype, base, mark, ht.is_eq]
    have hreads (annotations target : String) : a.Reads { type with
        nativeName := a.name ++ Token.joined more, annotations := annotations
        targetName := target } := by
      refine ⟨by rw [hsuffix]; rfl, ?_⟩
      rw [htype]
      refine (spelling_mark base ht ⟨rfl, rfl, rfl⟩ target annotations constructed).trans ?_
      simp [NativeType.spelling, Argument.spelled, base, hsuffix]
    refine (peek_passes h).bind_eq fun j h => ?_
    rcases eq_or_ne more [] with rfl | hmore
    · obtain ⟨rfl, rfl⟩ := List.cons.inj hnext
      have hsame : type = { type with
          nativeName := a.name ++ Token.joined [], annotations := type.annotations
          targetName := type.targetName } := by
        rw [Token.joined_nil, String.append_empty, ← hname]
        cases type
        rfl
      rw [if_pos hends]
      exact passes_pure h ⟨hsame ▸ hreads type.annotations type.targetName, rfl⟩
    · rw [if_neg (by simp [hquiet.2 hmore])]
      rw [← hnext] at h
      have hcollect : ∀ t ∈ more, _ := fun v hv => ha.suffix.quiet v (by simp [hsuffix, hv])
      refine (toArgumentEnd_passes hcollect hends h (by rw [hnext]; rfl)).bind_eq fun j h => ?_
      dsimp only
      simp only [foldl_text, Option.getD_some, hname]
      split
      · exact passes_pure h ⟨hreads _ _, rfl⟩
      · exact passes_pure h ⟨hreads type.annotations type.targetName, rfl⟩

/-! ## Lists of arguments -/

/-- The tokens of arguments with commas between them. -/
inductive Listed : List Token → List Argument → Prop
  | last (a : Argument) : Listed a.tokens [a]
  | cons (a : Argument) {comma : Token} {ts : List Token} {as : List Argument}
      (hcomma : comma.IsMark ",") (h : Listed ts as) : Listed (a.tokens ++ comma :: ts) (a :: as)

/-- An argument starts with a word or with `::`. -/
theorem Argument.Sound.exists_head {table : RuleTable} {scope : Scope} {a : Argument}
    (h : a.Sound table scope) : ∃ t ts, a.tokens = t :: ts ∧ t.isEof = false := by
  obtain ⟨word, more, hpath, hword, -⟩ := h.path.exists_head
  unfold Argument.tokens Argument.words
  cases hfront : a.front with
  | some c =>
      have hc := h.front c hfront
      exact ⟨c, _, rfl, by simp [Token.isEof, hc.1]⟩
  | none =>
      cases hroot : a.root with
      | some t => exact ⟨t, _, rfl, (h.root t hroot).isEof_eq⟩
      | none => exact ⟨word, _, by rw [hpath]; rfl, by simp [Token.isEof, hword.kind]⟩

section Lists

variable {scope : Scope} {as : List Argument} {close : Token}

theorem Listed.length_le {table : RuleTable} (h : Listed ts as)
    (has : ∀ a ∈ as, a.Sound table scope) : as.length ≤ ts.length := by
  have hpos : ∀ a ∈ as, 0 < a.tokens.length := by
    intro a ha
    obtain ⟨t, ts, htokens, -⟩ := (has a ha).exists_head
    simp [htokens]
  clear has
  induction h with
  | last a => exact hpos a List.mem_cons_self
  | cons a hcomma h ih =>
      have hrest := ih fun b hb => hpos b (List.mem_cons_of_mem _ hb)
      simp only [List.length_cons, List.length_append]
      omega

/-- One turn of reading arguments. -/
def argumentTurn (readType : Scope → ReadM (Option NativeType)) (scope : Scope) :
    List NativeType × Token → ReadM (Turn (List NativeType × Token) (List NativeType)) :=
  fun (arguments, t) => do
    if t.isEof then return .done arguments
    let (type, t) ← readArgument readType scope
    expect t [",", ">"]
    if t.is ">" then return .done (arguments ++ [type])
    return .again (arguments ++ [type], ← advance)

/-- The arguments are read one after another, by induction on the list. -/
theorem iterateUpTo_arguments (n : Nat) (hbare : s.table.Bare) (hclose : close.IsMark ">")
    (hlisted : Listed ts as) :
    ∀ {j k : Nat} {before : List NativeType} {first : Token},
      (∀ a ∈ as, a.Sound s.table scope) → (s.atIndex j).Sees (ts ++ close :: us) →
      (ts ++ close :: us).head? = some first → as.length ≤ k →
      Passes (iterateUpTo (argumentTurn (nestUpTo readWith (n + 1)) scope) k (before, first))
        (s.atIndex j) (close :: us) fun types =>
          ∃ added, types = before ++ added ∧ List.Forall₂ Argument.Reads as added := by
  induction hlisted with
  | last a =>
      intro j k before first has h hfirst hk
      obtain ⟨k, rfl⟩ := Nat.exists_eq_add_one.mpr (Nat.lt_of_lt_of_le Nat.one_pos hk)
      have ha := has a List.mem_cons_self
      obtain ⟨t, ts, htokens, heof⟩ := ha.exists_head
      obtain rfl : t = first := by simpa [htokens] using hfirst
      refine iterateUpTo_done ?_
      unfold argumentTurn
      dsimp only
      rw [if_neg (by simp [heof])]
      refine (readArgument_reads (s := s.atIndex j) n hbare ha (Or.inr hclose) h).bind ?_
      rintro ⟨type, stop⟩ i ⟨hreads, rfl⟩ h
      refine (expect_passes h (by simp [Token.isAny, hclose.is_eq])).bind fun _ i _ h => ?_
      rw [if_pos (by simp [hclose.is_eq])]
      exact passes_pure h ⟨_, rfl, [type], rfl, .cons hreads .nil⟩
  | @cons a comma ts as hcomma hlisted ih =>
      intro j k before first has h hfirst hk
      obtain ⟨k, rfl⟩ := Nat.exists_eq_add_one.mpr (Nat.lt_of_lt_of_le (Nat.succ_pos _) hk)
      have ha := has a List.mem_cons_self
      obtain ⟨t, more, htokens, heof⟩ := ha.exists_head
      obtain rfl : t = first := by simpa [htokens] using hfirst
      obtain ⟨next, more', hnext⟩ : ∃ next more', ts ++ close :: us = next :: more' := by
        cases ts with
        | nil => exact ⟨close, us, rfl⟩
        | cons u ts => exact ⟨u, _, rfl⟩
      rw [List.append_assoc, List.cons_append] at h
      refine iterateUpTo_again (?_ : Passes _ _ (ts ++ close :: us) fun r => ∃ a',
        r = Turn.again a' ∧ ∃ type, a' = (before ++ [type], next) ∧ a.Reads type) ?_
      · unfold argumentTurn
        dsimp only
        rw [if_neg (by simp [heof])]
        refine (readArgument_reads (s := s.atIndex j) n hbare ha (Or.inl hcomma) h).bind ?_
        rintro ⟨type, stop⟩ i ⟨hreads, rfl⟩ h
        refine (expect_passes h (by simp [Token.isAny, hcomma.is_eq])).bind fun _ i _ h => ?_
        rw [if_neg (by simp [hcomma.is_eq])]
        exact (advance_to h (by rw [hnext]; rfl)).bind_eq fun i h =>
          passes_pure h ⟨_, rfl, type, rfl, hreads⟩
      · rintro _ i ⟨type, rfl, hreads⟩ h
        refine (ih (fun b hb => has b (List.mem_cons_of_mem a hb)) h (by rw [hnext]; rfl)
          (Nat.le_of_succ_le_succ hk)).imp ?_
        rintro types ⟨added, rfl, hadded⟩
        exact ⟨type :: added, by simp, .cons hreads hadded⟩

/-- **Reading template arguments.** -/
theorem readArguments_reads (n : Nat) {opening : Token} (hbare : s.table.Bare)
    (hclose : close.IsMark ">") (hlisted : Listed ts as) (has : ∀ a ∈ as, a.Sound s.table scope)
    (h : s.Sees (opening :: (ts ++ close :: us))) :
    Passes (readArguments (nestUpTo readWith (n + 1)) scope) s (close :: us)
      (List.Forall₂ Argument.Reads as) := by
  obtain ⟨first, hfirst⟩ : ∃ first, (ts ++ close :: us).head? = some first := by
    cases ts with
    | nil => exact ⟨close, rfl⟩
    | cons t ts => exact ⟨t, rfl⟩
  refine (advance_to h hfirst).bind_eq fun j h => iterate_passes h fun k hk => ?_
  have hlength := hlisted.length_le has
  rw [List.length_append] at hk
  refine (iterateUpTo_arguments n hbare hclose hlisted has h hfirst (by omega)).imp ?_
  rintro types ⟨added, rfl, hadded⟩
  exact hadded

end Lists

/-! ## What the spelling is read as -/

/-- A word that is read as itself. -/
theorem faces_of_word (hword : Text.isWord t.text.toList = true)
    (hgenuine : Token.faces t.text.toList = [t.face]) {cs : List Char}
    (hcs : ∀ c ∈ cs.head?, Text.isWordChar c = false) :
    Token.faces (t.text.toList ++ cs) = t.face :: Token.faces cs := by
  have halone : Token.faces (t.text.toList ++ []) = _ := Token.faces_word hword (by simp)
  rw [List.append_nil, hgenuine, Token.faces_nil] at halone
  rw [Token.faces_word hword hcs, (List.cons.inj halone).1]

/-- A mark that is read as itself. -/
theorem faces_of_mark {text : String} (htext : text ∈ ["*", "&", "&&", "::"])
    (ht : t.IsMark text) (hgenuine : Token.faces t.text.toList = [t.face]) {cs : List Char}
    (hcs : ∀ c ∈ cs.head?, c ≠ '=' ∧ (text = "&" → c ≠ '&')) :
    Token.faces (t.text.toList ++ cs) = t.face :: Token.faces cs := by
  suffices hmark : ∃ x, ∀ cs : List Char,
      (∀ c ∈ cs.head?, c ≠ '=' ∧ (text = "&" → c ≠ '&')) →
        Token.faces (text.toList ++ cs) = x :: Token.faces cs by
    obtain ⟨x, hfaces⟩ := hmark
    have halone := hfaces [] (by simp)
    rw [List.append_nil, Token.faces_nil, ← ht.2, hgenuine] at halone
    rw [ht.2, hfaces cs hcs, (List.cons.inj halone).1]
  simp only [List.mem_cons, List.not_mem_nil, or_false] at htext
  rcases htext with rfl | rfl | rfl | rfl
  · refine ⟨(.punct, "*"), fun cs hcs => Token.faces_punct (Or.inl rfl) fun d hd hpair => ?_⟩
    have hpair : ('*', d) ∈ Lexeme.pairs := hpair
    simp [Lexeme.pairs, (hcs d hd).1] at hpair
  · refine ⟨(.punct, "&"), fun cs hcs => Token.faces_punct (Or.inr rfl) fun d hd hpair => ?_⟩
    have hpair : ('&', d) ∈ Lexeme.pairs := hpair
    simp [Lexeme.pairs, (hcs d hd).1, (hcs d hd).2 rfl] at hpair
  · exact ⟨(.symbol, "&&"), fun cs _ => Token.faces_symbol (Or.inr rfl) cs⟩
  · exact ⟨(.symbol, "::"), fun cs _ => Token.faces_symbol (Or.inl rfl) cs⟩

/-- A path is read as itself. -/
theorem faces_path {table : RuleTable} {path : List Token} (hpath : Token.IsPath table path)
    (hgenuine : ∀ t ∈ path, Token.faces t.text.toList = [t.face]) {cs : List Char}
    (hcs : ∀ c ∈ cs.head?, Text.isWordChar c = false) :
    Token.faces ((Token.joined path).toList ++ cs) = path.map Token.face ++ Token.faces cs := by
  induction hpath with
  | @word t ht => simpa using faces_of_word ht.word (hgenuine t (by simp)) hcs
  | @colons t mark path ht hmark hpath ih =>
      have hpathNext := ih fun u hu => hgenuine u (by simp [hu])
      obtain ⟨⟨c, cs', hhead, hc⟩, -⟩ := joined_path_ends hpath
      have hnext : ∀ d ∈ ((Token.joined path).toList ++ cs).head?, d ≠ '=' ∧
          ("::" = "&" → d ≠ '&') := by
        rw [hhead]
        rintro d hd
        obtain rfl : c = d := by simpa using hd
        refine ⟨?_, fun heq => absurd heq (by decide)⟩
        rintro rfl
        exact absurd hc (by decide)
      have hmarkNext : ∀ d ∈ (mark.text.toList ++ ((Token.joined path).toList ++ cs)).head?,
          Text.isWordChar d = false := by
        rw [hmark.2]
        rintro d hd
        cases hd
        decide
      rw [Token.joined_cons, Token.joined_cons, String.toList_append, String.toList_append,
        List.append_assoc, List.append_assoc,
        faces_of_word ht.word (hgenuine t (by simp)) hmarkNext,
        faces_of_mark (by decide) hmark (hgenuine mark (by simp)) hnext, hpathNext]
      rfl

/-- A path that goes on with more letters ends with another word. -/
theorem faces_path_append {table : RuleTable} {path : List Token}
    (hpath : Token.IsPath table path) {w cs : List Char}
    (hw : ∀ c ∈ w, Text.isWordChar c = true) (hcs : ∀ c ∈ cs.head?, Text.isWordChar c = false) :
    ∃ xs, Token.faces ((Token.joined path).toList ++ (w ++ cs)) = xs ++ Token.faces cs := by
  induction hpath with
  | @word t ht =>
      have hword : Text.isWord (t.text.toList ++ w) = true := by
        have hisWord := ht.word
        cases htext : t.text.toList with
        | nil =>
            rw [htext] at hisWord
            cases hisWord
        | cons c cs =>
            rw [htext] at hisWord
            rw [Text.isWord, Bool.and_eq_true, List.all_eq_true] at hisWord
            rw [List.cons_append, Text.isWord, Bool.and_eq_true, List.all_eq_true]
            exact ⟨hisWord.1, fun d hd => (List.mem_append.mp hd).elim (hisWord.2 d) (hw d)⟩
      have hfaces := Token.faces_word hword hcs
      exact ⟨[_], by simpa using hfaces⟩
  | @colons t mark path ht hmark hpath ih =>
      obtain ⟨xs, hxs⟩ := ih
      have hnext : ∀ d ∈ ("::".toList ++ ((Token.joined path).toList ++ (w ++ cs))).head?,
          Text.isWordChar d = false := by
        rintro d hd
        cases hd
        decide
      have hcolons : Token.faces ("::".toList ++ ((Token.joined path).toList ++ (w ++ cs))) =
          (.symbol, "::") :: (xs ++ Token.faces cs) :=
        (Token.faces_symbol (Or.inl rfl) _).trans (congrArg ((.symbol, "::") :: ·) hxs)
      rw [Token.joined_cons, Token.joined_cons, String.toList_append, String.toList_append, hmark.2,
        List.append_assoc, List.append_assoc, Token.faces_word ht.word hnext, hcolons]
      exact ⟨_ :: (.symbol, "::") :: xs, rfl⟩

/-- What may stand behind the marks in the spelling: nothing, a mark or white space. -/
def Suffix.Apart (cs : List Char) : Prop :=
  ∀ c ∈ cs.head?, c ∈ ['*', '&', ' ']

theorem Suffix.Apart.letter {cs : List Char} (hcs : Suffix.Apart cs) :
    ∀ c ∈ cs.head?, Text.isWordChar c = false := by
  intro c hc
  have hmem := hcs c hc
  simp only [List.mem_cons, List.not_mem_nil, or_false] at hmem
  rcases hmem with rfl | rfl | rfl <;> decide

theorem Suffix.Apart.const {cs : List Char} (hcs : Suffix.Apart cs) (b : Bool) :
    Suffix.Apart ((if b then " const" else "").toList ++ cs) := by
  cases b with
  | false => exact hcs
  | true => simp [Suffix.Apart]

theorem Suffix.apart_joined (h : Suffix ts) {cs : List Char} (hcs : Suffix.Apart cs) :
    Suffix.Apart ((Token.joined ts).toList ++ cs) := by
  rcases h.cases_head with rfl | ⟨t, us, rfl, ⟨text, htext, ht⟩, -⟩
  · exact hcs
  · simp only [List.mem_cons, List.not_mem_nil, or_false] at htext
    rw [Token.joined_cons, ht.2, String.toList_append, List.append_assoc]
    rcases htext with rfl | rfl | rfl
    all_goals
      rintro c hc
      cases hc
      decide

/-- Marks are read as themselves. -/
theorem faces_suffix (h : Suffix ts) (hgenuine : ∀ t ∈ ts, Token.faces t.text.toList = [t.face])
    {cs : List Char} (hcs : Suffix.Apart cs) (hreference : ∀ c ∈ cs.head?, c ≠ '&') :
    Token.faces ((Token.joined ts).toList ++ cs) = ts.map Token.face ++ Token.faces cs := by
  have hequals {cs : List Char} (hcs : Suffix.Apart cs) : ∀ c ∈ cs.head?, c ≠ '=' := by
    rintro c hc rfl
    exact absurd (hcs _ hc) (by decide)
  induction h with
  | nil => rfl
  | @reference t ht =>
      have hmark := hgenuine t (by simp)
      have hbehind : ∀ c ∈ cs.head?, c ≠ '=' ∧ c ≠ '&' := fun c hc =>
        ⟨hequals hcs c hc, hreference c hc⟩
      have hjoined : (Token.joined [t]).toList = t.text.toList := by simp
      rw [hjoined]
      rcases ht with ht | ht
      · exact faces_of_mark (by decide) ht hmark fun c hc =>
          ⟨(hbehind c hc).1, fun _ => (hbehind c hc).2⟩
      · exact faces_of_mark (by decide) ht hmark fun c hc =>
          ⟨(hbehind c hc).1, fun _ => (hbehind c hc).2⟩
  | @star t ts ht h ih =>
      have hrest := ih fun u hu => hgenuine u (by simp [hu])
      have hnext := hequals (h.apart_joined hcs)
      rw [Token.joined_cons, String.toList_append, List.append_assoc,
        faces_of_mark (by decide) ht (hgenuine t (by simp)) fun c hc =>
          ⟨hnext c hc, fun heq => absurd heq (by decide)⟩, hrest]
      rfl
  | @constStar t c ts ht hc h ih =>
      have hrest := ih fun u hu => hgenuine u (by simp [hu])
      have hword : Text.isWord c.text.toList = true := by rw [hc.2]; decide +kernel
      have hnext : ∀ d ∈ (c.text.toList ++ ((Token.joined ts).toList ++ cs)).head?,
          d ≠ '=' ∧ ("*" = "&" → d ≠ '&') := by
        rw [hc.2]
        rintro d hd
        cases hd
        decide
      rw [Token.joined_cons, Token.joined_cons, String.toList_append, String.toList_append,
        List.append_assoc, List.append_assoc,
        faces_of_mark (by decide) ht (hgenuine t (by simp)) hnext,
        faces_of_word hword (hgenuine c (by simp)) (h.apart_joined hcs).letter, hrest]
      rfl

theorem Suffix.text_mem (h : Suffix ts) : ∀ t ∈ ts, t.text ∈ ["*", "&", "&&", "const"] := by
  induction h with
  | nil => simp
  | reference ht =>
      rcases ht with ht | ht <;> simp [ht.2]
  | star ht h ih => simpa [ht.2] using ih
  | constStar ht hc h ih => simpa [ht.2, hc.2] using ih

namespace Argument

variable {table : RuleTable} {scope : Scope} {a : Argument}

theorem Sound.genuine_of_mem (h : a.Sound table scope) :
    (∀ t ∈ a.front, Token.faces t.text.toList = [t.face]) ∧
      (∀ t ∈ a.root, Token.faces t.text.toList = [t.face]) ∧
      (∀ t ∈ a.path, Token.faces t.text.toList = [t.face]) ∧
      (∀ t ∈ a.back, Token.faces t.text.toList = [t.face]) ∧
      ∀ t ∈ a.suffix, Token.faces t.text.toList = [t.face] := by
  have hall := h.genuine
  simp only [tokens, words, List.mem_append, Option.mem_toList, or_imp, forall_and] at hall
  exact ⟨hall.1.1, hall.1.2.1, hall.1.2.2.1, hall.1.2.2.2, hall.2⟩

/-- The front of the spelling. -/
theorem Sound.faces_front (h : a.Sound table scope) (cs : List Char) :
    Token.faces ((if a.front.isSome then "const " else "").toList ++ cs) =
      a.front.toList.map Token.face ++ Token.faces cs := by
  obtain ⟨hgenuine, -⟩ := h.genuine_of_mem
  cases hfront : a.front with
  | none => rfl
  | some c =>
      have hc := h.front c hfront
      have hword : Text.isWord c.text.toList = true := by rw [hc.2]; decide +kernel
      have hspace : ∀ d ∈ (' ' :: cs).head?, Text.isWordChar d = false := by
        rintro d hd
        cases hd
        decide
      have hfaces := faces_of_word hword (hgenuine c hfront) hspace
      rw [Token.faces_blank rfl, hc.2] at hfaces
      simpa using hfaces

/-- `const` behind the name. -/
theorem Sound.faces_back (h : a.Sound table scope) {cs : List Char} (hcs : Suffix.Apart cs) :
    Token.faces ((if a.back.isSome then " const" else "").toList ++ cs) =
      a.back.toList.map Token.face ++ Token.faces cs := by
  obtain ⟨-, -, -, hgenuine, -⟩ := h.genuine_of_mem
  cases hback : a.back with
  | none => rfl
  | some c =>
      have hc := h.back c hback
      have hword : Text.isWord c.text.toList = true := by rw [hc.2]; decide +kernel
      have hfaces := faces_of_word hword (hgenuine c hback) hcs.letter
      rw [hc.2, ← Token.faces_blank (c := ' ') rfl] at hfaces
      simpa using hfaces

/-- The name is read as the path. -/
theorem Sound.faces_name (h : a.Sound table scope) {cs : List Char}
    (hcs : ∀ c ∈ cs.head?, Text.isWordChar c = false) :
    Token.faces (a.name.toList ++ cs) =
      (a.root.toList ++ a.path).map Token.face ++ Token.faces cs := by
  obtain ⟨-, hroot, hpath, -⟩ := h.genuine_of_mem
  have hpathFaces := faces_path h.path hpath hcs
  rw [name, Token.joined_append, String.toList_append, List.append_assoc, List.map_append]
  cases hsome : a.root with
  | none => simpa using hpathFaces
  | some t =>
      have ht := h.root t hsome
      obtain ⟨⟨c, cs', hhead, hc⟩, -⟩ := joined_path_ends h.path
      have hnext : ∀ d ∈ ((Token.joined a.path).toList ++ cs).head?, d ≠ '=' ∧
          ("::" = "&" → d ≠ '&') := by
        rw [hhead]
        rintro d hd
        obtain rfl : c = d := by simpa using hd
        refine ⟨?_, fun heq => absurd heq (by decide)⟩
        rintro rfl
        exact absurd hc (by decide)
      have hfaces := faces_of_mark (by decide) ht (hroot t hsome) hnext
      rw [hpathFaces] at hfaces
      simpa using hfaces

/-- A name that goes on with more letters. -/
theorem Sound.faces_name_append (h : a.Sound table scope) {w cs : List Char}
    (hw : ∀ c ∈ w, Text.isWordChar c = true) (hcs : ∀ c ∈ cs.head?, Text.isWordChar c = false) :
    ∃ xs, Token.faces (a.name.toList ++ (w ++ cs)) = xs ++ Token.faces cs := by
  obtain ⟨xs, hxs⟩ := faces_path_append h.path hw hcs
  rw [name, Token.joined_append, String.toList_append, List.append_assoc]
  cases hsome : a.root with
  | none => exact ⟨xs, by simpa using hxs⟩
  | some t =>
      refine ⟨(.symbol, "::") :: xs, ?_⟩
      have hcolons := Token.faces_symbol (c := ':') (Or.inl rfl)
        ((Token.joined a.path).toList ++ (w ++ cs))
      rw [hxs] at hcolons
      simpa [(h.root t hsome).2] using hcolons

/-- There are no line terminators in it. -/
theorem Sound.unbroken (h : a.Sound table scope) :
    '\r' ∉ (a.name ++ Token.joined a.suffix.tail).toList ∧ '\r' ∉ a.spelled.toList := by
  have hname : '\r' ∉ a.name.toList := by
    obtain ⟨hspells, hfold⟩ := h.spells
    have hchars := nameChars_foldl hspells (by simp [NameChars])
    rw [hfold] at hchars
    intro hmem
    rcases hchars _ hmem with hword | hspace | hcolon
    · exact absurd hword (by decide)
    · cases hspace
    · cases hcolon
  have htext : ∀ t ∈ a.suffix, '\r' ∉ t.text.toList := by
    have hall : ∀ text ∈ ["*", "&", "&&", "const"], '\r' ∉ text.toList := by decide
    exact fun t ht => hall _ (h.suffix.text_mem t ht)
  have hjoined (ts : List Token) (hts : ∀ t ∈ ts, '\r' ∉ t.text.toList) :
      '\r' ∉ (Token.joined ts).toList := by
    induction ts with
    | nil => simp
    | cons t ts ih =>
        simp only [Token.joined_cons, String.toList_append, List.mem_append, not_or]
        exact ⟨hts t List.mem_cons_self, ih fun u hu => hts u (List.mem_cons_of_mem t hu)⟩
  have htail := hjoined a.suffix.tail fun t ht => htext t (List.mem_of_mem_tail ht)
  have hmark : '\r' ∉ (a.suffix.head?.elim "" (·.text)).toList := by
    cases hhead : a.suffix.head? with
    | none => simp
    | some t => exact htext t (List.mem_of_mem_head? hhead)
  have hconst (b : Bool) : '\r' ∉ (if b then "const " else "").toList ∧
      '\r' ∉ (if b then " const" else "").toList := by
    cases b <;> decide
  simp only [spelled, String.toList_append, List.mem_append, not_or]
  exact ⟨⟨hname, htail⟩, ⟨⟨(hconst _).1, hname, htail⟩, (hconst _).2⟩, hmark⟩

/-- A type that stands for an argument as it was written: its name does not end with a
mark or `const`, and its spelling has the tokens of the argument. -/
structure Faithful (a : Argument) (type : NativeType) : Prop where
  unmarked : ∀ x ∈ ((Name.tokens type.nativeName).map Token.face).getLast?,
    x.2 ∉ ["*", "&", "&&", "const"]
  spelled : (Name.tokens type.spelling).map Token.face = a.tokens.map Token.face

/-- The last token of a path is a word. -/
theorem exists_last_path {path : List Token} (hpath : Token.IsPath table path) :
    ∃ t, path.getLast? = some t ∧ t.PathWord table := by
  induction hpath with
  | word ht => exact ⟨_, rfl, ht⟩
  | colons ht hmark hpath ih =>
      obtain ⟨u, hlast, hu⟩ := ih
      exact ⟨u, by simp [List.getLast?_cons, hlast], hu⟩

/-- A word of a path is neither a mark nor `const`. -/
theorem text_notMem_of_pathWord (ht : t.PathWord table)
    (hgenuine : Token.faces t.text.toList = [t.face]) :
    t.text ∉ ["*", "&", "&&", "const"] := by
  intro hmem
  have hword := ht.word
  simp only [List.mem_cons, List.not_mem_nil, or_false] at hmem
  rcases hmem with heq | heq | heq | heq
  · rw [heq] at hword
    cases hword
  · rw [heq] at hword
    cases hword
  · rw [heq] at hword
    cases hword
  · have hconst : Token.faces "const".toList = [(.keyword .const_, "const")] := by decide +kernel
    rw [heq, hconst] at hgenuine
    have hkind : Kind.keyword .const_ = t.kind := congrArg Prod.fst (List.cons.inj hgenuine).1
    rw [ht.kind] at hkind
    cases hkind

/-- With one mark at most, an argument is kept. -/
theorem Sound.faithful (h : a.Sound table scope) {type : NativeType} (hreads : a.Reads type)
    (hsuffix : a.suffix.length ≤ 1) : a.Faithful type := by
  obtain ⟨hname, hspelling⟩ := hreads
  obtain ⟨hunbroken, hunbroken'⟩ := h.unbroken
  have htail : a.suffix.tail = [] := by
    rw [← List.length_eq_zero_iff, List.length_tail]
    omega
  have hnil : ∀ c ∈ ([] : List Char).head?, Text.isWordChar c = false := by simp
  have hfaces := h.faces_name hnil
  rw [List.append_nil, Token.faces_nil, List.append_nil] at hfaces
  have hmark : Suffix.Apart (a.suffix.head?.elim "" (·.text)).toList ∧
      Token.faces (a.suffix.head?.elim "" (·.text)).toList = a.suffix.map Token.face := by
    obtain ⟨-, -, -, -, hgenuine⟩ := h.genuine_of_mem
    rcases h.suffix.cases_head with hnil | ⟨t, us, hcons, ⟨text, htext, ht⟩, -⟩
    · rw [hnil]
      exact ⟨by simp [Suffix.Apart], Token.faces_nil⟩
    · obtain rfl : us = [] := by simpa [hcons] using htail
      refine ⟨?_, by simpa [hcons] using hgenuine t (by simp [hcons])⟩
      simp only [List.mem_cons, List.not_mem_nil, or_false] at htext
      rw [hcons]
      rcases htext with rfl | rfl | rfl <;> simp [Suffix.Apart, ht.2]
  constructor
  · rw [hname, Name.map_face_tokens, Text.unifyBreaks_of_not_mem hunbroken, htail,
      Token.joined_nil, String.append_empty, hfaces]
    obtain ⟨t, hlast, ht⟩ := exists_last_path h.path
    obtain ⟨-, -, hgenuine, -⟩ := h.genuine_of_mem
    rintro x hx
    obtain rfl : t.face = x := by
      simpa [List.getLast?_append, hlast] using hx
    exact text_notMem_of_pathWord ht (hgenuine t (List.mem_of_getLast? hlast))
  · rw [hspelling, Name.map_face_tokens, Text.unifyBreaks_of_not_mem hunbroken', spelled, htail,
      Token.joined_nil, String.append_empty]
    simp only [String.toList_append, List.append_assoc]
    rw [h.faces_front, h.faces_name (hmark.1.const _).letter, h.faces_back hmark.1, hmark.2]
    simp [tokens, words]

/-- A name that ends with marks is not that of the argument. -/
theorem not_unmarked_of_suffix {name : String} {xs : List (Kind × String)} (h : Suffix ts)
    (hne : ts ≠ []) (hgenuine : ∀ t ∈ ts, Token.faces t.text.toList = [t.face])
    (hunbroken : '\r' ∉ name.toList)
    (hname : Token.faces name.toList = xs ++ Token.faces (Token.joined ts).toList) :
    ¬ ∀ x ∈ ((Name.tokens name).map Token.face).getLast?, x.2 ∉ ["*", "&", "&&", "const"] := by
  obtain ⟨t, hlast⟩ := Option.isSome_iff_exists.mp (List.getLast?_isSome.mpr hne)
  have hnil : Suffix.Apart [] := by simp [Suffix.Apart]
  have hfaces := faces_suffix h hgenuine hnil (by simp)
  rw [List.append_nil, Token.faces_nil, List.append_nil] at hfaces
  rw [hfaces] at hname
  intro hunmarked
  refine hunmarked t.face ?_ (h.text_mem t (List.mem_of_getLast? hlast))
  rw [Name.map_face_tokens, Text.unifyBreaks_of_not_mem hunbroken, hname, List.getLast?_append,
    List.getLast?_map, hlast]
  rfl

/-- With more marks, an argument is not kept: the name ends with a mark, or it swallows a
`const`. -/
theorem Sound.length_le_of_faithful (h : a.Sound table scope) {type : NativeType}
    (hreads : a.Reads type) (hfaithful : a.Faithful type) : a.suffix.length ≤ 1 := by
  obtain ⟨hname, hspelling⟩ := hreads
  obtain ⟨hunmarked, hspelled⟩ := hfaithful
  obtain ⟨hunbroken, hunbroken'⟩ := h.unbroken
  obtain ⟨-, -, -, -, hgenuine⟩ := h.genuine_of_mem
  have hsuffix := h.suffix
  have hapart : Suffix.Apart [] := by simp [Suffix.Apart]
  have hconst : ∀ c ∈ "const".toList, Text.isWordChar c = true :=
    Text.isWordChar_of_isWord (by decide +kernel)
  rw [hname] at hunmarked
  generalize hall : a.suffix = marks at *
  cases hsuffix with
  | nil => exact Nat.zero_le 1
  | reference ht => exact Nat.le_refl 1
  | @star t ts ht hts =>
      rcases eq_or_ne ts [] with rfl | hne
      · exact Nat.le_refl 1
      have hfaces := h.faces_name (hts.apart_joined hapart).letter
      rw [List.append_nil, ← String.toList_append] at hfaces
      exact absurd hunmarked (not_unmarked_of_suffix hts hne
        (fun u hu => hgenuine u (by simp [hu])) hunbroken hfaces)
  | @constStar t c ts ht hc hts =>
      rcases eq_or_ne ts [] with rfl | hne
      · -- the spelling ends with the star, and the argument with `const`
        have hstar : Suffix.Apart t.text.toList := by simp [Suffix.Apart, ht.2]
        obtain ⟨xs, hxs⟩ := h.faces_name_append hconst (hstar.const a.back.isSome).letter
        rw [h.faces_back hstar, hgenuine t (by simp)] at hxs
        have hspelling' : a.spelled.toList = (if a.front.isSome then "const " else "").toList ++
            (a.name.toList ++ ("const".toList ++ ((if a.back.isSome then " const" else "").toList ++
              t.text.toList))) := by
          simp [spelled, hall, hc.2]
        have hlast : (a.tokens.map Token.face).getLast? = some c.face := by
          simp [tokens, hall, List.getLast?_append]
        rw [← hspelled, hspelling, Name.map_face_tokens, Text.unifyBreaks_of_not_mem hunbroken',
          hspelling', h.faces_front, hxs, ← List.append_assoc, ← List.append_assoc,
          List.getLast?_append] at hlast
        have htext : t.text = c.text := congrArg Prod.snd (Option.some.inj hlast)
        rw [ht.2, hc.2] at htext
        exact absurd htext (by decide)
      · obtain ⟨xs, hfaces⟩ := h.faces_name_append hconst (hts.apart_joined hapart).letter
        rw [List.append_nil, ← hc.2, ← String.toList_append, ← String.toList_append,
          ← Token.joined_cons] at hfaces
        exact absurd hunmarked (not_unmarked_of_suffix hts hne
          (fun u hu => hgenuine u (by simp [hu])) hunbroken hfaces)

end Argument

/-- An argument is kept exactly if there is at most one mark behind its path. -/
theorem faithful_iff {table : RuleTable} {scope : Scope} {a : Argument} (h : a.Sound table scope)
    {type : NativeType} (hreads : a.Reads type) :
    a.Faithful type ↔ a.suffix.length ≤ 1 :=
  ⟨h.length_le_of_faithful hreads, h.faithful hreads⟩

/-- **Template arguments.** Without rules, the type of each argument has a name without
marks and `const` behind it and is spelled as the argument was written, exactly if at most
one mark stands behind the path. -/
theorem readArguments_faithful (n : Nat) {scope : Scope} {as : List Argument}
    {opening close : Token} (hbare : s.table.Bare) (hclose : close.IsMark ">")
    (hlisted : Listed ts as) (has : ∀ a ∈ as, a.Sound s.table scope)
    (h : s.Sees (opening :: (ts ++ close :: u :: us))) :
    Passes (readArguments (nestUpTo readWith (n + 1)) scope) s (close :: u :: us)
      (List.Forall₂ (fun a type => a.Faithful type ↔ a.suffix.length ≤ 1) as) := by
  refine (readArguments_reads n hbare hclose hlisted has h).imp fun types htypes => ?_
  clear hlisted h
  induction htypes with
  | nil => exact .nil
  | cons hreads _ ih =>
      exact .cons (faithful_iff (has _ List.mem_cons_self) hreads)
        (ih fun a ha => has a (List.mem_cons_of_mem _ ha))

/-- A token of a sample. -/
def sampleToken (kind : Kind) (text : String) : Token :=
  { kind, text, location := { line := 1 } }

/-- A path of one word with these marks behind it. -/
def sampleArgument (name : String) (marks : List Token) : Argument :=
  { front := none, root := none, path := [sampleToken .identifier name], back := none
    suffix := marks }

/-- A pointer to something that does not change, and a reference. -/
theorem readArguments_faithful_pair :
    let pointer : Argument :=
      { sampleArgument "A" [sampleToken .punct "*"] with
        front := some (sampleToken (.keyword .const_) "const")
        back := some (sampleToken (.keyword .const_) "const") }
    let reference := sampleArgument "B" [sampleToken .symbol "&&"]
    let s := Reading.ofTokens {} (sampleToken .punct "<" ::
      (pointer.tokens ++ sampleToken .punct "," :: reference.tokens ++
        [sampleToken .punct ">", sampleToken .punct ";"]))
    pointer.Sound s.table {} ∧ reference.Sound s.table {} ∧
      ∃ types s', readArguments (nestUpTo readWith 1) {} s = .ok types s' ∧
        List.Forall₂ Argument.Faithful [pointer, reference] types := by
  intro pointer reference s
  have hbare : s.table.Bare := by simp [RuleTable.Bare, RuleTable.layers, s, Reading.ofTokens]
  have hword (name : String) (hname : Text.isWord name.toList = true)
      (hnamed : Name.fundamentalWords.contains name = false) :
      Token.IsPath s.table [sampleToken .identifier name] :=
    .word (hbare.pathWord ⟨rfl, hname⟩ hnamed)
  have hconst : IsConst (sampleToken (.keyword .const_) "const") := ⟨rfl, rfl⟩
  have hpointer : pointer.Sound s.table {} :=
    { front := by simpa [pointer] using hconst
      root := by simp [pointer, sampleArgument]
      path := hword "A" (by decide +kernel) (by decide)
      back := by simpa [pointer] using hconst
      suffix := .star ⟨Or.inl rfl, rfl⟩ .nil
      genuine := by decide +kernel
      unbound := rfl }
  have hreference : reference.Sound s.table {} :=
    { front := by simp [reference, sampleArgument]
      root := by simp [reference, sampleArgument]
      path := hword "B" (by decide +kernel) (by decide)
      back := by simp [reference, sampleArgument]
      suffix := .reference (Or.inr ⟨Or.inr rfl, rfl⟩)
      genuine := by decide +kernel
      unbound := rfl }
  refine ⟨hpointer, hreference, ?_⟩
  have hsees : s.Sees (sampleToken .punct "<" :: ((pointer.tokens ++ sampleToken .punct "," ::
      reference.tokens) ++ sampleToken .punct ">" :: sampleToken .punct ";" ::
        [Window.endToken s.window.tokens])) :=
    Reading.sees_ofTokens hbare.plain
      (show ∀ t ∈ s.window.tokens.toList, t.is "#" = false by decide +kernel)
  obtain ⟨types, j, hread, -, htypes⟩ := readArguments_faithful 0 hbare
    (⟨Or.inl rfl, rfl⟩ : (sampleToken .punct ">").IsMark ">")
    (.cons pointer (⟨Or.inl rfl, rfl⟩ : (sampleToken .punct ",").IsMark ",") (.last reference))
    (by simpa using ⟨hpointer, hreference⟩) hsees
  refine ⟨types, _, hread, ?_⟩
  cases htypes with
  | cons hfirst hrest =>
      cases hrest with
      | cons hsecond hnil =>
          cases hnil
          exact .cons (hfirst.mpr (Nat.le_refl 1)) (.cons (hsecond.mpr (Nat.le_refl 1)) .nil)

/-- The arguments of a text without rules. -/
def argumentsOf? (text : String) : Option (List NativeType) :=
  match readArguments (nestUpTo readWith 1) {} (.ofTokens {} (Token.ofText none text)) with
  | .ok types _ => some types
  | _ => none

/-- The names and spellings of what is read are those of its one argument. -/
theorem exists_argument {text name spelling : String}
    (h : (argumentsOf? text).map (·.map fun type => (type.nativeName, type.spelling)) =
      some [(name, spelling)]) :
    ∃ type, argumentsOf? text = some [type] ∧ type.nativeName = name ∧
      type.spelling = spelling := by
  obtain ⟨types, htypes, hmap⟩ := Option.map_eq_some_iff.mp h
  obtain ⟨type, rfl, hpair⟩ := List.map_eq_singleton_iff.mp hmap
  obtain ⟨hname, hspelling⟩ := Prod.mk.inj hpair
  exact ⟨type, htypes, hname, hspelling⟩

/-- A second star stays in the name, and `const` behind the first one becomes part of it. -/
theorem second_mark_is_kept_in_name :
    let star := sampleToken .punct "*"
    let const := { sampleToken (.keyword .const_) "const" with spacing := " " }
    Token.ofText none "B**" = (sampleArgument "B" [star, star]).tokens ∧
      Token.ofText none "B* const" = (sampleArgument "B" [star, const]).tokens ∧
      ∃ doubled constant, argumentsOf? "<B**>" = some [doubled] ∧ doubled.nativeName = "B*" ∧
        ¬ (sampleArgument "B" [star, star]).Faithful doubled ∧
        argumentsOf? "<B* const>" = some [constant] ∧ constant.spelling = "Bconst*" ∧
        ¬ (sampleArgument "B" [star, const]).Faithful constant := by
  intro star const
  obtain ⟨doubled, hdoubled, hname, -⟩ :=
    exists_argument (show (argumentsOf? "<B**>").map _ = some [("B*", "B**")] by decide +kernel)
  obtain ⟨constant, hconstant, -, hspelling⟩ :=
    exists_argument
      (show (argumentsOf? "<B* const>").map _ = some [("Bconst", "Bconst*")] by decide +kernel)
  refine ⟨by decide +kernel, by decide +kernel, doubled, constant, hdoubled, hname, ?_, hconstant,
    hspelling, ?_⟩
  · rintro ⟨hunmarked, -⟩
    rw [hname] at hunmarked
    revert hunmarked
    decide +kernel
  · rintro ⟨-, hspelled⟩
    rw [hspelling] at hspelled
    revert hspelled
    decide +kernel

end NativeType

end HeaderPeers

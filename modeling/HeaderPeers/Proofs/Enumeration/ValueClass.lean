import HeaderPeers.Proofs.Enumeration.Rendering

/-!
# Classes of values

An enumeration may be printed as a class of values.

- `Enumeration.IsRuntime` — initializers that are only known at run time.
- `Enumeration.Follows` — what may follow a name: behind a value that is only known at run time, or
  an expression with a loose operator, nothing counts on.
- `Layout.class_renders` — the values of the class are the native ones.
-/

namespace HeaderPeers

open Arithmetic ReadM

namespace Enumeration

variable {names : List Char → Option Int} {seen : List String} {e : Enumerator} {v : Int}
  {table : RuleTable} {path : String} {ts : List Token} {x : Expression}

/-! ## Initializers that are known at run time -/

/-- An initializer with a call or a brace. -/
def IsRuntime (ts : List Token) : Prop :=
  GoesOn 0 ts ∧ ∃ (before : List Token) (t : Token) (after : List Token),
    ts = before ++ t :: after ∧
      (t.IsMark "\x7b" ∨ t.IsMark "\x7d" ∨ t.IsMark "(" ∧ before.getLast?.any Token.isWord = true)

namespace Initializer

variable {w : Initializer} {t : Token}

theorem push_last (w : Initializer) (table : RuleTable) (t : Token) :
    (w.push table t).last = some t := by
  unfold push
  dsimp only
  split
  · rfl
  · split <;> rfl

theorem foldl_push_last (table : RuleTable) (ts : List Token) (w : Initializer) :
    (ts.foldl (Initializer.push · table) w).last = ts.getLast?.or w.last := by
  induction ts generalizing w with
  | nil => rfl
  | cons t ts ih =>
      rw [List.foldl_cons, ih, push_last]
      cases ts with
      | nil => rfl
      | cons u ts => simp [List.getLast?_cons]

/-- What was not plain is not, and what was written stays. -/
structure Grows (w w' : Initializer) : Prop where
  isPlain : w.isPlain = false → w'.isPlain = false
  text : w.text.toList <+: w'.text.toList

theorem push_grows (w : Initializer) (table : RuleTable) (t : Token) :
    Grows w (w.push table t) := by
  unfold push
  dsimp only
  split
  · exact ⟨fun h => by simp [h], List.prefix_refl _⟩
  · split
    · exact ⟨fun h => by simp [flush, h], ⟨_, (String.toList_append).symm⟩⟩
    · refine ⟨fun h => by simp [flush, h], ?_⟩
      simp only [flush, String.toList_append, List.append_assoc]
      exact List.prefix_append _ _

theorem foldl_push_grows (table : RuleTable) (ts : List Token) (w : Initializer) :
    Grows w (ts.foldl (Initializer.push · table) w) := by
  induction ts generalizing w with
  | nil => exact ⟨id, List.prefix_refl _⟩
  | cons t ts ih =>
      have hfirst := push_grows w table t
      have hrest := ih (w.push table t)
      exact ⟨fun h => hrest.isPlain (hfirst.isPlain h), hfirst.text.trans hrest.text⟩

/-- A mark is written. -/
theorem mem_push (w : Initializer) (table : RuleTable) {text : String} (mark : t.IsMark text)
    (hcolons : text ≠ "::") : ∀ c ∈ text.toList, c ∈ (w.push table t).text.toList := by
  intro c hc
  have hword := mark.isWord_eq
  unfold push
  dsimp only
  rw [if_neg (by simp [hword, mark.is_eq, hcolons]), if_neg (by simp [hword])]
  simp only [flush, String.toList_append, Token.spaced, mark.2, List.mem_append]
  exact Or.inr (Or.inr hc)

end Initializer

/-- What is known at run time is not plain, and its text has a mark that no number has. -/
theorem readings_of_isRuntime (table : RuleTable) (h : IsRuntime ts) :
    (ts.foldl (Initializer.push · table) {}).isPlain = false ∧
      ∃ c ∈ ((ts.foldl (Initializer.push · table) {}).flush table).text.toList,
        c ∈ ['\x7b', '\x7d', '('] := by
  obtain ⟨-, before, t, after, rfl, hmark⟩ := h
  rw [List.foldl_append, List.foldl_cons]
  have hlast : (before.foldl (Initializer.push · table) {}).last = before.getLast? := by
    rw [Initializer.foldl_push_last]
    exact Option.or_none
  generalize before.foldl (Initializer.push · table) {} = w at hlast
  have hgrows := Initializer.foldl_push_grows table after (w.push table t)
  have hwritten {c : Char} (hc : c ∈ (w.push table t).text.toList) : c ∈
      ((after.foldl (Initializer.push · table) (w.push table t)).flush table).text.toList := by
    rw [Initializer.flush, String.toList_append]
    exact List.mem_append_left _ (hgrows.text.subset hc)
  have hplain (h : (w.last.any Token.isWord && t.is "(" || t.isAny ["\x7b", "\x7d"]) = true) :
      (w.push table t).isPlain = false := by
    unfold Initializer.push
    dsimp only
    split
    · simp [h]
    · split <;> simp [Initializer.flush, h]
  rcases hmark with hmark | hmark | ⟨hmark, hword⟩
  · exact ⟨hgrows.isPlain (hplain (by simp [Token.isAny, hmark.is_eq])), '\x7b',
      hwritten (w.mem_push table hmark (by decide) _ (by decide)), by decide⟩
  · exact ⟨hgrows.isPlain (hplain (by simp [Token.isAny, hmark.is_eq])), '\x7d',
      hwritten (w.mem_push table hmark (by decide) _ (by decide)), by decide⟩
  · exact ⟨hgrows.isPlain (hplain (by simp [hlast, hword, hmark.is_eq])), '(',
      hwritten (w.mem_push table hmark (by decide) _ (by decide)), by decide⟩

/-- What has such a mark is no number. -/
theorem signed64?_of_mark {text : String} {c : Char} (hc : c ∈ text.toList)
    (hmark : c ∈ ['\x7b', '\x7d', '(']) : Number.signed64? 10 (Text.trim text).toList = none := by
  by_contra hnumber
  obtain ⟨n, hn⟩ := Option.ne_none_iff_exists'.mp hnumber
  obtain ⟨-, -, digits, m, hm, hwritten⟩ := exists_digits_of_signed64? hn
  have hdigits {c : Char} (hc : c ∈ digits) : c.isDigit = true :=
    isDigit_of_digitValue? (Nat.le_refl 10) (forall_of_natural? hm c hc)
  obtain ⟨hdigit, hsign, hblank⟩ :
      c.isDigit = false ∧ c ∉ ['+', '-'] ∧ Text.isBlank c = false := by
    simp only [List.mem_cons, List.not_mem_nil, or_false] at hmark
    rcases hmark with rfl | rfl | rfl <;> decide
  obtain ⟨before, after, htext, hbefore, hafter⟩ := Text.exists_trim text
  have hmem : c ∈ (Text.trim text).toList := by
    rw [htext, List.mem_append, List.mem_append] at hc
    rcases hc with hc | hc | hc
    · exact absurd (hbefore c hc) (by simp [hblank])
    · exact hc
    · exact absurd (hafter c hc) (by simp [hblank])
  rcases hwritten with ⟨htext, -⟩ | ⟨negative, htext, -⟩
  · exact Bool.false_ne_true (hdigit.symm.trans (hdigits (htext ▸ hmem)))
  · rcases List.mem_append.mp (htext ▸ hmem) with hmem | hmem
    · refine hsign ?_
      cases negative <;> simp_all [Expression.signOperator, Operator.symbol]
    · exact Bool.false_ne_true (hdigit.symm.trans (hdigits hmem))

/-- Counting on from what is known at run time starts with a call of the getter. -/
theorem ofValue_of_isRuntime (table : RuleTable) (h : IsRuntime ts) (name : String) :
    Counter.ofValue name ((ts.foldl (Initializer.push · table) {}).flush table).text
      (ts.foldl (Initializer.push · table) {}).isPlain = ({ base := name ++ "()" }, true) := by
  obtain ⟨hplain, c, hc, hmark⟩ := readings_of_isRuntime table h
  unfold Counter.ofValue
  rw [signed64?_of_mark hc hmark, hplain]
  rfl

/-! ## Reading members -/

/-- What an enumerator is given behind its name. -/
inductive Given where
  | counted
  | expression (x : Expression)
  | runtime

/-- A name between the braces, and what it is given. -/
abbrev Member := String × Given

/-- The tokens of a name and its initializer. Its name stays as it is. -/
inductive Introduces (table : RuleTable) (path : String) : List Token → Member → Prop where
  | counted {t : Token} (kind : t.isWord = true) (word : Text.isWord t.text.toList = true)
      (kept : ((table.find? (path ++ t.text)).bind (·.targetName?)).getD t.text = t.text) :
      Introduces table path [t] (t.text, .counted)
  | expression {t mark : Token} {ts : List Token} {x : Expression} (kind : t.isWord = true)
      (word : Text.isWord t.text.toList = true)
      (kept : ((table.find? (path ++ t.text)).bind (·.targetName?)).getD t.text = t.text)
      (equals : mark.IsMark "=") (written : Written ts x) (ranked : x.Ranked)
      (leads : ∀ digits ∈ x.digits?, ¬ Misleads digits) (blank : ∀ t ∈ ts, t.Blank) :
      Introduces table path (t :: mark :: ts) (t.text, .expression x)
  | runtime {t mark : Token} {ts : List Token} (kind : t.isWord = true)
      (word : Text.isWord t.text.toList = true)
      (kept : ((table.find? (path ++ t.text)).bind (·.targetName?)).getD t.text = t.text)
      (equals : mark.IsMark "=") (given : IsRuntime ts) :
      Introduces table path (t :: mark :: ts) (t.text, .runtime)

theorem Introduces.isWord {m : Member} (h : Introduces table path ts m) :
    Text.isWord m.1.toList = true := by
  cases h with
  | counted kind word => exact word
  | expression kind word => exact word
  | runtime kind word => exact word

theorem Introduces.exists_first {m : Member} (h : Introduces table path ts m) :
    ∃ t rest, ts = t :: rest ∧ t.isEof = false ∧ t.is "\x7d" = false ∧ t.is "#" = false := by
  have hword {t : Token} (kind : t.isWord = true) (word : Text.isWord t.text.toList = true) :=
    (Declares.bare kind word).exists_first
  have hfirst {t : Token} {rest : List Token} (kind : t.isWord = true)
      (word : Text.isWord t.text.toList = true) :
      ∃ u us, t :: rest = u :: us ∧ u.isEof = false ∧ u.is "\x7d" = false ∧ u.is "#" = false := by
    obtain ⟨u, us, hu, h⟩ := hword kind word
    obtain ⟨rfl, -⟩ := List.cons.inj hu
    exact ⟨t, rest, rfl, h⟩
  cases h with
  | counted kind word => exact hfirst kind word
  | expression kind word => exact hfirst kind word
  | runtime kind word => exact hfirst kind word

/-- The enumerator that is read for a member, from where counting stood to where it stands. -/
structure Takes (names : List Char → Option Int) (path : String) (counter : Counter) (m : Member)
    (e : Enumerator) (counter' : Counter) : Prop where
  nativeName : e.nativeName = path ++ m.1
  name : e.name = m.1
  word : Text.isWord m.1.toList = true
  counts : e.base = counter'.base ∧ e.count = counter'.count
  given : match m.2 with
    | .counted => e.getter = false ∧ counter' = counter
    | .expression x => e.getter = false ∧ counter'.Stands names (x.after names) ∧
        '.' ∉ counter'.base.toList
    | .runtime => e.getter = true ∧ counter'.count = 0

/-- Where counting starts from an expression without dots, there are none. -/
theorem ofValue_undotted {cs : List Char} (hdot : '.' ∉ cs) (name : String) :
    '.' ∉ (Counter.ofValue name (String.ofList cs) true).1.base.toList := by
  unfold Counter.ofValue
  split
  · exact List.not_mem_nil
  · obtain ⟨before, after, htext, -⟩ := Text.exists_trim (String.ofList cs)
    rw [String.toList_ofList] at htext
    refine fun hmem => hdot ?_
    rw [htext]
    exact List.mem_append_right _ (List.mem_append_left _ hmem)

theorem readEnumerator_takes (names : List Char → Option Int) {s : Reading} {comment : String}
    {counter : Counter} {rest : List Token} {stop : Token} {m : Member}
    (h : s.Sees (ts ++ stop :: rest)) (hmember : Introduces s.table path ts m) (hstop : Stops stop)
    (hrest : stop.is "," = true → rest ≠ []) :
    Passes (readEnumerator path comment counter) s (if stop.is "," then rest else stop :: rest)
      fun r => Takes names path counter m r.1 r.2 := by
  cases hmember with
  | @counted t kind word kept =>
      have hequals : stop.is "=" = false := by rcases hstop with h | h <;> simp [h.is_eq]
      unfold readEnumerator
      refine (peek_passes h).bind_eq fun j h => ?_
      refine (expectWord_passes h kind).bind fun _ j _ h => ?_
      dsimp only
      refine Passes.bind_eq (a := s.table.find? (path ++ t.text)) (passes_of_eq rfl h) fun j h => ?_
      refine (advance_passes h).bind_eq fun j h => ?_
      rw [if_neg (by simp [hequals])]
      refine Passes.bind_eq (passes_of_eq rfl h) fun j h => ?_
      refine (behind_value_passes h hrest _).imp ?_
      rintro _ ⟨after, rfl⟩
      exact ⟨rfl, kept, word, ⟨rfl, rfl⟩, rfl, rfl⟩
  | @expression t mark ts x kind word kept equals written ranked leads blank =>
      obtain ⟨counter', hcounter, hstands⟩ : ∃ c,
          Counter.ofValue (((s.table.find? (path ++ t.text)).bind (·.targetName?)).getD t.text)
              (String.ofList (Token.chars ts)) true = (c, false) ∧
            c.Stands names (x.after names) :=
        Counter.ofValue_stands written ranked blank leads _
      have hdot : '.' ∉ counter'.base.toList := by
        have hundotted := ofValue_undotted (chars_undotted written blank)
          (((s.table.find? (path ++ t.text)).bind (·.targetName?)).getD t.text)
        rwa [hcounter] at hundotted
      unfold readEnumerator
      refine (peek_passes h).bind_eq fun j h => ?_
      refine (expectWord_passes h kind).bind fun _ j _ h => ?_
      dsimp only
      refine Passes.bind_eq (a := s.table.find? (path ++ t.text)) (passes_of_eq rfl h) fun j h => ?_
      refine (advance_passes h).bind_eq fun j h => ?_
      rw [if_pos (by simp [equals.is_eq])]
      refine (readInitializer_passes h written blank hstop).bind_eq fun j h => ?_
      dsimp only
      rw [hcounter]
      refine Passes.bind_eq (passes_of_eq rfl h) fun j h => ?_
      refine (behind_value_passes h hrest _).imp ?_
      rintro _ ⟨after, rfl⟩
      exact ⟨rfl, kept, word, ⟨rfl, rfl⟩, rfl, hstands, hdot⟩
  | @runtime t mark ts kind word kept equals given =>
      unfold readEnumerator
      refine (peek_passes h).bind_eq fun j h => ?_
      refine (expectWord_passes h kind).bind fun _ j _ h => ?_
      dsimp only
      refine Passes.bind_eq (a := s.table.find? (path ++ t.text)) (passes_of_eq rfl h) fun j h => ?_
      refine (advance_passes h).bind_eq fun j h => ?_
      rw [if_pos (by simp [equals.is_eq])]
      refine (readInitializer_goes h given.1 hstop).bind_eq fun j h => ?_
      dsimp only
      have htable (r : Reading) (j : Nat) : (r.atIndex j).table = r.table := rfl
      simp only [htable]
      rw [ofValue_of_isRuntime s.table given]
      refine Passes.bind_eq (passes_of_eq rfl h) fun j h => ?_
      refine (behind_value_passes h hrest _).imp ?_
      rintro _ ⟨after, rfl⟩
      exact ⟨rfl, kept, word, ⟨rfl, rfl⟩, rfl, rfl⟩

theorem memberReader (names : List Char → Option Int) (table : RuleTable) (path : String) :
    Reader table path (Introduces table path) (Takes names path) where
  first h := h.exists_first
  reads htable h hmember hstop hrest :=
    readEnumerator_takes names h (by rwa [htable]) hstop hrest

/-! ## Counting on -/

/-- What counts on behind this. -/
def Given.CountsOn : Given → Prop
  | .counted => True
  | .expression x => x.Tight
  | .runtime => False

/-- A name without an initializer follows only what can be counted on from. -/
def Follows (m m' : Member) : Prop :=
  m'.2 = .counted → m.2.CountsOn

/-- The values of members in C, from what comes next if nothing is given. The value that is only
known at run time is that of the name. -/
def memberValues? (names : List Char → Option Int) : Int → List Member → Option (List Int)
  | _, [] => some []
  | next, (_, .counted) :: ms => (memberValues? names (next + 1) ms).map (next :: ·)
  | _, (_, .expression x) :: ms => do
    let v ← x.value? names
    (memberValues? names (v + 1) ms).map (v :: ·)
  | _, (name, .runtime) :: ms => do
    let v ← names name.toList
    (memberValues? names (v + 1) ms).map (v :: ·)

/-- For so many places, what is printed counts on from this value. -/
structure CountsFrom (names : List Char → Option Int) (c : Counter) (v : Int) (places : Nat) :
    Prop where
  undotted : '.' ∉ c.base.toList
  value : ∀ i < places, value? names (Counter.next^[i] c).text = some (v + i)

theorem CountsFrom.next {c : Counter} {places : Nat} (h : CountsFrom names c v (places + 1)) :
    CountsFrom names c.next (v + 1) places where
  undotted := h.undotted
  value i hi := by
    have hnext := h.value (i + 1) (Nat.succ_lt_succ hi)
    rw [Function.iterate_succ_apply] at hnext
    rw [hnext]
    push_cast
    ring_nf

theorem countsFrom_of_stands {c : Counter} {values : Nat → Option Int} {places : Nat}
    (hstands : c.Stands names values) (hdot : '.' ∉ c.base.toList)
    (hvalues : ∀ i : Nat, values i = some (v + i)) (hplaces : places ≤ 2 ^ 62) :
    CountsFrom names c v places :=
  ⟨hdot, fun i hi => hstands i (Nat.lt_of_lt_of_le hi hplaces) _ (hvalues i)⟩

/-- The printed values of names, behind the names seen. -/
inductive RendersAll (names : List Char → Option Int) :
    List String → List Enumerator → List Int → Prop where
  | nil {seen : List String} : RendersAll names seen [] []
  | cons {seen : List String} {e : Enumerator} {es : List Enumerator} {v : Int} {vs : List Int}
      (value : Renders names seen e v) (more : RendersAll names (e.name :: seen) es vs) :
      RendersAll names seen (e :: es) (v :: vs)

/-- The enumerators of the class of values. -/
def rebased (seen : List String) : List Enumerator → List Enumerator
  | [] => []
  | e :: es => rebase seen e :: rebased (e.name :: seen) es

theorem rebaseAll_eq (seen : List String) (es : List Enumerator) :
    rebaseAll seen (es.map .enumerator) = (rebased seen es).map .enumerator := by
  induction es generalizing seen with
  | nil => rfl
  | cons e es ih => rw [List.map_cons, rebaseAll, ih, rebased, List.map_cons]

theorem rebase_name (seen : List String) (e : Enumerator) : (rebase seen e).name = e.name := by
  unfold rebase
  split_ifs <;> rfl

/-- A value from which nothing is counted on needs one place only. -/
theorem value?_of_stands {c : Counter} {values : Nat → Option Int} (hstands : c.Stands names values)
    (hvalue : values 0 = some v) : value? names c.text = some v :=
  hstands 0 (by decide) v hvalue

/-- **The values of the class are the native ones**, by induction on the names: in front of a name
that counts on, counting stands at its value. -/
theorem rendersAll_of_runs {members : List Member} : ∀ {counter : Counter} {next : Int}
    {seen : List String} {es : List Enumerator} {vs : List Int},
    Runs (Takes names path) counter members es → members.length ≤ 2 ^ 62 →
    members.IsChain Follows →
    (∀ m ∈ members.head?, m.2 = .counted → CountsFrom names counter next members.length) →
    AreWords seen → memberValues? names next members = some vs →
    RendersAll names seen (rebased seen es) vs := by
  induction members with
  | nil =>
      intro counter next seen es vs hruns _ _ _ _ hvs
      cases hruns
      obtain rfl := Option.some.inj hvs
      exact .nil
  | cons m members ih =>
      intro counter next seen es vs hruns hlength hchain hcounts hseen hvs
      cases hruns with
      | @cons _ counter' _ _ e es htakes hmore =>
      have hwords : AreWords (e.name :: seen) :=
        List.forall_mem_cons.mpr ⟨htakes.name ▸ htakes.word, hseen⟩
      have hlength' : members.length ≤ 2 ^ 62 := Nat.le_of_succ_le hlength
      have htext : e.value = counter'.text := by
        unfold Counter.text Enumerator.value
        rw [htakes.counts.1, htakes.counts.2]
      obtain ⟨name, given⟩ := m
      have hgiven := htakes.given
      have hrest {v : Int} {ws : List Int} (hvalue : Renders names seen (rebase seen e) v)
          (hfrom : given.CountsOn → CountsFrom names counter'.next (v + 1) members.length)
          (hws : memberValues? names (v + 1) members = some ws) :
          RendersAll names seen (rebased seen (e :: es)) (v :: ws) := by
        refine .cons hvalue ?_
        rw [rebase_name]
        refine ih hmore hlength' hchain.tail (fun m' hm' hcounted => hfrom ?_) hwords hws
        cases members with
        | nil => cases hm'
        | cons m'' members =>
            obtain rfl := Option.some.inj hm'
            exact (List.isChain_cons_cons.mp hchain).1 hcounted
      cases given with
      | counted =>
          obtain ⟨hgetter, rfl⟩ := hgiven
          have hfrom := hcounts _ rfl rfl
          obtain ⟨ws, hws, rfl⟩ := Option.map_eq_some_iff.mp hvs
          have hvalue := hfrom.value 0 (Nat.succ_pos _)
          rw [Function.iterate_zero_apply, Nat.cast_zero, Int.add_zero, ← htext] at hvalue
          exact hrest (renders_of_value hseen hgetter (htakes.counts.1 ▸ hfrom.undotted) hvalue)
            (fun _ => hfrom.next) hws
      | expression x =>
          obtain ⟨hgetter, hstands, hdot⟩ := hgiven
          obtain ⟨v, hv, hvs⟩ := Option.bind_eq_some_iff.mp hvs
          obtain ⟨ws, hws, rfl⟩ := Option.map_eq_some_iff.mp hvs
          have hvalue := value?_of_stands hstands hv
          rw [← htext] at hvalue
          refine hrest (renders_of_value hseen hgetter (htakes.counts.1 ▸ hdot) hvalue)
            (fun htight => ?_) hws
          exact (countsFrom_of_stands hstands hdot (x.after_of_tight htight hv) hlength).next
      | runtime =>
          obtain ⟨hgetter, hcount⟩ := hgiven
          obtain ⟨v, hv, hvs⟩ := Option.bind_eq_some_iff.mp hvs
          obtain ⟨ws, hws, rfl⟩ := Option.map_eq_some_iff.mp hvs
          exact hrest (renders_getter hgetter (htakes.counts.2.trans hcount) (htakes.name ▸ hv))
            False.elim hws

theorem native_of_runs {counter : Counter} {members : List Member} {es : List Enumerator}
    (h : Runs (Takes names path) counter members es) :
    (rebased seen es).map (·.nativeName) = members.map (path ++ ·.1) ∧
      (rebased seen es).map (·.name) = members.map (·.1) := by
  induction h generalizing seen with
  | nil => exact ⟨rfl, rfl⟩
  | @cons counter counter' m members e es step more ih =>
      obtain ⟨hnatives, hnames⟩ := @ih (m.1 :: seen)
      have hnative : (rebase seen e).nativeName = e.nativeName := by
        unfold rebase
        split_ifs <;> rfl
      simp only [rebased, List.map_cons, hnatives, hnames, hnative, rebase_name, step.nativeName,
        step.name, and_self]

/-! ## Reading a class of values -/

/-- A rule prints the enumeration as a class of values. -/
def Enumerated (table : RuleTable) (nativeName title : String) : Prop :=
  nativeName ≠ "" ∧ ∃ rule ∈ table.find? nativeName, rule.enumerate = true ∧ rule.skip = false ∧
    rule.targetText = none ∧ rule.targetName?.getD title ≠ ""

namespace Layout

variable {l : Layout} {scope : Scope} {s : Reading} {u : Token} {members : List Member}
  {vs : List Int}

/-- Reading an enumeration adds a class of values, in which the enumerators are such,
with whatever annotations, comments and white space. -/
def AddsClass (l : Layout) (scope : Scope) (s : Reading) (P : List Enumerator → Prop) : Prop :=
  ∃ (s' : Reading) (e : Enumeration) (spacing annotations comment : String),
    read scope s = .ok true s' ∧ s'.outline = Outline.insert { s.outline with spacing := none }
      { text := (Outline.indentLines spacing (Text.lines (e.asValues.valueClass annotations))).1
          ++ comment } ∧
    e.nativeName = l.nativeName scope ∧ e.targetType = "int" ∧ P e.asValues.enumerators

theorem AddsClass.imp {P Q : List Enumerator → Prop} (h : l.AddsClass scope s P)
    (himp : ∀ es, P es → Q es) : l.AddsClass scope s Q := by
  obtain ⟨s', e, spacing, annotations, comment, hread, houtline, hname, htype, hes⟩ := h
  exact ⟨s', e, spacing, annotations, comment, hread, houtline, hname, htype, himp _ hes⟩

/-- An enumeration that a rule prints as a class of values is added as one. -/
theorem print_class_eq_ok (scope : Scope) (head : Head) {name nativeName : String}
    (ending comment : String) (entries : List EnumEntry) {s : Reading}
    (hname : nativeName = if name.isEmpty then "" else scope.qualifyLocal name)
    (h : Enumerated s.table nativeName name) :
    ∃ s' target annotations, print scope head name ending comment entries s = .ok true s' ∧
      s'.outline = Outline.insert { s.outline with spacing := none }
        { text := (Outline.indentLines head.spacing (Text.lines (valueClass (asValues
            { nativeName, name := target, targetType := head.targetType, isScoped := head.isScoped
              entries }) annotations))).1 ++ comment } := by
  obtain ⟨hnonempty, rule, hfind, henumerate, hskip, htext, htarget⟩ := h
  have hempty : nativeName.isEmpty = false := by simpa using hnonempty
  have hrule : rule? nativeName s = .ok (some rule) s := congrArg (EStateM.Result.ok · s) hfind
  let target := rule.targetName?.getD name
  let annotations := if target != name then "@Name(\"" ++ nativeName ++ "\") "
    else scope.namespaceText
  let e : Enumeration := { nativeName, name := target, targetType := head.targetType
                           isScoped := head.isScoped, entries }
  let text := (Outline.indentLines head.spacing (Text.lines (e.asValues.valueClass annotations))).1
  let s₁ : Reading := { s with outline := { s.outline with spacing := none } }
  have hindent : indent head.spacing (e.asValues.valueClass annotations) s = .ok text s₁ := rfl
  obtain ⟨s₂, hregister, houtline₂⟩ := register_eq_ok scope nativeName target head.targetType s₁
  obtain ⟨s₃, hadd, houtline₃⟩ := add_eq_ok (text ++ comment) s₂
  refine ⟨s₃, target, annotations, ?_, by rw [houtline₃, houtline₂]⟩
  unfold print
  rw [← hname]
  dsimp only
  rw [if_neg (by simp [hempty]), bind_of_ok hrule]
  have htargets : ((some rule).bind (·.targetName?)).getD name = target := rfl
  have hprinted : ((some rule).any (·.enumerate) && !target.isEmpty) = true := by
    simpa [henumerate] using htarget
  simp only [htargets]
  rw [if_neg (by simp [hskip]), if_pos hprinted, bind_of_ok hindent]
  simp only [hempty, htext, Option.bind_some, Option.getD_none, Option.isSome_none, Bool.not_false,
    if_true]
  rw [bind_of_ok hregister, bind_of_ok hadd]
  rfl

/-- **The class of values of an enumeration.** Where a rule prints the enumeration as a class of
values, each value is the native one: a copy of an earlier name, an expression over the fields of
earlier names, or the getter of a value that is only known at run time. Behind such a value, and
behind an expression with an operator that binds looser than a sum, no name may count on; no octal
literal may lead, and no name may get another on the target side. -/
theorem class_renders (names : List Char → Option Int) (l : Layout) {ts : List Token}
    (h : s.Sees (l.around ts ++ [u])) (hrule : Enumerated s.table (l.nativeName scope) l.title)
    (hmembers : Separated (Introduces s.table (l.path scope)) ts members)
    (hfollows : members.IsChain Follows) (hcount : members.length ≤ 2 ^ 62)
    (hvs : memberValues? names 0 members = some vs) :
    l.AddsClass scope s fun es =>
      es.map (·.nativeName) = members.map (l.path scope ++ ·.1) ∧
      es.map (·.name) = members.map (·.1) ∧ RendersAll names [] es vs := by
  have hentries (i : Nat) (h : (s.atIndex i).Sees (l.opening :: (ts ++ (l.behind ++ [u])))) :
      Passes (readEntries scope (l.path scope)) (s.atIndex i) (l.behind ++ [u]) fun entries =>
        ∃ es, entries = es.map .enumerator ∧
          Runs (Takes names (l.path scope)) {} members es :=
    (memberReader names s.table (l.path scope)).readEntries_passes (s := s.atIndex i) scope rfl h
      l.closes hmembers
  obtain ⟨i, spacing, isTypedef, comment, _, ⟨es, rfl, hruns⟩, hread⟩ :=
    l.read_eq_print ts h hentries
  obtain ⟨s', target, annotations, hprint, houtline⟩ :=
    print_class_eq_ok scope (l.head spacing isTypedef) l.semicolon.spacing comment
      (es.map .enumerator) (s := s.atIndex i) rfl hrule
  have henumerators : (asValues
      { nativeName := l.nativeName scope, name := target, targetType := "int"
        isScoped := l.kind.isSome, entries := es.map .enumerator }).enumerators = rebased [] es :=
    enumerators_of_eq_map (rebaseAll_eq [] es)
  refine ⟨s', _, _, annotations, comment, hread.trans hprint, houtline, rfl, rfl, ?_⟩
  obtain ⟨hnatives, hnames⟩ : (rebased [] es).map (·.nativeName) = _ ∧ _ := native_of_runs hruns
  have hstart : CountsFrom names {} 0 members.length :=
    countsFrom_of_stands (stands_start names) (by simp) (fun i => by rw [Int.zero_add]) hcount
  have hrenders := rendersAll_of_runs hruns hcount hfollows (fun _ _ _ => hstart)
    (fun _ hmem => absurd hmem List.not_mem_nil) hvs
  exact henumerators.symm ▸ ⟨hnatives, hnames, hrenders⟩

/-- A rule that prints `E` as a class of values. -/
def classTable : RuleTable :=
  ({} : RuleTable).put { nativeNames := ["E"], enumerate := true }

/-- `A`, `B = f(1)`, `C = A + 4` and `D`. -/
theorem sampleMembers :
    Separated (Introduces classTable "")
      ([sampleWord "A"] ++ sampleMark "," ::
        ([sampleWord "B", sampleMark "=", sampleWord "f", sampleMark "(", sampleNumber "1",
          sampleMark ")"] ++ sampleMark "," ::
        ([sampleWord "C", sampleMark "=", sampleWord "A", sampleMark "+", sampleNumber "4"] ++
          sampleMark "," :: [sampleWord "D"])))
      [("A", .counted), ("B", .runtime),
        ("C", .expression (.binary .add (.name ['A']) (.literal ['4']))), ("D", .counted)] := by
  have hcomma : (sampleMark ",").IsMark "," := ⟨Or.inl rfl, rfl⟩
  have hequals : (sampleMark "=").IsMark "=" := ⟨Or.inl rfl, rfl⟩
  have hcall : IsRuntime [sampleWord "f", sampleMark "(", sampleNumber "1", sampleMark ")"] := by
    refine ⟨?_, [sampleWord "f"], sampleMark "(", [sampleNumber "1", sampleMark ")"], rfl,
      Or.inr (Or.inr ⟨⟨Or.inl rfl, rfl⟩, rfl⟩)⟩
    exact ⟨rfl, by decide, rfl, by decide, rfl, by decide, rfl, by decide, Int.le_refl 0⟩
  have hsum : Written [sampleWord "A", sampleMark "+", sampleNumber "4"]
      (.binary .add (.name ['A']) (.literal ['4'])) :=
    .binary (.name rfl (by decide)) (.one (by decide) ⟨Or.inl rfl, rfl⟩)
      (.literal (n := 4) ⟨rfl, ['4'], by decide, by decide, by decide⟩) (by decide)
  refine .cons (.counted rfl (by decide) (by decide +kernel)) hcomma ?_
  refine .cons (.runtime rfl (by decide) (by decide +kernel) hequals hcall) hcomma ?_
  refine .cons (.expression rfl (by decide) (by decide +kernel) hequals hsum
    ⟨by decide, by decide, trivial, trivial⟩ (by decide) (blank_of_space (by decide))) hcomma ?_
  exact .last (.counted rfl (by decide) (by decide +kernel))

/-- In the class of `enum E {A, B = f(1), C = A + 4, D};`, where the call gives seven, the values
are zero, seven, four and five. -/
theorem class_renders_sample :
    ∃ ts, (sample [] [] .nil).AddsClass {} (.ofTokens classTable ((sample [] [] .nil).around ts))
      fun es => es.map (·.name) = ["A", "B", "C", "D"] ∧
        RendersAll (fun cs => if cs = ['A'] then some 0 else if cs = ['B'] then some 7 else none) []
          es [0, 7, 4, 5] := by
  let names : List Char → Option Int :=
    fun cs => if cs = ['A'] then some 0 else if cs = ['B'] then some 7 else none
  have hrule : Enumerated classTable ((sample [] [] .nil).nativeName {}) (sample [] [] .nil).title :=
    ⟨by decide +kernel, { nativeNames := ["E"], enumerate := true }, by decide +kernel, rfl, rfl, rfl,
      by decide +kernel⟩
  refine ⟨_, (class_renders names (sample [] [] .nil) (Reading.ofTokens_sees (by decide +kernel)) hrule
    sampleMembers ?_ (by decide) (by decide)).imp fun es hes => ⟨hes.2.1, hes.2.2⟩⟩
  simp [Follows, Given.CountsOn, Expression.Tight, Expression.level, Operator.level]

/-- The names between braces, and the values that they have in a class. -/
def classValues? (text : String) : Option (List (String × String)) :=
  match readEntries {} "" (.ofTokens classTable (Token.ofText none text)) with
  | .ok entries _ => some ((rebaseAll [] entries).filterMap fun
      | .enumerator e => some (e.name, e.value)
      | .directive _ => none)
  | _ => none

/-- Behind a value that is only known at run time, a name that counts on is printed with a call of a
field, which has no value. -/
theorem counting_calls_field :
    classValues? "\x7b A = f(1), B \x7d" = some [("A", "A_value()"), ("B", "A.value() + 1")] ∧
      words? "A.value() + 1".toList = some [.name "A.value".toList, .opening, .closing,
        .operator .add, .literal ['1']] ∧
      ∀ names, value? names "A.value() + 1" = none := by
  have hwords : words? "A.value() + 1".toList = some [.name "A.value".toList, .opening, .closing,
      .operator .add, .literal ['1']] := by
    decide +kernel
  refine ⟨by decide +kernel, hwords, fun names => ?_⟩
  by_contra hvalue
  obtain ⟨v, hv⟩ := Option.ne_none_iff_exists'.mp hvalue
  obtain ⟨ws, hws, hrun⟩ := Option.bind_eq_some_iff.mp hv
  obtain rfl := Option.some.inj (hwords.symm.trans hws)
  obtain ⟨m, hm, -⟩ := Option.bind_eq_some_iff.mp hrun
  exact (List.isChain_cons_cons.mp (isChain_of_run hm)).1 ⟨_, rfl⟩ rfl

end Layout

end Enumeration

end HeaderPeers

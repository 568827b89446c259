import HeaderPeers.Proofs.Enumeration.Initializer
import HeaderPeers.Proofs.Reading.Visible
import HeaderPeers.Proofs.TextParts

/-!
# The values of enumerators
-/

namespace HeaderPeers

open Arithmetic ReadM

namespace Enumeration

/-! ## Reading an initializer -/

namespace Initializer

variable {table : RuleTable} {v : Initializer} {t : Token} {cs : List Char} {depth : Int}

/-- An initializer without calls and braces so far, and the text of it. -/
structure Holds (table : RuleTable) (v : Initializer) (cs : List Char) (depth : Int) : Prop where
  isPlain : v.isPlain = true
  depth_eq : v.depth = depth
  text_eq : (v.flush table).text.toList = cs
  closed : Text.endsWith "::" v.name = false

/-- An operand may follow. -/
structure Awaits (table : RuleTable) (v : Initializer) (cs : List Char) (depth : Int) : Prop
    extends Holds table v cs depth where
  unnamed : v.name = ""
  notWord : v.last.any Token.isWord = false

theorem translateName_of_not_mem {s : String} (h : ':' ∉ s.toList) : table.translateName s = s := by
  have hcut : Text.cutLast? "::" s = none := by
    have hreverse : Text.cutChars? "::".toList.reverse s.toList.reverse = none := by
      by_contra hsome
      have hpart := Text.cutChars?_isSome_iff.mp (Option.isSome_iff_ne_none.mpr hsome)
      exact h (List.mem_reverse.mp (hpart.subset (by decide)))
    unfold Text.cutLast? Text.cutLastChars?
    rw [hreverse]
    rfl
  unfold RuleTable.translateName
  rw [hcut]

theorem translateName_empty : table.translateName "" = "" :=
  translateName_of_not_mem (by simp)

theorem awaits_nil (table : RuleTable) : Awaits table {} [] 0 where
  isPlain := rfl
  depth_eq := rfl
  text_eq := by
    rw [flush, translateName_empty]
    rfl
  closed := by decide
  unnamed := rfl
  notWord := rfl

/-- The depth behind a token. -/
def depthBehind (depth : Int) (t : Token) : Int :=
  if t.is "(" then depth + 1 else if t.is ")" then depth - 1 else depth

/-- What a token does that is no word. -/
theorem Holds.push (h : Holds table v cs depth) (hword : t.isWord = false)
    (hcolons : t.is "::" = false) (hbraces : t.isAny ["\x7b", "\x7d"] = false)
    (hcall : v.last.any Token.isWord = true → t.is "(" = false) :
    Awaits table (v.push table t) (cs ++ t.spaced.toList) (depthBehind depth t) := by
  have hplain : (v.last.any Token.isWord && t.is "(") = false := by
    cases hlast : v.last.any Token.isWord with
    | false => rfl
    | true => rw [hcall hlast]; rfl
  have hpush : v.push table t =
      { v with
        text := v.text ++ table.translateName v.name ++ t.spaced, name := "", isPlain := true
        depth := depthBehind v.depth t, last := some t } := by
    unfold Initializer.push
    simp only [hword, hcolons, hplain, hbraces, h.isPlain, Initializer.flush, depthBehind]
    simp
  rw [hpush]
  have hclosed : Text.endsWith "::" "" = false := by decide
  refine ⟨⟨rfl, by rw [h.depth_eq], ?_, hclosed⟩, rfl, by simpa using hword⟩
  have htext := h.text_eq
  simp only [Initializer.flush] at htext ⊢
  rw [translateName_empty, String.append_empty, String.toList_append, htext]

/-- What a word does where an operand may stand. -/
theorem Awaits.push_word (h : Awaits table v cs depth) (hword : t.isWord = true)
    (hchars : ':' ∉ t.spaced.toList) (hbraces : t.isAny ["\x7b", "\x7d"] = false)
    (hopening : t.is "(" = false) (hclosing : t.is ")" = false) :
    Holds table (v.push table t) (cs ++ t.spaced.toList) depth := by
  have hpush : v.push table t =
      { v with name := t.spaced, isPlain := true, last := some t } := by
    unfold Initializer.push
    simp [hword, hbraces, hopening, hclosing, h.isPlain, h.unnamed, Token.spaced]
  have hname : (table.translateName t.spaced).toList = t.spaced.toList := by
    rw [translateName_of_not_mem hchars]
  rw [hpush]
  refine ⟨rfl, h.depth_eq, ?_, ?_⟩
  · have htext := h.text_eq
    simp only [Initializer.flush, h.unnamed, translateName_empty, String.append_empty] at htext
    simp only [Initializer.flush, String.toList_append, htext, hname]
  · refine Bool.eq_false_iff.mpr fun hends => hchars ?_
    exact (List.isSuffixOf_iff_suffix.mp hends).subset (by decide)

theorem depthBehind_of_mark {text : String} (mark : t.IsMark text) (hopening : text ≠ "(")
    (hclosing : text ≠ ")") (depth : Int) : depthBehind depth t = depth := by
  simp [depthBehind, mark.is_eq, hopening, hclosing]

/-- A mark that is no parenthesis. -/
theorem Holds.push_mark (h : Holds table v cs depth) {text : String} (mark : t.IsMark text)
    (hmarks : text ∉ ["::", "(", ")", "\x7b", "\x7d"]) :
    Awaits table (v.push table t) (cs ++ t.spaced.toList) depth := by
  simp only [List.mem_cons, List.not_mem_nil, or_false, not_or] at hmarks
  obtain ⟨hcolons, hopening, hclosing, hbraces⟩ := hmarks
  have hpush := h.push mark.isWord_eq (by simp [mark.is_eq, hcolons])
    (by simp [Token.isAny, mark.is_eq, hbraces]) (fun _ => by simp [mark.is_eq, hopening])
  rwa [depthBehind_of_mark mark hopening hclosing] at hpush

/-- The tokens of an operator. -/
theorem Holds.push_operator (h : Holds table v cs depth) {op : Operator} {ms : List Token}
    (marks : op.Marked ms) :
    Awaits table (ms.foldl (Initializer.push · table) v) (cs ++ Token.chars ms) depth := by
  cases marks with
  | @one _ t single mark =>
      have hpush := h.push_mark mark (by cases op <;> simp [Operator.symbol])
      simpa [Token.chars] using hpush
  | @two t u first second adjacent =>
      have hfirst := h.push_mark first (by decide)
      have hsecond := hfirst.toHolds.push_mark second (by decide)
      simpa [Token.chars] using hsecond

/-- Names and literals are no marks. -/
theorem not_is_of_isNameChar (h : ∀ c ∈ t.text.toList, isNameChar c = true)
    (mark : String) (hmark : mark.toList.all isNameChar = false) : t.is mark = false := by
  have hne : t.text ≠ mark := by
    rintro rfl
    rw [List.all_eq_true.mpr h] at hmark
    cases hmark
  simp [Token.is, hne]

/-- **What reading an expression makes of its text.** -/
theorem holds_of_written {ts : List Token} {e : Expression} (h : Written ts e)
    (hblank : ∀ t ∈ ts, t.Blank) : ∀ {v : Initializer} {cs : List Char} {depth : Int},
      Awaits table v cs depth →
        Holds table (ts.foldl (Initializer.push · table) v) (cs ++ Token.chars ts) depth := by
  induction h with
  | @literal t n h =>
      intro v cs depth hv
      have hmark := not_is_of_isNameChar h.isNameChar
      have hword : t.isWord = false := by simp [Token.isWord, h.kind]
      have hbraces : t.isAny ["\x7b", "\x7d"] = false := by
        simp [Token.isAny, hmark "\x7b" (by decide), hmark "\x7d" (by decide)]
      have hpush := hv.toHolds.push hword (hmark "::" (by decide)) hbraces
        fun _ => hmark "(" (by decide)
      have hdepth : depthBehind depth t = depth := by
        simp [depthBehind, hmark "(" (by decide), hmark ")" (by decide)]
      rw [hdepth] at hpush
      simpa [Token.chars] using hpush.toHolds
  | @name t kind word =>
      intro v cs depth hv
      have hchars := isNameChar_of_isWord word
      have hmark := not_is_of_isNameChar hchars
      have hword : t.isWord = true := by simp [Token.isWord, kind]
      have hbraces : t.isAny ["\x7b", "\x7d"] = false := by
        simp [Token.isAny, hmark "\x7b" (by decide), hmark "\x7d" (by decide)]
      have hcolon : ':' ∉ t.spaced.toList := by
        rw [Token.spaced, String.toList_append, List.mem_append]
        rintro (hspacing | htext)
        · exact absurd (hblank t (by simp) ':' hspacing) (by decide)
        · exact absurd (hchars ':' htext) (by decide)
      have hpush := hv.push_word hword hcolon hbraces (hmark "(" (by decide)) (hmark ")" (by decide))
      simpa [Token.chars] using hpush
  | @sign t ts e negative mark apart operand ih =>
      intro v cs depth hv
      have hsign := hv.toHolds.push_mark mark (by cases negative <;> decide)
      have hrest := ih (fun t ht => hblank t (by simp [ht])) hsign
      simpa [Token.chars] using hrest
  | @group t u ts e opening inside closing ih =>
      intro v cs depth hv
      have hopened := hv.toHolds.push opening.isWord_eq (by simp [opening.is_eq])
        (by simp [Token.isAny, opening.is_eq]) fun hlast => by
          rw [hv.notWord] at hlast
          cases hlast
      have hinside := ih (fun t ht => hblank t (by simp [ht])) hopened
      have hclosed := hinside.push closing.isWord_eq (by simp [closing.is_eq])
        (by simp [Token.isAny, closing.is_eq]) fun _ => by simp [closing.is_eq]
      have hdepth : depthBehind (depthBehind depth t) u = depth := by
        simp [depthBehind, opening.is_eq, closing.is_eq]
      rw [hdepth] at hclosed
      simpa [Token.chars] using hclosed.toHolds
  | @binary op ls ms rs l r left marks right apart ihl ihr =>
      intro v cs depth hv
      have hl := ihl (fun t ht => hblank t (by simp [ht])) hv
      have hr := ihr (fun t ht => hblank t (by simp [ht])) (hl.push_operator marks)
      simpa [Token.chars] using hr

end Initializer

/-- A comma or a brace ends an initializer. -/
def Stops (t : Token) : Prop :=
  t.IsMark "," ∨ t.IsMark "\x7d"

theorem isAny_stops {t : Token} (h : Stops t) : t.isAny [",", "\x7d"] = true := by
  rcases h with h | h <;> simp [Token.isAny, h.is_eq]

/-- Nothing in an expression ends it. -/
theorem goes_on_of_written {ts : List Token} {e : Expression} (h : Written ts e) :
    ∀ t ∈ ts, t.isEof = false ∧ t.isAny [",", "\x7d"] = false := by
  have hmark {t : Token} {text : String} (mark : t.IsMark text)
      (hne : text ≠ "," ∧ text ≠ "\x7d") :
      t.isEof = false ∧ t.isAny [",", "\x7d"] = false :=
    ⟨mark.isEof_eq, by simp [Token.isAny, mark.is_eq, hne]⟩
  have hname {t : Token} (hchars : ∀ c ∈ t.text.toList, isNameChar c = true) :
      t.isAny [",", "\x7d"] = false := by
    have hnot := Initializer.not_is_of_isNameChar hchars
    simp [Token.isAny, hnot "," (by decide), hnot "\x7d" (by decide)]
  induction h with
  | @literal t n h =>
      simpa [Token.isEof, h.kind] using hname h.isNameChar
  | @name t kind word =>
      simpa [Token.isEof, kind] using hname (isNameChar_of_isWord word)
  | @sign t ts e negative mark apart operand ih =>
      refine List.forall_mem_cons.mpr ⟨hmark mark ?_, ih⟩
      cases negative <;> decide
  | @group t u ts e opening inside closing ih =>
      intro v hv
      rcases List.mem_append.mp hv with hv | hv
      · rcases List.mem_cons.mp hv with rfl | hv
        · exact hmark opening (by decide)
        · exact ih v hv
      · obtain rfl := List.mem_singleton.mp hv
        exact hmark closing (by decide)
  | @binary op ls ms rs l r left marks right apart ihl ihr =>
      intro v hv
      rcases List.mem_append.mp hv with hv | hv
      · rcases List.mem_append.mp hv with hv | hv
        · exact ihl v hv
        · cases marks with
          | @one _ t single mark =>
              obtain rfl := List.mem_singleton.mp hv
              exact hmark mark (by cases op <;> simp [Operator.symbol])
          | @two t u first second adjacent =>
              rcases List.mem_cons.mp hv with rfl | hv
              · exact hmark first (by decide)
              · obtain rfl := List.mem_singleton.mp hv
                exact hmark second (by decide)
      · exact ihr v hv

/-- Tokens that go on up to a comma or a brace outside of parentheses, from this depth. -/
def GoesOn : Int → List Token → Prop
  | depth, [] => depth ≤ 0
  | depth, t :: ts => t.isEof = false ∧ (depth ≤ 0 → t.isAny [",", "\x7d"] = false) ∧
      GoesOn (Initializer.depthBehind depth t) ts

theorem goesOn_of_forall {ts : List Token} : ∀ {depth : Int},
    (∀ t ∈ ts, t.isEof = false ∧ t.isAny [",", "\x7d"] = false) →
    ts.foldl Initializer.depthBehind depth ≤ 0 → GoesOn depth ts := by
  induction ts with
  | nil => exact fun _ hdepth => hdepth
  | cons t ts ih =>
      intro depth hts hdepth
      obtain ⟨heof, hgo⟩ := hts t List.mem_cons_self
      exact ⟨heof, fun _ => hgo, ih (fun u hu => hts u (List.mem_cons_of_mem _ hu)) hdepth⟩

theorem Initializer.push_depth (v : Initializer) (table : RuleTable) (t : Token) :
    (v.push table t).depth = depthBehind v.depth t := by
  unfold Initializer.push
  dsimp only
  split
  · rfl
  · split <;> rfl

theorem Initializer.foldl_push_depth (table : RuleTable) (ts : List Token) (v : Initializer) :
    (ts.foldl (Initializer.push · table) v).depth = ts.foldl depthBehind v.depth := by
  induction ts generalizing v with
  | nil => rfl
  | cons t ts ih => rw [List.foldl_cons, List.foldl_cons, ih, push_depth]

/-- An initializer is read up to its end. -/
theorem readInitializer_goes {s : Reading} {mark stop : Token} {ts rest : List Token}
    (hinput : s.Sees (mark :: (ts ++ stop :: rest))) (hts : GoesOn 0 ts) (hstop : Stops stop) :
    Passes readInitializer s (stop :: rest)
      (· = (((ts.foldl (Initializer.push · s.table) {}).flush s.table).text,
        (ts.foldl (Initializer.push · s.table) {}).isPlain)) := by
  obtain ⟨first, hfirst⟩ : ∃ first, (ts ++ stop :: rest).head? = some first := by
    cases ts with
    | nil => exact ⟨stop, rfl⟩
    | cons t ts => exact ⟨t, rfl⟩
  unfold readInitializer
  refine (advance_to hinput hfirst).bind_eq fun j h => ?_
  refine Passes.bind_eq (?_ : Passes _ _ (stop :: rest)
    (· = ts.foldl (Initializer.push · s.table) {})) fun j h =>
      Passes.bind_eq (passes_of_eq rfl h) fun j h => passes_pure h rfl
  refine iterate_passes h fun n hn => ?_
  have hdepth : GoesOn ({} : Initializer).depth ts := hts
  generalize ({} : Initializer) = v at hdepth ⊢
  generalize hs : s.atIndex j = s' at h ⊢
  have htable : s'.table = s.table := hs ▸ rfl
  clear hs hts hinput
  -- one token in each turn, as long as the depth allows
  induction ts generalizing v s' n first with
  | nil =>
      obtain rfl := Option.some.inj hfirst
      obtain ⟨n, rfl⟩ := Nat.exists_eq_add_one.mpr (Nat.lt_of_lt_of_le (Nat.succ_pos _) hn)
      refine iterateUpTo_done ?_
      dsimp only
      have hclosed : v.depth ≤ 0 := hdepth
      rw [if_pos (by simp [hclosed, isAny_stops hstop])]
      exact passes_pure h ⟨v, rfl, rfl⟩
  | cons t ts ih =>
      obtain rfl := Option.some.inj hfirst
      obtain ⟨heof, hgo, hmore⟩ := hdepth
      obtain ⟨n, rfl⟩ := Nat.exists_eq_add_one.mpr (Nat.lt_of_lt_of_le (Nat.succ_pos _) hn)
      obtain ⟨next, us, hnext⟩ : ∃ next us, ts ++ stop :: rest = next :: us := by
        cases ts with
        | nil => exact ⟨_, _, rfl⟩
        | cons u ts => exact ⟨_, _, rfl⟩
      have hhead : (ts ++ stop :: rest).head? = some next := by rw [hnext]; rfl
      refine iterateUpTo_again (?_ : Passes _ _ (ts ++ stop :: rest)
        fun r => ∃ a, r = Turn.again a ∧ a = (v.push s.table t, next)) ?_
      · have hcontinue : (t.isEof || (decide (v.depth ≤ 0) && t.isAny [",", "\x7d"])) = false := by
          by_cases hclosed : v.depth ≤ 0
          · simp [heof, hgo hclosed]
          · simp [heof, hclosed]
        dsimp only
        rw [if_neg (by simp [hcontinue])]
        refine Passes.bind_eq (passes_of_eq rfl h) fun j h => ?_
        refine (advance_to h hhead).bind_eq fun j h => passes_pure h ?_
        exact ⟨_, rfl, by rw [htable]⟩
      · rintro _ j rfl h
        refine ih _ hhead n (by simpa using hn) _ ?_ _ h htable
        rw [Initializer.push_depth]
        exact hmore

/-- An expression is read with the text that it was written with. -/
theorem readInitializer_passes {s : Reading} {mark stop : Token} {ts rest : List Token}
    {e : Expression} (h : s.Sees (mark :: (ts ++ stop :: rest))) (hts : Written ts e)
    (hblank : ∀ t ∈ ts, t.Blank) (hstop : Stops stop) :
    Passes readInitializer s (stop :: rest) (· = (String.ofList (Token.chars ts), true)) := by
  have hholds := Initializer.holds_of_written hts hblank (Initializer.awaits_nil s.table)
  have hdepth := (Initializer.foldl_push_depth s.table ts {}).symm.trans hholds.depth_eq
  have hgoes := goesOn_of_forall (goes_on_of_written hts) (le_of_eq hdepth)
  have htext := hholds.text_eq
  rw [List.nil_append] at htext
  refine (readInitializer_goes h hgoes hstop).imp ?_
  rintro _ rfl
  exact Prod.ext (String.toList_injective (by rw [String.toList_ofList]; exact htext))
    hholds.isPlain

/-! ## Reading enumerators -/

/-- A name between the braces, and the expression it is initialized with. -/
abbrev Item := String × Option Expression

/-- The tokens of a name and its initializer. -/
inductive Declares : List Token → Item → Prop where
  | bare {t : Token} (kind : t.isWord = true) (word : Text.isWord t.text.toList = true) :
      Declares [t] (t.text, none)
  | valued {t mark : Token} {ts : List Token} {e : Expression} (kind : t.isWord = true)
      (word : Text.isWord t.text.toList = true) (equals : mark.IsMark "=") (written : Written ts e)
      (ranked : e.Ranked) : Declares (t :: mark :: ts) (t.text, some e)

/-- The tokens between the braces: names and initializers with commas between them;
one may stand behind the last. -/
inductive Lists : List Token → List Item → Prop where
  | nil : Lists [] []
  | last {ts : List Token} {item : Item} (first : Declares ts item) : Lists ts [item]
  | cons {ts us : List Token} {comma : Token} {item : Item} {items : List Item}
      (first : Declares ts item) (mark : comma.IsMark ",") (more : Lists us items) :
      Lists (ts ++ comma :: us) (item :: items)

/-- No literal that an enumerator is initialized with is an octal one that is worth
less than its digits in base ten. -/
def Leads (item : Item) : Prop :=
  ∀ e ∈ item.2, ∀ digits ∈ e.digits?, ¬ Misleads digits

instance (item : Item) : Decidable (Leads item) :=
  inferInstanceAs (Decidable (∀ e ∈ item.2, ∀ digits ∈ e.digits?, ¬ Misleads digits))

/-- An enumerator that was read for a name, with the counter at its value. -/
structure Declared (path : String) (name : String) (e : Enumerator) (counter : Counter) : Prop where
  nativeName : e.nativeName = path ++ name
  getter : e.getter = false
  value : e.value = counter.text

/-- Where counting stands at a name, from where it stood before. -/
def Moves (names : List Char → Option Int) (counter : Counter) : Option Expression → Counter → Prop
  | none, counter' => counter' = counter
  | some e, counter' => counter'.Stands names (e.after names)

/-- What is read behind a value: comments, and a comma with comments behind it. -/
theorem behind_value_passes {α : Type} {s : Reading} {stop : Token} {rest : List Token}
    (h : s.Sees (stop :: rest)) (hrest : stop.is "," = true → rest ≠ []) (finish : String → α) :
    Passes (do
      let comment ← Comment.takeAfter
      if (← peek).is "," then
        let _ ← advance
        let after ← pure (comment ++ (← Comment.takeAfter))
        pure (finish after)
      else
        let after ← pure comment
        pure (finish after)) s
      (if stop.is "," then rest else stop :: rest) fun r => ∃ after, r = finish after := by
  refine (takeAfter_passes h).bind fun comment j _ h => ?_
  refine (peek_passes h).bind_eq fun j h => ?_
  by_cases hcomma : stop.is "," = true
  · rw [if_pos hcomma, if_pos hcomma]
    obtain ⟨u, us, rfl⟩ := List.exists_cons_of_ne_nil (hrest hcomma)
    refine (advance_passes h).bind_eq fun j h => ?_
    refine (takeAfter_passes h).bind fun more j _ h => ?_
    exact passes_pure h ⟨comment ++ more, rfl⟩
  · rw [if_neg hcomma, if_neg hcomma]
    exact passes_pure h ⟨comment, rfl⟩

theorem readEnumerator_passes (names : List Char → Option Int) {s : Reading}
    {path comment : String} {counter : Counter} {ts rest : List Token} {stop : Token} {item : Item}
    (h : s.Sees (ts ++ stop :: rest)) (hitem : Declares ts item) (hleads : Leads item)
    (hblank : ∀ t ∈ ts, t.Blank) (hstop : Stops stop) (hrest : stop.is "," = true → rest ≠ []) :
    Passes (readEnumerator path comment counter) s
      (if stop.is "," then rest else stop :: rest) fun r =>
        Declared path item.1 r.1 r.2 ∧ Moves names counter item.2 r.2 := by
  cases hitem with
  | @bare t kind word =>
      have hequals : stop.is "=" = false := by rcases hstop with h | h <;> simp [h.is_eq]
      unfold readEnumerator
      refine (peek_passes h).bind_eq fun j h => ?_
      refine (expectWord_passes h kind).bind fun _ j _ h => ?_
      dsimp only
      refine Passes.bind_eq (passes_of_eq rfl h) fun j h => ?_
      refine (advance_passes h).bind_eq fun j h => ?_
      rw [if_neg (by simp [hequals])]
      refine Passes.bind_eq (passes_of_eq rfl h) fun j h => ?_
      refine (behind_value_passes h hrest _).imp ?_
      rintro _ ⟨after, rfl⟩
      exact ⟨⟨rfl, rfl, rfl⟩, rfl⟩
  | @valued t mark ts e kind word equals written ranked =>
      have hblank' : ∀ t ∈ ts, t.Blank := fun t ht => hblank t (by simp [ht])
      obtain ⟨counter', hcounter, hstands⟩ : ∃ c,
          Counter.ofValue (((s.table.find? (path ++ t.text)).bind (·.targetName?)).getD t.text)
              (String.ofList (Token.chars ts)) true = (c, false) ∧
            c.Stands names (e.after names) :=
        Counter.ofValue_stands written ranked hblank' (hleads e rfl) _
      unfold readEnumerator
      refine (peek_passes h).bind_eq fun j h => ?_
      refine (expectWord_passes h kind).bind fun _ j _ h => ?_
      dsimp only
      refine Passes.bind_eq (a := s.table.find? (path ++ t.text)) (passes_of_eq rfl h) fun j h => ?_
      refine (advance_passes h).bind_eq fun j h => ?_
      rw [if_pos (by simp [equals.is_eq])]
      refine (readInitializer_passes h written hblank' hstop).bind_eq fun j h => ?_
      dsimp only
      rw [hcounter]
      refine Passes.bind_eq (passes_of_eq rfl h) fun j h => ?_
      refine (behind_value_passes h hrest _).imp ?_
      rintro _ ⟨after, rfl⟩
      exact ⟨⟨rfl, rfl, rfl⟩, hstands⟩

/-! ## Reading what stands between the braces -/

/-- The enumerators that are read for names, and what their values are worth: the
first counts from a place behind the values that are given. -/
inductive Prints (names : List Char → Option Int) (path : String) :
    (Nat → Option Int) → Nat → List Item → List Enumerator → Prop where
  | nil {values : Nat → Option Int} {i : Nat} : Prints names path values i [] []
  | implicit {values : Nat → Option Int} {i : Nat} {name : String} {items : List Item}
      {e : Enumerator} {es : List Enumerator} (nativeName : e.nativeName = path ++ name)
      (getter : e.getter = false) (value : ∀ v, values i = some v → value? names e.value = some v)
      (more : Prints names path values (i + 1) items es) :
      Prints names path values i ((name, none) :: items) (e :: es)
  | given {values : Nat → Option Int} {i : Nat} {name : String} {x : Expression}
      {items : List Item} {e : Enumerator} {es : List Enumerator}
      (nativeName : e.nativeName = path ++ name) (getter : e.getter = false)
      (value : ∀ v, x.value? names = some v → value? names e.value = some v)
      (more : Prints names path (x.after names) 1 items es) :
      Prints names path values i ((name, some x) :: items) (e :: es)

/-- A token that is no mark of a directive is not read as one. -/
theorem directive_passes {s : Reading} {scope : Scope} {t : Token} {ts : List Token}
    (h : s.Sees (t :: ts)) (ht : t.is "#" = false) :
    Passes (withOutline {} (attempt (Directive.read scope))) s (t :: ts) (· = (false, {})) := by
  let inner : Reading := { s with outline := {} }
  have hsees : inner.Sees (t :: ts) := ⟨h.cooked, h.fueled, h.inside, h.ahead⟩
  have hread : Directive.read scope inner = .ok false inner := by
    unfold Directive.read
    rw [bind_of_ok (peek_of_sees hsees), if_pos (by simp [ht])]
    rfl
  have hattempt : attempt (Directive.read scope) inner = .ok false inner := by
    have hcursor : cursor inner = .ok inner.window.index inner := rfl
    unfold attempt
    rw [bind_of_ok hcursor, bind_of_ok hread]
    rfl
  have houtline : outline s = .ok s.outline s := rfl
  have henter : modifyOutline (fun _ => {}) s = .ok () inner := rfl
  refine passes_of_eq ?_ h
  unfold withOutline
  rw [bind_of_ok houtline, bind_of_ok henter, bind_of_ok hattempt]
  rfl

theorem Declares.exists_first {ts : List Token} {item : Item} (h : Declares ts item) :
    ∃ t rest, ts = t :: rest ∧ t.isEof = false ∧ t.is "\x7d" = false ∧ t.is "#" = false := by
  have hword {t : Token} (kind : t.isWord = true) (word : Text.isWord t.text.toList = true) :
      t.isEof = false ∧ t.is "\x7d" = false ∧ t.is "#" = false := by
    have hnot := Initializer.not_is_of_isNameChar (isNameChar_of_isWord word)
    refine ⟨?_, hnot "\x7d" (by decide), hnot "#" (by decide)⟩
    by_contra heof
    have hkind : t.kind = .eof := by simpa [Token.isEof] using heof
    simp [Token.isWord, hkind] at kind
  cases h with
  | @bare t kind word => exact ⟨t, [], rfl, hword kind word⟩
  | @valued t mark ts e kind word equals written ranked => exact ⟨t, _, rfl, hword kind word⟩

/-- Tokens of items with commas between them; one may stand behind the last. -/
inductive Separated {ι : Type} (D : List Token → ι → Prop) : List Token → List ι → Prop where
  | nil : Separated D [] []
  | last {ts : List Token} {item : ι} (first : D ts item) : Separated D ts [item]
  | cons {ts us : List Token} {comma : Token} {item : ι} {items : List ι} (first : D ts item)
      (mark : comma.IsMark ",") (more : Separated D us items) :
      Separated D (ts ++ comma :: us) (item :: items)

/-- Reading items with such tokens takes these steps. -/
structure Reader {ι : Type} (table : RuleTable) (path : String) (D : List Token → ι → Prop)
    (Steps : Counter → ι → Enumerator → Counter → Prop) : Prop where
  first {ts : List Token} {item : ι} (h : D ts item) : ∃ t rest, ts = t :: rest ∧
    t.isEof = false ∧ t.is "\x7d" = false ∧ t.is "#" = false
  reads {s : Reading} {comment : String} {counter : Counter} {ts rest : List Token} {stop : Token}
    {item : ι} (htable : s.table = table) (h : s.Sees (ts ++ stop :: rest)) (hitem : D ts item)
    (hstop : Stops stop) (hrest : stop.is "," = true → rest ≠ []) :
    Passes (readEnumerator path comment counter) s (if stop.is "," then rest else stop :: rest)
      fun r => Steps counter item r.1 r.2

/-- Steps from one item to the next. -/
inductive Runs {ι : Type} (Steps : Counter → ι → Enumerator → Counter → Prop) :
    Counter → List ι → List Enumerator → Prop where
  | nil {counter : Counter} : Runs Steps counter [] []
  | cons {counter counter' : Counter} {item : ι} {items : List ι} {e : Enumerator}
      {es : List Enumerator} (step : Steps counter item e counter')
      (more : Runs Steps counter'.next items es) : Runs Steps counter (item :: items) (e :: es)

section

variable {ι : Type} {D : List Token → ι → Prop} {Steps : Counter → ι → Enumerator → Counter → Prop}
  {table : RuleTable} {path : String} {s : Reading} {scope : Scope}

/-- The first item and what follows it, seen from the brace behind the list. -/
theorem Separated.split (rest : List Token) {ts : List Token} {close : Token}
    (hclose : close.IsMark "\x7d") {item : ι} {items : List ι}
    (h : Separated D ts (item :: items)) :
    ∃ ds stop tail more, D ds item ∧ Stops stop ∧
      ts ++ close :: rest = ds ++ stop :: tail ∧ (stop.is "," = true → tail ≠ []) ∧
      (if stop.is "," then tail else stop :: tail) = more ++ close :: rest ∧
      Separated D more items := by
  cases h with
  | last hfirst =>
      have hcomma : close.is "," = false := by simp [hclose.is_eq]
      exact ⟨ts, close, rest, [], hfirst, Or.inr hclose, rfl, by simp [hcomma], by simp [hcomma],
        .nil⟩
  | @cons ds us comma _ _ hfirst mark more =>
      have hcomma : comma.is "," = true := by simp [mark.is_eq]
      exact ⟨ds, comma, us ++ close :: rest, us, hfirst, Or.inl mark, by simp, by simp,
        by simp [hcomma], more⟩

theorem Reader.length_le (reader : Reader table path D Steps) {ts : List Token} {items : List ι}
    (h : Separated D ts items) : items.length ≤ ts.length := by
  have hpos {ts : List Token} {item : ι} (h : D ts item) : 0 < ts.length := by
    obtain ⟨t, rest, rfl, -⟩ := reader.first h
    exact Nat.succ_pos _
  induction h with
  | nil => exact Nat.le_refl 0
  | last first => exact hpos first
  | cons first mark more ih =>
      have hfirst := hpos first
      simp only [List.length_append, List.length_cons]
      omega

/-- One turn of the loop over the enumerators. -/
def entryTurn (scope : Scope) (path : String) :
    Array EnumEntry × Counter × Token →
      ReadM (Turn (Array EnumEntry × Counter × Token) (List EnumEntry)) :=
  fun (entries, counter, t) => do
    if t.isEof || t.is "\x7d" then return .done entries.toList
    let comment ← Comment.takeBefore
    let (isDirective, directives) ← withOutline {} (attempt (Directive.read scope))
    if isDirective then
      return .again (entries.push (.directive (comment ++ directives.text)), counter, ← peek)
    let (e, counter) ← readEnumerator path comment counter
    return .again (entries.push (.enumerator e), counter.next, ← peek)

/-- A turn takes one name and what belongs to it. -/
theorem Reader.turn_passes (reader : Reader table path D Steps) (htable : s.table = table)
    {entries : Array EnumEntry} {counter : Counter} {t stop next : Token}
    {dt tail behind : List Token} {item : ι} (h : s.Sees (t :: dt ++ stop :: tail))
    (hitem : D (t :: dt) item) (hstop : Stops stop) (htail : stop.is "," = true → tail ≠ [])
    (hbehind : (if stop.is "," then tail else stop :: tail) = next :: behind) :
    Passes (entryTurn scope path (entries, counter, t)) s (next :: behind) fun r =>
      ∃ a, r = .again a ∧ ∃ e counter', Steps counter item e counter' ∧
        a = (entries.push (.enumerator e), counter'.next, next) := by
  obtain ⟨u, ut, hfirst, heof, hbrace, hhash⟩ := reader.first hitem
  obtain ⟨rfl, rfl⟩ := List.cons.inj hfirst
  unfold entryTurn
  dsimp only
  rw [if_neg (by simp [heof, hbrace])]
  refine (takeBefore_passes h).bind fun comment j _ h => ?_
  refine (directive_passes h hhash).bind_eq fun j h => ?_
  dsimp only
  rw [if_neg (by simp)]
  refine (reader.reads (by exact htable) h hitem hstop htail).bind fun r j hr h => ?_
  rw [hbehind] at h
  exact (peek_passes h).bind_eq fun j h => passes_pure h ⟨_, rfl, r.1, r.2, hr, rfl⟩

/-- The loop over the enumerators, by induction on the list. -/
theorem Reader.entries_passes (reader : Reader table path D Steps) {close : Token}
    {rest : List Token} (hclose : close.IsMark "\x7d") {items : List ι} :
    ∀ {ts : List Token}, Separated D ts items →
    ∀ {s : Reading} {n : Nat} {entries : Array EnumEntry} {counter : Counter} {first : Token},
      s.table = table → s.Sees (ts ++ close :: rest) →
      (ts ++ close :: rest).head? = some first → items.length < n →
      Passes (iterateUpTo (entryTurn scope path) n (entries, counter, first)) s (close :: rest)
        fun r => ∃ es, r = entries.toList ++ es.map .enumerator ∧ Runs Steps counter items es := by
  induction items with
  | nil =>
      intro ts hts s n entries counter first _ h hfirst hn
      cases hts
      obtain rfl := Option.some.inj hfirst
      obtain ⟨n, rfl⟩ := Nat.exists_eq_add_one.mpr hn
      refine iterateUpTo_done ?_
      unfold entryTurn
      dsimp only
      rw [if_pos (by simp [hclose.is_eq])]
      exact passes_pure h ⟨_, rfl, [], by simp, .nil⟩
  | cons item items ih =>
      intro ts hts s n entries counter first htable h hfirst hn
      obtain ⟨n, rfl⟩ := Nat.exists_eq_add_one.mpr (Nat.zero_lt_of_lt hn)
      rw [List.length_cons] at hn
      obtain ⟨ds, stop, tail, more, hitem, hstop, hsplit, htail, hbehind, hmore⟩ :=
        hts.split rest hclose
      obtain ⟨t, dt, rfl, -⟩ := reader.first hitem
      obtain ⟨next, us, hus⟩ : ∃ next us, more ++ close :: rest = next :: us := by
        cases more with
        | nil => exact ⟨close, rest, rfl⟩
        | cons u us => exact ⟨u, us ++ close :: rest, rfl⟩
      rw [hsplit] at h hfirst
      obtain rfl := Option.some.inj hfirst
      refine iterateUpTo_again (reader.turn_passes htable h hitem hstop htail
        (hbehind.trans hus)) ?_
      rintro _ j ⟨e, counter', hstep, rfl⟩ h
      rw [← hus] at h
      have hnext : (more ++ close :: rest).head? = some next := by rw [hus]; rfl
      refine (ih hmore (by exact htable) h hnext (by omega)).imp ?_
      rintro _ ⟨es, rfl, hes⟩
      exact ⟨e :: es, by simp, .cons hstep hes⟩

/-- **Reading what stands between the braces.** -/
theorem Reader.readEntries_passes (reader : Reader table path D Steps) (scope : Scope)
    (htable : s.table = table) {open_ close : Token} {ts rest : List Token} {items : List ι}
    (h : s.Sees (open_ :: (ts ++ close :: rest))) (hclose : close.IsMark "\x7d")
    (hitems : Separated D ts items) :
    Passes (readEntries scope path) s (close :: rest) fun r =>
      ∃ es, r = es.map .enumerator ∧ Runs Steps {} items es := by
  obtain ⟨first, hfirst⟩ : ∃ first, (ts ++ close :: rest).head? = some first := by
    cases ts with
    | nil => exact ⟨close, rfl⟩
    | cons t ts => exact ⟨t, rfl⟩
  refine (advance_to h hfirst).bind_eq fun j h => ?_
  refine iterate_passes h fun n hn => ?_
  have hlength := reader.length_le hitems
  simp only [List.length_append, List.length_cons] at hn
  refine (reader.entries_passes hclose hitems (by exact htable) h hfirst (by omega)).imp ?_
  rintro _ ⟨es, rfl, hes⟩
  exact ⟨es, by simp, hes⟩

end

/-! ## Names and the values of their initializers -/

/-- A name with its initializer, as it is read. -/
def DeclaresPlainly (ts : List Token) (item : Item) : Prop :=
  Declares ts item ∧ Leads item ∧ ∀ t ∈ ts, t.Blank

theorem reader (names : List Char → Option Int) (table : RuleTable) (path : String) :
    Reader table path DeclaresPlainly fun counter item e counter' =>
      Declared path item.1 e counter' ∧ Moves names counter item.2 counter' where
  first h := h.1.exists_first
  reads _ h hitem hstop hrest :=
    readEnumerator_passes names h hitem.1 hitem.2.1 hitem.2.2 hstop hrest

theorem Lists.separated {ts : List Token} {items : List Item} (h : Lists ts items)
    (hleads : ∀ item ∈ items, Leads item) (hblank : ∀ t ∈ ts, t.Blank) :
    Separated DeclaresPlainly ts items := by
  induction h with
  | nil => exact .nil
  | last first => exact .last ⟨first, hleads _ List.mem_cons_self, hblank⟩
  | cons first mark more ih =>
      refine .cons ⟨first, hleads _ List.mem_cons_self, fun t ht => hblank t (by simp [ht])⟩ mark
        (ih (fun item hitem => hleads item (List.mem_cons_of_mem _ hitem)) fun t ht => ?_)
      exact hblank t (by simp [ht])

/-- What is read prints the values, by induction on the items: the counter is some places behind
the value that was given last. -/
theorem prints_of_runs {names : List Char → Option Int} {path : String} {items : List Item} :
    ∀ {counter : Counter} {values : Nat → Option Int} {i : Nat} {es : List Enumerator},
      Runs (fun counter item e counter' =>
        Declared path item.1 e counter' ∧ Moves names counter item.2 counter')
        (Counter.next^[i] counter) items es →
      i + items.length ≤ 2 ^ 62 → counter.Stands names values →
      Prints names path values i items es := by
  induction items with
  | nil =>
      intro counter values i es h _ _
      cases h
      exact .nil
  | cons item items ih =>
      intro counter values i es h hi hstands
      rw [List.length_cons] at hi
      obtain ⟨name, init⟩ := item
      cases h with
      | @cons _ counter' _ _ e es hstep hmore =>
      obtain ⟨hdeclared, hmoves⟩ := hstep
      cases init with
      | none =>
          obtain rfl : counter' = Counter.next^[i] counter := hmoves
          rw [← Function.iterate_succ_apply' Counter.next] at hmore
          refine .implicit hdeclared.nativeName hdeclared.getter (fun v hv => ?_)
            (ih hmore (by omega) hstands)
          rw [hdeclared.value]
          exact hstands i (by omega) v hv
      | some x =>
          have hstands' : counter'.Stands names (x.after names) := hmoves
          rw [← Function.iterate_one Counter.next] at hmore
          refine .given hdeclared.nativeName hdeclared.getter (fun v hv => ?_)
            (ih hmore (by omega) hstands')
          rw [hdeclared.value]
          exact hstands' 0 (by decide) v hv

theorem stands_start (names : List Char → Option Int) :
    ({} : Counter).Stands names fun i => some i := by
  have hstands : ({ count := 0 } : Counter).Stands names fun i => some (0 + i) :=
    Counter.stands_of_number (by decide) (by decide)
  simpa using hstands

/-- Names and the values of their initializers, as they stand between the braces. -/
theorem readEntries_passes (names : List Char → Option Int) (scope : Scope) (path : String)
    {s : Reading} {open_ close : Token} {ts rest : List Token} {items : List Item}
    (h : s.Sees (open_ :: (ts ++ close :: rest))) (hclose : close.IsMark "\x7d")
    (hitems : Lists ts items) (hleads : ∀ item ∈ items, Leads item) (hblank : ∀ t ∈ ts, t.Blank)
    (hcount : items.length ≤ 2 ^ 62) :
    Passes (readEntries scope path) s (close :: rest) fun r =>
      ∃ es, r = es.map .enumerator ∧ Prints names path (fun i => some i) 0 items es := by
  refine ((reader names s.table path).readEntries_passes scope rfl h hclose
    (hitems.separated hleads hblank)).imp ?_
  rintro _ ⟨es, rfl, hes⟩
  exact ⟨es, rfl, prints_of_runs (i := 0) hes (by omega) (stands_start names)⟩

/-! ## Reading an enumeration -/

/-- The tokens of an enumeration with a body and without an underlying type. -/
structure Layout where
  /-- Words in front, such as `typedef`. -/
  lead : List Token
  keyword : Token
  /-- The word `class` or `struct`. -/
  kind : Option Token
  name : Option Token
  opening : Token
  list : List Token
  items : List Item
  closing : Token
  /-- The name behind the braces. -/
  other : Option Token
  semicolon : Token
  lead_words : ∀ t ∈ lead, t.isWord = true ∧ t.isKeyword .enum_ = false
  keyword_enum : keyword.isKeyword .enum_ = true
  kind_words : ∀ t ∈ kind, t.isAnyKeyword [.class_, .struct_] = true
  name_words : ∀ t ∈ name, t.isWord = true ∧ t.isAnyKeyword [.class_, .struct_] = false ∧
    t.is "\x7b" = false
  opens : opening.IsMark "\x7b"
  lists : Lists list items
  closes : closing.IsMark "\x7d"
  other_words : ∀ t ∈ other, t.isWord = true
  ends : semicolon.IsMark ";"

namespace Layout

/-- What stands behind the braces. -/
def behind (l : Layout) : List Token :=
  l.closing :: (l.other.toList ++ [l.semicolon])

/-- The body and what stands behind it. -/
def body (l : Layout) : List Token :=
  l.opening :: (l.list ++ l.behind)

/-- All tokens, from the first word on. -/
def tokens (l : Layout) : List Token :=
  l.lead ++ l.keyword :: (l.kind.toList ++ l.name.toList ++ l.body)

/-- The name in front of the braces. -/
def tag (l : Layout) : String :=
  (l.name.map (·.text)).getD ""

/-- The name that the enumeration gets. -/
def title (l : Layout) : String :=
  (l.other.map (·.text)).getD l.tag

/-- What the native names of the enumerators start with. -/
def path (l : Layout) (scope : Scope) : String :=
  if l.kind.isSome then scope.qualifyLocal l.tag ++ "::"
  else (scope.path.map (· ++ "::")).getD ""

/-- The native name of the enumeration. -/
def nativeName (l : Layout) (scope : Scope) : String :=
  if l.title.isEmpty then "" else scope.qualifyLocal l.title

/-- What is read in front of the braces. -/
def head (l : Layout) (spacing : String) (isTypedef : Bool) : Head :=
  { spacing, isTypedef, isScoped := l.kind.isSome, name := l.tag, targetType := "int" }

variable (l : Layout)

variable {l} {s : Reading} {t u : Token} {rest us : List Token} {α : Type} {R : α → Prop}

theorem opening_eq : l.opening.isAnyKeyword [.class_, .struct_] = false ∧
    l.opening.isWord = false ∧ l.opening.is "\x7b" = true ∧ l.opening.is ":" = false ∧
    l.opening.is ";" = false ∧ l.opening.isIdentifier = false := by
  obtain ⟨hkind | hkind, htext⟩ := l.opens <;>
    simp [Token.isAnyKeyword, Token.isKeywordWith, Token.isWord, Token.is, Token.isIdentifier, hkind,
      htext]

/-- A single name is not taken for a macro in front of one. -/
theorem macro_passes {isTypedef : Bool} {step : ReadM α}
    (h : s.Sees (t :: (l.name.toList ++ l.opening :: u :: rest)))
    (hstep : ∀ j, (s.atIndex j).Sees (t :: (l.name.toList ++ l.opening :: u :: rest)) →
      Passes step (s.atIndex j) us R) :
    Passes (if isTypedef = true then do
        let next ← peekAt 1
        if (!next.is "\x7b") = true then do
          let behind ← peekAt 2
          if behind.isIdentifier = true then do
            let _ ← advance
            step
          else step
        else step
      else step) s us R := by
  split
  · cases hname : l.name with
    | none =>
        rw [hname] at h hstep
        refine (peekAt_one_passes h).bind_eq fun j h => ?_
        rw [if_neg (by simp [opening_eq])]
        exact hstep j h
    | some name =>
        rw [hname] at h hstep
        obtain ⟨-, -, hbrace⟩ := l.name_words name hname
        refine (peekAt_one_passes h).bind_eq fun j h => ?_
        rw [if_pos (by simp [hbrace])]
        refine (peekAt_two_passes h).bind_eq fun j h => ?_
        rw [if_neg (by simp [opening_eq])]
        exact hstep j h
  · exact hstep s.window.index h

/-- The name in front of the braces, or none. -/
theorem name_passes {next : String × Token → ReadM α}
    (h : s.Sees (t :: (l.name.toList ++ l.opening :: u :: rest)))
    (hnext : ∀ j, (s.atIndex j).Sees (l.opening :: u :: rest) →
      Passes (next (l.tag, l.opening)) (s.atIndex j) us R) :
    Passes (do
      let t ← advance
      if t.isWord = true then do
        let behind ← advance
        let x ← pure (t.text, behind)
        next x
      else do
        let x ← pure ("", t)
        next x) s us R := by
  unfold tag at hnext
  cases hname : l.name with
  | none =>
      rw [hname] at h hnext
      refine (advance_passes h).bind_eq fun j h => ?_
      rw [if_neg (by simp [opening_eq])]
      exact Passes.bind_eq (passes_of_eq rfl h) hnext
  | some name =>
      rw [hname] at h hnext
      obtain ⟨hword, -⟩ := l.name_words name hname
      refine (advance_passes h).bind_eq fun j h => ?_
      rw [if_pos hword]
      refine (advance_passes h).bind_eq fun j h => ?_
      exact Passes.bind_eq (passes_of_eq rfl h) hnext

/-- Without a colon no type stands below the enumeration. -/
theorem readUnderlying_passes (scope : Scope) (spacing : String) (isTypedef : Bool) {isScoped : Bool}
    (hscoped : isScoped = l.kind.isSome) (h : s.Sees (l.opening :: u :: rest)) :
    Passes (if (!l.opening.is ":") = true then
        pure (some (({ spacing, isTypedef, isScoped, name := l.tag, targetType := "int" } : Head),
          l.opening))
      else do
        let _ ← advance
        let type ← NativeType.read scope
        match type with
        | none => pure none
        | some underlying => do
          let behind ← peek
          pure (some (({ spacing, isTypedef, isScoped, name := l.tag, targetType :=
            if integralTypes.contains (Text.lastWord underlying.targetName) = true then
              Text.lastWord underlying.targetName else "int" } : Head), behind)))
      s (l.opening :: u :: rest) (· = some (l.head spacing isTypedef, l.opening)) := by
  subst hscoped
  rw [if_pos (by simp [opening_eq])]
  exact passes_pure h rfl

theorem readHead_passes (scope : Scope) (spacing : String) (isTypedef : Bool)
    (h : s.Sees (l.keyword :: (l.kind.toList ++ (l.name.toList ++ l.opening :: u :: rest)))) :
    Passes (readHead scope spacing isTypedef) s (l.opening :: u :: rest)
      (· = some (l.head spacing isTypedef, l.opening)) := by
  unfold readHead
  cases hkind : l.kind with
  | none =>
      rw [hkind] at h
      have hplain : ∀ t, (l.name.toList ++ l.opening :: u :: rest).head? = some t →
          t.isAnyKeyword [.class_, .struct_] = false := by
        intro t ht
        cases hname : l.name with
        | none =>
            rw [hname] at ht
            obtain rfl := Option.some.inj ht
            exact opening_eq.1
        | some name =>
            rw [hname] at ht
            obtain rfl := Option.some.inj ht
            exact (l.name_words _ hname).2.1
      obtain ⟨t, ts, hts⟩ : ∃ t ts, l.name.toList ++ l.opening :: u :: rest = t :: ts := by
        cases l.name with
        | none => exact ⟨_, _, rfl⟩
        | some name => exact ⟨_, _, rfl⟩
      rw [hts] at h
      refine (peekAt_one_passes h).bind_eq fun j h => ?_
      rw [← hts] at h
      simp only [hplain t (by rw [hts]; rfl), Bool.false_eq_true, if_false]
      exact macro_passes h fun j h => name_passes h fun j h =>
        readUnderlying_passes scope spacing isTypedef (by rw [hkind]; rfl) h
  | some kind =>
      rw [hkind] at h
      refine (peekAt_one_passes h).bind_eq fun j h => ?_
      simp only [l.kind_words kind hkind, if_true]
      refine (advance_passes h).bind_eq fun j h => ?_
      exact macro_passes h fun j h => name_passes h fun j h =>
        readUnderlying_passes scope spacing isTypedef (by rw [hkind]; rfl) h

theorem toEnum_passes {lead : List Token} {keyword : Token}
    (hlead : ∀ t ∈ lead, t.isWord = true ∧ t.isKeyword .enum_ = false)
    (hkeyword : keyword.isKeyword .enum_ = true) (h : s.Sees (lead ++ keyword :: rest)) :
    Passes toEnum s (keyword :: rest) (· = true) := by
  obtain ⟨first, ts, hts⟩ : ∃ first ts, lead ++ keyword :: rest = first :: ts := by
    cases lead with
    | nil => exact ⟨_, _, rfl⟩
    | cons t lead => exact ⟨_, _, rfl⟩
  have hend : keyword.isEof = false := by
    have hkind : keyword.kind = .keyword .enum_ := by simpa [Token.isKeyword] using hkeyword
    simp [Token.isEof, hkind]
  unfold toEnum
  refine (peek_passes (hts ▸ h)).bind_eq fun j h' => iterate_passes h' fun n hn => ?_
  rw [← hts] at h' hn
  have hfirst : (lead ++ keyword :: rest).head? = some first := by rw [hts]; rfl
  clear hts h
  generalize s.atIndex j = s' at h' ⊢
  induction lead generalizing s' n first with
  | nil =>
      obtain rfl := Option.some.inj hfirst
      obtain ⟨n, rfl⟩ := Nat.exists_eq_add_one.mpr (Nat.lt_of_lt_of_le (Nat.succ_pos _) hn)
      refine iterateUpTo_done ?_
      rw [if_neg (by simp [hend]), if_pos hkeyword]
      exact passes_pure h' ⟨true, rfl, rfl⟩
  | cons t lead ih =>
      obtain rfl := Option.some.inj hfirst
      obtain ⟨hword, hother⟩ := hlead t List.mem_cons_self
      have heof : t.isEof = false := by
        by_contra heof
        have hkind : t.kind = .eof := by simpa [Token.isEof] using heof
        simp [Token.isWord, hkind] at hword
      obtain ⟨next, ts, hts⟩ : ∃ next ts, lead ++ keyword :: rest = next :: ts := by
        cases lead with
        | nil => exact ⟨_, _, rfl⟩
        | cons u lead => exact ⟨_, _, rfl⟩
      obtain ⟨n, rfl⟩ := Nat.exists_eq_add_one.mpr (Nat.lt_of_lt_of_le (Nat.succ_pos _) hn)
      have hnext : (lead ++ keyword :: rest).head? = some next := by rw [hts]; rfl
      refine iterateUpTo_again (?_ : Passes _ _ (lead ++ keyword :: rest)
        fun r => ∃ a, r = Turn.again a ∧ a = next) ?_
      · rw [if_neg (by simp [heof]), if_neg (by simp [hother]), if_neg (by simp [hword])]
        exact (advance_to h' hnext).bind_eq fun j h => passes_pure h ⟨next, rfl, rfl⟩
      · rintro _ j rfl h
        refine ih (fun u hu => hlead u (List.mem_cons_of_mem _ hu)) _ _ ?_ hnext _ h
        simpa using hn

/-! ## Printing an enumeration -/

/-- The rules neither leave the enumeration out nor print it as a class of values or
by a text of their own. -/
def Unruled (table : RuleTable) (nativeName : String) : Prop :=
  nativeName ≠ "" → ∀ rule ∈ table.find? nativeName,
    rule.skip = false ∧ rule.enumerate = false ∧ rule.targetText = none

theorem register_eq_ok (scope : Scope) (nativeName targetName targetType : String) (s : Reading) :
    ∃ s', register scope nativeName targetName targetType s = .ok () s' ∧
      s'.outline = s.outline := by
  have hrule : rule? nativeName s = .ok (s.table.find? nativeName) s := rfl
  unfold register
  rw [bind_of_ok hrule]
  cases hfind : s.table.find? nativeName with
  | none => exact ⟨_, rfl, rfl⟩
  | some rule => exact ⟨_, rfl, rfl⟩

theorem add_eq_ok (text : String) (s : Reading) :
    ∃ s', add { text } s = .ok true s' ∧ s'.outline = s.outline.insert { text } := by
  have hunfold : Declaration.unfold { text } = [{ text }] := Declaration.unfold_of_not_isTyped rfl
  have hadd : s.outline.add s.table { text } = (true, s.outline.insert { text }) := by
    unfold Outline.add
    rw [if_neg (by simp), if_neg (by simp [Outline.isSkipped]), hunfold]
    rfl
  refine ⟨{ s with outline := s.outline.insert { text } }, ?_, rfl⟩
  unfold add
  rw [hadd]

/-- An enumeration that no rule prints otherwise is added as its constants. -/
theorem print_eq_ok (scope : Scope) (head : Head) {name nativeName : String}
    (ending comment : String) (entries : List EnumEntry) {s : Reading}
    (hname : nativeName = if name.isEmpty then "" else scope.qualifyLocal name)
    (h : Unruled s.table nativeName) :
    ∃ s' target, print scope head name ending comment entries s = .ok true s' ∧
      s'.outline = s.outline.insert
        { text := constants
            { nativeName, name := target, targetType := head.targetType, isScoped := head.isScoped
              entries } head.spacing ending ++ comment } := by
  unfold print
  rw [← hname]
  dsimp only
  by_cases hempty : nativeName.isEmpty = true
  · rw [if_pos hempty]
    have hnone : (pure none : ReadM (Option Rule)) s = .ok none s := rfl
    rw [bind_of_ok hnone]
    obtain ⟨s', hadd, houtline⟩ := add_eq_ok
      (constants { nativeName, name, targetType := head.targetType, isScoped := head.isScoped
                   entries } head.spacing ending ++ comment) s
    refine ⟨s', name, ?_, houtline⟩
    simp only [hempty, Option.any_none, Option.bind_none, Option.getD_none, Option.isSome_none,
      Bool.false_and, Bool.not_true, Bool.false_eq_true, if_false, pure_bind]
    rw [bind_of_ok hadd]
    rfl
  · rw [if_neg hempty]
    have hrule : rule? nativeName s = .ok (s.table.find? nativeName) s := rfl
    have hplain := h (by simpa using hempty)
    obtain ⟨hskip, henumerate, htext⟩ : (s.table.find? nativeName).any (·.skip) = false ∧
        (s.table.find? nativeName).any (·.enumerate) = false ∧
        (s.table.find? nativeName).bind (·.targetText) = none := by
      cases hfind : s.table.find? nativeName with
      | none => exact ⟨rfl, rfl, rfl⟩
      | some rule => exact hplain rule hfind
    rw [bind_of_ok hrule]
    let target := ((s.table.find? nativeName).bind (·.targetName?)).getD name
    obtain ⟨s₁, hregister, houtline₁⟩ := register_eq_ok scope nativeName target head.targetType s
    obtain ⟨s₂, hadd, houtline₂⟩ := add_eq_ok
      (constants { nativeName, name := target, targetType := head.targetType
                   isScoped := head.isScoped, entries } head.spacing ending ++ comment) s₁
    refine ⟨s₂, target, ?_, by rw [houtline₂, houtline₁]⟩
    simp only [hempty, hskip, henumerate, htext, Option.getD_none, Option.isSome_none,
      Bool.false_and, Bool.not_false, Bool.false_eq_true, if_false, if_true, pure_bind]
    rw [bind_of_ok hregister, bind_of_ok hadd]
    rfl

/-- Reading an enumeration adds its constants, in which the enumerators are such,
with whatever comments and white space. -/
def Adds (l : Layout) (scope : Scope) (s : Reading) (P : List Enumerator → Prop) : Prop :=
  ∃ s' e spacing ending comment, read scope s = .ok true s' ∧
    s'.outline = s.outline.insert { text := constants e spacing ending ++ comment } ∧
    e.nativeName = l.nativeName scope ∧ e.targetType = "int" ∧
    e.entries = e.enumerators.map .enumerator ∧ P e.enumerators

theorem Adds.imp {scope : Scope} {P Q : List Enumerator → Prop} (h : l.Adds scope s P)
    (himp : ∀ es, P es → Q es) : l.Adds scope s Q := by
  obtain ⟨s', e, spacing, ending, comment, hread, houtline, hname, htype, hentries, hes⟩ := h
  exact ⟨s', e, spacing, ending, comment, hread, houtline, hname, htype, hentries, himp _ hes⟩

theorem enumerators_of_eq_map {e : Enumeration} {es : List Enumerator}
    (h : e.entries = es.map .enumerator) : e.enumerators = es := by
  unfold enumerators
  rw [h, List.filterMap_map]
  exact List.filterMap_some

/-- The name behind the braces is taken before the one in front of them. -/
theorem title_eq (next : String × Token → ReadM α) (h : s.Sees (l.behind ++ [u])) :
    ∃ j, (s.atIndex j).Sees [l.semicolon, u] ∧
      (do
        let t ← advance
        if t.isWord = true then do
          let behind ← advance
          let x ← pure (t.text, behind)
          next x
        else do
          let x ← pure (l.tag, t)
          next x) s = next (l.title, l.semicolon) (s.atIndex j) := by
  unfold behind at h
  unfold title
  cases hother : l.other with
  | none =>
      rw [hother] at h
      obtain ⟨_, j, hadvance, h, rfl⟩ := advance_passes h
      refine ⟨j, h, ?_⟩
      rw [bind_of_ok hadvance, if_neg (by simp [l.ends.isWord_eq])]
      rfl
  | some other =>
      rw [hother] at h
      obtain ⟨_, i, hadvance, h, rfl⟩ := advance_passes h
      obtain ⟨_, j, hbehind, h, rfl⟩ := advance_passes h
      refine ⟨j, h, ?_⟩
      rw [bind_of_ok hadvance, if_pos (l.other_words _ hother), bind_of_ok hbehind]
      rfl

/-- The tokens with another list between the braces. -/
def around (l : Layout) (ts : List Token) : List Token :=
  l.lead ++ l.keyword :: (l.kind.toList ++ l.name.toList ++ l.opening :: (ts ++ l.behind))

/-- Behind what stands between the braces, the enumeration is printed. -/
theorem readBody_eq_print {scope : Scope} {P : List EnumEntry → Prop}
    (spacing : String) (isTypedef : Bool)
    (hentries : Passes (readEntries scope (l.path scope)) s (l.behind ++ [u]) P) :
    ∃ i comment entries, P entries ∧ readBody scope (l.head spacing isTypedef) s =
      print scope (l.head spacing isTypedef) l.title l.semicolon.spacing comment entries
        (s.atIndex i) := by
  obtain ⟨entries, i, hread, h, hentries⟩ := hentries
  obtain ⟨comment, j, hcomment, h, -⟩ := takeBefore_passes h
  have hpath : (if (l.head spacing isTypedef).isScoped = true then
      scope.qualifyLocal (l.head spacing isTypedef).name ++ "::"
    else (scope.path.map (· ++ "::")).getD "") = l.path scope := rfl
  unfold readBody
  dsimp only
  rw [hpath, bind_of_ok hread, bind_of_ok hcomment]
  obtain ⟨k, h, htitle⟩ := title_eq (fun named => do
    expect named.2 [";"]
    let _ ← advance
    print scope (l.head spacing isTypedef) named.1 named.2.spacing comment entries) h
  have hends : l.semicolon.isAny [";"] = true := by simp [Token.isAny, l.ends.is_eq]
  obtain ⟨_, k₁, hexpect, h, -⟩ := expect_passes h hends
  obtain ⟨_, k₂, hadvance, -, -⟩ := advance_passes h
  refine ⟨k₂, comment, entries, hentries, htitle.trans ?_⟩
  dsimp only
  rw [bind_of_ok hexpect, bind_of_ok hadvance]
  rfl

/-- **Reading an enumeration** reads what stands between the braces and prints it. -/
theorem read_eq_print (l : Layout) {scope : Scope} {P : List EnumEntry → Prop}
    (ts : List Token) (h : s.Sees (l.around ts ++ [u]))
    (hentries : ∀ i, (s.atIndex i).Sees (l.opening :: (ts ++ (l.behind ++ [u]))) →
      Passes (readEntries scope (l.path scope)) (s.atIndex i) (l.behind ++ [u]) P) :
    ∃ i spacing isTypedef comment entries, P entries ∧
      read scope s = print scope (l.head spacing isTypedef) l.title l.semicolon.spacing comment
        entries (s.atIndex i) := by
  obtain ⟨first, us, hfirst⟩ : ∃ first us, l.around ts ++ [u] = first :: us := by
    unfold around
    cases l.lead with
    | nil => exact ⟨_, _, rfl⟩
    | cons t lead => exact ⟨_, _, rfl⟩
  have hpeek : peek s = .ok first s := peek_of_sees (hfirst ▸ h)
  obtain ⟨second, us, hbody⟩ : ∃ second us, ts ++ (l.behind ++ [u]) = second :: us := by
    cases ts with
    | nil => exact ⟨_, _, rfl⟩
    | cons t ts => exact ⟨_, _, rfl⟩
  have htokens : l.around ts ++ [u] =
      l.lead ++ l.keyword :: (l.kind.toList ++ (l.name.toList ++ l.opening :: second :: us)) := by
    rw [← hbody]
    simp [around]
  rw [htokens] at h
  obtain ⟨_, i, htoEnum, h, rfl⟩ := toEnum_passes l.lead_words l.keyword_enum h
  obtain ⟨_, j, hhead, h, rfl⟩ := readHead_passes scope first.spacing (first.isKeyword .typedef_) h
  rw [← hbody] at h
  obtain ⟨k, comment, entries, hentries, hread⟩ :=
    readBody_eq_print first.spacing (first.isKeyword .typedef_) (hentries j h)
  refine ⟨k, first.spacing, first.isKeyword .typedef_, comment, entries, hentries, ?_⟩
  unfold read
  rw [bind_of_ok hpeek, bind_of_ok hpeek, bind_of_ok htoEnum]
  rw [if_neg (by simp), bind_of_ok hhead]
  dsimp only
  rw [if_neg (by simp [opening_eq]), if_neg (by simp [opening_eq])]
  exact hread

/-- Reading an enumeration that no rule prints otherwise prints its enumerators. -/
theorem read_adds (names : List Char → Option Int) (l : Layout) {scope : Scope}
    (h : s.Sees (l.tokens ++ [u])) (hrules : Unruled s.table (l.nativeName scope))
    (hleads : ∀ item ∈ l.items, Leads item) (hblank : ∀ t ∈ l.list, t.Blank)
    (hcount : l.items.length ≤ 2 ^ 62) :
    l.Adds scope s (Prints names (l.path scope) (fun i => some i) 0 l.items) := by
  obtain ⟨i, spacing, isTypedef, comment, _, ⟨es, rfl, hes⟩, hread⟩ :=
    l.read_eq_print l.list h fun i h =>
      readEntries_passes names scope (l.path scope) h l.closes l.lists hleads hblank hcount
  obtain ⟨s', target, hprint, houtline⟩ :=
    print_eq_ok scope (l.head spacing isTypedef) l.semicolon.spacing comment
      (es.map .enumerator) (s := s.atIndex i) rfl hrules
  have henumerators := enumerators_of_eq_map
    (e := { nativeName := l.nativeName scope, name := target, targetType := "int"
            isScoped := l.kind.isSome, entries := es.map .enumerator }) rfl
  refine ⟨s', _, _, _, _, hread.trans hprint, houtline, rfl, rfl, ?_, ?_⟩
  · exact congrArg _ henumerators.symm
  · exact henumerators.symm ▸ hes

end Layout

end Enumeration

end HeaderPeers

import HeaderPeers.Proofs.Respelling
import HeaderPeers.Proofs.WholeInput
import HeaderPeers.Proofs.Window.Basic

/-!
# Invocations of macros

A word whose definition has parameters is replaced together with the list of arguments
behind it. The arguments are read with one depth for all kinds of brackets, so that they
can be told apart if each is balanced. What is put in place of the parameters is pasted
like the rest of the body.

- `Expansion.Defines` — the tokens of a definition with parameters.
- `Expansion.Passed` — a list of arguments as it is written.
- `Expansion.readArguments_passed` — how it is read.
- `Expansion.expandAt_invocation` — what takes the place of an invocation.
-/

namespace HeaderPeers

/-- A token with one text has no other. -/
theorem Token.is_eq_of_is {t : Token} {text : String} (h : t.is text = true) (other : String) :
    t.is other = (text == other) := by
  simp only [Token.is, Bool.and_eq_true, beq_iff_eq] at h
  simp [Token.is, h.1, h.2]

namespace Expansion

/-! ## Definitions -/

/-- Parameters with commas between them; the last may stand for all other arguments. -/
inductive ParameterList : List Token → List String → Prop
  | dots {t : Token} (ht : t.IsMark "...") : ParameterList [t] [variadicName]
  | last {t : Token} (ht : t.isWord = true) (hword : Text.isWord t.text.toList = true) :
      ParameterList [t] [t.text]
  | cons {t comma : Token} {ts : List Token} {parameters : List String} (ht : t.isWord = true)
      (hword : Text.isWord t.text.toList = true) (hcomma : comma.IsMark ",")
      (more : ParameterList ts parameters) :
      ParameterList (t :: comma :: ts) (t.text :: parameters)

/-- The tokens of the text of a definition, which ends where its last token does. -/
def definitionTokens (location : Location) (text : String) : List Token :=
  (Token.ofTextAt location text).filter fun t => !(t.isComment && t.text.isEmpty)

/-- The tokens of `#define name(parameters) body`, where the parameters are different and the body
pastes nothing. -/
inductive Defines : List Token → String → List String → List Token → Prop
  | intro {mark word subject opening close : Token} {list body : List Token} {name : String}
      {parameters : List String} (hmark : mark.is "#" = true)
      (hword : word.isKeyword .define_ = true) (hsubject : subject.is name = true)
      (hopening : opening.is "(" = true) (hnear : opening.spacing = "")
      (hlist : ParameterList list parameters) (hdistinct : parameters.Nodup)
      (hclose : close.is ")" = true) (hbody : ∀ t ∈ body, t.is "##" = false) :
      Defines (mark :: word :: subject :: opening :: (list ++ close :: body)) name parameters body

theorem readParameters_list {list body : List Token} {parameters : List String} {close : Token}
    (h : ParameterList list parameters) (hclose : close.is ")" = true) :
    readParameters (list ++ close :: body) = (parameters, body) := by
  have hend : readParameters (close :: body) = ([], body) := by
    rw [readParameters, if_pos hclose]
  have hne {t : Token} (hword : Text.isWord t.text.toList = true) : t.is ")" = false := by
    simp only [Token.is, Bool.and_eq_false_iff, beq_eq_false_iff_ne]
    right
    intro htext
    rw [htext] at hword
    exact absurd hword (by decide)
  induction h with
  | dots ht =>
      rw [List.cons_append, List.nil_append, readParameters, ht.is_eq, ht.is_eq, ht.isWord_eq]
      simp [hend]
  | last ht hword =>
      rw [List.cons_append, List.nil_append, readParameters, hne hword, ht, hend]
      simp
  | cons ht hword hcomma more ih =>
      rw [List.cons_append, List.cons_append, readParameters, hne hword, ht, readParameters,
        hcomma.is_eq, hcomma.is_eq, hcomma.isWord_eq, ih]
      simp

theorem definition?_eq {location : Location} {name text : String} {parameters : List String}
    {body : List Token} (h : Defines (definitionTokens location text) name parameters body) :
    definition? location name text = some ⟨some parameters, body⟩ := by
  unfold definition?
  rw [show (Token.ofTextAt location text).filter (fun t => !(t.isComment && t.text.isEmpty)) =
    definitionTokens location text from rfl]
  generalize definitionTokens location text = ts at h ⊢
  cases h with
  | intro hmark hword hsubject hopening hnear hlist hdistinct hclose hbody =>
      dsimp only
      rw [if_pos (by simp [hmark, hword, hsubject]), if_pos (by simp [hopening, hnear]),
        readParameters_list hlist hclose]

/-! ## Arguments -/

/-- Tokens with each bracket closed by one of its kind; outside of brackets there are commas only
if they are allowed. -/
inductive Balanced : Bool → List Token → Prop
  | nil {commas : Bool} : Balanced commas []
  | plain {commas : Bool} {t : Token} {ts : List Token}
      (notBracket : t.isAny ["(", ")", "[", "]", "\x7b", "\x7d"] = false)
      (notComma : t.is "," = true → commas = true) (rest : Balanced commas ts) :
      Balanced commas (t :: ts)
  | group {commas : Bool} {opening closing : String} {t u : Token} {ts us : List Token}
      (pair : (opening, closing) ∈ [("(", ")"), ("[", "]"), ("\x7b", "\x7d")])
      (opens : t.is opening = true) (inside : Balanced true ts) (closes : u.is closing = true)
      (rest : Balanced commas us) : Balanced commas (t :: ts ++ u :: us)

/-- Arguments with commas between them. Commas may stand in the last one only if it takes them. -/
inductive Passed (variadic : Bool) : List Token → List (List Token) → Prop
  | last {argument : List Token} (h : Balanced variadic argument) : Passed variadic argument [argument]
  | cons {argument ts : List Token} {comma : Token} {arguments : List (List Token)}
      (h : Balanced false argument) (hcomma : comma.is "," = true)
      (more : Passed variadic ts arguments) :
      Passed variadic (argument ++ comma :: ts) (argument :: arguments)

/-- Whether the last parameter stands for all other arguments. -/
def isVariadic (parameters : List String) : Bool :=
  parameters.getLast? == some variadicName

/-- Tokens as they are written, each behind its spacing. -/
def spacedText (ts : List Token) : String :=
  String.join (ts.map Token.spaced)

/-- What was read with more tokens in one of the arguments. -/
def Invocation.add (inv : Invocation) (i : Nat) (ts : List Token) : Invocation :=
  { inv with
    arguments := inv.arguments.modify i (· ++ ts)
    text := inv.text ++ spacedText ts }

namespace Invocation

theorem add_nil (inv : Invocation) (i : Nat) : inv.add i [] = inv := by
  have hmodify : inv.arguments.modify i (· ++ []) = inv.arguments := by
    simp only [List.append_nil]
    exact List.modify_id i inv.arguments
  simp only [add, hmodify, spacedText, List.map_nil, String.join_nil, String.append_empty]

theorem add_append (inv : Invocation) (i : Nat) (ts us : List Token) :
    inv.add i (ts ++ us) = (inv.add i ts).add i us := by
  simp only [add, spacedText, List.map_append, String.join_append, String.append_assoc,
    List.modify_modify_eq]
  congr 2
  funext as
  simp

end Invocation

variable {parameters : List String} {i : Nat} {depth : Int} {inv : Invocation}
  {t u : Token} {ts us argument list rest : List Token}

/-- A token that neither ends an argument nor is a bracket is taken. -/
theorem readArguments_plain
    (hbracket : t.isAny ["(", ")", "[", "]", "\x7b", "\x7d"] = false)
    (hcomma : t.is "," = true → depth ≠ 0 ∨ dividesAt parameters i = false) :
    readArguments parameters i depth inv (t :: ts) =
      readArguments parameters i depth (inv.add i [t]) ts := by
  simp only [Token.isAny, List.any_cons, List.any_nil, Bool.or_false, Bool.or_eq_false_iff]
    at hbracket
  obtain ⟨h₁, h₂, h₃, h₄, h₅, h₆⟩ := hbracket
  have hdivides : (depth == 0 && t.is "," && dividesAt parameters i) = false := by
    cases hmark : t.is "," with
    | false => simp
    | true =>
        rcases hcomma hmark with hdepth | hdivides
        · simp [hdepth]
        · simp [hdivides]
  rw [readArguments]
  simp only [h₂, hdivides, Bool.and_false, Bool.false_eq_true, if_false, Token.isAny, List.any_cons,
    List.any_nil, h₁, h₃, h₄, h₅, h₆, Bool.or_self, Invocation.add, pushArgument, spacedText,
    List.map_cons, List.map_nil, String.join_cons, String.join_nil, String.append_empty]

/-- An opening bracket is taken, and counted. -/
theorem readArguments_opening {text : String} (htext : text ∈ ["(", "[", "\x7b"])
    (ht : t.is text = true) :
    readArguments parameters i depth inv (t :: ts) =
      readArguments parameters i (depth + 1) (inv.add i [t]) ts := by
  have hopens : t.isAny ["(", "[", "\x7b"] = true := List.any_eq_true.mpr ⟨text, htext, ht⟩
  have hnot : ∀ text ∈ ["(", "[", "\x7b"], (text == ")") = false ∧ (text == ",") = false := by
    decide
  rw [readArguments]
  simp only [Token.is_eq_of_is ht, (hnot text htext).1, (hnot text htext).2, hopens, Bool.and_false,
    Bool.false_and, Bool.false_eq_true, if_false, if_true, Invocation.add, pushArgument, spacedText,
    List.map_cons, List.map_nil, String.join_cons, String.join_nil, String.append_empty]

/-- A closing bracket inside of others is taken, and counted. -/
theorem readArguments_closing {text : String} (htext : text ∈ [")", "]", "\x7d"])
    (ht : t.is text = true) (hdepth : depth ≠ 0) :
    readArguments parameters i depth inv (t :: ts) =
      readArguments parameters i (depth - 1) (inv.add i [t]) ts := by
  have hcloses : t.isAny [")", "]", "\x7d"] = true := List.any_eq_true.mpr ⟨text, htext, ht⟩
  have hopens : t.isAny ["(", "[", "\x7b"] = false := by
    have hnot : ∀ text ∈ [")", "]", "\x7d"], ∀ other ∈ ["(", "[", "\x7b"],
        (text == other) = false := by decide
    refine List.any_eq_false.mpr fun other hother => ?_
    rw [Token.is_eq_of_is ht, hnot text htext other hother]
    simp
  have hzero : (depth == 0) = false := by simpa using hdepth
  rw [readArguments]
  simp only [hzero, hopens, hcloses, Bool.false_and, Bool.false_eq_true, if_false, if_true,
    Invocation.add, pushArgument, spacedText, List.map_cons, List.map_nil, String.join_cons,
    String.join_nil, String.append_empty]

/-- **Balanced tokens are taken** and leave the depth as it is, by induction on them. -/
theorem readArguments_balanced {commas : Bool} (h : Balanced commas argument) (hdepth : 0 ≤ depth)
    (hcommas : commas = true → depth ≠ 0 ∨ dividesAt parameters i = false) :
    readArguments parameters i depth inv (argument ++ ts) =
      readArguments parameters i depth (inv.add i argument) ts := by
  induction h generalizing inv depth ts with
  | nil => rw [List.nil_append, Invocation.add_nil]
  | @plain commas t us notBracket notComma rest ih =>
      rw [List.cons_append, readArguments_plain notBracket fun hcomma => hcommas (notComma hcomma),
        ih hdepth hcommas, ← Invocation.add_append]
      rfl
  | @group commas opening closing t u us vs pair opens inside closes rest ihInside ihRest =>
      have hopening : opening ∈ ["(", "[", "\x7b"] := by
        simp only [List.mem_cons, Prod.mk.injEq, List.not_mem_nil, or_false] at pair ⊢
        tauto
      have hclosing : closing ∈ [")", "]", "\x7d"] := by
        simp only [List.mem_cons, Prod.mk.injEq, List.not_mem_nil, or_false] at pair ⊢
        tauto
      have hinside : depth + 1 ≠ 0 := by omega
      rw [List.append_assoc, List.cons_append, List.cons_append, readArguments_opening hopening opens,
        ihInside (by omega) (fun _ => Or.inl hinside), readArguments_closing hclosing closes hinside,
        Int.add_sub_cancel, ihRest hdepth hcommas, ← Invocation.add_append, ← Invocation.add_append,
        ← Invocation.add_append]
      simp

theorem readArguments_close (ht : t.is ")" = true) :
    readArguments parameters i 0 inv (t :: ts) =
      { inv with text := inv.text ++ t.spaced, rest := ts } := by
  rw [readArguments]
  simp [ht]

theorem readArguments_comma (ht : t.is "," = true) (hdivides : dividesAt parameters i = true) :
    readArguments parameters i 0 inv (t :: ts) =
      readArguments parameters (i + 1) 0 { inv with text := inv.text ++ t.spaced } ts := by
  rw [readArguments]
  simp [Token.is_eq_of_is ht, hdivides]

theorem modify_middle {α : Type} (before after : List α) (a : α) (f : α → α) :
    (before ++ a :: after).modify before.length f = before ++ f a :: after := by
  induction before with
  | nil => rfl
  | cons b before ih => exact congrArg (b :: ·) ih

/-- **Reading a list of arguments**, by induction on it, with those in front read already. -/
theorem readArguments_passed (before : List (List Token)) {arguments : List (List Token)}
    (h : Passed (isVariadic parameters) list arguments)
    (hlength : before.length + arguments.length = parameters.length) (hclose : u.is ")" = true)
    (text : String) (ignored : List Token) :
    readArguments parameters before.length 0
        { arguments := before ++ List.replicate arguments.length [], text, rest := ignored }
        (list ++ u :: us) =
      { arguments := before ++ arguments
        text := text ++ spacedText (list ++ [u])
        rest := us } := by
  induction h generalizing before text with
  | @last argument h =>
      have hcommas : isVariadic parameters = true →
          (0 : Int) ≠ 0 ∨ dividesAt parameters before.length = false := by
        intro hvariadic
        refine Or.inr ?_
        rw [isVariadic] at hvariadic
        simp only [List.length_singleton] at hlength
        simp [dividesAt, hvariadic, hlength]
      rw [readArguments_balanced h (Int.le_refl 0) hcommas, readArguments_close hclose]
      simp only [Invocation.add, List.length_singleton, List.replicate_one, modify_middle,
        List.nil_append, String.append_assoc]
      simp [spacedText, String.join_append]
  | @cons argument ts comma arguments h hcomma more ih =>
      have hdivides : dividesAt parameters before.length = true := by
        have hpos : 0 < arguments.length := by cases more <;> simp
        simp only [List.length_cons] at hlength
        have hlt : ¬ parameters.length ≤ before.length + 1 := by omega
        simp [dividesAt, hlt]
      have hnext := ih (before ++ [argument])
        (by simp only [List.length_append, List.length_cons, List.length_nil] at hlength ⊢; omega)
        (text ++ spacedText argument ++ comma.spaced)
      rw [List.append_assoc, List.cons_append,
        readArguments_balanced h (Int.le_refl 0) (fun hfalse => by cases hfalse),
        readArguments_comma hcomma hdivides]
      simp only [Invocation.add, List.length_cons, List.replicate_succ, modify_middle,
        List.nil_append]
      rw [List.length_append, List.length_singleton, List.append_assoc] at hnext
      refine hnext.trans ?_
      simp [spacedText, String.join_append, String.append_assoc]

/-! ## What takes the place of an invocation -/

/-- The body with each parameter replaced by what is passed for it. -/
def replace (passed : List (String × List Token)) (body : List Token) : List Token :=
  body.flatMap fun t => ((passed.find? fun p => t.is p.1).map (·.2)).getD [t]

theorem substitute_eq_replace {arguments : List (List Token)}
    (hlength : arguments.length = parameters.length) (body : List Token) :
    substitute parameters arguments body = replace (parameters.zip arguments) body := by
  unfold substitute replace
  refine congrArg (body.flatMap ·) (funext fun t => ?_)
  induction parameters generalizing arguments with
  | nil => simp
  | cons parameter parameters ih =>
      cases arguments with
      | nil => cases hlength
      | cons argument arguments =>
          have hrest := ih (Nat.succ.inj hlength)
          rw [List.findIdx?_cons, List.zip_cons_cons, List.find?_cons]
          cases t.is parameter with
          | true => rfl
          | false =>
              simp only [Bool.false_eq_true, if_false]
              rw [← hrest]
              cases parameters.findIdx? t.is <;> rfl

/-- No `##` stands between two tokens. -/
def Unpasted (ts : List Token) : Prop :=
  ∀ front a (mark : Token) b back, ts = front ++ a :: mark :: b :: back → mark.is "##" = false

theorem unpasted_cons {a mark b : Token} {ts : List Token} :
    Unpasted (a :: mark :: b :: ts) ↔ mark.is "##" = false ∧ Unpasted (mark :: b :: ts) := by
  constructor
  · intro h
    refine ⟨h [] a mark b ts rfl, fun front a' mark' b' back heq => ?_⟩
    exact h (a :: front) a' mark' b' back (congrArg (a :: ·) heq)
  · rintro ⟨hmark, h⟩ front a' mark' b' back heq
    cases front with
    | nil =>
        obtain ⟨rfl, rfl, rfl, rfl⟩ : a = a' ∧ mark = mark' ∧ b = b' ∧ ts = back := by
          simpa using heq
        exact hmark
    | cons c front => exact h front a' mark' b' back (List.cons.inj heq).2

theorem unpasted_of_forall {ts : List Token} (h : ∀ t ∈ ts, t.is "##" = false) : Unpasted ts := by
  rintro front a mark b back rfl
  exact h mark (by simp)

theorem length_paste_le (ts : List Token) : (paste ts).length ≤ ts.length := by
  fun_induction paste ts with
  | case1 a mark b ts hmark ih =>
      simp only [List.length_cons] at ih ⊢
      omega
  | case2 a mark b ts hmark ih => simpa using ih
  | case3 ts => exact Nat.le_refl _

/-- Pasting leaves tokens as they are only where there is nothing to paste. -/
theorem paste_eq_iff (ts : List Token) : paste ts = ts ↔ Unpasted ts := by
  fun_induction paste ts with
  | case1 a mark b ts hmark ih =>
      constructor
      · intro heq
        have hlength := length_paste_le ({ a with text := a.text ++ b.text } :: ts)
        rw [heq] at hlength
        simp at hlength
      · intro h
        have hnot := h [] a mark b ts rfl
        rw [hmark] at hnot
        cases hnot
  | case2 a mark b ts hmark ih =>
      rw [unpasted_cons, ← ih]
      simp [hmark]
  | case3 ts hshort =>
      refine ⟨fun _ front a mark b back heq => ?_, fun _ => rfl⟩
      obtain ⟨c, d, e, more, hmore⟩ : ∃ c d e more, ts = c :: d :: e :: more := by
        rcases front with _ | ⟨c, _ | ⟨d, _ | ⟨e, front⟩⟩⟩
        · exact ⟨a, mark, b, back, heq⟩
        · exact ⟨c, a, mark, b :: back, heq⟩
        · exact ⟨c, d, a, mark :: b :: back, heq⟩
        · exact ⟨c, d, e, _, heq⟩
      exact (hshort c d e more hmore).elim

/-- **Expanding an invocation.** A name with a list of arguments behind it is replaced by the body,
with each parameter replaced by what is passed for it, and everything around it stays as it is.
What is passed is pasted with the body, so that the replacement is changed exactly if it has a `##`
between two tokens. -/
theorem expandAt_invocation {table : RuleTable} {before body : List Token}
    {opening close : Token} {rule : Rule} {text : String} {arguments : List (List Token)}
    (hrule : ruleFor? table t = some (rule, text)) (hname : rule.nativeName = t.text)
    (hdefines : Defines (definitionTokens t.location text) t.text parameters body)
    (hopening : opening.is "(" = true) (hpassed : Passed (isVariadic parameters) list arguments)
    (hlength : arguments.length = parameters.length) (hclose : close.is ")" = true)
    (hkept : isLeftOut table (t.text ++ spacedText (opening :: (list ++ [close]))) = false) :
    let replacement := replace (parameters.zip arguments) body
    Window.expandAt table (before ++ t :: opening :: (list ++ close :: rest)).toArray before.length =
        (before ++ respace t.spacing (paste replacement ++ rest)).toArray ∧
      (paste replacement = replacement ↔ Unpasted replacement) := by
  intro replacement
  refine ⟨?_, paste_eq_iff replacement⟩
  have hread : readArguments parameters 0 0 _ (list ++ close :: rest) = _ :=
    readArguments_passed [] hpassed (by simpa using hlength) hclose (t.text ++ opening.spaced) []
  have hwritten : t.text ++ opening.spaced ++ spacedText (list ++ [close]) =
      t.text ++ spacedText (opening :: (list ++ [close])) := by
    simp [spacedText, String.append_assoc]
  rw [List.nil_append, List.nil_append, hlength, hwritten] at hread
  have hexpand : expand? table (t :: opening :: (list ++ close :: rest)) =
      some (respace t.spacing (paste replacement ++ rest)) := by
    rw [expand?, hrule, Option.bind_some]
    dsimp only
    rw [hname, definition?_eq hdefines, Option.bind_some]
    dsimp only
    rw [if_pos hopening, hread, substitute_eq_replace hlength, if_neg (by simp [hkept])]
    rfl
  unfold Window.expandAt
  rw [show (before ++ t :: opening :: (list ++ close :: rest)).toArray[before.length]? = some t by
    simp]
  dsimp only
  rw [hrule, if_neg (by simp), Window.tail_append, hexpand]
  exact Window.replaceTail_append before _ _

/-! ## Examples -/

/-- A word of a sample. -/
def wordSample (text : String) : Token :=
  { kind := .identifier, text, location := { line := 1 } }

/-- A mark of a sample. -/
def markSample (text : String) : Token :=
  { kind := .punct, text, location := { line := 1 } }

/-- A rule for these names, with the text of a definition. -/
def ruleSample (names : List String) (text : String) : Rule :=
  { nativeNames := names, nativeText := some text }

/-- The arguments behind the first one are passed with their commas. -/
theorem expandAt_invocation_variadic :
    let rule := ruleSample ["F"] "#define F(x,...) x(__VA_ARGS__)"
    let table := ({} : RuleTable).put rule
    let a := wordSample "a"
    let others := [markSample "(", wordSample "b", markSample ",", wordSample "c", markSample ")",
      markSample ",", wordSample "d"]
    Window.expandAt table ([markSample ";"] ++ { wordSample "F" with spacing := "\n" } ::
        markSample "(" :: (([a] ++ markSample "," :: others) ++ markSample ")" ::
          [markSample ";"])).toArray 1 =
      ([markSample ";"] ++ { a with spacing := "\n" } :: markSample "(" ::
        (others ++ [markSample ")", markSample ";"])).toArray := by
  intro rule table a others
  let define : Token := { kind := .keyword .define_, text := "define", location := { line := 1 } }
  let dots : Token := { kind := .symbol, text := "...", location := { line := 1 } }
  let body := [{ wordSample "x" with spacing := " " }, markSample "(", wordSample "__VA_ARGS__",
    markSample ")"]
  have htokens : definitionTokens { line := 1 } "#define F(x,...) x(__VA_ARGS__)" =
      markSample "#" :: define :: { wordSample "F" with spacing := " " } :: markSample "(" ::
        ([wordSample "x", markSample ",", dots] ++ markSample ")" :: body) := by decide +kernel
  have hlist : ParameterList [wordSample "x", markSample ",", dots] ["x", variadicName] :=
    .cons rfl (by decide +kernel) ⟨Or.inl rfl, rfl⟩ (.dots ⟨Or.inr rfl, rfl⟩)
  have hdefines : Defines (definitionTokens { line := 1 } "#define F(x,...) x(__VA_ARGS__)") "F"
      ["x", variadicName] body := by
    rw [htokens]
    exact .intro (by decide) (by decide) (by decide) (by decide) rfl hlist (by decide) (by decide)
      (by decide)
  have hpair : ("(", ")") ∈ [("(", ")"), ("[", "]"), ("\x7b", "\x7d")] := by decide
  have hinside : Balanced true [wordSample "b", markSample ",", wordSample "c"] :=
    .plain (by decide) (by decide) (.plain (by decide) (by decide)
      (.plain (by decide) (by decide) .nil))
  have hothers : Balanced true others :=
    .group hpair (by decide) hinside (by decide)
      (.plain (by decide) (by decide) (.plain (by decide) (by decide) .nil))
  have hpassed : Passed (isVariadic ["x", variadicName]) ([a] ++ markSample "," :: others)
      [[a], others] :=
    .cons (.plain (by decide) (by decide) .nil) (by decide) (.last hothers)
  have hrule : ruleFor? table { wordSample "F" with spacing := "\n" } =
      some (rule, "#define F(x,...) x(__VA_ARGS__)") := by decide +kernel
  have hexpanded : Window.expandAt table ([markSample ";"] ++ { wordSample "F" with
      spacing := "\n" } :: markSample "(" :: (([a] ++ markSample "," :: others) ++
        markSample ")" :: [markSample ";"])).toArray 1 = _ ∧ (_ ↔ _) :=
    expandAt_invocation hrule (by decide +kernel) hdefines (by decide) hpassed (by decide)
      (by decide) (by decide +kernel)
  obtain ⟨hexpand, hunpasted⟩ := hexpanded
  rw [hunpasted.mpr (unpasted_of_forall (by decide +kernel))] at hexpand
  refine hexpand.trans ?_
  decide +kernel

/-- A `##` that is passed is pasted, and the definition of a rule that goes by another name first
does not count. -/
theorem argument_is_pasted :
    let a := wordSample "a"
    let passed := [a, { markSample "##" with kind := .symbol }, wordSample "b"]
    let invocation := (wordSample "F" :: markSample "(" :: (passed ++ [markSample ")"])).toArray
    let text := "#define F(x) x"
    let own := ({} : RuleTable).put (ruleSample ["F"] text)
    let other := ({} : RuleTable).put (ruleSample ["G", "F"] text)
    let body := [{ wordSample "x" with spacing := " " }]
    Defines (definitionTokens { line := 1 } text) "F" ["x"] body ∧
      Passed (isVariadic ["x"]) passed [passed] ∧
      replace [("x", passed)] body = passed ∧
      ruleFor? own (wordSample "F") = some (ruleSample ["F"] text, text) ∧
      Window.expandAt own invocation 0 = #[{ a with text := "ab" }] ∧
      Window.expandAt own invocation 0 ≠ passed.toArray ∧
      ruleFor? other (wordSample "F") = some (ruleSample ["G", "F"] text, text) ∧
      Window.expandAt other invocation 0 = invocation ∧
      Window.expandAt other invocation 0 ≠ passed.toArray := by
  intro a passed invocation text own other body
  let define : Token := { kind := .keyword .define_, text := "define", location := { line := 1 } }
  have htokens : definitionTokens { line := 1 } text = markSample "#" :: define ::
      { wordSample "F" with spacing := " " } :: markSample "(" ::
        ([wordSample "x"] ++ markSample ")" :: body) := by decide +kernel
  have hdefines : Defines (definitionTokens { line := 1 } text) "F" ["x"] body := by
    rw [htokens]
    exact .intro (by decide) (by decide) (by decide) (by decide) rfl
      (.last rfl (by decide +kernel)) (by decide) (by decide) (by decide)
  have hpassed : Passed (isVariadic ["x"]) passed [passed] :=
    .last (.plain (by decide) (by decide) (.plain (by decide) (by decide)
      (.plain (by decide) (by decide) .nil)))
  have hpasted : Window.expandAt own invocation 0 = #[{ a with text := "ab" }] := by decide +kernel
  have hkept : Window.expandAt other invocation 0 = invocation := by decide +kernel
  refine ⟨hdefines, hpassed, by decide +kernel, by decide +kernel, hpasted, ?_, by decide +kernel,
    hkept, ?_⟩
  · rw [hpasted]
    decide
  · rw [hkept]
    decide

end Expansion

end HeaderPeers

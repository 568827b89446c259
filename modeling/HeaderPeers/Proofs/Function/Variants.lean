import HeaderPeers.Function.Reader
import HeaderPeers.Proofs.Function.Parameters
import HeaderPeers.Proofs.Instances
import HeaderPeers.Proofs.TextParts

/-!
# Reading a function again and again

A function is read once for each variant. What is printed are the variants with a
signature of their own, up to the first alternative that brings nothing new.

- `Function.picked` — the variants that are printed.
- `Function.read_shows` — what is printed for a function.
-/

namespace HeaderPeers

open ReadM

variable {s : Reading} {t u : Token} {ts us rest : List Token}

namespace Function

/-- A function as it is written, up to the parenthesis that closes its parameters. -/
structure Head where
  spelling : Spelling
  found : Draft × Option Rule
  name : Token
  named : spelling.name = some name
  opening : Token
  list : List Token
  parameters : List Parameter
  close : Token
  opens : opening.IsMark "("
  closes : close.IsMark ")"
  written : Parameters.Written list parameters

namespace Head

def tokens (f : Head) : List Token :=
  f.spelling.tokens ++ f.opening :: (f.list ++ [f.close])

/-- The declarator without its parameters. -/
def result (table : RuleTable) (usings : List String) (scope : Scope) (choice : Int) (f : Head) :
    Declarator :=
  (f.spelling.declarator table usings f.found { scope, choice }).declarator

/-- The parameters that are read. -/
def taken (table : RuleTable) (usings : List String) (scope : Scope) (choice : Int)
    (keep : Option Nat) (f : Head) : Parameters :=
  Parameters.taken table usings scope choice keep f.close f.parameters

/-- The declarator that is read. -/
def declared (table : RuleTable) (usings : List String) (scope : Scope) (choice : Int)
    (keep : Option Nat) (f : Head) : Declarator :=
  let d := f.result table usings scope choice
  let parameters := f.taken table usings scope choice keep
  let d := { d with
    choice := max d.choice parameters.choice, parameters := some parameters
    signature := d.signature ++ parameters.signature }
  if d.nativeName.isEmpty then d else { d with nativeName := scope.qualifyLocal d.nativeName }

/-- The function can be read in a scope: its type is read as such, the rule for it is
found, its name is no attribute, and all its parameters can be read. -/
structure Fits (table : RuleTable) (usings : List String) (scope : Scope) (f : Head) : Prop where
  reads : f.spelling.Reads table usings scope
  finds : f.spelling.draft.Finds table usings scope f.found
  plain : (table.find? f.name.text).any (·.isAttribute) = false
  ordinary : f.spelling.type.constructor = false ∧ f.spelling.type.destructor = false ∧
    f.spelling.type.operator = false
  parameters : ∀ x ∈ f.parameters, x.Fits table usings scope

variable {f : Head} {scope : Scope} {choice : Int} {keep : Option Nat}

/-- **Reading the declarator of a function.** -/
theorem readDeclarator_passes (choice : Int) (keep : Option Nat) (hf : f.Fits s.table s.usings scope)
    (h : s.Sees (f.tokens ++ u :: us)) :
    Passes (readDeclarator scope choice keep) s (u :: us)
      (· = some (f.declared s.table s.usings scope choice keep)) := by
  have htokens : f.tokens ++ u :: us =
      f.spelling.tokens ++ f.opening :: (f.list ++ f.close :: u :: us) := by simp [tokens]
  rw [htokens] at h
  have hends : f.opening.EndsName := ⟨"(", by decide, f.opens⟩
  obtain ⟨hconstructor, hdestructor, hoperator⟩ := hf.ordinary
  -- each reader inside takes one level of the recursion
  obtain ⟨n, hbound⟩ : ∃ n, s.bound = n + 1 + 1 := by
    have hlength := h.length_le
    simp only [List.length_append, List.length_cons] at hlength
    exact ⟨s.bound - 2, by omega⟩
  let request : DeclaratorRequest := { scope, choice, keepDefaults := keep }
  have hdeclarator : Passes (Declarator.read request) s (u :: us)
      (· = some { f.result s.table s.usings scope choice with
        choice := max (f.result s.table s.usings scope choice).choice
          (f.taken s.table s.usings scope choice keep).choice
        parameters := some (f.taken s.table s.usings scope choice keep)
        signature := (f.result s.table s.usings scope choice).signature ++
          (f.taken s.table s.usings scope choice keep).signature }) := by
    have hnest : Declarator.read request s = Declarator.readWith
        (Declarator.readWith (nestUpTo Declarator.readWith n)) request s := by
      change nestUpTo Declarator.readWith s.bound request s = _
      rw [hbound]
      rfl
    obtain ⟨i, hsees, hread⟩ := f.spelling.readWith_eq request
      (Declarator.readWith (nestUpTo Declarator.readWith n)) h hends
      (fun hnone => absurd (f.named.symm.trans hnone) (by simp)) rfl rfl
      (fun t ht => by
        obtain rfl := Option.some.inj (f.named.symm.trans ht)
        exact hf.plain) hf.reads hf.finds
    obtain ⟨_, j, hlist, hsees, rfl⟩ : Passes (Parameters.readWith
        (Declarator.readWith (nestUpTo Declarator.readWith n)) scope choice keep) (s.atIndex i)
        (u :: us) (· = some (f.taken s.table s.usings scope choice keep)) :=
      Parameters.readWith_passes (nestUpTo Declarator.readWith n) (f.opens.is_eq "(") f.closes
        f.written hf.parameters hsees
    obtain ⟨_, k, hclose, hsees, -⟩ := Declarator.closeParens_passes hsees
    refine ⟨_, k, ?_, hsees, rfl⟩
    rw [hnest, hread]
    unfold Draft.readParameters
    rw [bind_assoc, bind_of_ok hlist]
    dsimp only
    rw [if_pos (by simp), pure_bind, bind_of_ok hclose]
    rfl
  obtain ⟨_, i, htype, -, rfl⟩ := hf.reads s f.opening _ rfl rfl hends (by
    rw [Spelling.tokens, List.append_assoc] at h
    exact h)
  obtain ⟨_, j, hread, hsees, rfl⟩ := hdeclarator
  have hback : moveTo s.window.index (s.atIndex i) = .ok () s := rfl
  refine ⟨_, j, ?_, hsees, rfl⟩
  have hcursor : cursor s = .ok s.window.index s := rfl
  unfold readDeclarator
  rw [bind_of_ok hcursor, bind_of_ok htype]
  dsimp only
  rw [if_neg (by simp [hconstructor, hdestructor, hoperator]), bind_of_ok hback,
    bind_of_ok hread]
  rfl

/-! ## What is printed -/

/-- The target name of the function. -/
def target (table : RuleTable) (usings : List String) (scope : Scope) (f : Head) : String :=
  (f.result table usings scope 0).targetName

theorem result_targetName (table : RuleTable) (usings : List String) (choice : Int) :
    (f.result table usings scope choice).targetName = f.target table usings scope :=
  rfl

/-- The signature that a variant has. -/
def signature (table : RuleTable) (usings : List String) (scope : Scope) (f : Head)
    (v : Variant) : String :=
  f.target table usings scope ++ (f.taken table usings scope v.choice v.keep).signature

/-- What the declarator of a variant consists of. -/
theorem declared_cases (table : RuleTable) (usings : List String) (scope : Scope) (choice : Int)
    (keep : Option Nat) (f : Head) : ∃ native n,
      f.declared table usings scope choice keep =
        { f.result table usings scope choice with
          nativeName := native, choice := n
          parameters := some (f.taken table usings scope choice keep)
          signature := f.target table usings scope ++
            (f.taken table usings scope choice keep).signature } := by
  unfold declared
  dsimp only
  split
  · exact ⟨_, _, rfl⟩
  · exact ⟨_, _, rfl⟩

/-- A free function that is printed: its name stands for itself and is not empty on the
target side, the rule for it neither skips it nor gives it a text, and neither itself nor
any of its parameters is of a type that is skipped. -/
structure Printable (table : RuleTable) (usings : List String) (scope : Scope) (f : Head) : Prop
    extends f.Fits table usings scope where
  free : scope.group = none
  nativeName_eq : scope.qualifyLocal (f.result table usings scope 0).nativeName =
    scope.qualifyLocal f.name.text
  target_ne : f.target table usings scope ≠ ""
  own : ∀ r ∈ Function.rule? table (scope.qualifyLocal f.name.text)
    (f.taken table usings scope 0 none), r.skip = false ∧ r.targetText = none
  type_ne : f.spelling.type.targetName ≠ "" ∧ (f.result table usings scope 0).type.targetName ≠ ""
  unskipped : (table.find? f.found.1.type.nativeName).any (·.skipsType) = false ∧
    ∀ x ∈ f.parameters, (table.find? x.found.1.type.nativeName).any (·.skipsType) = false

/-- A declaration that is printed for a variant. -/
structure Shows (table : RuleTable) (usings : List String) (scope : Scope) (f : Head)
    (v : Variant) (d : Declaration) : Prop where
  declarator : d.declarator = some (f.declared table usings scope v.choice v.keep)
  signature : d.signature = f.signature table usings scope v
  isFunction : d.isFunction = true

theorem definitionsOf_eq_nil {ds : List Declarator} (h : ∀ d ∈ ds, d.definition = none) :
    Declaration.definitionsOf ds = [] := by
  induction ds with
  | nil => rw [Declaration.definitionsOf]
  | cons d ds ih =>
      have hd := h d List.mem_cons_self
      obtain ⟨_, _, _, _, _, _, _, _, _, _, definition, _, _⟩ := d
      obtain rfl : definition = none := hd
      rw [Declaration.definitionsOf, ih fun d hd => h d (List.mem_cons_of_mem _ hd)]
      rfl

section Printable

variable {table : RuleTable} {usings : List String}

/-- A parameter that is read is of the shape of one that is written. -/
theorem exists_gives {d : Declarator}
    (hd : d ∈ (f.taken table usings scope choice keep).declarators) :
    ∃ x ∈ f.parameters, x.Gives scope choice d := by
  rcases Parameters.exists_gives_of_mem_takeAll hd with hnone | hgives
  · cases hnone
  · exact hgives

/-- No definitions go before the declaration. -/
theorem helpersOf_declared (h : f.Printable table usings scope) :
    Declaration.helpersOf (f.declared table usings scope choice keep) = [] := by
  obtain ⟨native, n, hdeclared⟩ := declared_cases table usings scope choice keep f
  have hdefinition : (f.result table usings scope choice).definition = none :=
    (f.spelling.like_declarator table usings f.found _).definition.trans
      (Spelling.found_leaves h.finds).1
  have hparameters : Declaration.definitionsOf (f.taken table usings scope choice keep).declarators =
      [] := by
    refine definitionsOf_eq_nil fun d hd => ?_
    obtain ⟨x, hx, hgives⟩ := exists_gives hd
    exact hgives.definition.trans (Spelling.found_leaves (h.parameters x hx).finds).1
  rw [hdeclared, Declaration.helpersOf.eq_def]
  dsimp only
  rw [hdefinition]
  generalize f.taken table usings scope choice keep = parameters at hparameters
  obtain ⟨_, _, declarators, _, _, _⟩ := parameters
  exact hparameters

/-- The declaration is not passed over. -/
theorem isSkipped_eq (h : f.Printable table usings scope) {d : Declaration}
    (hd : d.declarator = some (f.declared table usings scope choice keep)) :
    Outline.isSkipped table d = false := by
  obtain ⟨native, n, hdeclared⟩ := declared_cases table usings scope choice keep f
  have htype : (f.result table usings scope choice).type.nativeName =
      f.found.1.type.nativeName :=
    (f.spelling.like_declarator table usings f.found _).typeName
  unfold Outline.isSkipped
  rw [hd, hdeclared]
  dsimp only
  rw [htype, h.unskipped.1, Bool.and_false, Bool.false_or, Option.map_some, Option.getD_some,
    List.any_eq_false]
  intro p hp
  obtain ⟨x, hx, hgives⟩ := exists_gives hp
  rw [hgives.typeName, h.unskipped.2 x hx]
  simp

end Printable

end Head

/-- Whether a declaration without helpers is taken, and where it goes. -/
theorem add_of_fresh {o : Outline} {table : RuleTable} {d : Declaration}
    (hbound : o.isUnbound = false) (hskipped : Outline.isSkipped table d = false)
    (hhelpers : Outline.helpers d = []) (hd : d.signature ≠ "")
    (hfresh : ∀ x ∈ o.toList, x.signature ≠ d.signature) :
    (o.add table d).2.toList = o.toList ++ [o.stored d] ∧
      (o.add table d).2.statement = o.statement := by
  have htaken : (o.add table d).1 = true := by simp [Outline.add, hbound, hskipped]
  have hadd : (o.add table d).2 = o.insert d := by
    rw [Outline.add_of_taken htaken, hhelpers]
    rfl
  have hkept : o.toList.filter (Outline.stays (o.stored d)) = o.toList := by
    refine List.filter_eq_self.mpr fun x hx => ?_
    simp [Outline.stays, hfresh x hx]
  have hnone : o.toList.any (·.signature == d.signature) = false := by
    rw [List.any_eq_false]
    exact fun x hx => by simpa using hfresh x hx
  rw [hadd, Outline.toList_insert, if_neg hd]
  dsimp only
  rw [hkept, hnone, if_neg (by simp)]
  exact ⟨rfl, Outline.insert_statement o d⟩

/-! ## One variant -/

/-- What stands behind the parameters is read up to the remaining tokens. It does not make
the function a pure hook, and may delete it. -/
def Trails (deleted : Bool) (table : RuleTable) (usings : List String) (us rest : List Token) :
    Prop :=
  ∀ s : Reading, s.table = table → s.usings = usings → s.Sees us →
    Passes readTrailer s rest fun trailer =>
      trailer.isAbstract = false ∧ trailer.isDeleted = deleted

/-- The state with another outline. -/
def printing (s : Reading) (o : Outline) : Reading :=
  { s with outline := o }

theorem sees_printing (h : s.Sees ts) (o : Outline) : (printing s o).Sees ts :=
  ⟨h.cooked, h.fueled, h.inside, h.ahead⟩

/-- The text of a free function is found without reading on. -/
theorem exists_readMethodText {scope : Scope} (hfree : scope.group = none) (d : Declarator)
    (list : String) (trailer : Trailer) (rule : Option Rule) (modifiers : String) (s : Reading) :
    ∃ text, readMethodText scope d list trailer rule modifiers s = .ok text s := by
  have hrole : readRole scope d rule s = .ok none s := by
    unfold readRole
    rw [hfree]
    rfl
  unfold readMethodText
  exact ⟨_, bind_of_ok hrole _⟩

/-- Prints a variant whose text is known. -/
def printVariant (f : Subject) (printed : Printed) (v : Variant) (d : Declarator)
    (trailer : Trailer) (text : String) : ReadM (Option Printed) := do
  let seen := printed.signatures.contains d.signature
  let next : Printed := { signatures := d.signature :: printed.signatures, isFirst := false }
  if !d.targetName.isEmpty && !seen && !d.type.destructor && !trailer.isDeleted then
    let _ ← add { text, signature := d.signature, declarator := some d, isFunction := true
                  constMember := trailer.isConst, abstractMember := trailer.isAbstract
                  custom := (f.rule.bind (·.targetText)).isSome }
    if f.scope.virtualize && trailer.isAbstract then return none
    return some next
  else if seen && v.choice > 0 && v.position == 0 then return none
  else return some next

/-- Puts the comment behind a function in front of its first variant. -/
def finishVariant (f : Subject) (printed : Printed) (v : Variant) (d : Declarator)
    (trailer : Trailer) (text : String) : ReadM (Option Printed) := do
  let ownText := f.rule.bind (·.targetText)
  if ownText.isSome && !printed.isFirst then return none
  let text := ownText.getD (f.scope.namespaceText ++ text)
  let comment ← Comment.takeAfter
  if printed.isFirst then
    modifyOutline fun o => { o with spacing := some f.spacing }
    printVariant f printed v d trailer (comment ++ text)
  else printVariant f printed v d trailer text

theorem readVariant_eq (f : Subject) (printed : Printed) (v : Variant) :
    readVariant f printed v = (do
      moveTo f.start
      match ← readDeclarator f.scope v.choice v.keep with
      | none => return none
      | some d =>
        match d.parameters with
        | none => return none
        | some parameters =>
          let trailer ← readTrailer
          let modifiers := if f.scope.virtualize && (trailer.isAbstract || d.type.virtualMember) then
              hookModifiers f.scope trailer.isAbstract
            else f.modifiers
          if d.type.constructor then
            finishVariant f printed v d trailer (constructorText d.targetName parameters)
          else
            let text ← readMethodText f.scope d parameters.list trailer f.rule modifiers
            finishVariant f printed v d trailer text) :=
  rfl

section Variants

variable {f : Head} {subject : Subject} {printed : Printed} {v : Variant} {o : Outline}
  {deleted : Bool}

/-- The signatures met behind a variant. -/
def Printed.note (printed : Printed) (signature : String) : Printed :=
  { signatures := signature :: printed.signatures, isFirst := false }

/-- The last variant that is read: an alternative that brings nothing new from its first
position on. -/
def ends (signature : Variant → String) (signatures : List String) (v : Variant) : Prop :=
  signature v ∈ signatures ∧ v.choice > 0 ∧ v.position = 0

instance (signature : Variant → String) (signatures : List String) (v : Variant) :
    Decidable (ends signature signatures v) :=
  inferInstanceAs (Decidable (_ ∧ _))

/-- A variant was printed if its signature is new and the function is not deleted; the
outline stays as it is else. -/
def Puts (deleted : Bool) (table : RuleTable) (usings : List String) (scope : Scope) (f : Head)
    (printed : Printed) (v : Variant) (o o' : Outline) : Prop :=
  o'.statement = o.statement ∧
    if f.signature table usings scope v ∈ printed.signatures ∨ deleted = true then
      o'.toList = o.toList
    else ∃ d, f.Shows table usings scope v d ∧ o'.toList = o.toList ++ [d]

theorem printVariant_puts (hf : f.Printable s.table s.usings subject.scope)
    (hbound : o.isUnbound = false) (hknown : ∀ x ∈ o.toList, x.signature ∈ printed.signatures)
    {trailer : Trailer} (habstract : trailer.isAbstract = false)
    (hdeleted : trailer.isDeleted = deleted) (text : String) :
    ∃ o', printVariant subject printed v
        (f.declared s.table s.usings subject.scope v.choice v.keep) trailer text (printing s o) =
      .ok (if ends (f.signature s.table s.usings subject.scope) printed.signatures v then none
        else some (printed.note (f.signature s.table s.usings subject.scope v))) (printing s o') ∧
      Puts deleted s.table s.usings subject.scope f printed v o o' := by
  obtain ⟨native, n, hdeclared⟩ :=
    Head.declared_cases s.table s.usings subject.scope v.choice v.keep f
  have hhelpers : Declaration.helpersOf (f.declared s.table s.usings subject.scope v.choice v.keep) =
      [] := Head.helpersOf_declared hf
  generalize hd : f.declared s.table s.usings subject.scope v.choice v.keep = d at *
  have hsignature : d.signature = f.signature s.table s.usings subject.scope v := by
    rw [hdeclared]
    rfl
  have htarget : d.targetName.isEmpty = false := by
    have hne := hf.target_ne
    rw [← Head.result_targetName _ _ v.choice] at hne
    rw [hdeclared]
    simpa using hne
  have hdestructor : d.type.destructor = false := by
    rw [hdeclared]
    exact (f.spelling.like_declarator s.table s.usings f.found _).destructor.trans
      ((Spelling.found_leaves hf.finds).2.trans hf.ordinary.2.1)
  have hne : f.signature s.table s.usings subject.scope v ≠ "" := by
    intro hempty
    exact hf.target_ne (String.append_eq_empty_iff.mp hempty).1
  unfold printVariant
  rw [hsignature, htarget, hdestructor, hdeleted, habstract]
  by_cases hseen : f.signature s.table s.usings subject.scope v ∈ printed.signatures
  · have hends : ends (f.signature s.table s.usings subject.scope) printed.signatures v ↔
        (printed.signatures.contains (f.signature s.table s.usings subject.scope v) &&
          decide (v.choice > 0) && v.position == 0) = true := by
      simp [ends, hseen]
    refine ⟨o, ?_, rfl, by rw [if_pos (Or.inl hseen)]⟩
    rw [if_neg (by simp [hseen])]
    simp only [← hends]
    split <;> rfl
  have hgoes : ¬ ends (f.signature s.table s.usings subject.scope) printed.signatures v :=
    fun hends => hseen hends.1
  cases deleted with
  | true =>
    refine ⟨o, ?_, rfl, by rw [if_pos (Or.inr rfl)]⟩
    rw [if_neg (by simp), if_neg hgoes, if_neg (by simp [hseen])]
    rfl
  | false =>
    let new : Declaration :=
      { text, signature := f.signature s.table s.usings subject.scope v, declarator := some d
        isFunction := true, constMember := trailer.isConst, abstractMember := false
        custom := (subject.rule.bind (·.targetText)).isSome }
    obtain ⟨hlist, hstatement⟩ := add_of_fresh (d := new) hbound
      (Head.isSkipped_eq hf (by rw [hd])) hhelpers hne fun x hx heq => by
        have hknown' := hknown x hx
        rw [heq] at hknown'
        exact hseen hknown'
    refine ⟨(o.add s.table new).2, ?_, hstatement, ?_⟩
    · have hadd : add new (printing s o) = .ok (o.add s.table new).1
          (printing s (o.add s.table new).2) := rfl
      rw [if_pos (by simp [hseen]), if_neg hgoes, bind_of_ok hadd, if_neg (by simp)]
      rfl
    · rw [if_neg (by simp [hseen])]
      exact ⟨_, ⟨congrArg some hd.symm, rfl, rfl⟩, hlist⟩

/-- **Reading one variant.** -/
theorem readVariant_puts (hf : f.Printable s.table s.usings subject.scope)
    (hown : subject.rule.bind (·.targetText) = none)
    (htrails : Trails deleted s.table s.usings (u :: us) rest)
    (h : (s.atIndex subject.start).Sees (f.tokens ++ u :: us)) (hbound : o.isUnbound = false)
    (hknown : ∀ x ∈ o.toList, x.signature ∈ printed.signatures) (i : Nat) :
    ∃ o' j, readVariant subject printed v ((printing s o).atIndex i) =
        .ok (if ends (f.signature s.table s.usings subject.scope) printed.signatures v then none
          else some (printed.note (f.signature s.table s.usings subject.scope v)))
          ((printing s o').atIndex j) ∧
      Puts deleted s.table s.usings subject.scope f printed v o o' := by
  obtain ⟨_, j, hread, hsees, rfl⟩ := Head.readDeclarator_passes
    (s := (printing s o).atIndex subject.start) v.choice v.keep hf.toFits (sees_printing h o)
  change readDeclarator subject.scope v.choice v.keep ((printing s o).atIndex subject.start) =
    .ok (some (f.declared s.table s.usings subject.scope v.choice v.keep))
      ((printing s o).atIndex j) at hread
  obtain ⟨trailer, k, htrailer, hsees, habstract, hdeleted⟩ :=
    htrails ((printing s o).atIndex j) rfl rfl hsees
  obtain ⟨comment, l, hcomment, -, -⟩ := takeAfter_passes hsees
  change Comment.takeAfter ((printing s o).atIndex k) =
    .ok comment ((printing s o).atIndex l) at hcomment
  have hmove : moveTo subject.start ((printing s o).atIndex i) =
      .ok () ((printing s o).atIndex subject.start) := rfl
  have hparameters : (f.declared s.table s.usings subject.scope v.choice v.keep).parameters =
      some (f.taken s.table s.usings subject.scope v.choice v.keep) := by
    obtain ⟨native, n, hdeclared⟩ :=
      Head.declared_cases s.table s.usings subject.scope v.choice v.keep f
    rw [hdeclared]
  -- with its text, whatever that is, the variant is printed
  have hfinish : ∀ text, ∃ o' j, finishVariant subject printed v
      (f.declared s.table s.usings subject.scope v.choice v.keep) trailer text
      ((printing s o).atIndex k) =
        .ok (if ends (f.signature s.table s.usings subject.scope) printed.signatures v then none
          else some (printed.note (f.signature s.table s.usings subject.scope v)))
          ((printing s o').atIndex j) ∧
      Puts deleted s.table s.usings subject.scope f printed v o o' := by
    intro text
    unfold finishVariant
    rw [hown, if_neg (by simp), bind_of_ok hcomment]
    cases printed.isFirst
    · obtain ⟨o', hprint, hputs⟩ := printVariant_puts (s := s.atIndex l) hf hbound hknown habstract
        hdeleted (subject.scope.namespaceText ++ text)
      rw [if_neg (by simp)]
      exact ⟨o', l, hprint, hputs⟩
    · have hspacing : modifyOutline (fun o => { o with spacing := some subject.spacing })
          ((printing s o).atIndex l) =
            .ok () (printing (s.atIndex l) { o with spacing := some subject.spacing }) := rfl
      obtain ⟨o', hprint, hputs⟩ := printVariant_puts (s := s.atIndex l)
        (o := { o with spacing := some subject.spacing }) hf hbound hknown habstract
        hdeleted (comment ++ (subject.scope.namespaceText ++ text))
      rw [if_pos rfl, bind_of_ok hspacing]
      exact ⟨o', l, hprint, hputs⟩
  rw [readVariant_eq, bind_of_ok hmove, bind_of_ok hread]
  dsimp only
  rw [hparameters]
  dsimp only
  rw [bind_of_ok htrailer]
  split
  · exact hfinish _
  · obtain ⟨text, htext⟩ := exists_readMethodText hf.free _ _ trailer subject.rule _ _
    rw [bind_of_ok htext]
    exact hfinish text

/-- The variants that are printed, where these signatures have been met. -/
def picked (signature : Variant → String) : List String → List Variant → List Variant
  | _, [] => []
  | signatures, v :: vs =>
    if ends signature signatures v then []
    else if signature v ∈ signatures then picked signature (signature v :: signatures) vs
    else v :: picked signature (signature v :: signatures) vs

/-- Reading all variants, by induction on the list. -/
theorem readVariants_shows (hf : f.Printable s.table s.usings subject.scope)
    (hown : subject.rule.bind (·.targetText) = none)
    (htrails : Trails deleted s.table s.usings (u :: us) rest)
    (h : (s.atIndex subject.start).Sees (f.tokens ++ u :: us)) (hbound : o.isUnbound = false)
    (hknown : ∀ x ∈ o.toList, x.signature ∈ printed.signatures) (vs : List Variant) (i : Nat) :
    ∃ o' j ds, readVariants subject printed vs ((printing s o).atIndex i) =
        .ok () ((printing s o').atIndex j) ∧
      o'.toList = o.toList ++ ds ∧
      List.Forall₂ (f.Shows s.table s.usings subject.scope)
        (if deleted then []
          else picked (f.signature s.table s.usings subject.scope) printed.signatures vs) ds := by
  induction vs generalizing printed o i with
  | nil =>
      refine ⟨o, i, [], rfl, by simp, ?_⟩
      rw [picked, ite_self]
      exact .nil
  | cons v vs ih =>
      obtain ⟨o₁, j, hread, hstatement, hputs⟩ :=
        readVariant_puts (v := v) hf hown htrails h hbound hknown i
      rw [readVariants, bind_of_ok hread, picked]
      by_cases hends : ends (f.signature s.table s.usings subject.scope) printed.signatures v
      · rw [if_pos (Or.inl hends.1)] at hputs
        rw [if_pos hends, if_pos hends, ite_self]
        exact ⟨o₁, j, [], rfl, by simp [hputs], .nil⟩
      · rw [if_neg hends, if_neg hends]
        have hbound₁ : o₁.isUnbound = false := by
          rw [← hbound, Outline.isUnbound, hstatement]
          rfl
        by_cases hkept : f.signature s.table s.usings subject.scope v ∈ printed.signatures ∨
            deleted = true
        · rw [if_pos hkept] at hputs
          have hknown₁ : ∀ x ∈ o₁.toList, x.signature ∈
              (printed.note (f.signature s.table s.usings subject.scope v)).signatures :=
            fun x hx => List.mem_cons_of_mem _ (hknown x (hputs ▸ hx))
          obtain ⟨o', k, ds, hrun, hlist, hshows⟩ := ih hbound₁ hknown₁ j
          refine ⟨o', k, ds, hrun, by rw [hlist, hputs], ?_⟩
          rcases hkept with hseen | rfl
          · rwa [if_pos hseen]
          · exact hshows
        · rw [if_neg hkept] at hputs
          obtain ⟨hseen, hdeleted⟩ := not_or.mp hkept
          obtain ⟨d, hd, hadded⟩ := hputs
          have hknown₁ : ∀ x ∈ o₁.toList, x.signature ∈
              (printed.note (f.signature s.table s.usings subject.scope v)).signatures := by
            intro x hx
            rw [hadded, List.mem_append, List.mem_singleton] at hx
            rcases hx with hx | rfl
            · exact List.mem_cons_of_mem _ (hknown x hx)
            · rw [hd.signature]
              exact List.mem_cons_self
          obtain ⟨o', k, ds, hrun, hlist, hshows⟩ := ih hbound₁ hknown₁ j
          refine ⟨o', k, d :: ds, hrun, by simp [hlist, hadded], ?_⟩
          rw [if_neg hdeleted] at hshows ⊢
          rw [if_neg hseen]
          exact .cons hd hshows

end Variants

/-! ## All of it -/

/-- The variants of a function that are printed, unless it is deleted. -/
def Head.picked (table : RuleTable) (usings : List String) (scope : Scope) (f : Head) :
    List Variant :=
  Function.picked (f.signature table usings scope) []
    (variants (Parameters.valued f.parameters))

theorem hasPart_colons_eq {name : String} (hname : ':' ∉ name.toList) :
    Text.hasPart "::" name = false := by
  rw [Bool.eq_false_iff]
  intro hpart
  exact hname ((Text.hasPart_iff.mp hpart).subset (by decide))

/-- A name without a path is plain, whatever path is put in front of it. -/
theorem hasPart_plain {scope : Scope} {name : String} (hname : ':' ∉ name.toList) :
    Text.hasPart "::" (match scope.path with
      | some path => (Text.dropHead? (path ++ "::") (scope.qualifyLocal name)).getD
          (scope.qualifyLocal name)
      | none => scope.qualifyLocal name) = false := by
  have hpart := hasPart_colons_eq hname
  unfold Scope.qualifyLocal
  cases scope.path with
  | none => exact hpart
  | some path =>
      have hdrop : Text.dropHead? (path ++ "::") (path ++ "::" ++ name) = some name := by
        simp [Text.dropHead?, Text.startsWith, List.drop_append]
      simp [hpart, hdrop]

section Whole

variable {f : Head} {scope : Scope} {deleted : Bool}

theorem declared_nativeName (hf : f.Printable s.table s.usings scope) :
    (f.declared s.table s.usings scope 0 none).nativeName = scope.qualifyLocal f.name.text := by
  have hname : f.name.text ≠ "" := by
    have hempty := (f.spelling.isName _ f.named).isEmpty_eq
    simpa using hempty
  have hnative : (f.result s.table s.usings scope 0).nativeName ≠ "" := by
    intro hempty
    have heq := hf.nativeName_eq
    rw [hempty] at heq
    have hcolon : ':' ∉ f.name.text.toList := fun hmem =>
      absurd (Text.isWordChar_of_isWord (f.spelling.isName _ f.named).word ':' hmem) (by decide)
    unfold Scope.qualifyLocal at heq
    split at heq
    · rw [hasPart_colons_eq hcolon, hasPart_colons_eq (by simp), if_neg (by simp), if_neg (by simp),
        String.append_right_inj] at heq
      exact hname heq.symm
    · exact hname heq.symm
  unfold Head.declared
  dsimp only
  rw [if_neg (by simpa using hnative)]
  exact hf.nativeName_eq

/-- All variants of a function that was found are read. -/
theorem readFound_shows (hf : f.Printable s.table s.usings scope)
    (htrails : Trails deleted s.table s.usings (u :: us) rest) (start : Nat)
    (h : (s.atIndex start).Sees (f.tokens ++ u :: us)) (hbound : s.outline.isUnbound = false)
    (hempty : s.outline.toList = []) (spacing : String) (isStatic : Bool) :
    ∃ s', readFound scope spacing start false isStatic (f.declared s.table s.usings scope 0 none)
        (f.taken s.table s.usings scope 0 none) s = .ok true s' ∧
      List.Forall₂ (f.Shows s.table s.usings scope)
        (if deleted then [] else f.picked s.table s.usings scope) s'.outline.toList := by
  have hcolon : ':' ∉ f.name.text.toList := fun hmem =>
    absurd (Text.isWordChar_of_isWord (f.spelling.isName _ f.named).word ':' hmem) (by decide)
  have hdefaults : (f.taken s.table s.usings scope 0 none).defaults =
      Parameters.valued f.parameters :=
    Parameters.takeAll_notes.1.trans (Nat.zero_add _)
  let rule := Function.rule? s.table (scope.qualifyLocal f.name.text)
    (f.taken s.table s.usings scope 0 none)
  let subject : Subject := { scope, spacing, start, rule, modifiers := modifiers scope isStatic }
  have hskip : rule.any (·.skip) = false := by
    cases hrule : rule with
    | none => rfl
    | some r => exact (hf.own r hrule).1
  have hown : subject.rule.bind (·.targetText) = none := by
    rw [Option.bind_eq_none_iff]
    exact fun r hr => (hf.own r hr).2
  obtain ⟨o', j, ds, hrun, hlist, hshows⟩ : ∃ o' j ds,
      readVariants subject {} (variants (Parameters.valued f.parameters)) s =
          .ok () ((printing s o').atIndex j) ∧
        o'.toList = s.outline.toList ++ ds ∧
        List.Forall₂ (f.Shows s.table s.usings scope)
          (if deleted then [] else f.picked s.table s.usings scope) ds :=
    readVariants_shows hf hown htrails h hbound (by simp [hempty]) _ s.window.index
  have htable : table s = .ok s.table s := rfl
  refine ⟨(printing s { o' with spacing := none }).atIndex j, ?_, ?_⟩
  · unfold readFound
    rw [bind_of_ok htable, declared_nativeName hf, hdefaults]
    have hread : ¬ (false || (scope.group.isNone && Text.hasPart "::" (match scope.path with
        | some path => (Text.dropHead? (path ++ "::") (scope.qualifyLocal f.name.text)).getD
            (scope.qualifyLocal f.name.text)
        | none => scope.qualifyLocal f.name.text)) || rule.any (·.skip)) = true := by
      rw [hasPart_plain hcolon, hskip]
      simp
    refine Eq.trans (congrFun (if_neg hread) s) ?_
    exact bind_of_ok hrun _
  · rw [hempty, List.nil_append] at hlist
    rw [← hlist] at hshows
    exact hshows

/-- **What is printed for a function.** Into an outline without declarations go the
variants that are picked. -/
theorem read_shows (hf : f.Printable s.table s.usings scope)
    (htrails : Trails deleted s.table s.usings (u :: us) rest) (h : s.Sees (f.tokens ++ u :: us))
    (hbound : s.outline.isUnbound = false) (hempty : s.outline.toList = []) :
    ∃ s', Function.read scope s = .ok true s' ∧
      List.Forall₂ (f.Shows s.table s.usings scope)
        (if deleted then [] else f.picked s.table s.usings scope) s'.outline.toList := by
  have htokens : f.tokens ++ u :: us = f.spelling.words ++ (f.spelling.tail ++
      f.opening :: (f.list ++ f.close :: u :: us)) := by simp [Head.tokens, Spelling.tokens]
  obtain ⟨word, words, hwords⟩ := List.exists_cons_of_ne_nil f.spelling.words_ne
  obtain ⟨-, -, hword⟩ := f.spelling.words_plain word (by rw [hwords]; rfl)
  have hfriend : word.isKeyword .friend_ = false := Token.isKeyword_eq_false hword (by decide)
  -- behind the type stands a mark or the name, and no list of parameters
  obtain ⟨first, more, hfirst, hparen⟩ : ∃ first more, f.spelling.tail ++
      f.opening :: (f.list ++ f.close :: u :: us) = first :: more ∧ first.is "(" = false := by
    unfold Spelling.tail
    rw [f.named]
    cases hmarks : f.spelling.marks with
    | nil => exact ⟨_, _, rfl, (f.spelling.isName _ f.named).is_eq "(" (by decide)⟩
    | cons mark marks =>
        exact ⟨mark, _, rfl, (f.spelling.marks_marks mark (by simp [hmarks])).2⟩
  have hends : f.opening.EndsName := ⟨"(", by decide, f.opens⟩
  have hpeek : peek s = .ok word s := peek_of_sees (by rw [htokens, hwords] at h; exact h)
  obtain ⟨_, i, htype, hsees, rfl⟩ := hf.reads s f.opening _ rfl rfl hends (htokens ▸ h)
  rw [hfirst] at hsees
  have hpeek' : peek (s.atIndex i) = .ok first (s.atIndex i) := peek_of_sees hsees
  have hnone : Parameters.read scope 0 none (s.atIndex i) = .ok none (s.atIndex i) := by
    unfold Parameters.read Parameters.readWith
    rw [bind_of_ok hpeek', if_pos (by simp [hparen])]
    rfl
  have hcursor : cursor s = .ok s.window.index s := rfl
  have hback : moveTo s.window.index (s.atIndex i) = .ok () s := rfl
  obtain ⟨_, j, hread, -, rfl⟩ := Head.readDeclarator_passes 0 none hf.toFits h
  obtain ⟨s', hfound, hshows⟩ := readFound_shows (s := s.atIndex j) hf htrails
    s.window.index h hbound hempty word.spacing
    f.spelling.type.staticMember
  obtain ⟨native, n, hdeclared⟩ := Head.declared_cases s.table s.usings scope 0 none f
  have hparameters : (f.declared s.table s.usings scope 0 none).parameters =
      some (f.taken s.table s.usings scope 0 none) := by rw [hdeclared]
  have hnamed : ((f.declared s.table s.usings scope 0 none).nativeName.isEmpty ||
      (f.declared s.table s.usings scope 0 none).type.targetName.isEmpty) = false := by
    have hname : f.name.text ≠ "" := by
      have hempty := (f.spelling.isName _ f.named).isEmpty_eq
      simpa using hempty
    have hnative : scope.qualifyLocal f.name.text ≠ "" := by
      unfold Scope.qualifyLocal
      split
      · split
        · exact hname
        · exact fun hempty => hname (String.append_eq_empty_iff.mp hempty).2
      · exact hname
    have htarget : (f.declared s.table s.usings scope 0 none).type.targetName =
        (f.result s.table s.usings scope 0).type.targetName := by rw [hdeclared]
    rw [declared_nativeName hf, htarget]
    simp [hnative, hf.type_ne.2]
  refine ⟨s', ?_, hshows⟩
  unfold Function.read
  rw [bind_of_ok hpeek, bind_of_ok hpeek, hfriend, if_neg (by simp)]
  dsimp only
  rw [bind_of_ok hcursor, bind_of_ok htype]
  dsimp only
  rw [bind_of_ok hpeek', bind_of_ok hnone, if_neg (by simp [hf.type_ne.1]),
    if_neg (by simp [hparen]), bind_of_ok hback, bind_of_ok hread]
  dsimp only
  rw [hparameters]
  dsimp only
  rw [hnamed, if_neg (by simp)]
  exact hfound

end Whole

end Function

end HeaderPeers

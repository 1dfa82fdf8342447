import Cicode.Program.Validate
import Cicode.Proofs.Program.Listing

/-!
# The rules of validation

`Breach` says, rule by rule, what is wrong with a program: how bad it is, where it is reported and what
is said.  Each breach has an address, and the addresses have the order of the reports: functions that are
defined again come first, then the breaches of one function after another, rule by rule.  A RETURN
statement may stand in a branch of a branch; its address leads there (`BlockHolds`), so that the
statements of a branch come after the statement they belong to.

Main statement (`validate_eq_iff_tells_breaches`): validation reports the breaches of a program, each
once, in the order of their addresses, and nothing else.
-/

namespace Cicode.Program

open Text

/-! ## Names -/

/-- The names are the same in capitals. -/
def SameName (a b : String) : Prop := a.toList.map Char.toUpper = b.toList.map Char.toUpper

instance (a b : String) : Decidable (SameName a b) :=
  inferInstanceAs (Decidable (a.toList.map Char.toUpper = b.toList.map Char.toUpper))

theorem folded_eq (name : String) : folded name = (name.toList.map Char.toUpper).map Char.toLower := by
  rw [folded, List.map_map]
  exact List.map_congr_left fun c _ => (Char.toLower_toUpper_eq_toLower c).symm

theorem toUpper_folded (name : String) :
    (folded name).map Char.toUpper = name.toList.map Char.toUpper := by
  rw [folded, List.map_map]
  exact List.map_congr_left fun c _ => Char.toUpper_toLower_eq_toUpper c

/-- Names are compared in small letters, which is the same as in capitals. -/
theorem sameName_iff {a b : String} : sameName a b = true ↔ SameName a b := by
  rw [sameName, beq_iff_eq, SameName]
  constructor
  · intro h
    rw [← toUpper_folded, h, toUpper_folded]
  · intro h
    rw [folded_eq, h, ← folded_eq]

/-! ## Statements at any depth -/

mutual

/-- At an address in a statement there is a statement: itself, or one in a branch. -/
inductive Statement.Holds : Statement → Address → Statement → Prop
  | self {s : Statement} : Statement.Holds s [] s
  | thenPart {s : Statement} {path : Address} {span : Span} {test : Condition}
      {thenPart : List Statement} {elsePart : Option (List Statement)} :
    BlockHolds thenPart path s → Statement.Holds (.branch span test thenPart elsePart) (0 :: path) s
  | elsePart {s : Statement} {path : Address} {span : Span} {test : Condition}
      {thenPart elsePart : List Statement} :
    BlockHolds elsePart path s →
    Statement.Holds (.branch span test thenPart (some elsePart)) (1 :: path) s

/-- At an address in a block there is a statement. -/
inductive BlockHolds : List Statement → Address → Statement → Prop
  | mk {s t : Statement} {path : Address} {pre post : List Statement} :
    Statement.Holds t path s → BlockHolds (pre ++ t :: post) (pre.length :: path) s

end

theorem blockHolds_iff {block : List Statement} {p : Address} {s : Statement} :
    BlockHolds block p s ↔ AtMember (fun _ => Statement.Holds) block p s := by
  constructor
  · rintro ⟨h⟩
    exact ⟨_, _, _, _, rfl, rfl, h⟩
  · rintro ⟨pre, t, post, q, rfl, rfl, h⟩
    exact .mk h

/-- A statement without branches holds itself only. -/
theorem Statement.holds_iff {s t : Statement} {p : Address}
    (hs : ∀ span test thenPart elsePart, s ≠ .branch span test thenPart elsePart) :
    s.Holds p t ↔ p = [] ∧ t = s := by
  constructor
  · rintro (_ | _ | _)
    · exact ⟨rfl, rfl⟩
    · exact absurd rfl (hs _ _ _ _)
    · exact absurd rfl (hs _ _ _ _)
  · rintro ⟨rfl, rfl⟩
    exact .self

mutual

/-- A walk through a statement. -/
theorem Statement.tells_walk : ∀ s : Statement, Tells s.Holds s.walk
  | .branch span test thenPart elsePart => by
    have hbranches := ((Statement.tells_walkAll thenPart).under 0).append
      (Statement.tells_walkElse elsePart) (by
        rintro _ _ _ _ ⟨p, rfl, -⟩ ⟨q, block, rfl, -⟩
        exact Address.cons_lt_cons Nat.zero_lt_one ..)
    have hall := (Tells.one (.branch span test thenPart elsePart)).append hbranches (by
      rintro _ _ _ _ ⟨rfl, -⟩ (⟨q, rfl, -⟩ | ⟨q, block, rfl, -⟩) <;> exact List.nil_lt_cons ..)
    refine hall.congr fun p s => ?_
    constructor
    · rintro (⟨rfl, rfl⟩ | ⟨q, rfl, h⟩ | ⟨q, block, rfl, rfl, h⟩)
      · exact .self
      · exact .thenPart h
      · exact .elsePart h
    · rintro (_ | h | h)
      · exact .inl ⟨rfl, rfl⟩
      · exact .inr (.inl ⟨_, rfl, h⟩)
      · exact .inr (.inr ⟨_, _, rfl, rfl, h⟩)
  | .assign .. => (Tells.one _).congr fun _ _ => (holds_iff (by intro _ _ _ _ h; cases h)).symm
  | .call .. => (Tells.one _).congr fun _ _ => (holds_iff (by intro _ _ _ _ h; cases h)).symm
  | .return .. => (Tells.one _).congr fun _ _ => (holds_iff (by intro _ _ _ _ h; cases h)).symm

/-- A walk through a block. -/
theorem Statement.tells_walkAll : ∀ block : List Statement, Tells (BlockHolds block) (walkAll block)
  | [] => .nil fun _ _ h => atMember_nil (blockHolds_iff.mp h)
  | s :: rest =>
    have hrest : Tells (AtMember (fun _ => Statement.Holds) rest) (walkAll rest) :=
      (Statement.tells_walkAll rest).congr fun _ _ => blockHolds_iff
    (Tells.member_cons s.tells_walk hrest).congr fun _ _ => blockHolds_iff.symm

/-- A walk through the branch after ELSE. -/
theorem Statement.tells_walkElse : ∀ elsePart : Option (List Statement),
    Tells (fun p s => ∃ q block, p = 1 :: q ∧ elsePart = some block ∧ BlockHolds block q s)
      (walkElse elsePart)
  | none => .nil fun _ _ ⟨_, _, _, h, _⟩ => nomatch h
  | some block =>
    ((Statement.tells_walkAll block).under 1).congr fun _ _ => by simp

end

/-! ## Breaches -/

/-- A report of validation. -/
def Fault.reported (fault : Fault) (severity : Severity) (span : Span) : Diagnostic :=
  { message := fault.message, span, severity, phase := .validation }

/-- The names that a function declares, each with what it names and where: its parameters, then the
variables of all its declarations in order. -/
def Function.declarations (f : Function) : List (String × String × Span) :=
  f.parameters.map (fun p => ("parameter", p.name, p.span)) ++
    (f.locals.flatMap (·.declared)).map fun v => ("variable", v.name, v.span)

/-- What is wrong with a function by itself. -/
inductive FunctionBreach (f : Function) : Address → Diagnostic → Prop
  /-- An earlier parameter or variable has the name of this one. -/
  | redeclared {pre post : List (String × String × Span)} {what name : String} {span : Span} :
    f.declarations = pre ++ (what, name, span) :: post → (∃ earlier ∈ pre, SameName earlier.2.1 name) →
    FunctionBreach f [0, pre.length] ((Fault.redeclared what name).reported .error span)
  /-- No parameter has the name that is documented. -/
  | unknownParameter {doc : Doc} {pre post : List DocParam} {param : DocParam} :
    f.doc = some doc → doc.params = pre ++ param :: post →
    (∀ parameter ∈ f.parameters, ¬SameName parameter.name param.name) →
    FunctionBreach f [1, pre.length] ((Fault.unknownParameter param.name f.name).reported .info param.span)
  /-- An earlier parameter has a default and this one has none. -/
  | defaultNeeded {pre post : List Parameter} {parameter : Parameter} :
    f.parameters = pre ++ parameter :: post → parameter.default = none →
    (∃ earlier ∈ pre, earlier.default ≠ none) →
    FunctionBreach f [2, pre.length] ((Fault.defaultNeeded parameter.name).reported .error parameter.span)
  /-- A function without a result returns a value. -/
  | valueInVoid {path : Address} {span : Span} {value : Expr} :
    f.returnType = .void → BlockHolds f.body path (.return span (some value)) →
    FunctionBreach f (3 :: path) ((Fault.valueInVoid f.name).reported .error value.span)
  /-- A function with a result returns none. -/
  | valueMissing {path : Address} {span : Span} {type : DataType} :
    f.returnType = .value type → BlockHolds f.body path (.return span none) →
    FunctionBreach f (3 :: path) ((Fault.valueMissing f.name type).reported .error span)
  /-- A function with a result has no RETURN statement with a value. -/
  | neverReturns {type : DataType} :
    f.returnType = .value type → (∀ path span value, ¬BlockHolds f.body path (.return span (some value))) →
    FunctionBreach f [4] ((Fault.neverReturns f.name type).reported .warning f.nameSpan)

/-- What is wrong with a program. -/
inductive Breach (program : List Function) : Address → Diagnostic → Prop
  /-- An earlier function has the name of this one. -/
  | redefined {pre post : List Function} {f : Function} :
    program = pre ++ f :: post → (∃ earlier ∈ pre, SameName earlier.name f.name) →
    Breach program [0, pre.length] ((Fault.functionRedefined f.name).reported .error f.nameSpan)
  /-- Something is wrong with a function by itself. -/
  | inside {pre post : List Function} {f : Function} {p : Address} {report : Diagnostic} :
    program = pre ++ f :: post → FunctionBreach f p report →
    Breach program (1 :: pre.length :: p) report

/-! ## Names that are declared again -/

section Repeated

variable {α : Type} {name : α → String}

/-- Looking for names again goes over the entries, with the names of those before at hand. -/
theorem repeated_eq_passing (entries before : List α) (seen : List String)
    (hseen : ∀ n, seen.any (sameName n) = before.any fun a => sameName n (name a)) :
    repeated name seen entries = passing (fun before a =>
      if before.any fun earlier => sameName (name a) (name earlier) then [a] else []) before entries := by
  induction entries generalizing before seen with
  | nil => rfl
  | cons a rest ih =>
    rw [repeated, passing, ← hseen]
    by_cases h : seen.any (sameName (name a)) = true
    · rw [if_pos h, if_pos h, List.singleton_append]
      refine congrArg (a :: ·) (ih _ _ fun n => ?_)
      -- The name is not noted again: whatever is the same as it is the same as one noted before.
      rw [List.any_append, ← hseen, List.any_cons, List.any_nil, Bool.or_false]
      by_cases hn : sameName n (name a) = true
      · obtain ⟨s, hs, hsame⟩ := List.any_eq_true.mp h
        have hany : seen.any (sameName n) = true := by
          refine List.any_eq_true.mpr ⟨s, hs, ?_⟩
          rw [sameName_iff] at hn hsame ⊢
          exact hn.trans hsame
        rw [hany, Bool.true_or]
      · rw [Bool.eq_false_iff.mpr hn, Bool.or_false]
    · rw [if_neg h, if_neg h, List.nil_append]
      refine ih _ _ fun n => ?_
      rw [List.any_cons, hseen, List.any_append, List.any_cons, List.any_nil, Bool.or_false, Bool.or_comm]

/-- The entries that are found are those with the name of an earlier one. -/
theorem tells_repeated (name : α → String) (entries : List α) :
    Tells (fun p a => ∃ pre post, entries = pre ++ a :: post ∧ p = [pre.length] ∧
      ∃ earlier ∈ pre, SameName (name earlier) (name a)) (repeated name [] entries) := by
  rw [repeated_eq_passing entries [] [] fun _ => rfl]
  refine (Tells.passed (fun _ a => Tells.guarded a) [] entries).congr fun p a => ?_
  simp only [AtMember, List.nil_append, List.any_eq_true, sameName_iff]
  constructor
  · rintro ⟨pre, b, post, q, rfl, rfl, rfl, rfl, earlier, hmem, hsame⟩
    exact ⟨pre, post, rfl, rfl, earlier, hmem, hsame.symm⟩
  · rintro ⟨pre, post, rfl, rfl, earlier, hmem, hsame⟩
    exact ⟨pre, a, post, [], rfl, rfl, rfl, rfl, earlier, hmem, hsame.symm⟩

end Repeated

/-! ## What is wrong with a function -/

theorem Fault.reportAt_eq (fault : Fault) (span : Span) :
    fault.reportAt span = fault.reported fault.severity span := rfl

namespace Function

variable (f : Function)

theorem declared_eq : f.declared = f.declarations := by
  rw [declared, declarations, List.map_flatMap]

theorem tells_checkDeclarations : Tells (fun p d => ∃ pre post what name span,
    f.declarations = pre ++ (what, name, span) :: post ∧ p = [pre.length] ∧
      (∃ earlier ∈ pre, SameName earlier.2.1 name) ∧
      d = (Fault.redeclared what name).reported .error span) f.checkDeclarations := by
  rw [checkDeclarations, declared_eq]
  refine ((tells_repeated (·.2.1) f.declarations).map _).congr fun p d => ?_
  constructor
  · rintro ⟨⟨what, name, span⟩, ⟨pre, post, hlist, rfl, hsame⟩, rfl⟩
    exact ⟨pre, post, what, name, span, hlist, rfl, hsame, rfl⟩
  · rintro ⟨pre, post, what, name, span, hlist, rfl, hsame, rfl⟩
    exact ⟨(what, name, span), ⟨pre, post, hlist, rfl, hsame⟩, rfl⟩

theorem tells_checkDoc : Tells (fun p d => ∃ doc pre post param, f.doc = some doc ∧
    doc.params = pre ++ param :: post ∧ p = [pre.length] ∧
      (∀ parameter ∈ f.parameters, ¬SameName parameter.name param.name) ∧
      d = (Fault.unknownParameter param.name f.name).reported .info param.span) f.checkDoc := by
  rw [checkDoc]
  cases hdoc : f.doc with
  | none => exact .nil fun _ _ ⟨_, _, _, _, h, _⟩ => nomatch h
  | some doc =>
    simp only [← passing_eq_filter _ []]
    refine ((Tells.passed (fun _ param => Tells.guarded param) [] doc.params).map _).congr fun p d => ?_
    simp only [AtMember, Bool.not_eq_true', List.any_eq_false, sameName_iff]
    constructor
    · rintro ⟨param, ⟨pre, param', post, q, hparams, rfl, rfl, rfl, hno⟩, rfl⟩
      exact ⟨doc, pre, post, param, rfl, hparams, rfl, hno, rfl⟩
    · rintro ⟨doc', pre, post, param, heq, hparams, rfl, hno, rfl⟩
      obtain rfl := Option.some.inj heq
      exact ⟨param, ⟨pre, param, post, [], hparams, rfl, rfl, rfl, hno⟩, rfl⟩

/-- The parameters are gone over with a note whether one before has a default. -/
theorem checkDefaults_eq_passing (parameters before : List Parameter) (seen : Bool)
    (hseen : seen = before.any (·.default.isSome)) :
    checkDefaults seen parameters = passing (fun before parameter =>
      if parameter.default.isNone && before.any (·.default.isSome) then
        [(Fault.defaultNeeded parameter.name).reportAt parameter.span] else []) before parameters := by
  induction parameters generalizing before seen with
  | nil => rfl
  | cons parameter rest ih =>
    have hnext := ih (before ++ [parameter]) (seen || parameter.default.isSome) (by simp [hseen])
    rw [checkDefaults, passing, ← hnext, ← hseen]
    cases parameter.default <;> cases seen <;> rfl

theorem tells_checkDefaults : Tells (fun p d => ∃ pre post parameter,
    f.parameters = pre ++ parameter :: post ∧ p = [pre.length] ∧ parameter.default = none ∧
      (∃ earlier ∈ pre, earlier.default ≠ none) ∧
      d = (Fault.defaultNeeded parameter.name).reported .error parameter.span)
    (checkDefaults false f.parameters) := by
  rw [checkDefaults_eq_passing f.parameters [] false rfl]
  refine (Tells.passed (fun _ _ => Tells.guarded _) [] f.parameters).congr fun p d => ?_
  simp only [AtMember, List.nil_append, Bool.and_eq_true, Option.isNone_iff_eq_none, List.any_eq_true,
    Option.isSome_iff_ne_none]
  constructor
  · rintro ⟨pre, parameter, post, q, hlist, rfl, rfl, rfl, hnone, hearlier⟩
    exact ⟨pre, post, parameter, hlist, rfl, hnone, hearlier, rfl⟩
  · rintro ⟨pre, post, parameter, hlist, rfl, hnone, hearlier, rfl⟩
    exact ⟨pre, parameter, post, [], hlist, rfl, rfl, rfl, hnone, hearlier⟩

/-- The fault of a RETURN statement. -/
theorem checkReturn_eq_some {s : Statement} {d : Diagnostic} : f.checkReturn s = some d ↔
    (f.returnType = .void ∧ ∃ span value, s = .return span (some value) ∧
      d = (Fault.valueInVoid f.name).reported .error value.span) ∨
    ∃ type, f.returnType = .value type ∧ ∃ span, s = .return span none ∧
      d = (Fault.valueMissing f.name type).reported .error span := by
  cases s with
  | assign | call | branch => simp [checkReturn]
  | «return» span value =>
    cases htype : f.returnType <;> cases value <;>
      simp [checkReturn, htype, Fault.reportAt_eq, Fault.severity, eq_comm]

/-- No statement returns a value, at any depth. -/
theorem any_returnsValue_eq_false (block : List Statement) :
    (Statement.walkAll block).any returnsValue = false ↔
      ∀ path span value, ¬BlockHolds block path (.return span (some value)) := by
  rw [List.any_eq_false]
  constructor
  · intro h path span value hholds
    exact h _ ((Statement.tells_walkAll block).mem_iff.mpr ⟨path, hholds⟩) rfl
  · intro h s hs hreturns
    obtain ⟨path, hholds⟩ := (Statement.tells_walkAll block).mem_iff.mp hs
    cases s with
    | assign | call | branch => cases hreturns
    | «return» span value =>
      cases value with
      | none => cases hreturns
      | some value => exact h path span value hholds

/-- The last report on a function: it never returns what it should. -/
def neverReturning : List Diagnostic :=
  match f.returnType with
  | .void => []
  | .value type =>
    if (Statement.walkAll f.body).any returnsValue = false then
      [(Fault.neverReturns f.name type).reportAt f.nameSpan] else []

theorem checkReturns_eq : f.checkReturns =
    (Statement.walkAll f.body).filterMap f.checkReturn ++ f.neverReturning := by
  rw [checkReturns, neverReturning]
  cases f.returnType with
  | void => simp
  | value type => cases (Statement.walkAll f.body).any returnsValue <;> simp

theorem tells_neverReturning : Tells (fun p d => p = [] ∧ ∃ type, f.returnType = .value type ∧
    (∀ path span value, ¬BlockHolds f.body path (.return span (some value))) ∧
      d = (Fault.neverReturns f.name type).reported .warning f.nameSpan) f.neverReturning := by
  rw [neverReturning]
  cases f.returnType with
  | void => exact .nil fun _ _ ⟨_, _, h, _⟩ => nomatch h
  | value type =>
    refine (Tells.guarded _).congr fun p d => ?_
    rw [any_returnsValue_eq_false]
    constructor
    · rintro ⟨rfl, rfl, hno⟩
      exact ⟨rfl, type, rfl, hno, rfl⟩
    · rintro ⟨rfl, type', htype, hno, rfl⟩
      cases htype
      exact ⟨rfl, rfl, hno⟩

/-- **Validation reports the breaches of a function**, rule by rule. -/
theorem tells_validate : Tells (FunctionBreach f) f.validate := by
  have hresults := (((Statement.tells_walkAll f.body).filterMap f.checkReturn).under 3).append
    (f.tells_neverReturning.under 4) (by
      rintro _ _ _ _ ⟨p, rfl, -⟩ ⟨q, rfl, -⟩
      exact Address.cons_lt_cons (by omega) ..)
  have hdefaults := (f.tells_checkDefaults.under 2).append hresults (by
    rintro _ _ _ _ ⟨p, rfl, -⟩ (⟨q, rfl, -⟩ | ⟨q, rfl, -⟩) <;>
      exact Address.cons_lt_cons (by omega) ..)
  have hdoc := (f.tells_checkDoc.under 1).append hdefaults (by
    rintro _ _ _ _ ⟨p, rfl, -⟩ (⟨q, rfl, -⟩ | ⟨q, rfl, -⟩ | ⟨q, rfl, -⟩) <;>
      exact Address.cons_lt_cons (by omega) ..)
  have hall := (f.tells_checkDeclarations.under 0).append hdoc (by
    rintro _ _ _ _ ⟨p, rfl, -⟩ (⟨q, rfl, -⟩ | ⟨q, rfl, -⟩ | ⟨q, rfl, -⟩ | ⟨q, rfl, -⟩) <;>
      exact Address.cons_lt_cons (by omega) ..)
  rw [validate, checkReturns_eq, List.append_assoc, List.append_assoc]
  refine hall.congr fun p d => ?_
  constructor
  · rintro (⟨-, rfl, pre, post, what, name, span, hlist, rfl, hsame, rfl⟩ |
      ⟨-, rfl, doc, pre, post, param, hdoc, hlist, rfl, hno, rfl⟩ |
      ⟨-, rfl, pre, post, parameter, hlist, rfl, hnone, hearlier, rfl⟩ |
      ⟨q, rfl, s, hholds, hfault⟩ | ⟨-, rfl, rfl, type, htype, hno, rfl⟩)
    · exact .redeclared hlist hsame
    · exact .unknownParameter hdoc hlist hno
    · exact .defaultNeeded hlist hnone hearlier
    · rcases f.checkReturn_eq_some.mp hfault with
        ⟨htype, span, value, rfl, rfl⟩ | ⟨type, htype, span, rfl, rfl⟩
      · exact .valueInVoid htype hholds
      · exact .valueMissing htype hholds
    · exact .neverReturns htype hno
  · intro h
    cases h with
    | redeclared hlist hsame => exact .inl ⟨_, rfl, _, _, _, _, _, hlist, rfl, hsame, rfl⟩
    | unknownParameter hdoc hlist hno =>
      exact .inr (.inl ⟨_, rfl, _, _, _, _, hdoc, hlist, rfl, hno, rfl⟩)
    | defaultNeeded hlist hnone hearlier =>
      exact .inr (.inr (.inl ⟨_, rfl, _, _, _, hlist, rfl, hnone, hearlier, rfl⟩))
    | valueInVoid htype hholds =>
      exact .inr (.inr (.inr (.inl ⟨_, rfl, _, hholds,
        f.checkReturn_eq_some.mpr (.inl ⟨htype, _, _, rfl, rfl⟩)⟩)))
    | valueMissing htype hholds =>
      exact .inr (.inr (.inr (.inl ⟨_, rfl, _, hholds,
        f.checkReturn_eq_some.mpr (.inr ⟨_, htype, _, rfl, rfl⟩)⟩)))
    | neverReturns htype hno => exact .inr (.inr (.inr (.inr ⟨_, rfl, rfl, _, htype, hno, rfl⟩)))

end Function

/-! ## What is wrong with a program -/

/-- **Validation reports the breaches of a program.** -/
theorem tells_validate (program : List Function) : Tells (Breach program) (validate program) := by
  have hrepeated := ((tells_repeated Function.name program).map fun f =>
    (Fault.functionRedefined f.name).reportAt f.nameSpan).under 0
  have hinside := (Tells.passed (fun _ f => f.tells_validate) [] program).under 1
  rw [passing_eq_flatMap] at hinside
  rw [validate]
  refine (hrepeated.append hinside ?_).congr fun p d => ?_
  · rintro _ _ _ _ ⟨p, rfl, -⟩ ⟨q, rfl, -⟩
    exact Address.cons_lt_cons (by omega) ..
  · constructor
    · rintro (⟨-, rfl, f, ⟨pre, post, hlist, rfl, hsame⟩, rfl⟩ | ⟨-, rfl, pre, f, post, q, hlist, rfl, h⟩)
      · exact .redefined hlist hsame
      · exact .inside hlist h
    · intro h
      cases h with
      | redefined hlist hsame => exact .inl ⟨_, rfl, _, ⟨_, _, hlist, rfl, hsame⟩, rfl⟩
      | inside hlist h => exact .inr ⟨_, rfl, _, _, _, _, hlist, rfl, h⟩

/-- **Validation reports exactly the breaches of the rules**: of all lists of diagnostics the one it gives
is the one that has the breaches of the program in the order of their addresses, one for each. -/
theorem validate_eq_iff_tells_breaches (program : List Function) (diagnostics : List Diagnostic) :
    validate program = diagnostics ↔ Tells (Breach program) diagnostics := by
  constructor
  · rintro rfl
    exact tells_validate program
  · intro h
    exact (tells_validate program).unique h

end Cicode.Program

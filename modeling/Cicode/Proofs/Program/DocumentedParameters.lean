import Cicode.Program.Symbols
import Cicode.Proofs.Program.Breaches

/-!
# Documented parameters

What is documented about a parameter is looked up twice: validation goes over the documented entries and
looks for a parameter of each name, and the outline goes over the parameters and looks for an entry of
each name.  Names may be written in any case, several entries may have one name, and several parameters
too.

Main statement (`documented_parameters_agree`): the two searches give complementary answers.  Validation
complains of the entries that describe no parameter of the outline, and a parameter of the outline has the
description of the first entry of its name, if there is one.
-/

namespace Cicode.Program

open Text

namespace Function

/-- The report that an entry of the documentation describes no parameter. -/
def unknownReport (f : Function) (entry : DocParam) : Diagnostic :=
  (Fault.unknownParameter entry.name f.name).reportAt entry.span

/-- Validation complains of an entry of the documentation. -/
def Rejects (f : Function) (entry : DocParam) : Prop := f.unknownReport entry ∈ f.validate

end Function

/-- A report that is merely informative. -/
def isInfo (report : Diagnostic) : Bool := report.severity == .info

/-- Validation of a function and its entry in an outline agree on what is documented about parameters. -/
structure AgreeOnParameters (f : Function) (doc : Doc) (symbol : FunctionSymbol) : Prop where
  /-- The informative reports are about the entries without a parameter, one for each, in order. -/
  reports : f.validate.filter isInfo =
    (doc.params.filter fun entry => !symbol.parameters.any (sameName ·.name entry.name)).map f.unknownReport
  /-- An entry is accepted if and only if a parameter has its name. -/
  accepted : ∀ entry ∈ doc.params,
    ¬f.Rejects entry ↔ ∃ parameter ∈ symbol.parameters, SameName parameter.name entry.name
  /-- A parameter is described if and only if an entry has its name. -/
  described : ∀ parameter ∈ symbol.parameters,
    parameter.description ≠ none ↔ ∃ entry ∈ doc.params, SameName entry.name parameter.name
  /-- It is described by the first such entry, which is accepted. -/
  first : ∀ parameter ∈ symbol.parameters, ∀ text, parameter.description = some text →
    ∃ before entry after, doc.params = before ++ entry :: after ∧
      (∀ earlier ∈ before, ¬SameName earlier.name parameter.name) ∧
      SameName entry.name parameter.name ∧ entry.description = text ∧ ¬f.Rejects entry
  /-- An accepted entry that is the first of its name describes every parameter of that name. -/
  supplies : ∀ before entry after, doc.params = before ++ entry :: after →
    (∀ earlier ∈ before, ¬SameName earlier.name entry.name) → ¬f.Rejects entry →
    ∀ parameter ∈ symbol.parameters, SameName parameter.name entry.name →
      parameter.description = some entry.description

/-! ## The informative reports -/

namespace Function

variable (f : Function)

theorem isInfo_reportAt (fault : Fault) (span : Span) :
    isInfo (fault.reportAt span) = (fault.severity == .info) := rfl

theorem filter_checkDeclarations : f.checkDeclarations.filter isInfo = [] := by
  rw [checkDeclarations, List.filter_map]
  simp [Function.comp_def, isInfo_reportAt, Fault.severity]

theorem filter_checkDefaults (seen : Bool) (parameters : List Parameter) :
    (checkDefaults seen parameters).filter isInfo = [] := by
  induction parameters generalizing seen with
  | nil => rfl
  | cons parameter rest ih =>
    rw [checkDefaults]
    split
    · exact ih true
    · split
      · rw [List.filter_cons_of_neg (by simp [isInfo_reportAt, Fault.severity])]
        exact ih seen
      · exact ih seen

theorem filter_checkReturns : f.checkReturns.filter isInfo = [] := by
  rw [List.filter_eq_nil_iff, checkReturns_eq]
  intro report hreport
  rcases List.mem_append.mp hreport with hwrong | hnever
  · obtain ⟨statement, -, hfault⟩ := List.mem_filterMap.mp hwrong
    rcases f.checkReturn_eq_some.mp hfault with ⟨-, -, -, -, rfl⟩ | ⟨-, -, -, -, rfl⟩ <;>
      simp [isInfo, Fault.reported]
  · obtain ⟨-, -, type, -, -, rfl⟩ := f.tells_neverReturning.mem_iff.mp hnever
    simp [isInfo, Fault.reported]

theorem filter_checkDoc {doc : Doc} (hdoc : f.doc = some doc) : f.checkDoc.filter isInfo =
    (doc.params.filter fun entry => !f.parameters.any (sameName ·.name entry.name)).map f.unknownReport := by
  rw [checkDoc, hdoc, List.filter_map]
  refine congrArg (List.map f.unknownReport) (List.filter_eq_self.mpr fun entry _ => ?_)
  exact beq_self_eq_true Severity.info

/-- Only documentation gives rise to informative reports. -/
theorem filter_validate {doc : Doc} (hdoc : f.doc = some doc) : f.validate.filter isInfo =
    (doc.params.filter fun entry => !f.parameters.any (sameName ·.name entry.name)).map f.unknownReport := by
  rw [validate, List.filter_append, List.filter_append, List.filter_append, filter_checkDeclarations,
    filter_checkDefaults, filter_checkReturns, filter_checkDoc f hdoc, List.nil_append, List.append_nil,
    List.append_nil]

theorem message_unknownParameter (name function : String) :
    (Fault.unknownParameter name function).message =
      "documented parameter `" ++ name ++ "` is not a parameter of `" ++ function ++ "`" := rfl

/-- A report names the entry it is about. -/
theorem name_of_unknownReport {a b : DocParam} (h : f.unknownReport a = f.unknownReport b) :
    a.name = b.name := by
  rw [unknownReport, unknownReport, Fault.reportAt, Fault.reportAt, Diagnostic.mk.injEq,
    message_unknownParameter, message_unknownParameter, String.append_left_inj, String.append_left_inj,
    String.append_left_inj, String.append_right_inj] at h
  exact h.1

/-- Validation accepts an entry if and only if a parameter has its name. -/
theorem not_rejects_iff {doc : Doc} (hdoc : f.doc = some doc) {entry : DocParam}
    (hentry : entry ∈ doc.params) :
    ¬f.Rejects entry ↔ ∃ parameter ∈ f.parameters, SameName parameter.name entry.name := by
  have hmem : f.Rejects entry ↔ f.unknownReport entry ∈ f.validate.filter isInfo := by
    rw [List.mem_filter, Rejects]
    exact ⟨fun h => ⟨h, rfl⟩, fun h => h.1⟩
  rw [hmem, filter_validate f hdoc, List.mem_map]
  simp only [List.mem_filter, Bool.not_eq_true', List.any_eq_false, sameName_iff]
  constructor
  · intro hnone
    by_contra hno
    exact hnone ⟨entry, ⟨hentry, fun parameter hp hsame => hno ⟨parameter, hp, hsame⟩⟩, rfl⟩
  · rintro ⟨parameter, hp, hsame⟩ ⟨other, ⟨-, hother⟩, heq⟩
    rw [← f.name_of_unknownReport heq] at hsame
    exact hother parameter hp hsame

end Function

/-! ## The outline -/

/-- The description of a parameter is that of the first entry of its name. -/
theorem Doc.param?_eq_some {doc : Doc} {name text : String} : doc.param? name = some text ↔
    ∃ before entry after, doc.params = before ++ entry :: after ∧
      (∀ earlier ∈ before, ¬SameName earlier.name name) ∧ SameName entry.name name ∧
      entry.description = text := by
  rw [param?, Option.map_eq_some_iff]
  simp only [List.find?_eq_some_iff_append, Bool.not_eq_true', Bool.eq_false_iff, ne_eq, sameName_iff]
  constructor
  · rintro ⟨entry, ⟨hsame, before, after, hparams, hbefore⟩, htext⟩
    exact ⟨before, entry, after, hparams, hbefore, hsame, htext⟩
  · rintro ⟨before, entry, after, hparams, hbefore, hsame, htext⟩
    exact ⟨entry, ⟨hsame, before, after, hparams, hbefore⟩, htext⟩

theorem Doc.param?_eq_none {doc : Doc} {name : String} :
    doc.param? name = none ↔ ∀ entry ∈ doc.params, ¬SameName entry.name name := by
  rw [param?, Option.map_eq_none_iff, List.find?_eq_none]
  simp only [sameName_iff]

theorem SameName.symm {a b : String} (h : SameName a b) : SameName b a := Eq.symm h

theorem SameName.trans {a b c : String} (hab : SameName a b) (hbc : SameName b c) : SameName a c :=
  Eq.trans hab hbc

/-- The parameters of an outline have the names of those of the function. -/
theorem names_ofFunction (index : LineIndex) (f : Function) :
    (FunctionSymbol.ofFunction index f).parameters.map (·.name) = f.parameters.map (·.name) := by
  rw [FunctionSymbol.ofFunction, List.map_map]
  rfl

theorem exists_sameName_ofFunction {index : LineIndex} {f : Function} {name : String} :
    (∃ parameter ∈ (FunctionSymbol.ofFunction index f).parameters, SameName parameter.name name) ↔
      ∃ parameter ∈ f.parameters, SameName parameter.name name := by
  have hnames := names_ofFunction index f
  have hmem (n : String) : (∃ p ∈ (FunctionSymbol.ofFunction index f).parameters, p.name = n) ↔
      ∃ p ∈ f.parameters, p.name = n := by
    rw [← List.mem_map, hnames, List.mem_map]
  constructor
  · rintro ⟨p, hp, hsame⟩
    obtain ⟨q, hq, hname⟩ := (hmem p.name).mp ⟨p, hp, rfl⟩
    exact ⟨q, hq, hname ▸ hsame⟩
  · rintro ⟨p, hp, hsame⟩
    obtain ⟨q, hq, hname⟩ := (hmem p.name).mpr ⟨p, hp, rfl⟩
    exact ⟨q, hq, hname ▸ hsame⟩

/-- A parameter of an outline has the description that the documentation gives for its name. -/
theorem description_ofFunction {index : LineIndex} {f : Function} {doc : Doc} (hdoc : f.doc = some doc)
    {parameter : ParameterSymbol} (hp : parameter ∈ (FunctionSymbol.ofFunction index f).parameters) :
    parameter.description = doc.param? parameter.name := by
  obtain ⟨p, -, rfl⟩ := List.mem_map.mp hp
  rw [hdoc, Option.bind_some]

/-! ## Both together -/

theorem agreeOnParameters (index : LineIndex) (f : Function) {doc : Doc} (hdoc : f.doc = some doc) :
    AgreeOnParameters f doc (.ofFunction index f) where
  reports := by
    rw [f.filter_validate hdoc]
    refine congrArg (List.map f.unknownReport) (List.filter_congr fun entry _ => congrArg _ ?_)
    rw [Bool.eq_iff_iff, List.any_eq_true, List.any_eq_true]
    simp only [sameName_iff]
    exact exists_sameName_ofFunction.symm
  accepted := fun _ hentry => (f.not_rejects_iff hdoc hentry).trans exists_sameName_ofFunction.symm
  described := by
    intro parameter hp
    rw [description_ofFunction hdoc hp, ne_eq, Doc.param?_eq_none]
    push Not
    rfl
  first := by
    intro parameter hp text htext
    rw [description_ofFunction hdoc hp, Doc.param?_eq_some] at htext
    obtain ⟨before, entry, after, hparams, hbefore, hsame, htext⟩ := htext
    have hentry : entry ∈ doc.params := by
      rw [hparams]
      exact List.mem_append_right before List.mem_cons_self
    refine ⟨before, entry, after, hparams, hbefore, hsame, htext, ?_⟩
    rw [f.not_rejects_iff hdoc hentry, ← exists_sameName_ofFunction]
    exact ⟨parameter, hp, hsame.symm⟩
  supplies := by
    intro before entry after hparams hbefore _ parameter hp hsame
    rw [description_ofFunction hdoc hp, Doc.param?_eq_some]
    refine ⟨before, entry, after, hparams, ?_, hsame.symm, rfl⟩
    intro earlier hearlier hother
    exact hbefore earlier hearlier (hother.trans hsame)

theorem filter_validate (functions : List Function) :
    (validate functions).filter isInfo = functions.flatMap fun f => f.validate.filter isInfo := by
  have hrepeated : ((repeated Function.name [] functions).map fun f =>
      (Fault.functionRedefined f.name).reportAt f.nameSpan).filter isInfo = [] := by
    rw [List.filter_map]
    simp [Function.comp_def, Function.isInfo_reportAt, Fault.severity]
  rw [validate, List.filter_append, hrepeated, List.nil_append, List.filter_flatMap]

/-- **Documented parameters are treated alike** by validation and in the outline: the informative reports
on a program are those on its functions, and for a function with documentation they and the descriptions
in its entry of the outline complement each other. -/
theorem documented_parameters_agree (text : String) (functions : List Function) :
    ((validate functions).filter isInfo = functions.flatMap fun f => f.validate.filter isInfo) ∧
    List.Forall₂ (fun f symbol => ∀ doc, f.doc = some doc → AgreeOnParameters f doc symbol)
      functions (outline text functions) := by
  refine ⟨filter_validate functions, ?_⟩
  rw [outline, List.forall₂_map_right_iff, List.forall₂_same]
  intro f _ doc hdoc
  exact agreeOnParameters _ f hdoc

end Cicode.Program

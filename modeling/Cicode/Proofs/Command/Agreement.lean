import Cicode.Proofs.Command.Abort
import Cicode.Proofs.Command.Silence
import Cicode.Proofs.Files.Spelling
import Cicode.Proofs.Program.Remarks

/-!
# What the commands say about the same files

Three commands read a file: one shows its syntax tree, one checks it and one lists its functions.  Each
finds out in its own way whether something is wrong, and a check of several files reads each of them
once only.

Main statement (`commands_agree`): listing ends with success exactly if checking does, then showing
does as well, and this one exactly if no diagnostic comes from parsing; and to check several files is to
check each of them, with the totals summed up.
-/

namespace Cicode.Command

open Cicode.Program Cicode.Files Cicode.Tree Report Text

/-! ## Texts -/

/-- No diagnostic of the text is an error. -/
def FreeOfErrors (text : String) : Prop := (check text).hasErrors = false

variable {text : String}

theorem freeOfErrors_iff : FreeOfErrors text ↔ ∀ d ∈ (check text).diagnostics, d.isError = false := by
  rw [FreeOfErrors, Checked.hasErrors, List.any_eq_false]
  simp only [Bool.not_eq_true]

theorem count_error_eq_zero : (check text).count .error = 0 ↔ FreeOfErrors text := by
  rw [freeOfErrors_iff, Checked.count, List.countP_eq_zero]
  simp only [Bool.not_eq_true]
  rfl

/-- A text without errors never aborts a check: what is remarked about it takes up some text. -/
theorem FreeOfErrors.not_hasWide (h : FreeOfErrors text) : ¬HasWide text := by
  rintro ⟨d, hd, hempty, -⟩
  exact absurd hempty (Nat.ne_of_lt (wide_remark hd (freeOfErrors_iff.mp h d hd)))

/-- A text without errors is shown with success. -/
theorem FreeOfErrors.parsed (h : FreeOfErrors text) :
    ∀ d ∈ (check text).diagnostics, d.phase ≠ .parsing := by
  rw [parsing_check]
  intro d hd
  have hno := freeOfErrors_iff.mp h d (mem_check.mpr (.inl hd))
  rw [isError_parse hd] at hno
  cases hno

/-! ## Files -/

variable {disk : Disk} {path : String}

theorem Reads.unique {other : String} (h : Reads disk path text) (h' : Reads disk path other) :
    text = other := by
  obtain ⟨found, hdisk, htext⟩ := h
  obtain ⟨found', hdisk', htext'⟩ := h'
  obtain rfl : found = found' := Except.ok.inj (hdisk.symm.trans hdisk')
  exact Except.ok.inj (htext.symm.trans htext')

theorem text_eq {found found' : Found} (h : found.content = found'.content) : found.text = found'.text := by
  rw [Found.text, Found.text, h]

/-- The input that a file was loaded as still has the text of the file. -/
def Faithful (disk : Disk) (workspace : Workspace) : Prop :=
  ∀ path found id, disk path = .ok found → workspace.loaded? found.path = some id →
    ∃ input, workspace.input? id = some input ∧ found.text = .ok input.text

theorem faithful_empty (disk : Disk) : Faithful disk {} := by
  intro path found id _ h
  cases h

/-- **A load reads the file, whether it was loaded before or not.** -/
theorem loadLogged_spec (hdisk : Coherent disk) {workspace after : Workspace}
    (hw : Faithful disk workspace) {filter : Filter} {console written : Console}
    {result : Except FileError Input}
    (h : loadLogged filter disk workspace path console = (after, written, result)) :
    Faithful disk after ∧ written.stdout = console.stdout ∧
      ((∃ input, result = .ok input ∧ Reads disk path input.text) ∨
        (∃ error, result = .error error) ∧ ∀ text, ¬Reads disk path text) := by
  rw [loadLogged, Workspace.load] at h
  cases hpath : disk path with
  | error error =>
    rw [hpath] at h
    cases h
    refine ⟨hw, rfl, .inr ⟨⟨error, rfl⟩, ?_⟩⟩
    rintro text ⟨found, hfound, -⟩
    rw [hpath] at hfound
    cases hfound
  | ok found =>
    rw [hpath] at h
    cases hl : workspace.loaded? found.path with
    | some id =>
      obtain ⟨input, hinput, htext⟩ := hw _ _ _ hpath hl
      simp only [hl, hinput] at h
      cases h
      refine ⟨hw, ?_, .inl ⟨input, rfl, found, hpath, htext⟩⟩
      split <;> rfl
    | none =>
      cases ht : found.text with
      | error error =>
        simp only [hl, ht] at h
        cases h
        refine ⟨hw, rfl, .inr ⟨⟨error, rfl⟩, ?_⟩⟩
        rintro text ⟨found', hfound, htext⟩
        rw [hpath] at hfound
        cases hfound
        rw [ht] at htext
        cases htext
      | ok text =>
        have hnew : (workspace.inputs ++ [(⟨found.path, text⟩ : Input)])[workspace.inputs.length]? =
            some ⟨found.path, text⟩ := by simp
        simp only [hl, ht, Workspace.create, Workspace.input?, hnew, Nat.lt_irrefl, if_false] at h
        cases h
        refine ⟨?_, rfl, .inl ⟨⟨found.path, text⟩, rfl, found, hpath, ht⟩⟩
        intro other found' id hother hid
        rw [Workspace.loaded?, List.lookup_cons] at hid
        cases hsame : found'.path == found.path with
        | true =>
          -- The same file, found under another path.
          rw [hsame] at hid
          cases hid
          refine ⟨⟨found.path, text⟩, hnew, ?_⟩
          rw [text_eq (hdisk _ _ _ _ hother hpath (beq_iff_eq.mp hsame)), ht]
        | false =>
          rw [hsame] at hid
          obtain ⟨input, hinput, htext⟩ := hw _ _ _ hother hid
          refine ⟨input, ?_, htext⟩
          rw [Workspace.input?, List.getElem?_append_left (List.getElem?_eq_some_iff.mp hinput).1]
          exact hinput

theorem stdout_report {text : List Char} {console written : Console} {diagnostics : List Diagnostic}
    (h : report path text console diagnostics = .ok written) : written.stdout = console.stdout := by
  induction diagnostics generalizing console with
  | nil =>
    cases h
    rfl
  | cons d rest ih =>
    rw [report] at h
    split at h
    · exact (ih h).trans rfl
    · cases h

/-! ## Checking several files -/

/-- A file that can be read and has no errors. -/
def IsGood (disk : Disk) (path : String) : Prop := ∃ text, Reads disk path text ∧ FreeOfErrors text

theorem Reads.isGood_iff (hread : Reads disk path text) : IsGood disk path ↔ FreeOfErrors text := by
  constructor
  · rintro ⟨other, hother, hfree⟩
    rwa [hread.unique hother]
  · intro hfree
    exact ⟨text, hread, hfree⟩

theorem errors_add {totals : Totals} : (totals.add (check text)).errors = 0 ↔
    totals.errors = 0 ∧ FreeOfErrors text := by
  rw [Totals.add, Nat.add_eq_zero_iff, count_error_eq_zero]

/-- A check of files ends with success exactly if there was no error before and each file is good. -/
theorem code_checkFrom (hdisk : Coherent disk) {filter : Filter} {total : Nat} {workspace : Workspace}
    (hw : Faithful disk workspace) {totals : Totals} {console : Console} {paths : List String} :
    (checkFrom filter disk total workspace totals console paths).code = 0 ↔
      totals.errors = 0 ∧ ∀ path ∈ paths, IsGood disk path := by
  induction paths generalizing workspace totals console with
  | nil => simp [checkFrom, code_conclude]
  | cons path rest ih =>
    rw [checkFrom, List.forall_mem_cons]
    rcases hload : loadLogged filter disk workspace path console with ⟨after, written, result⟩
    obtain ⟨hafter, -, ⟨input, rfl, hread⟩ | ⟨⟨error, rfl⟩, hno⟩⟩ := loadLogged_spec hdisk hw hload
    · simp only [hread.isGood_iff]
      cases hreport : report path input.text.toList written (check input.text).diagnostics with
      | error aborted =>
        have hwide := (report_check_eq_error _ _).mp ⟨aborted, hreport⟩
        refine iff_of_false (by simp [Console.abort, Console.exit]) ?_
        rintro ⟨-, hfree, -⟩
        exact hfree.not_hasWide hwide
      | ok drawn =>
        refine (ih hafter).trans ?_
        rw [errors_add, and_assoc]
    · refine iff_of_false (by simp [Console.fail, Console.exit]) ?_
      rintro ⟨-, ⟨text, hread, -⟩, -⟩
      exact hno text hread

/-- The last line of a check. -/
def totalsLine (files errors warnings : Nat) : String :=
  "Checked " ++ toString files ++ " file(s): " ++ toString errors ++ " error(s), " ++
    toString warnings ++ " warning(s)\n"

/-- How often a severity occurs in some texts. -/
def countAll (severity : Severity) (texts : List String) : Nat :=
  (texts.map fun text => (check text).count severity).sum

/-- A check of files that can be read prints the totals of their texts, unless it is aborted. -/
theorem stdout_checkFrom (hdisk : Coherent disk) {filter : Filter} {total : Nat} {workspace : Workspace}
    (hw : Faithful disk workspace) {totals : Totals} {console : Console} {paths texts : List String}
    (hread : List.Forall₂ (Reads disk) paths texts)
    (hcode : (checkFrom filter disk total workspace totals console paths).code ≠ 101) :
    (checkFrom filter disk total workspace totals console paths).stdout = console.stdout ++
      totalsLine total (totals.errors + countAll .error texts)
        (totals.warnings + countAll .warning texts) := by
  induction hread generalizing workspace totals console with
  | nil => rfl
  | @cons path text rest texts hfirst _ ih =>
    rw [checkFrom] at hcode ⊢
    rcases hload : loadLogged filter disk workspace path console with ⟨after, written, result⟩
    obtain ⟨hafter, hstdout, ⟨input, rfl, hread⟩ | ⟨-, hno⟩⟩ := loadLogged_spec hdisk hw hload
    · obtain rfl := hread.unique hfirst
      rw [hload] at hcode
      simp only at hcode ⊢
      cases hreport : report path input.text.toList written (check input.text).diagnostics with
      | error aborted =>
        rw [hreport] at hcode
        exact absurd rfl hcode
      | ok drawn =>
        rw [hreport] at hcode
        refine (ih hafter hcode).trans ?_
        have hlogged : ∀ events, (drawn.log filter events).stdout = console.stdout :=
          fun _ => (stdout_report hreport).trans hstdout
        rw [hlogged]
        simp only [Totals.add, countAll, List.map_cons, List.sum_cons, Nat.add_assoc]
    · exact absurd hfirst (hno text)

/-! ## The commands -/

variable {filter : Filter}

theorem code_checkFiles (hdisk : Coherent disk) {paths : List String} :
    (checkFiles filter disk paths).code = 0 ↔ ∀ path ∈ paths, IsGood disk path := by
  rw [checkFiles, code_checkFrom hdisk (faithful_empty disk)]
  exact and_iff_right rfl

theorem code_listSymbols (hdisk : Coherent disk) {json : Bool} :
    (listSymbols filter disk path json).code = 0 ↔ IsGood disk path := by
  rw [listSymbols]
  rcases hload : loadLogged filter disk {} path {} with ⟨after, written, result⟩
  obtain ⟨-, -, ⟨input, rfl, hread⟩ | ⟨⟨error, rfl⟩, hno⟩⟩ :=
    loadLogged_spec hdisk (faithful_empty disk) hload
  · rw [hread.isGood_iff]
    simp only [code_conclude, Bool.not_eq_true']
    rfl
  · refine iff_of_false (by simp [Console.fail, Console.exit]) ?_
    rintro ⟨text, hread, -⟩
    exact hno text hread

/-- **The commands agree on the files of a disk.**  Listing the functions of a file ends with success
exactly if checking it does, and then its tree is shown with success, too.  The tree is shown with
success exactly if the file is a text whose check finds no fault of parsing.  Checking several files ends
with success exactly if checking each of them does.  If all can be read, the totals printed are the sums
over the files; they are missing only if a report cannot be drawn. -/
theorem commands_agree (filter : Filter) (disk : Disk) (hdisk : Coherent disk) :
    (∀ path json, (perform filter disk (.symbols path json)).code = 0 ↔
      (perform filter disk (.check [path])).code = 0) ∧
    (∀ path quiet, (perform filter disk (.check [path])).code = 0 →
      (perform filter disk (.parse path quiet)).code = 0) ∧
    (∀ path quiet, (perform filter disk (.parse path quiet)).code = 0 ↔
      ∃ text, Reads disk path text ∧ ∀ d ∈ (check text).diagnostics, d.phase ≠ .parsing) ∧
    (∀ paths, (perform filter disk (.check paths)).code = 0 ↔
      ∀ path ∈ paths, (perform filter disk (.check [path])).code = 0) ∧
    ∀ paths texts, List.Forall₂ (Reads disk) paths texts →
      (perform filter disk (.check paths)).code ≠ 101 →
        (perform filter disk (.check paths)).stdout =
          totalsLine paths.length (countAll .error texts) (countAll .warning texts) := by
  have halone : ∀ path, (perform filter disk (.check [path])).code = 0 ↔ IsGood disk path := fun path =>
    (code_checkFiles hdisk).trans List.forall_mem_singleton
  have hshown : ∀ path quiet, (perform filter disk (.parse path quiet)).code = 0 ↔
      ∃ text, Reads disk path text ∧ ∀ d ∈ (check text).diagnostics, d.phase ≠ .parsing := by
    intro path quiet
    rw [perform, code_parseFile]
    simp only [parsing_check, parsing_diagnostics, Reads]
    constructor
    · rintro ⟨found, text, hfound, htext, hnil⟩
      exact ⟨text, ⟨found, hfound, htext⟩, hnil⟩
    · rintro ⟨text, ⟨found, hfound, htext⟩, hnil⟩
      exact ⟨found, text, hfound, htext, hnil⟩
  refine ⟨fun path json => ?_, fun path quiet h => ?_, hshown, fun paths => ?_, ?_⟩
  · rw [halone]
    exact code_listSymbols hdisk
  · obtain ⟨text, hread, hfree⟩ := (halone path).mp h
    exact (hshown path quiet).mpr ⟨text, hread, hfree.parsed⟩
  · simp only [halone]
    exact code_checkFiles hdisk
  · intro paths texts hread hcode
    have hline := stdout_checkFrom hdisk (faithful_empty disk) hread hcode
    rwa [Nat.zero_add, Nat.zero_add, String.empty_append] at hline

/-- A text without errors. -/
def goodText : String := "FUNCTION F()\nEND"

/-- A text with a function that never returns what it should. -/
def poorText : String := "INT FUNCTION G()\nEND"

/-- Two texts, and a file that is no text. -/
def threeFiles : FileStore :=
  { root := "/src"
    entries := [(["good.ci"], .file goodText.toUTF8), (["poor.ci"], .file poorText.toUTF8),
      (["none.ci"], .file ⟨#[255]⟩)] }

theorem commands_agree_on_threeFiles : Coherent threeFiles.locate ∧
    ((perform .standard threeFiles.locate (.check ["none.ci", "good.ci"])).code = 0 ↔
      ∀ path ∈ ["none.ci", "good.ci"],
        (perform .standard threeFiles.locate (.check [path])).code = 0) ∧
    (perform .standard threeFiles.locate (.symbols "poor.ci" false)).code = 0 ∧
    (perform .standard threeFiles.locate (.parse "poor.ci" true)).code = 0 ∧
    (perform .standard threeFiles.locate (.check ["good.ci", "./good.ci", "poor.ci"])).stdout =
      "Checked 3 file(s): 0 error(s), 1 warning(s)\n" := by
  have hdisk := FileStore.coherent_locate threeFiles
  obtain ⟨hsymbols, hparse, -, hall, hline⟩ := commands_agree .standard threeFiles.locate hdisk
  have hpoor : (perform .standard threeFiles.locate (.check ["poor.ci"])).code = 0 := by decide +kernel
  have hread : List.Forall₂ (Reads threeFiles.locate) ["good.ci", "./good.ci", "poor.ci"]
      [goodText, goodText, poorText] :=
    .cons ⟨⟨"/src/good.ci", .ok goodText.toUTF8⟩, rfl, rfl⟩
      (.cons ⟨⟨"/src/good.ci", .ok goodText.toUTF8⟩, rfl, rfl⟩
        (.cons ⟨⟨"/src/poor.ci", .ok poorText.toUTF8⟩, rfl, rfl⟩ .nil))
  refine ⟨hdisk, hall _, (hsymbols _ _).mpr hpoor, hparse _ _ hpoor, ?_⟩
  exact (hline _ _ hread (by decide +kernel)).trans (by decide +kernel)

end Cicode.Command

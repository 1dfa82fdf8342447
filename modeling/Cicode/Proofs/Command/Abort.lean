import Cicode.Command.Run
import Cicode.Proofs.Program.Spans
import Cicode.Proofs.Report.Place
import Cicode.Proofs.Tree.Places

/-!
# When checking aborts

The diagnostics of a text point at places of the text, so that a report can be drawn unless the byte
that is shown for an empty span is a part of a wider character.

Main statement (`reports_drawn_unless_wide`): this is the case for every diagnostic of every text, and
it is the only reason for which the check of files is aborted.  A text whose check is aborted is
`wideEnd`.
-/

namespace Cicode.Command

open Cicode.Program Cicode.Files Cicode.Tree Report Text

/-- The span lies in the text, between two boundaries. -/
structure Located (text : List Char) (span : Span) : Prop where
  le : span.start ≤ span.stop
  start : IsBoundary text span.start
  stop : IsBoundary text span.stop

theorem isBoundary_bytes {text : List Char} {position : Extent} (h : IsPlace text position) :
    IsBoundary text position.bytes := by
  obtain ⟨pre, post, heq, rfl⟩ := h
  exact ⟨pre, post, heq, (Extent.bytes_of pre).symm⟩

theorem mergeClosed_located (text : List Char) : MergeClosed (Located text) := by
  intro a b ha hb
  have hle : (a.merge b).start ≤ (a.merge b).stop :=
    Nat.le_trans (Nat.min_le_left ..) (Nat.le_trans ha.le (Nat.le_max_left ..))
  refine ⟨hle, ?_, ?_⟩
  · rcases Nat.le_total a.start b.start with h | h
    · simpa [Span.merge, Nat.min_eq_left h] using ha.start
    · simpa [Span.merge, Nat.min_eq_right h] using hb.start
  · rcases Nat.le_total a.stop b.stop with h | h
    · simpa [Span.merge, Nat.max_eq_right h] using hb.stop
    · simpa [Span.merge, Nat.max_eq_left h] using ha.stop

variable {text : String} {d : Diagnostic}

/-- **The diagnostics of a text lie between boundaries.** -/
theorem located_check (hd : d ∈ (check text).diagnostics) : Located text.toList d.span := by
  refine span_check text (fun node hn => ?_) (mergeClosed_located text.toList) hd
  have hplaced := allPlaced_parse text.toList node hn
  exact ⟨hplaced.le, isBoundary_bytes hplaced.start, isBoundary_bytes hplaced.stop⟩

theorem diagnostics_empty : (check "").diagnostics = [] := by decide +kernel

theorem ne_nil_of_diagnostic (hd : d ∈ (check text).diagnostics) : text.toList ≠ [] := by
  intro h
  obtain rfl : text = "" := String.toList_inj.mp h
  rw [diagnostics_empty] at hd
  cases hd

theorem isSome_draw?_check (path : String) (hd : d ∈ (check text).diagnostics) :
    (draw? path text.toList d).isSome ↔ ¬PointsAtWide text.toList d.span :=
  have h := located_check hd
  isSome_draw? (ne_nil_of_diagnostic hd) path h.le h.start h.stop

/-! ## Files -/

/-- The file has the text. -/
def Reads (disk : Disk) (path text : String) : Prop :=
  ∃ found, disk path = .ok found ∧ found.text = .ok text

/-- Some diagnostic of the text cannot be drawn. -/
def HasWide (text : String) : Prop :=
  ∃ d ∈ (check text).diagnostics, PointsAtWide text.toList d.span

/-- A report ends early if one of its diagnostics cannot be drawn. -/
theorem report_eq_error {path : String} {text : List Char} {console : Console}
    {diagnostics : List Diagnostic} : (∃ written, report path text console diagnostics = .error written) ↔
      ∃ d ∈ diagnostics, (draw? path text d).isSome = false := by
  induction diagnostics generalizing console with
  | nil => simp [report]
  | cons d rest ih =>
    rw [report]
    cases hd : draw? path text d with
    | none => simp [hd]
    | some drawing => simp [hd, ih]

theorem report_check_eq_error (path : String) (console : Console) :
    (∃ written, report path text.toList console (check text).diagnostics = .error written) ↔
      HasWide text := by
  rw [report_eq_error]
  refine exists_congr fun d => and_congr_right fun hd => ?_
  rw [← Bool.not_eq_true, isSome_draw?_check path hd, not_not]

/-- The texts of a workspace were read from some files. -/
def HoldsOnly (disk : Disk) (paths : List String) (workspace : Workspace) : Prop :=
  ∀ input ∈ workspace.inputs, ∃ path ∈ paths, Reads disk path input.text

/-- A file that is loaded is among the inputs, and the only one that may be new. -/
theorem loadLogged_ok {filter : Filter} {disk : Disk} {workspace after : Workspace} {path : String}
    {console written : Console} {input : Input}
    (h : loadLogged filter disk workspace path console = (after, written, .ok input)) :
    input ∈ after.inputs ∧ ∀ i ∈ after.inputs, i ∈ workspace.inputs ∨ Reads disk path i.text := by
  rw [loadLogged, Workspace.load] at h
  cases hdisk : disk path with
  | error error =>
    rw [hdisk] at h
    cases h
  | ok found =>
    rw [hdisk] at h
    simp only at h
    split at h
    · cases h
    · rename_i id hid
      split at h
      · cases h
      · rename_i input' hinput
        cases h
        refine ⟨List.mem_of_getElem? hinput, fun i hi => ?_⟩
        cases hl : workspace.loaded? found.path with
        | some known =>
          rw [hl] at hi
          exact .inl hi
        | none =>
          rw [hl] at hi
          cases ht : found.text with
          | error error =>
            rw [ht] at hi
            exact .inl hi
          | ok text =>
            rw [ht] at hi
            rcases List.mem_append.mp hi with hi | hi
            · exact .inl hi
            · obtain rfl := List.mem_singleton.mp hi
              exact .inr ⟨found, hdisk, ht⟩

theorem holdsOnly_nil (disk : Disk) (paths : List String) : HoldsOnly disk paths {} := by
  intro input hi
  cases hi

/-- A check of files is aborted only because of a text that was read. -/
theorem checkFrom_abort {filter : Filter} {disk : Disk} {total : Nat} {workspace : Workspace}
    {totals : Totals} {console : Console} {all paths : List String} (hall : ∀ path ∈ paths, path ∈ all)
    (hw : HoldsOnly disk all workspace)
    (h : (checkFrom filter disk total workspace totals console paths).code = 101) :
    ∃ path ∈ all, ∃ text, Reads disk path text ∧ HasWide text := by
  induction paths generalizing workspace totals console with
  | nil =>
    rw [checkFrom, Console.conclude] at h
    split at h <;> cases h
  | cons path rest ih =>
    obtain ⟨hpath, hrest⟩ := List.forall_mem_cons.mp hall
    rw [checkFrom] at h
    split at h
    · cases h
    · rename_i after written input hload
      obtain ⟨hmem, hnew⟩ := loadLogged_ok hload
      have hafter : HoldsOnly disk all after := by
        intro i hi
        rcases hnew i hi with hi | hread
        · exact hw i hi
        · exact ⟨path, hpath, hread⟩
      simp only at h
      split at h
      · rename_i aborted hreport
        obtain ⟨from', hfrom, hread⟩ := hafter input hmem
        exact ⟨from', hfrom, input.text, hread, (report_check_eq_error _ _).mp ⟨aborted, hreport⟩⟩
      · exact ih hrest hafter h

/-- What loading a file into a fresh workspace gives. -/
theorem loadLogged_fresh (filter : Filter) {disk : Disk} {path text : String} (h : Reads disk path text) :
    ∃ workspace console input, loadLogged filter disk {} path {} = (workspace, console, .ok input) ∧
      input.text = text := by
  obtain ⟨found, hdisk, htext⟩ := h
  rw [loadLogged, Workspace.load, hdisk]
  simp only [Workspace.loaded?, List.lookup, htext, Workspace.create]
  exact ⟨_, _, ⟨found.path, text⟩, rfl, rfl⟩

/-- **A report is drawn for every diagnostic of every text unless it points at a wide character.**
The spans of diagnostics lie between boundaries of the text; what is shown for them is not empty and
lies in the text, and begins and ends at boundaries unless the span is empty at a wide character; a
report can be drawn exactly then.  The check of files is aborted only if a text among them has a
diagnostic at a wide character, and is aborted if this is the only file. -/
theorem reports_drawn_unless_wide (text : String) (filter : Filter) (disk : Disk) :
    (∀ d ∈ (check text).diagnostics,
      Located text.toList d.span ∧
      (d.span.normalize (byteLength text.toList)).start <
        (d.span.normalize (byteLength text.toList)).stop ∧
      (d.span.normalize (byteLength text.toList)).stop ≤ byteLength text.toList ∧
      ((IsBoundary text.toList (d.span.normalize (byteLength text.toList)).start ∧
        IsBoundary text.toList (d.span.normalize (byteLength text.toList)).stop) ↔
          ¬PointsAtWide text.toList d.span) ∧
      ∀ path, (draw? path text.toList d).isSome ↔ ¬PointsAtWide text.toList d.span) ∧
    (∀ (paths : List String), (checkFiles filter disk paths).code = 101 →
      ∃ path ∈ paths, ∃ text, Reads disk path text ∧ HasWide text) ∧
    ∀ (path : String), (checkFiles filter disk [path]).code = 101 ↔
      ∃ text, Reads disk path text ∧ HasWide text := by
  refine ⟨fun d hd => ?_, fun paths h => ?_, fun path => ⟨fun h => ?_, ?_⟩⟩
  · have hne := ne_nil_of_diagnostic hd
    have hlocated := located_check hd
    obtain ⟨hlt, hin⟩ := normalize_bounds hne d.span
    exact ⟨hlocated, hlt, hin, boundaries_normalize hne hlocated.le hlocated.start hlocated.stop,
      fun path => isSome_draw?_check path hd⟩
  · exact checkFrom_abort (fun _ hpath => hpath) (holdsOnly_nil _ _) h
  · obtain ⟨found, hfound, htext⟩ := checkFrom_abort (fun _ hpath => hpath) (holdsOnly_nil _ _) h
    obtain rfl := List.mem_singleton.mp hfound
    exact htext
  · rintro ⟨text, hread, hwide⟩
    obtain ⟨workspace, console, input, hload, rfl⟩ := loadLogged_fresh filter hread
    obtain ⟨written, hreport⟩ := (report_check_eq_error path console).mpr hwide
    rw [checkFiles, checkFrom, hload]
    simp only [hreport]
    rfl

/-- A function without an end, and a comment that ends with a character of two bytes. -/
def wideEnd : String := "FUNCTION F()\n// é"

/-- The end that is missing is shown inside the last character, and no report can be drawn. -/
theorem wideEnd_not_drawn :
    ∃ d ∈ (check wideEnd).diagnostics, wideEnd ≠ "" ∧
      ¬IsBoundary wideEnd.toList (d.span.normalize (byteLength wideEnd.toList)).start ∧
      draw? "f.ci" wideEnd.toList d = none := by
  decide +kernel

end Cicode.Command

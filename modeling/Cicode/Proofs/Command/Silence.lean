import Cicode.Command.Run
import Cicode.Proofs.Tree.Repairs

/-!
# Texts about which nothing is said

The tree of a text knows whether the text was repaired.  What is said about the text, the list of its
problems, its diagnostics and the exit code of the command that shows its tree, knows of all
repairs but one: a closing tag of documentation that was invented has no node.

Main statement (`silent_iff_only_closing_tags`): nothing is said about a text exactly if all its
repairs are closing tags.  A text that was repaired so is `unclosedParam`.
-/

namespace Cicode.Command

open Cicode.Tree Cicode.Program Cicode.Files Cicode.Lex

theorem code_conclude (console : Console) (good : Bool) :
    (console.conclude good).code = 0 ↔ good = true := by
  cases good <;> simp [Console.conclude, Console.exit]

theorem code_showTree (path : String) (quiet : Bool) (text : String) :
    (showTree path quiet text).code = 0 ↔
      Problem.list (Source.ofList text.toList) (Node.parse text.toList) = [] := by
  rw [showTree, code_conclude, List.isEmpty_iff]

/-- A file is shown with success only if it can be read as a text. -/
theorem code_parseFile (disk : Disk) (path : String) (quiet : Bool) :
    (parseFile disk path quiet).code = 0 ↔ ∃ found text, disk path = .ok found ∧
      found.text = .ok text ∧
        Problem.list (Source.ofList text.toList) (Node.parse text.toList) = [] := by
  rw [parseFile]
  cases hdisk : disk path with
  | error error => simp [Console.fail, Console.exit]
  | ok found =>
    cases htext : found.text with
    | ok text => simp [code_showTree, htext]
    | error error =>
      cases error <;> simp [Console.fail, Console.exit, htext]

/-- The diagnostics of parsing are the problems of the tree. -/
theorem parsing_diagnostics (text : String) : (∀ d ∈ (Program.parse text).2, d.phase ≠ .parsing) ↔
    Problem.list (Source.ofList text.toList) (Node.parse text.toList) = [] := by
  rw [Program.parse]
  simp only [List.mem_append, List.mem_map, List.mem_filterMap]
  refine ⟨fun h => ?_, fun h d hd => ?_⟩
  · refine List.eq_nil_iff_forall_not_mem.mpr fun problem hp => ?_
    exact h (reportProblem problem) (.inl ⟨problem, hp, rfl⟩) rfl
  · rcases hd with ⟨problem, hp, rfl⟩ | ⟨dropped, -, hd⟩
    · rw [h] at hp
      cases hp
    · rw [Dropped.report?] at hd
      split at hd <;> cases hd
      simp

/-- What is known of the tree of every text. -/
theorem reported_parse (chars : List Char) (source : Source) :
    ((Node.parse chars).hasError = false ↔ (Parse.parse chars).repairs = []) ∧
    (Problem.list source (Node.parse chars) = [] ↔
      ∀ r ∈ (Parse.parse chars).repairs, r.symbol ∈ closingTags) := by
  rw [Problem.list_eq, Node.parse]
  exact IsRoot.reported (Parse.isRoot_parse chars)

/-- **Nothing is said about a text exactly if all its repairs are closing tags.**  So what the tree
knows and what is said differ exactly on the texts that have repairs, all of them closing tags. -/
theorem silent_iff_only_closing_tags (text : String) :
    ((Node.parse text.toList).hasError = false ↔ (Parse.parse text.toList).repairs = []) ∧
    (Problem.list (Source.ofList text.toList) (Node.parse text.toList) = [] ↔
      ∀ r ∈ (Parse.parse text.toList).repairs, r.symbol ∈ closingTags) ∧
    ((Problem.list (Source.ofList text.toList) (Node.parse text.toList) = [] ↔
        (Node.parse text.toList).hasError = false) ↔
      ¬((Parse.parse text.toList).repairs ≠ [] ∧
        ∀ r ∈ (Parse.parse text.toList).repairs, r.symbol ∈ closingTags)) ∧
    ((∀ d ∈ (Program.parse text).2, d.phase ≠ .parsing) ↔
      ∀ r ∈ (Parse.parse text.toList).repairs, r.symbol ∈ closingTags) ∧
    ∀ (disk : Disk) (path : String) (quiet : Bool), (parseFile disk path quiet).code = 0 ↔
      ∃ found read, disk path = .ok found ∧ found.text = .ok read ∧
        ∀ r ∈ (Parse.parse read.toList).repairs, r.symbol ∈ closingTags := by
  obtain ⟨herror, hlist⟩ := reported_parse text.toList (Source.ofList text.toList)
  refine ⟨herror, hlist, ?_, ?_, fun disk path quiet => ?_⟩
  · rw [hlist, herror]
    constructor
    · rintro h ⟨hne, hall⟩
      exact hne (h.mp hall)
    · refine fun h => ⟨fun hall => ?_, fun hnil => ?_⟩
      · by_contra hne
        exact h ⟨hne, hall⟩
      · rw [hnil]
        simp
  · rw [parsing_diagnostics, hlist]
  · rw [code_parseFile]
    refine exists_congr fun found => exists_congr fun read => and_congr_right fun _ =>
      and_congr_right fun _ => ?_
    exact (reported_parse read.toList (Source.ofList read.toList)).2

/-- A parameter whose documentation is not closed. -/
def unclosedParam : String := "// <param name=\"x\">\nFUNCTION F()\nEND"

/-- The text was repaired, and nothing is said about it. -/
theorem unclosedParam_repaired_silently :
    (Node.parse unclosedParam.toList).hasError = true ∧
    Problem.list (Source.ofList unclosedParam.toList) (Node.parse unclosedParam.toList) = [] ∧
    (showTree "f.ci" true unclosedParam).code = 0 := by
  decide +kernel

end Cicode.Command

import Cicode.Proofs.Command.Agreement
import Cicode.Proofs.Text.Lines
import Cicode.Proofs.Tree.Headers

/-!
# The lines that are shown

One command shows the line of a syntax problem as the parser has counted it, another looks the offset of
the same problem up in the index of the lines, and the outline of a text looks up the names of its
functions.  They show the same lines, since the nodes of a syntax tree are on their lines.

Main statement (`lines_agree`): every node begins and ends on the line that it says and that the index
finds; both commands show a problem on the same line; and the line of a function in the outline is that of
the node with its name.
-/

namespace Cicode.Command

open Cicode.Tree Cicode.Program Cicode.Files Cicode.Lex Cicode.Text

/-- The problems of a text. -/
def problemsOf (text : String) : List Problem :=
  Problem.list (Source.ofList text.toList) (Node.parse text.toList)

/-- What is printed about a place. -/
def printedAt (path : String) (line column : Nat) (message : String) : String :=
  path ++ ":" ++ toString line ++ ":" ++ toString column ++ ": " ++ message ++ "\n"

/-- The node has the name of the function: it is the name in the header of the function's node. -/
def IsNameNode (root : Node) (f : Function) (name : Node) : Prop :=
  ∃ node ∈ root.significant, ∃ header, header? node = some header ∧ header.child? .name = some name ∧
    name.kind = .functionName ∧ f.span = spanOf node ∧ f.nameSpan = spanOf name

variable {text : String}

theorem onLine_node {node : Node} (h : (Node.parse text.toList).Within node) :
    OnLine text.toList node.label.start ∧ OnLine text.toList node.label.stop :=
  have hplaced := allPlaced_parse text.toList node h
  ⟨hplaced.start.onLine, hplaced.stop.onLine⟩

/-- A position that is on its line is found there. -/
theorem line_of_onLine {chars : List Char} {position : Extent} (h : OnLine chars position) :
    ((LineIndex.ofText chars).lineCol position.bytes).1 = position.rows := by
  obtain ⟨_, _, _, _, _, _, _, _, _, hline⟩ := h
  exact hline

theorem onLine_problem {problem : Problem} (h : problem ∈ problemsOf text) :
    OnLine text.toList problem.start := by
  rw [problemsOf, Problem.list_eq] at h
  obtain ⟨inner, hin, -, hstart, -⟩ := Problem.exists_node_of_under _ h
  rw [hstart]
  exact (onLine_node hin).1

/-- The diagnostics of parsing are the problems. -/
theorem mem_check_parsing {d : Diagnostic} : d ∈ (check text).diagnostics ∧ d.phase = .parsing ↔
    ∃ problem ∈ problemsOf text, d = reportProblem problem := by
  have hvalidation : d ∈ validate (Program.parse text).1 → d.phase ≠ .parsing := by
    intro hd
    rw [(reported_validate (remarks_parse text) hd).phase]
    decide
  have hparse : d ∈ (Program.parse text).2 ∧ d.phase = .parsing ↔
      ∃ problem ∈ problemsOf text, d = reportProblem problem := by
    rw [Program.parse, problemsOf]
    generalize Node.parse text.toList = root
    simp only [List.mem_append, List.mem_map, List.mem_filterMap]
    constructor
    · rintro ⟨⟨problem, hmem, rfl⟩ | ⟨dropped, -, hd⟩, hphase⟩
      · exact ⟨problem, hmem, rfl⟩
      · rw [Dropped.report?] at hd
        split at hd <;> cases hd
        cases hphase
    · rintro ⟨problem, hmem, rfl⟩
      exact ⟨.inl ⟨problem, hmem, rfl⟩, rfl⟩
  rw [mem_check, ← hparse]
  constructor
  · rintro ⟨hd | hd, hphase⟩
    · exact ⟨hd, hphase⟩
    · exact absurd hphase (hvalidation hd)
  · rintro ⟨hd, hphase⟩
    exact ⟨.inl hd, hphase⟩

/-- A problem is shown on the same line whether its line was counted or looked up. -/
theorem printed_problem {problem : Problem} (h : problem ∈ problemsOf text) (path : String) :
    ∃ column column', problemLine path problem =
        printedAt path (problem.start.rows + 1) column problem.message ∧
      errorLine path (LineIndex.ofText text.toList) (reportProblem problem) =
        printedAt path (problem.start.rows + 1) column' problem.message := by
  refine ⟨problem.start.columns + 1,
    ((LineIndex.ofText text.toList).lineCol problem.start.bytes).2 + 1, rfl, ?_⟩
  have hline := line_of_onLine (onLine_problem h)
  generalize LineIndex.ofText text.toList = index at hline
  rw [errorLine, LineIndex.location, printedAt, reportProblem, ← hline]
  simp only [String.append_assoc]

/-- The name of a function has a node. -/
theorem exists_nameNode {source : Source} {root : Node} (hroot : root.Everywhere Node.Headed) {f : Function}
    (h : f ∈ (lower source root).1) : ∃ name, IsNameNode root f name ∧ root.Within name := by
  obtain ⟨node, hnode, above, dropped, hlowered, -⟩ :=
    mem_functionsFrom (P := fun _ => True) (fun _ _ _ _ _ => trivial) (.empty _) h
  rw [function] at hlowered
  obtain ⟨header, hheader, hlowered⟩ := bind_eq_ok.mp hlowered
  obtain ⟨⟨spelled, nameSpan⟩, hname, hlowered⟩ := bind_eq_ok.mp hlowered
  obtain ⟨⟨body, lostStatements⟩, -, hlowered⟩ := bind_eq_ok.mp hlowered
  cases hlowered
  obtain ⟨name, hfound, -, rfl⟩ := identifier_eq_ok hname
  have hheader := require_eq_ok.mp hheader
  obtain ⟨hmem, hkind⟩ := header?_spec hheader
  have hfield := List.find?_some (p := fun child : Node => child.label.field == some .name) hfound
  have hchild : name ∈ header.children := List.mem_of_find?_eq_some hfound
  have hin : root.Within header :=
    .step (mem_children_of_significant hnode) (.child (mem_children_of_significant hmem))
  refine ⟨name, ⟨node, hnode, header, hheader, hfound, ?_, rfl, rfl⟩, hin.trans (.child hchild)⟩
  exact hroot header hin hkind name hchild (beq_iff_eq.mp hfield)

theorem functions_check (text : String) : (check text).functions = (Program.parse text).1 := by
  rw [check, checkInOrder]

/-- A function stands in the outline on the line of its name. -/
theorem line_ofFunction {f : Function} (h : f ∈ (check text).functions) :
    ∃ name, IsNameNode (Node.parse text.toList) f name ∧
      (FunctionSymbol.ofFunction (LineIndex.ofText text.toList) f).line = name.label.start.rows + 1 := by
  rw [functions_check, fst_parse] at h
  have honLine : ∀ node, (Node.parse text.toList).Within node → OnLine text.toList node.label.start :=
    fun node hin => (onLine_node hin).1
  have hroot := headed_parse text.toList
  generalize Node.parse text.toList = root at h honLine hroot
  obtain ⟨name, hname, hin⟩ := exists_nameNode hroot h
  refine ⟨name, hname, ?_⟩
  obtain ⟨node, -, header, -, -, -, -, hspan⟩ := hname
  rw [FunctionSymbol.ofFunction, hspan]
  exact congrArg (· + 1) (line_of_onLine (honLine name hin))

/-! ## The commands -/

theorem stderr_conclude (console : Console) (good : Bool) :
    (console.conclude good).stderr = console.stderr := by
  cases good <;> rfl

theorem stdout_conclude (console : Console) (good : Bool) :
    (console.conclude good).stdout = console.stdout := by
  cases good <;> rfl

/-- Loading a file writes to the log only. -/
theorem stdout_loadLogged (filter : Filter) (disk : Disk) (workspace : Workspace) (path : String)
    (console : Console) : (loadLogged filter disk workspace path console).2.1.stdout = console.stdout := by
  rw [loadLogged]
  rcases workspace.load disk path with ⟨after, error | id⟩
  · rfl
  · cases hinput : after.input? id with
    | none => simp only [hinput]
    | some input =>
      simp only [hinput]
      split <;> rfl

section

variable {disk : Disk} {path : String}

/-- What is said about a tree that is shown. -/
theorem stderr_parseFile (h : Reads disk path text) (quiet : Bool) :
    (parseFile disk path quiet).stderr = String.join ((problemsOf text).map (problemLine path)) := by
  obtain ⟨found, hdisk, htext⟩ := h
  simp only [parseFile, hdisk, htext, showTree, problemsOf, stderr_conclude]
  cases quiet <;> exact String.empty_append

/-- What is said about a text whose functions are listed, behind what is logged. -/
theorem printed_listSymbols (h : Reads disk path text) (filter : Filter) :
    (listSymbols filter disk path false).stdout = String.join
      ((outline text (check text).functions).map (symbolLines path)) ∧
    ∃ log, (listSymbols filter disk path false).stderr = log ++ String.join
      (((check text).diagnostics.filter (·.isError)).map
        (errorLine path (LineIndex.ofText text.toList))) := by
  obtain ⟨workspace, console, input, hload, rfl⟩ := loadLogged_fresh filter h
  have hstdout : console.stdout = "" := by
    have hsame := stdout_loadLogged filter disk {} path {}
    rw [hload] at hsame
    exact hsame
  simp only [listSymbols, hload]
  generalize check input.text = checked
  simp only [stderr_conclude, stdout_conclude, Console.warn, Console.print, hstdout, String.empty_append,
    Bool.false_eq_true, if_false]
  exact ⟨trivial, console.stderr, rfl⟩

end

/-- **All commands agree on lines.**  Every node of the syntax tree of a text begins and ends on the line
that it says and that the index of the text finds.  One command prints the problems, the other the errors,
which the problems are among; both print a problem with the same line.  A function is listed with the line
of the node that has its name. -/
theorem lines_agree (text : String) :
    (∀ node, (Node.parse text.toList).Within node →
      OnLine text.toList node.label.start ∧ OnLine text.toList node.label.stop) ∧
    (∀ disk path, Reads disk path text → ∀ quiet filter,
      (parseFile disk path quiet).stderr = String.join ((problemsOf text).map (problemLine path)) ∧
      (∃ log, (listSymbols filter disk path false).stderr = log ++ String.join
        (((check text).diagnostics.filter (·.isError)).map
          (errorLine path (LineIndex.ofText text.toList)))) ∧
      (listSymbols filter disk path false).stdout = String.join
        ((outline text (check text).functions).map (symbolLines path))) ∧
    (∀ d, d ∈ (check text).diagnostics ∧ d.phase = .parsing ↔
      ∃ problem ∈ problemsOf text, d = reportProblem problem) ∧
    (∀ problem ∈ problemsOf text, ∀ path, ∃ column column',
      problemLine path problem = printedAt path (problem.start.rows + 1) column problem.message ∧
      errorLine path (LineIndex.ofText text.toList) (reportProblem problem) =
        printedAt path (problem.start.rows + 1) column' problem.message) ∧
    ∀ f ∈ (check text).functions, ∃ name, IsNameNode (Node.parse text.toList) f name ∧
      (FunctionSymbol.ofFunction (LineIndex.ofText text.toList) f).line = name.label.start.rows + 1 := by
  refine ⟨fun node => onLine_node, fun disk path hread quiet filter => ?_, fun d => mem_check_parsing,
    fun problem => printed_problem, fun f => line_ofFunction⟩
  obtain ⟨hstdout, hstderr⟩ := printed_listSymbols hread filter
  exact ⟨stderr_parseFile hread quiet, hstderr, hstdout⟩

end Cicode.Command

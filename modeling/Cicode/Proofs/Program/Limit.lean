import Cicode.Proofs.Program.Counter
import Cicode.Proofs.Tree.Layout

/-!
# The nesting limit

A statement without repairs, whose numbers fit, is lowered in a block at some depth.  What of it fails says
the number of levels that calls spend (`Call.depth`), and each statement that fails is left out by itself:
what stands around it is lowered as if it were not there.  The counter is the same after each of them.

Main statement (`nesting_limit`): the limit is exact and leaves no trace (`Limited`).
-/

namespace Cicode.Program

open Grammar Text Cicode.Lex Cicode.Tree

/-- The report about a statement that is nested too deep. -/
def tooDeepReport (node : Node) : Diagnostic :=
  { message := "nested more than 256 levels deep", span := spanOf node, severity := .error,
    phase := .lowering }

/-- The statements of some nodes in a block at a depth, and what is left out. -/
def statementsAt (source : Source) (depth : Nat) (nodes : List Node) : Block :=
  statementsWith source (maxNesting - depth) (block source (maxNesting - depth)) nodes

/-- What the nesting limit does to a statement in a block at a depth. -/
structure Limited (source : Source) (depth : Nat) (node : Node) : Prop where
  /-- An expression or a condition in the statement fails exactly if it is too deep. -/
  calls : ∀ call : Call, node.Within call.node → call.node.kind ∈ call.kinds →
    call.run source (maxNesting - depth) =
      if maxNesting < depth + call.depth then .error .tooDeep else .ok ()
  /-- An IF fails exactly if its condition does or if no level is left for its branches. -/
  branches : ∀ inner, node.Within inner → inner.kind = .ifStatement → ∃ test,
    inner.children.find? (·.kind == .conditionalStatement) = some test ∧
    (branchWith (condition source (maxNesting - depth)) (block source (maxNesting - depth))
      (spanOf inner) inner).map (fun _ => ()) =
      if maxNesting < depth + (Call.condition test).depth ∨ maxNesting < depth + 1
      then .error .tooDeep else .ok ()
  /-- A statement that fails is left out. -/
  lost : IsTooDeep depth node → (statementsAt source depth [node]).1 = []
  /-- A statement that does not fail is kept, whatever is left out inside. -/
  kept : ¬IsTooDeep depth node → ∃ statement, (statementsAt source depth [node]).1 = [statement] ∧
    statement.span = spanOf node
  /-- What is left out, and reported, are the innermost statements that fail. -/
  reported : (statementsAt source depth [node]).2.map (·.node) = overNested depth node ∧
    (statementsAt source depth [node]).2.filterMap (·.report?) =
      (overNested depth node).map tooDeepReport
  /-- What stands around the statement is lowered as if the statement were not there. -/
  siblings : ∀ before after, statementsAt source depth (before ++ node :: after) =
    ((statementsAt source depth before).1 ++ (statementsAt source depth [node]).1 ++
        (statementsAt source depth after).1,
      (statementsAt source depth before).2 ++ (statementsAt source depth [node]).2 ++
        (statementsAt source depth after).2)

/-- The counter has its value again after every call, and never leaves its range; calls do what they do
with the levels that the counter leaves. -/
structure KeepsCounter (source : Source) (p : Progress) (fuel : Nat) : Prop where
  expression : ∀ node : Node, node.size ≤ fuel → (Counted.expression source fuel node).run.run p =
    some (expression source (maxNesting - p.counter) node, p)
  condition : ∀ node : Node, node.size ≤ fuel → (Counted.condition source fuel node).run.run p =
    some (condition source (maxNesting - p.counter) node, p)
  conditionalAtom : ∀ node : Node, node.size ≤ fuel →
    (Counted.conditionalAtom source fuel node).run.run p =
      some (conditionalAtom source (maxNesting - p.counter) node, p)
  block : ∀ nodes : List Node, (∀ node ∈ nodes, node.size ≤ fuel) →
    (Counted.block source (fuel + 1) nodes).run.run p =
      some ((block source (maxNesting - p.counter) nodes).map Prod.fst,
        { p with dropped := p.dropped ++
          Counted.leftOver (Program.block source (maxNesting - p.counter) nodes) })
  statements : ∀ nodes : List Node, (∀ node ∈ nodes, node.size ≤ fuel) →
    (Counted.statements (Counted.statement source fuel (Counted.block source fuel)) nodes).run.run p =
      some (.ok (statementsAt source p.counter nodes).1,
        { p with dropped := p.dropped ++ (statementsAt source p.counter nodes).2 })

/-- **The counter leaves no trace.** -/
theorem keepsCounter (source : Source) {p : Progress} (hp : p.counter ≤ maxNesting) (fuel : Nat) :
    KeepsCounter source p fuel where
  expression node h := Counted.steady_expression h hp
  condition node h := (Counted.steady_condition h hp).1
  conditionalAtom node h := (Counted.steady_condition h hp).2
  block nodes h := Counted.lowers_block h hp
  statements nodes h := Counted.yields_nodes h (by omega) fun hpos => Counted.lowersBlocks_block hpos hp

theorem report?_tooDeep {node : Node} (h : node.hasError = false) :
    (Dropped.mk node .tooDeep).report? = some (tooDeepReport node) := by
  rw [Dropped.report?, if_neg (by rw [h]; exact Bool.false_ne_true)]
  rfl

theorem statementsAt_append (source : Source) (depth : Nat) (before after : List Node) :
    statementsAt source depth (before ++ after) =
      ((statementsAt source depth before).1 ++ (statementsAt source depth after).1,
        (statementsAt source depth before).2 ++ (statementsAt source depth after).2) :=
  statementsWith_append ..

section

variable {source : Source} {node : Node} {depth : Nat}

theorem statementsAt_singleton (hstatement : isStatement node = true) :
    statementsAt source depth [node] =
      match statement source (maxNesting - depth) (block source (maxNesting - depth)) node with
      | .ok (lowered, inside) => ([lowered], inside)
      | .error cause => ([], [⟨node, cause⟩]) := by
  rw [statementsAt, statementsWith_cons, if_pos hstatement]
  cases statement source (maxNesting - depth) (block source (maxNesting - depth)) node with
  | error cause => rfl
  | ok lowered => simp [statementsWith]

/-- A statement that is kept has its span. -/
theorem span_of_statement {levels : Nat} {block : BlockLowerer} {lowered : Statement}
    {inside : List Dropped} (hstatement : isStatement node = true)
    (hok : statement source levels block node = .ok (lowered, inside)) : lowered.span = spanOf node := by
  by_cases hr : node.kind = .returnStatement
  · rw [statement, if_pos (by rw [hr]; rfl)] at hok
    exact (returnStatement_ok hok).1
  · have hk : node.kind = .statementOrExpression := by simpa [isStatement, hr] using hstatement
    rw [statement, if_neg (by simpa using hr)] at hok
    rcases statementWith_ok hk hok with ⟨-, hspan, -⟩ | ⟨inner, -, hbranch⟩
    · exact hspan
    · rcases branchWith_ok hbranch with ⟨test, thenPart, -, -, rfl⟩ |
        ⟨test, before, token, after, thenPart, elsePart, _, _, -, -, -, -, -, rfl, -⟩ <;> rfl

/-- Everything in the node that may be lowered portrays something. -/
def PortrayedInside (source : Source) (node : Node) : Prop := ∀ inner, node.Within inner →
  inner.kind ≠ .sourceFile → inner.kind ≠ .error → Portrayed source inner

/-- A call in a statement fails exactly if it is too deep. -/
theorem run_inside (hp : PortrayedInside source node) (hfits : Call.Fits source node)
    (hdepth : depth ≤ maxNesting) (call : Call) (hwithin : node.Within call.node)
    (hkind : call.node.kind ∈ call.kinds) : call.run source (maxNesting - depth) =
      if maxNesting < depth + call.depth then .error .tooDeep else .ok () := by
  have hproper : call.Proper source := by
    refine ⟨hp _ hwithin ?_ ?_, hkind⟩ <;> intro hk <;> rw [hk] at hkind <;>
      cases call <;> revert hkind <;> simp [Call.kinds]
  rw [Call.run_eq_of_fits hproper fun n hn => hfits n (hwithin.trans hn)]
  exact if_congr (by omega) rfl rfl

/-- An IF in a statement fails exactly if its condition does or no level is left for its branches. -/
theorem branch_inside (hp : PortrayedInside source node) (hfits : Call.Fits source node)
    (hdepth : depth ≤ maxNesting) {inner : Node} (hwithin : node.Within inner)
    (hk : inner.kind = .ifStatement) : ∃ test,
      inner.children.find? (·.kind == .conditionalStatement) = some test ∧
      (branchWith (condition source (maxNesting - depth)) (block source (maxNesting - depth))
        (spanOf inner) inner).map (fun _ => ()) =
        if maxNesting < depth + (Call.condition test).depth ∨ maxNesting < depth + 1
        then .error .tooDeep else .ok () := by
  have hinner := hp inner hwithin (by rw [hk]; decide) (by rw [hk]; decide)
  obtain ⟨test, htest, hkt, -⟩ := exists_test hinner hk
  refine ⟨test, htest, ?_⟩
  have hrun := run_inside hp hfits hdepth (.condition test)
    (hwithin.trans (.child (List.mem_of_find?_eq_some htest))) (List.mem_singleton.mpr hkt)
  rw [branchWith_forget htest, show (condition source (maxNesting - depth) test).map (fun _ => ()) = _ from hrun]
  by_cases hdeep : maxNesting < depth + (Call.condition test).depth
  · rw [if_pos hdeep, if_pos (Or.inl hdeep)]
    rfl
  · have hzero : maxNesting - depth = 0 ↔ maxNesting < depth + 1 := by omega
    rw [if_neg hdeep, ok_bind]
    exact if_congr (by rw [or_iff_right hdeep, hzero]) rfl rfl

/-- The reports about what is left out of a statement. -/
theorem reports_tooDeep (hsound : ∀ inner, node.Within inner → inner.hasError = false) :
    (tooDeep (overNested depth node)).map (·.node) = overNested depth node ∧
    (tooDeep (overNested depth node)).filterMap (·.report?) =
      (overNested depth node).map tooDeepReport := by
  have hall : ∀ inner ∈ overNested depth node, inner.hasError = false :=
    fun inner hinner => hsound inner (within_of_mem_overNested hinner)
  generalize overNested depth node = nodes at hall
  induction nodes with
  | nil => exact ⟨rfl, rfl⟩
  | cons first rest ih =>
    obtain ⟨hfirst, hrest⟩ := List.forall_mem_cons.mp hall
    obtain ⟨h1, h2⟩ := ih hrest
    rw [tooDeep] at h1 h2
    rw [tooDeep, List.map_cons, List.map_cons, List.filterMap_cons_some (report?_tooDeep hfirst), h1, h2,
      List.map_cons]
    exact ⟨rfl, rfl⟩

/-- What the limit does to a statement that portrays something. -/
theorem limited (hp : PortrayedInside source node) (hfits : Call.Fits source node)
    (hsound : ∀ inner, node.Within inner → inner.hasError = false)
    (hstatement : isStatement node = true) (hdepth : depth ≤ maxNesting) : Limited source depth node := by
  have hkinds : node.kind = .statementOrExpression ∨ node.kind = .returnStatement := by
    simpa [isStatement] using hstatement
  have hnode : Portrayed source node := hp node (.refl _)
    (by rcases hkinds with hk | hk <;> rw [hk] <;> decide)
    (by rcases hkinds with hk | hk <;> rw [hk] <;> decide)
  have hlevels : depth + (maxNesting - depth) = maxNesting := by omega
  have hleft : (statementsAt source depth [node]).2 = tooDeep (overNested depth node) := by
    rw [statementsAt, leftOut_statementsWith hlevels (List.forall_mem_singleton.mpr fun _ =>
      ⟨hnode, hfits⟩), overNestedAll, overNestedAll, List.append_nil]
  have heq := statement_eq hnode hstatement hfits hlevels
  have hone : statementsAt source depth [node] = _ := statementsAt_singleton hstatement
  constructor
  case calls => exact run_inside hp hfits hdepth
  case branches => exact fun inner hwithin hk => branch_inside hp hfits hdepth hwithin hk
  case lost =>
    intro hdeep
    rw [if_pos hdeep] at heq
    rw [hone]
    cases hlowered : statement source (maxNesting - depth) (block source (maxNesting - depth)) node with
    | error cause => rfl
    | ok lowered =>
      rw [hlowered] at heq
      cases heq
  case kept =>
    intro hdeep
    rw [if_neg hdeep] at heq
    rw [hone]
    cases hlowered : statement source (maxNesting - depth) (block source (maxNesting - depth)) node with
    | error cause =>
      rw [hlowered] at heq
      cases heq
    | ok lowered => exact ⟨lowered.1, rfl, span_of_statement hstatement hlowered⟩
  case reported => exact hleft ▸ reports_tooDeep hsound
  case siblings =>
    intro before after
    rw [← List.singleton_append, statementsAt_append, statementsAt_append, List.append_assoc,
      List.append_assoc]

end

/-- **The nesting limit is exact and leaves no trace.**  For every statement without repairs in the tree of
a text, whose numbers fit, in a block at any depth: see `Limited` and `KeepsCounter`. -/
theorem nesting_limit {chars : List Char} {node : Node} (hin : (Node.parse chars).Within node)
    (hstatement : isStatement node = true)
    (hclean : node.Everywhere fun inner => inner.isError = false ∧ inner.isMissing = false)
    (hfits : Call.Fits (.ofList chars) node) {depth : Nat} (hdepth : depth ≤ maxNesting) :
    Limited (.ofList chars) depth node ∧
      ∀ (p : Progress) (fuel : Nat), p.counter = depth → KeepsCounter (.ofList chars) p fuel := by
  have hs : node.Sound := hin.sound (sound_parse chars)
  have hkinds : node.kind = .statementOrExpression ∨ node.kind = .returnStatement := by
    simpa [isStatement] using hstatement
  have hsound : ∀ inner, node.Within inner → inner.hasError = false := by
    intro inner hwithin
    by_contra h
    rw [Bool.not_eq_false] at h
    obtain ⟨other, hother, hproblem⟩ := hs.exists_problem
      (by rcases hkinds with hk | hk <;> rw [hk] <;> decide) (hwithin.price hs h)
    obtain ⟨herror, hmissing⟩ := hclean other hother
    rw [Node.isProblem, herror, hmissing] at hproblem
    cases hproblem
  have hp : PortrayedInside (.ofList chars) node := fun inner hwithin hroot herror =>
    portrayed_of_within _ (hin.trans hwithin) hroot herror (hsound inner hwithin)
  exact ⟨limited hp hfits hsound hstatement hdepth, fun p fuel hp => keepsCounter _ (hp ▸ hdepth) fuel⟩

/-- A text with an assignment in a branch. -/
def branchText : List Char := "FUNCTION F()\nIF a THEN b = (1); END\nEND".toList

/-- The IF of the text. -/
def branchStatement : Node := ((Node.parse branchText).all.find? isStatement).getD default

/-- In a block at depth 254 the IF of the text is kept; the assignment in its branch is left out. -/
theorem nesting_limit_branch : (Node.parse branchText).Within branchStatement ∧
    isStatement branchStatement = true ∧
    (branchStatement.Everywhere fun inner => inner.isError = false ∧ inner.isMissing = false) ∧
    Call.Fits (.ofList branchText) branchStatement ∧ 254 ≤ maxNesting ∧
    Limited (.ofList branchText) 254 branchStatement ∧ ¬IsTooDeep 254 branchStatement ∧
    (overNested 254 branchStatement).map spanOf = [⟨23, 31⟩] := by
  obtain ⟨hsome, hclean, hfits, hplace, hspans⟩ :
      ((Node.parse branchText).all.find? isStatement).isSome = true ∧
      (branchStatement.Everywhere fun inner => inner.isError = false ∧ inner.isMissing = false) ∧
      Call.Fits (.ofList branchText) branchStatement ∧ ¬IsTooDeep 254 branchStatement ∧
      (overNested 254 branchStatement).map spanOf = [⟨23, 31⟩] := by
    unfold Call.Fits
    decide +kernel
  have hfind : (Node.parse branchText).all.find? isStatement = some branchStatement := by
    obtain ⟨node, hnode⟩ := Option.isSome_iff_exists.mp hsome
    rw [branchStatement, hnode]
    rfl
  have hin : (Node.parse branchText).Within branchStatement :=
    Node.mem_all.mp (List.mem_of_find?_eq_some hfind)
  have hstatement : isStatement branchStatement = true := List.find?_some hfind
  have hdepth : 254 ≤ maxNesting := by decide
  have hlimit := nesting_limit hin hstatement hclean hfits hdepth
  exact ⟨hin, hstatement, hclean, hfits, hdepth, hlimit.1, hplace, hspans⟩

end Cicode.Program

import Cicode.Proofs.Program.Calls

/-!
# What is nested too deep

A statement calls for its expressions or its condition; an IF also lowers its branches, one level further
in, and the statements of a branch fail on their own.  So a statement fails if one of its calls does, or if
it is an IF for whose branches no level is left.

Main statements (`statement_forget`, `leftOut_statementsWith`): what a statement without repairs does, and
which statements of a block are left out: among those that are nested too deep, the innermost.
-/

namespace Cicode.Program

open Grammar Text Cicode.Lex Cicode.Tree

/-- The calls of a statement for its own expressions or its condition. -/
def statementCalls (node : Node) : List Call :=
  match node.kind with
  | .statementOrExpression =>
    match node.significant.head? with
    | some inner =>
      match inner.kind with
      | .variableAssignment =>
        ((inner.significant.find? (·.kind == .expressionVariableAssignments)).bind
          (·.significant.head?)).toList.map .expression
      | .ifStatement => (inner.children.find? (·.kind == .conditionalStatement)).toList.map .condition
      | .functionCall => (inner.significant.filter (·.kind == .expression)).map .expression
      | _ => []
    | none => []
  | .returnStatement => (node.significant.find? (·.kind == .expression)).toList.map .expression
  | _ => []

/-- A statement, with a number of levels left for its expressions and a way to lower its branches. -/
def statement (source : Source) (levels : Nat) (block : BlockLowerer) (node : Node) :
    Lowered (Statement × List Dropped) :=
  if node.kind == .returnStatement then returnStatement source levels node
  else statementWith source levels block node

section

variable {source : Source} {node child : Node} {levels : Nat}

/-! ## The calls of a statement -/

/-- The value that is assigned. -/
theorem exists_value (h : Portrayed source node) (hk : node.kind = .variableAssignment) :
    ∃ target holder value,
      node.significant.find? (·.kind == .variableName) = some target ∧ Portrayed source target ∧
      node.significant.find? (·.kind == .expressionVariableAssignments) = some holder ∧
      holder.significant.head? = some value ∧ value.kind = .expression ∧ Portrayed source value := by
  obtain ⟨target, htarget, -, hpt⟩ := exists_find? h .variableName rfl (by rw [hk]; decide)
  obtain ⟨holder, hholder, hhk, hph⟩ :=
    exists_find? h .expressionVariableAssignments rfl (by rw [hk]; decide)
  have hrow := hph.row_mem hhk rfl
  have hall : (rowRule .expressionVariableAssignments).expansions = [[.expression]] := by decide
  rw [hall, List.mem_singleton] at hrow
  obtain ⟨value, hv, hpv, -, hs⟩ := hph.exists_one hrow
  exact ⟨target, holder, value, htarget, hpt, hholder, by rw [hs]; rfl, hv, hpv⟩

/-- The condition of an IF. -/
theorem exists_test (h : Portrayed source node) (hk : node.kind = .ifStatement) :
    ∃ test, node.children.find? (·.kind == .conditionalStatement) = some test ∧
      test.kind = .conditionalStatement ∧ Portrayed source test := by
  obtain ⟨child, hmem, hkind⟩ := h.exists_child .conditionalStatement (by rw [hk]; decide)
  have hchild : child ∈ node.children := List.mem_of_mem_filter hmem
  cases hfind : node.children.find? (·.kind == .conditionalStatement) with
  | none =>
    rw [List.find?_eq_none] at hfind
    exact absurd (beq_iff_eq.mpr hkind) (hfind child hchild)
  | some found =>
    have hkind : found.kind = .conditionalStatement := by simpa using List.find?_some hfind
    refine ⟨found, rfl, hkind, h.child (List.mem_filter.mpr ⟨List.mem_of_find?_eq_some hfind, ?_⟩)⟩
    rw [Node.isComment, hkind]
    rfl

/-- What a node has among its significant children, if it has no repairs. -/
theorem portrayed_of_mem_significant (h : Portrayed source node) (hmem : child ∈ node.significant) :
    Portrayed source child ∧ node.Within child := by
  have hcode : child ∈ node.code := by
    rw [Node.significant_eq] at hmem
    exact List.mem_of_mem_filter hmem
  exact ⟨h.child hcode, .child (List.mem_of_mem_filter hcode)⟩

/-- The calls of a statement lower nodes that may be lowered so. -/
theorem proper_of_mem_statementCalls (h : Portrayed source node) {call : Call}
    (hcall : call ∈ statementCalls node) : call.Proper source ∧ node.Within call.node := by
  rw [statementCalls] at hcall
  split at hcall
  · rename_i hk
    obtain ⟨inner, hs, -, hp⟩ := h.statement_shape hk
    have hin : node.Within inner := (portrayed_of_mem_significant h (by rw [hs]; simp)).2
    simp only [hs, List.head?_cons] at hcall
    split at hcall
    · rename_i hki
      obtain ⟨-, holder, value, -, -, hholder, hvalue, hkv, hpv⟩ := exists_value hp hki
      simp only [hholder, Option.bind_some, hvalue, Option.toList_some, List.map_singleton,
        List.mem_singleton] at hcall
      subst hcall
      obtain ⟨hph, hwithin⟩ := portrayed_of_mem_significant hp (List.mem_of_find?_eq_some hholder)
      have hlast := (portrayed_of_mem_significant hph (List.mem_of_mem_head? hvalue)).2
      exact ⟨.expression hpv (by rw [hkv]; decide), hin.trans (hwithin.trans hlast)⟩
    · rename_i hki
      obtain ⟨test, htest, hkt, hpt⟩ := exists_test hp hki
      simp only [htest, Option.toList_some, List.map_singleton, List.mem_singleton] at hcall
      subst hcall
      exact ⟨.condition hpt hkt, hin.trans (.child (List.mem_of_find?_eq_some htest))⟩
    · obtain ⟨argument, harg, rfl⟩ := List.mem_map.mp hcall
      obtain ⟨hmem, hka⟩ := List.mem_filter.mp harg
      obtain ⟨hpa, hwithin⟩ := portrayed_of_mem_significant hp hmem
      exact ⟨.expression hpa (by rw [beq_iff_eq.mp hka]; decide), hin.trans hwithin⟩
    · cases hcall
  · obtain ⟨value, hvalue, rfl⟩ := List.mem_map.mp hcall
    have hfind := Option.mem_toList.mp hvalue
    have hkv : value.kind = .expression := by simpa using List.find?_some hfind
    obtain ⟨hpv, hwithin⟩ := portrayed_of_mem_significant h (List.mem_of_find?_eq_some hfind)
    exact ⟨.expression hpv (by rw [hkv]; decide), hwithin⟩
  · cases hcall

/-- Branches are lowered if there is a level left for them. -/
theorem branchWith_forget {test : Node} {span : Span}
    (htest : node.children.find? (·.kind == .conditionalStatement) = some test) :
    (branchWith (condition source levels) (block source levels) span node).map (fun _ => ()) =
      ((condition source levels test).map (fun _ => ()) >>= fun _ =>
        if levels = 0 then .error .tooDeep else .ok ()) := by
  simp only [branchWith, htest, require, ok_bind]
  cases condition source levels test with
  | error e => rfl
  | ok test =>
    cases levels with
    | zero => rfl
    | succ levels =>
      simp only [ok_bind, List.span_eq_takeWhile_dropWhile, block]
      cases node.children.dropWhile (·.kind != .kwElse) <;> rfl

/-- What comes of a statement, what it is lowered to aside. -/
theorem statement_forget (h : Portrayed source node) (hstatement : isStatement node = true) :
    (statement source levels (block source levels) node).map (fun _ => ()) =
      (forM (statementCalls node) (Call.run source levels) >>= fun _ =>
        if (branching? node).isSome = true ∧ levels = 0 then .error .tooDeep else .ok ()) := by
  have hkinds : node.kind = .statementOrExpression ∨ node.kind = .returnStatement := by
    simpa [isStatement] using hstatement
  rcases hkinds with hk | hk
  · obtain ⟨inner, hs, hki, hp⟩ := h.statement_shape hk
    have hkinds : inner.kind = .variableAssignment ∨ inner.kind = .ifStatement ∨
        inner.kind = .functionCall := by simpa using hki
    rw [statement, if_neg (by rw [hk]; decide)]
    rcases hkinds with hki | hki | hki
    · have hnone : branching? node = none := by simp [branching?, hk, hs, hki]
      obtain ⟨target, holder, value, htarget, hpt, hholder, hvalue, -, -⟩ := exists_value hp hki
      simp only [statementWith, statementCalls, hk, hs, List.head?_cons, require, ok_bind, hki, htarget,
        identifier_of_portrayed hpt, hholder, Option.bind_some, hvalue, Option.toList_some,
        List.map_singleton, forM_singleton, Call.run, hnone]
      cases expression source levels value <;> rfl
    · have hsome : branching? node = some inner := by simp [branching?, hk, hs, hki]
      obtain ⟨test, htest, -, -⟩ := exists_test hp hki
      simp only [statementWith, statementCalls, hk, hs, List.head?_cons, require, ok_bind, hki, htest,
        Option.toList_some, List.map_singleton, forM_singleton, Call.run, hsome, Option.isSome_some,
        true_and, branchWith_forget htest]
    · have hnone : branching? node = none := by simp [branching?, hk, hs, hki]
      have hforget := callWith_forget hp hki (expression source levels)
      simp only [statementWith, statementCalls, hk, hs, List.head?_cons, require, ok_bind, hki, forM_map,
        Call.run, ← hforget, hnone]
      cases callWith source (expression source levels) inner <;> rfl
  · have hnone : branching? node = none := by simp [branching?, hk]
    rw [statement, if_pos (by rw [hk]; rfl), returnStatement]
    simp only [statementCalls, hk, hnone]
    cases node.significant.find? (·.kind == .expression) with
    | none => rfl
    | some value =>
      simp only [Option.toList_some, List.map_singleton, forM_singleton, Call.run]
      cases expression source levels value <;> rfl

/-! ## Statements that are too deep -/

/-- Whether a statement is nested too deep, if it stands in a block at the given depth. -/
def IsTooDeep (depth : Nat) (node : Node) : Prop :=
  (∃ call ∈ statementCalls node, maxNesting < depth + call.depth) ∨
    (branching? node).isSome = true ∧ maxNesting < depth + 1

instance (depth : Nat) (node : Node) : Decidable (IsTooDeep depth node) :=
  inferInstanceAs (Decidable (_ ∨ _))

/-- **A statement fails exactly if it is too deep.** -/
theorem statement_eq (h : Portrayed source node) (hstatement : isStatement node = true)
    (hfits : Call.Fits source node) {depth : Nat} (hdepth : depth + levels = maxNesting) :
    (statement source levels (block source levels) node).map (fun _ => ()) =
      if IsTooDeep depth node then .error .tooDeep else .ok () := by
  have hrun : ∀ call ∈ statementCalls node, call.run source levels =
      if levels < call.depth then .error .tooDeep else .ok () := by
    intro call hcall
    obtain ⟨hproper, hwithin⟩ := proper_of_mem_statementCalls h hcall
    exact Call.run_eq_of_fits hproper (fun n hn => hfits n (hwithin.trans hn)) levels
  rw [statement_forget h hstatement]
  by_cases hcalls : ∃ call ∈ statementCalls node, maxNesting < depth + call.depth
  · rw [if_pos (show IsTooDeep depth node from .inl hcalls)]
    obtain ⟨call, hcall, hlt⟩ := hcalls
    cases hforM : forM (statementCalls node) (Call.run source levels) with
    | ok u =>
      have hok := forM_eq_ok.mp hforM call hcall
      rw [hrun call hcall, if_pos (by omega)] at hok
      cases hok
    | error e =>
      obtain ⟨call, hcall, he⟩ := exists_error_of_forM hforM
      rw [hrun call hcall] at he
      split at he
      · cases he
        rfl
      · cases he
  · have hforM : forM (statementCalls node) (Call.run source levels) = .ok () := by
      refine forM_eq_ok.mpr fun call hcall => ?_
      have hle : ¬maxNesting < depth + call.depth := fun hlt => hcalls ⟨call, hcall, hlt⟩
      rw [hrun call hcall, if_neg (by omega)]
    have hzero : levels = 0 ↔ maxNesting < depth + 1 := by omega
    rw [hforM, ok_bind]
    exact if_congr (by rw [IsTooDeep, or_iff_right hcalls, hzero]) rfl rfl

mutual

/-- The statements of a block that are too deep, and among them the innermost. -/
def overNestedAll (depth : Nat) : List Node → List Node
  | [] => []
  | node :: rest => overNested depth node ++ overNestedAll depth rest

/-- A statement that is too deep, or those of its branches. -/
def overNested (depth : Nat) : Node → List Node
  | .node label children =>
    if isStatement (.node label children) then
      if IsTooDeep depth (.node label children) then [.node label children]
      else overNestedBelow depth children
    else []

/-- The statements of branches that are too deep. -/
def overNestedBelow (depth : Nat) : List Node → List Node
  | [] => []
  | .node label children :: rest =>
    (if label.kind == .ifStatement then overNestedAll (depth + 1) children else []) ++
      overNestedBelow depth rest

end

/-! ## Blocks -/

theorem statementsWith_cons (block : BlockLowerer) (node : Node) (rest : List Node) :
    statementsWith source levels block (node :: rest) =
      if isStatement node = true then
        match statement source levels block node with
        | .ok (lowered, inside) => (lowered :: (statementsWith source levels block rest).1,
            inside ++ (statementsWith source levels block rest).2)
        | .error cause => ((statementsWith source levels block rest).1,
            ⟨node, cause⟩ :: (statementsWith source levels block rest).2)
      else statementsWith source levels block rest := by
  rw [statementsWith]
  by_cases hs : node.kind = .statementOrExpression
  · rw [if_pos (by rw [isStatement, hs]; rfl), statement, if_neg (by rw [hs]; decide)]
    simp only [hs]
    cases statementWith source levels block node <;> rfl
  · by_cases hr : node.kind = .returnStatement
    · rw [if_pos (by rw [isStatement, hr]; rfl), statement, if_pos (by rw [hr]; rfl)]
      simp only [hr]
      cases returnStatement source levels node <;> rfl
    · rw [if_neg (by simp [isStatement, hs, hr])]
      split
      simp_all

/-- **The statements of a block are lowered one by one.** -/
theorem statementsWith_append (block : BlockLowerer) (before after : List Node) :
    statementsWith source levels block (before ++ after) =
      ((statementsWith source levels block before).1 ++ (statementsWith source levels block after).1,
        (statementsWith source levels block before).2 ++ (statementsWith source levels block after).2) := by
  induction before with
  | nil => rfl
  | cons node before ih =>
    rw [List.cons_append, statementsWith_cons, statementsWith_cons, ih]
    split
    · split
      · simp
      · simp
    · rfl

mutual

theorem within_of_mem_overNested {depth : Nat} {inner : Node} : ∀ {node : Node},
    inner ∈ overNested depth node → node.Within inner
  | .node label children, h => by
    rw [overNested] at h
    split at h
    · split at h
      · rw [List.mem_singleton.mp h]
        exact .refl _
      · obtain ⟨child, hc, hw⟩ := within_of_mem_overNestedBelow h
        exact .step hc hw
    · cases h

theorem within_of_mem_overNestedAll {depth : Nat} {inner : Node} : ∀ {nodes : List Node},
    inner ∈ overNestedAll depth nodes → ∃ node ∈ nodes, node.Within inner
  | [], h => nomatch h
  | node :: rest, h => by
    rw [overNestedAll] at h
    rcases List.mem_append.mp h with h | h
    · exact ⟨node, List.mem_cons_self, within_of_mem_overNested h⟩
    · obtain ⟨other, ho, hw⟩ := within_of_mem_overNestedAll h
      exact ⟨other, List.mem_cons_of_mem _ ho, hw⟩

theorem within_of_mem_overNestedBelow {depth : Nat} {inner : Node} : ∀ {nodes : List Node},
    inner ∈ overNestedBelow depth nodes → ∃ node ∈ nodes, node.Within inner
  | [], h => nomatch h
  | .node label children :: rest, h => by
    rw [overNestedBelow] at h
    rcases List.mem_append.mp h with h | h
    · split at h
      · obtain ⟨child, hc, hw⟩ := within_of_mem_overNestedAll h
        exact ⟨_, List.mem_cons_self, .step hc hw⟩
      · cases h
    · obtain ⟨other, ho, hw⟩ := within_of_mem_overNestedBelow h
      exact ⟨other, List.mem_cons_of_mem _ ho, hw⟩

end

theorem overNestedAll_eq (depth : Nat) (nodes : List Node) :
    overNestedAll depth nodes = nodes.flatMap (overNested depth) := by
  induction nodes with
  | nil => rfl
  | cons node nodes ih => rw [overNestedAll, List.flatMap_cons, ih]

theorem overNestedBelow_eq (depth : Nat) (nodes : List Node) : overNestedBelow depth nodes =
    (nodes.filter (·.kind == .ifStatement)).flatMap fun node => overNestedAll (depth + 1) node.children := by
  induction nodes with
  | nil => rfl
  | cons node nodes ih =>
    obtain ⟨label, children⟩ := node
    rw [overNestedBelow, ih]
    by_cases hk : label.kind == .ifStatement
    · rw [if_pos hk, List.filter_cons_of_pos (by exact hk), List.flatMap_cons]
      rfl
    · rw [if_neg hk, List.filter_cons_of_neg (by exact hk), List.nil_append]

/-- The branches of a statement without repairs. -/
theorem filter_ifStatement (h : Portrayed source node) (hstatement : isStatement node = true) :
    node.children.filter (·.kind == .ifStatement) = (branching? node).toList := by
  have hfilter : node.children.filter (·.kind == .ifStatement) =
      node.significant.filter (·.kind == .ifStatement) := by
    rw [Node.significant, Node.namedChildren, List.filter_filter, List.filter_filter]
    refine List.filter_congr fun n _ => ?_
    by_cases hk : n.kind = .ifStatement
    · rw [Node.isComment, Node.isNamed, hk]
      rfl
    · rw [beq_false_of_ne hk, Bool.false_and, Bool.false_and]
  rw [hfilter]
  have hkinds : node.kind = .statementOrExpression ∨ node.kind = .returnStatement := by
    simpa [isStatement] using hstatement
  rcases hkinds with hk | hk
  · obtain ⟨inner, hs, -, -⟩ := h.statement_shape hk
    rw [branching?, hk, hs]
    by_cases hki : inner.kind = .ifStatement <;> simp [hki, Option.filter]
  · rw [branching?, hk, List.filter_eq_nil_iff.mpr]
    · rfl
    · intro child hmem hki
      rw [Node.significant_eq] at hmem
      have hkind := h.kind_mem (List.mem_of_mem_filter hmem)
      rw [beq_iff_eq.mp hki, hk] at hkind
      exact absurd hkind (by decide)

/-- The statements in a statement without repairs that are too deep, if it is not itself. -/
theorem overNested_of_not_tooDeep (h : Portrayed source node) (hstatement : isStatement node = true)
    {depth : Nat} (hdeep : ¬IsTooDeep depth node) : overNested depth node =
      (branching? node).toList.flatMap fun inner => overNestedAll (depth + 1) inner.children := by
  have hfilter := filter_ifStatement h hstatement
  obtain ⟨label, children⟩ := node
  rw [overNested, if_pos hstatement, if_neg hdeep, overNestedBelow_eq, ← hfilter]
  rfl

/-- The statements among some nodes have no repairs, and their numbers fit. -/
def SoundStatements (source : Source) (nodes : List Node) : Prop :=
  ∀ node ∈ nodes, isStatement node = true → Portrayed source node ∧ Call.Fits source node

/-- The branches of a statement are below it. -/
theorem mem_significant_of_branching {inner : Node} (h : branching? node = some inner) :
    inner ∈ node.significant := by
  rw [branching?] at h
  split at h
  · exact List.mem_of_mem_head? (Option.filter_eq_some_iff.mp h).1
  · cases h

/-- The statements in the branches of a statement. -/
theorem SoundStatements.branches {inner : Node} (h : Portrayed source node)
    (hfits : Call.Fits source node) (hinner : branching? node = some inner) :
    SoundStatements source inner.children := by
  obtain ⟨hp, hwithin⟩ := portrayed_of_mem_significant h (mem_significant_of_branching hinner)
  intro child hchild hstatement
  have hcomment : child.isComment = false := by
    have hkinds : child.kind = .statementOrExpression ∨ child.kind = .returnStatement := by
      simpa [isStatement] using hstatement
    rw [Node.isComment]
    rcases hkinds with hk | hk <;> rw [hk] <;> rfl
  exact ⟨hp.child (List.mem_filter.mpr ⟨hchild, by rw [hcomment]; rfl⟩),
    fun n hn => hfits n (hwithin.trans (.step hchild hn))⟩

/-- What is left out because it is nested too deep. -/
def tooDeep (nodes : List Node) : List Dropped := nodes.map fun node => ⟨node, .tooDeep⟩

/-- The block leaves out the statements that are too deep at a depth. -/
def LeavesOut (source : Source) (depth : Nat) (block : BlockLowerer) : Prop :=
  ∀ nodes lowered, SoundStatements source nodes → block nodes = .ok lowered →
    lowered.2 = tooDeep (overNestedAll depth nodes)

/-- What is left out of a statement that is kept. -/
theorem leftOut_statement {block : BlockLowerer} {depth : Nat} (hblock : LeavesOut source (depth + 1) block)
    (h : Portrayed source node) (hstatement : isStatement node = true) (hfits : Call.Fits source node)
    (hdeep : ¬IsTooDeep depth node) {lowered : Statement} {inside : List Dropped}
    (hok : statement source levels block node = .ok (lowered, inside)) :
    inside = tooDeep (overNested depth node) := by
  rw [overNested_of_not_tooDeep h hstatement hdeep]
  by_cases hr : node.kind = .returnStatement
  · rw [statement, if_pos (by rw [hr]; rfl)] at hok
    have hnone : branching? node = none := by simp [branching?, hr]
    rw [(returnStatement_ok hok).2, hnone]
    rfl
  · have hk : node.kind = .statementOrExpression := by
      simpa [isStatement, hr] using hstatement
    rw [statement, if_neg (by simpa using hr)] at hok
    rcases statementWith_ok hk hok with ⟨hnone, -, rfl⟩ | ⟨inner, hsome, hbranch⟩
    · rw [hnone]
      rfl
    · have hbranches := SoundStatements.branches h hfits hsome
      rw [hsome, Option.toList_some, List.flatMap_singleton]
      rcases branchWith_ok hbranch with ⟨test, thenPart, -, hthen, -⟩ |
        ⟨test, before, token, after, thenPart, elsePart, inThen, inElse, hsplit, -, htoken, hthen, helse, -, rfl⟩
      · exact hblock _ _ hbranches hthen
      · rw [hsplit] at hbranches ⊢
        have hbefore := hblock _ _ (fun n hn => hbranches n (by simp [hn])) hthen
        have hafter := hblock _ _ (fun n hn => hbranches n (by simp [hn])) helse
        have hnone : overNested (depth + 1) token = [] := by
          obtain ⟨label, children⟩ := token
          rw [overNested, if_neg (by rw [isStatement, htoken]; decide)]
        rw [overNestedAll_eq, List.flatMap_append, List.flatMap_cons, hnone, List.nil_append, tooDeep,
          List.map_append, ← overNestedAll_eq, ← overNestedAll_eq]
        exact congrArg₂ _ hbefore hafter

/-- What is left out of several statements. -/
theorem leftOut_nodes {depth : Nat} (hdepth : depth + levels = maxNesting)
    (hblock : LeavesOut source (depth + 1) (block source levels)) {nodes : List Node}
    (h : SoundStatements source nodes) : (statementsWith source levels (block source levels) nodes).2 =
      tooDeep (overNestedAll depth nodes) := by
  induction nodes with
  | nil => rfl
  | cons node nodes ih =>
    obtain ⟨hnode, hnodes⟩ := List.forall_mem_cons.mp h
    rw [statementsWith_cons, overNestedAll, tooDeep, List.map_append, ← tooDeep, ← tooDeep, ← ih hnodes]
    by_cases hstatement : isStatement node = true
    · obtain ⟨hp, hfits⟩ := hnode hstatement
      have heq := statement_eq hp hstatement hfits hdepth
      rw [if_pos hstatement]
      cases hlowered : statement source levels (block source levels) node with
      | ok result =>
        rw [hlowered] at heq
        have hdeep : ¬IsTooDeep depth node := by
          intro hdeep
          rw [if_pos hdeep] at heq
          cases heq
        rw [← leftOut_statement hblock hp hstatement hfits hdeep hlowered]
      | error cause =>
        rw [hlowered] at heq
        split at heq
        · rename_i hdeep
          cases heq
          obtain ⟨label, children⟩ := node
          rw [overNested, if_pos hstatement, if_pos hdeep]
          rfl
        · cases heq
    · rw [if_neg hstatement]
      obtain ⟨label, children⟩ := node
      rw [overNested, if_neg hstatement]
      rfl

theorem leavesOut_block {depth : Nat} (hdepth : depth + levels = maxNesting) :
    LeavesOut source (depth + 1) (block source levels) := by
  induction levels generalizing depth with
  | zero =>
    intro nodes lowered _ hok
    cases hok
  | succ levels ih =>
    intro nodes lowered h hok
    cases hok
    exact leftOut_nodes (by omega) (ih (by omega)) h

/-- **What is left out of a block**: the statements that are too deep, and among them the innermost. -/
theorem leftOut_statementsWith {depth : Nat} (hdepth : depth + levels = maxNesting) {nodes : List Node}
    (h : SoundStatements source nodes) : (statementsWith source levels (block source levels) nodes).2 =
      tooDeep (overNestedAll depth nodes) :=
  leftOut_nodes hdepth (leavesOut_block hdepth) h

end

end Cicode.Program

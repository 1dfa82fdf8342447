import Mathlib
import Cicode.Program.Lower

/-!
# What lowering visits

Lowering visits the functions of a tree and, in those that it keeps, the parameters, the
declarations and the statements; in a statement with branches that it keeps, also the statements of the
branches.  Each visited node is kept or lost.  The relations below say of a tree and a program which
nodes are visited, and that the kept ones are those of the program, in the same order; they do not
say which are kept.

Main statement (`exists_visits_lower`): a tree and what lowering makes of it are related, and the lost
nodes are those that lowering leaves out, in the same order.
-/

namespace Cicode.Program

open Text Cicode.Lex Cicode.Tree Grammar

/-- A node that lowering visits. -/
structure Visit where
  /-- The node. -/
  node : Node
  /-- Whether it is kept. -/
  kept : Bool

/-- The visited nodes that are not kept. -/
def lost (visits : List Visit) : List Node := (visits.filter (!·.kept)).map (·.node)

/-- Whether a node is a statement. -/
def isStatement (node : Node) : Bool :=
  node.kind == .statementOrExpression || node.kind == .returnStatement

/-- The part of a statement that has branches. -/
def branching? (node : Node) : Option Node :=
  if node.kind == .statementOrExpression then node.significant.head?.filter (·.kind == .ifStatement)
  else none

/-- The nodes of a block are visited; the statements that are kept are those given. -/
inductive BlockVisits : List Node → List Statement → List Visit → Prop
  | nil : BlockVisits [] [] []
  | other {node : Node} {nodes : List Node} {statements : List Statement} {visits : List Visit} :
    isStatement node = false → BlockVisits nodes statements visits →
    BlockVisits (node :: nodes) statements visits
  | lose {node : Node} {nodes : List Node} {statements : List Statement} {visits : List Visit} :
    isStatement node = true → BlockVisits nodes statements visits →
    BlockVisits (node :: nodes) statements (⟨node, false⟩ :: visits)
  | keep {node : Node} {nodes : List Node} {statement : Statement} {statements : List Statement}
      {visits : List Visit} :
    isStatement node = true → branching? node = none → statement.span = spanOf node →
    BlockVisits nodes statements visits →
    BlockVisits (node :: nodes) (statement :: statements) (⟨node, true⟩ :: visits)
  | branch {node inner : Node} {nodes : List Node} {test : Condition}
      {thenPart statements : List Statement} {inside visits : List Visit} :
    isStatement node = true → branching? node = some inner →
    (∀ part ∈ inner.children, part.kind ≠ .kwElse) → BlockVisits inner.children thenPart inside →
    BlockVisits nodes statements visits →
    BlockVisits (node :: nodes) (.branch (spanOf node) test thenPart none :: statements)
      (⟨node, true⟩ :: (inside ++ visits))
  | branches {node inner token : Node} {nodes before after : List Node} {test : Condition}
      {thenPart elsePart statements : List Statement} {inside insideElse visits : List Visit} :
    isStatement node = true → branching? node = some inner →
    inner.children = before ++ token :: after → (∀ part ∈ before, part.kind ≠ .kwElse) →
    token.kind = .kwElse → BlockVisits before thenPart inside → BlockVisits after elsePart insideElse →
    BlockVisits nodes statements visits →
    BlockVisits (node :: nodes) (.branch (spanOf node) test thenPart (some elsePart) :: statements)
      (⟨node, true⟩ :: (inside ++ insideElse ++ visits))

/-- Some nodes are visited one after the other; the spans of those that are kept are those given. -/
structure ItemVisits (nodes : List Node) (spans : List Span) (visits : List Visit) : Prop where
  visited : visits.map (·.node) = nodes
  kept : (visits.filter (·.kept)).map (fun v => spanOf v.node) = spans

/-- The header of a function. -/
def header? (node : Node) : Option Node := node.significant.find? (·.kind == .functionDefinition)

/-- The nodes in the parameter list of a header. -/
def listed (header : Node) : List Node := ((header.child? .parameters).map (·.significant)).getD []

/-- The parts of a function that is kept are visited. -/
inductive FunctionVisits (node : Node) (function : Function) : List Visit → Prop
  | mk {header : Node} {parameters locals body : List Visit} :
    function.span = spanOf node → header? node = some header →
    ItemVisits (listed header) (function.parameters.map (·.span)) parameters →
    ItemVisits (node.significant.filter (·.kind == .variableDeclaration))
      (function.locals.map (·.span)) locals →
    BlockVisits node.significant function.body body →
    FunctionVisits node function (parameters ++ locals ++ body)

/-- The top-level nodes of a tree are visited; the functions that are kept are those given. -/
inductive ProgramVisits : List Node → List Function → List Visit → Prop
  | nil : ProgramVisits [] [] []
  | other {node : Node} {nodes : List Node} {functions : List Function} {visits : List Visit} :
    node.kind ≠ .function → ProgramVisits nodes functions visits →
    ProgramVisits (node :: nodes) functions visits
  | lose {node : Node} {nodes : List Node} {functions : List Function} {visits : List Visit} :
    node.kind = .function → ProgramVisits nodes functions visits →
    ProgramVisits (node :: nodes) functions (⟨node, false⟩ :: visits)
  | keep {node : Node} {nodes : List Node} {function : Function} {functions : List Function}
      {inside visits : List Visit} :
    node.kind = .function → FunctionVisits node function inside →
    ProgramVisits nodes functions visits →
    ProgramVisits (node :: nodes) (function :: functions) (⟨node, true⟩ :: (inside ++ visits))

/-! ## Lost nodes -/

@[simp] theorem lost_append (a b : List Visit) : lost (a ++ b) = lost a ++ lost b := by
  simp [lost]

@[simp] theorem lost_kept (node : Node) (visits : List Visit) :
    lost (⟨node, true⟩ :: visits) = lost visits := by
  simp [lost]

@[simp] theorem lost_lost (node : Node) (visits : List Visit) :
    lost (⟨node, false⟩ :: visits) = node :: lost visits := by
  simp [lost]

theorem mem_lost {visits : List Visit} {node : Node} :
    node ∈ lost visits ↔ ⟨node, false⟩ ∈ visits := by
  constructor
  · intro h
    obtain ⟨v, hv, rfl⟩ := List.mem_map.mp h
    obtain ⟨hmem, hkept⟩ := List.mem_filter.mp hv
    obtain ⟨node, kept⟩ := v
    obtain rfl : kept = false := by simpa using hkept
    exact hmem
  · exact fun h => List.mem_map.mpr ⟨_, List.mem_filter.mpr ⟨h, rfl⟩, rfl⟩

/-! ## Lowering visits what it should -/

theorem significant_sublist (node : Node) : node.significant.Sublist node.children :=
  List.filter_sublist.trans List.filter_sublist

theorem mem_children_of_significant {node child : Node} (h : child ∈ node.significant) :
    child ∈ node.children :=
  (significant_sublist node).subset h

theorem require_eq_ok {α : Type} {part : Part} {found : Option α} {a : α} :
    require part found = .ok a ↔ found = some a := by
  cases found with
  | none => exact ⟨(fun h => by cases h), fun h => by cases h⟩
  | some b => exact ⟨fun h => by cases h; rfl, fun h => by cases h; rfl⟩

theorem map_eq_ok {ε α β : Type} {x : Except ε α} {f : α → β} {b : β} :
    x.map f = .ok b ↔ ∃ a, x = .ok a ∧ f a = b := by
  cases x with
  | error e =>
    refine ⟨(fun h => by cases h), ?_⟩
    rintro ⟨_, h, -⟩
    cases h
  | ok a => exact ⟨fun h => ⟨a, rfl, by cases h; rfl⟩, fun ⟨_, h, h'⟩ => by cases h; cases h'; rfl⟩

theorem bind_eq_ok {ε α β : Type} {x : Except ε α} {f : α → Except ε β} {b : β} :
    x >>= f = .ok b ↔ ∃ a, x = .ok a ∧ f a = .ok b := by
  cases x with
  | error e => exact ⟨fun h => (nomatch h), fun ⟨_, h, _⟩ => (nomatch h)⟩
  | ok a => exact ⟨fun h => ⟨a, rfl, h⟩, fun ⟨_, h, h'⟩ => by cases h; exact h'⟩

/-- What is left of a text that is lowered. -/
abbrev leftOut (dropped : List Dropped) : List Node := dropped.map (·.node)

/-- Blocks are lowered to what their visits keep. -/
def Visits (block : BlockLowerer) : Prop := ∀ nodes lowered, block nodes = .ok lowered →
  ∃ visits, BlockVisits nodes lowered.1 visits ∧ lost visits = leftOut lowered.2

section Statements

variable {source : Source} {levels : Nat} {block : BlockLowerer}

/-- A statement with branches is lowered as a whole: the condition and both branches. -/
theorem branchWith_ok {condition : Node → Lowered Condition} {span : Span} {node : Node}
    {statement : Statement} {dropped : List Dropped}
    (h : branchWith condition block span node = .ok (statement, dropped)) :
    (∃ test thenPart, (∀ part ∈ node.children, part.kind ≠ .kwElse) ∧
      block node.children = .ok (thenPart, dropped) ∧ statement = .branch span test thenPart none) ∨
    ∃ test before token after thenPart elsePart inside insideElse,
      node.children = before ++ token :: after ∧ (∀ part ∈ before, part.kind ≠ .kwElse) ∧
      token.kind = .kwElse ∧ block before = .ok (thenPart, inside) ∧
      block after = .ok (elsePart, insideElse) ∧
      statement = .branch span test thenPart (some elsePart) ∧ dropped = inside ++ insideElse := by
  rw [branchWith] at h
  obtain ⟨tested, -, h⟩ := bind_eq_ok.mp h
  obtain ⟨test, -, h⟩ := bind_eq_ok.mp h
  have hsplit := (List.takeWhile_append_dropWhile (p := (·.kind != .kwElse)) (l := node.children)).symm
  have hbefore : ∀ part ∈ node.children.takeWhile (·.kind != .kwElse), part.kind ≠ .kwElse := by
    intro part hpart
    have himp := List.mem_takeWhile_imp hpart
    exact bne_iff_ne.mp himp
  have hhead := List.head?_dropWhile_not (p := (·.kind != .kwElse)) (l := node.children)
  simp only [List.span_eq_takeWhile_dropWhile] at h
  generalize node.children.takeWhile (·.kind != .kwElse) = before at h hsplit hbefore
  generalize node.children.dropWhile (·.kind != .kwElse) = rest at h hsplit hhead
  obtain ⟨⟨thenPart, inside⟩, hthen, h⟩ := bind_eq_ok.mp h
  cases rest with
  | nil =>
    cases h
    rw [List.append_nil] at hsplit
    rw [hsplit]
    exact .inl ⟨test, thenPart, hbefore, hthen, rfl⟩
  | cons token after =>
    obtain ⟨⟨elsePart, insideElse⟩, helse, h⟩ := bind_eq_ok.mp h
    cases h
    have htoken : token.kind = .kwElse := by simpa using hhead
    exact .inr ⟨test, before, token, after, thenPart, elsePart, inside, insideElse, hsplit, hbefore,
      htoken, hthen, helse, rfl, rfl⟩

/-- A statement is lowered to one with its span, and loses nothing unless it has branches. -/
theorem statementWith_ok {node : Node} {statement : Statement} {dropped : List Dropped}
    (hk : node.kind = .statementOrExpression)
    (h : statementWith source levels block node = .ok (statement, dropped)) :
    (branching? node = none ∧ statement.span = spanOf node ∧ dropped = []) ∨
    ∃ inner, branching? node = some inner ∧
      branchWith (condition source levels) block (spanOf node) inner = .ok (statement, dropped) := by
  rw [statementWith] at h
  obtain ⟨inner, hinner, h⟩ := bind_eq_ok.mp h
  have hhead : node.significant.head? = some inner := by
    cases hs : node.significant.head? with
    | none =>
      rw [hs] at hinner
      cases hinner
    | some found =>
      rw [hs] at hinner
      cases hinner
      rfl
  have hbranching : branching? node = if inner.kind == .ifStatement then some inner else none := by
    rw [branching?, hk, hhead]
    rfl
  split at h
  · rename_i hkind
    obtain ⟨⟨target, targetSpan⟩, -, h⟩ := bind_eq_ok.mp h
    obtain ⟨value, -, h⟩ := bind_eq_ok.mp h
    obtain ⟨lowered, -, h⟩ := bind_eq_ok.mp h
    cases h
    exact .inl ⟨by rw [hbranching, hkind]; rfl, rfl, rfl⟩
  · rename_i hkind
    exact .inr ⟨inner, by rw [hbranching, hkind]; rfl, h⟩
  · rename_i hkind
    obtain ⟨⟨function, arguments⟩, -, h⟩ := bind_eq_ok.mp h
    cases h
    exact .inl ⟨by rw [hbranching, hkind]; rfl, rfl, rfl⟩
  · cases h

theorem returnStatement_ok {node : Node} {statement : Statement} {dropped : List Dropped}
    (h : returnStatement source levels node = .ok (statement, dropped)) :
    statement.span = spanOf node ∧ dropped = [] := by
  rw [returnStatement] at h
  split at h
  · cases h
    exact ⟨rfl, rfl⟩
  · rename_i value _
    cases hv : expression source levels value with
    | error cause =>
      rw [hv] at h
      cases h
    | ok lowered =>
      rw [hv] at h
      cases h
      exact ⟨rfl, rfl⟩

/-- One statement that is kept, before the others. -/
theorem BlockVisits.keep_statement (hb : Visits block) {node : Node} {nodes : List Node}
    {statement : Statement} {statements : List Statement} {dropped : List Dropped}
    {visits : List Visit} (hk : node.kind = .statementOrExpression)
    (h : statementWith source levels block node = .ok (statement, dropped))
    (hrest : BlockVisits nodes statements visits) :
    ∃ inside, BlockVisits (node :: nodes) (statement :: statements)
      (⟨node, true⟩ :: (inside ++ visits)) ∧ lost inside = leftOut dropped := by
  have hstatement : isStatement node = true := by rw [isStatement, hk]; rfl
  rcases statementWith_ok hk h with ⟨hnone, hspan, rfl⟩ | ⟨inner, hsome, hbranch⟩
  · exact ⟨[], .keep hstatement hnone hspan hrest, rfl⟩
  · rcases branchWith_ok hbranch with ⟨test, thenPart, helse, hthen, rfl⟩ |
      ⟨test, before, token, after, thenPart, elsePart, in1, in2, hsplit, hbefore, htoken, h1, h2, rfl, rfl⟩
    · obtain ⟨inside, hv, hlost⟩ := hb _ _ hthen
      exact ⟨inside, .branch hstatement hsome helse hv hrest, hlost⟩
    · obtain ⟨inside, hv1, hlost1⟩ := hb _ _ h1
      obtain ⟨insideElse, hv2, hlost2⟩ := hb _ _ h2
      refine ⟨inside ++ insideElse, .branches hstatement hsome hsplit hbefore htoken hv1 hv2 hrest, ?_⟩
      rw [lost_append, hlost1, hlost2, leftOut, leftOut, leftOut, List.map_append]

theorem visits_statementsWith (hb : Visits block) (nodes : List Node) :
    ∃ visits, BlockVisits nodes (statementsWith source levels block nodes).1 visits ∧
      lost visits = leftOut (statementsWith source levels block nodes).2 := by
  induction nodes with
  | nil => exact ⟨[], .nil, rfl⟩
  | cons node nodes ih =>
    obtain ⟨visits, hrest, hlost⟩ := ih
    rw [statementsWith]
    generalize statementsWith source levels block nodes = rest at hrest hlost
    obtain ⟨statements, dropped⟩ := rest
    simp only at hrest hlost ⊢
    split
    · rename_i hnone
      refine ⟨visits, .other ?_ hrest, hlost⟩
      rw [isStatement]
      split at hnone <;> simp_all
    · rename_i statement inside hsome
      split at hsome
      · rename_i hk
        obtain ⟨inner, hv, hinner⟩ := BlockVisits.keep_statement hb hk (Option.some.inj hsome) hrest
        exact ⟨_, hv, by simp [hinner, hlost]⟩
      · rename_i hk
        obtain ⟨hspan, rfl⟩ := returnStatement_ok (Option.some.inj hsome)
        refine ⟨_, .keep (by rw [isStatement, hk]; rfl) (by rw [branching?, hk]; rfl) hspan hrest, ?_⟩
        simpa using hlost
      · cases hsome
    · rename_i cause hsome
      refine ⟨_, .lose ?_ hrest, by simp [hlost]⟩
      rw [isStatement]
      split at hsome <;> simp_all

end Statements

/-- **A block is lowered to what its visits keep.** -/
theorem visits_block (source : Source) (levels : Nat) : Visits (block source levels) := by
  induction levels with
  | zero =>
    intro nodes lowered h
    rw [block] at h
    cases h
  | succ levels ih =>
    intro nodes lowered h
    rw [block] at h
    cases h
    exact visits_statementsWith ih nodes

/-! ## Functions and programs -/

theorem visits_lowerAll {α : Type} (lower : Node → Lowered α) (span : α → Span)
    (hspan : ∀ node a, lower node = .ok a → span a = spanOf node) (nodes : List Node) :
    ∃ visits, ItemVisits nodes ((lowerAll lower nodes).1.map span) visits ∧
      lost visits = leftOut (lowerAll lower nodes).2 := by
  induction nodes with
  | nil => exact ⟨[], ⟨rfl, rfl⟩, rfl⟩
  | cons node nodes ih =>
    obtain ⟨visits, ⟨hvisited, hkept⟩, hlost⟩ := ih
    rw [lowerAll]
    generalize lowerAll lower nodes = rest at hkept hlost
    cases hl : lower node with
    | ok a =>
      refine ⟨⟨node, true⟩ :: visits, ⟨by simp [hvisited], ?_⟩, by simp [hlost]⟩
      simp [hkept, hspan node a hl]
    | error cause => exact ⟨⟨node, false⟩ :: visits, ⟨by simp [hvisited], by simp [hkept]⟩, by simp [hlost]⟩

theorem span_parameter {source : Source} {node : Node} {p : Parameter}
    (h : parameter source node = .ok p) : p.span = spanOf node := by
  rw [parameter] at h
  obtain ⟨type, -, h⟩ := bind_eq_ok.mp h
  obtain ⟨⟨name, nameSpan⟩, -, h⟩ := bind_eq_ok.mp h
  split at h
  split at h
  · cases h
    rfl
  · obtain ⟨value, -, h⟩ := bind_eq_ok.mp h
    obtain ⟨default, -, h⟩ := bind_eq_ok.mp h
    cases h
    rfl

theorem span_declaration {source : Source} {node : Node} {d : Declaration}
    (h : declaration source node = .ok d) : d.span = spanOf node := by
  rw [declaration] at h
  obtain ⟨type, -, h⟩ := bind_eq_ok.mp h
  obtain ⟨declared, -, h⟩ := bind_eq_ok.mp h
  cases h
  rfl

theorem visits_function {source : Source} {node : Node} {doc : Option Doc} {f : Function}
    {dropped : List Dropped} (h : function source node doc = .ok (f, dropped)) :
    ∃ visits, FunctionVisits node f visits ∧ lost visits = leftOut dropped := by
  rw [function] at h
  obtain ⟨header, hheader, h⟩ := bind_eq_ok.mp h
  obtain ⟨⟨name, nameSpan⟩, -, h⟩ := bind_eq_ok.mp h
  obtain ⟨⟨body, lostStatements⟩, hbody, h⟩ := bind_eq_ok.mp h
  cases h
  obtain ⟨parameters, hp, hlostp⟩ := visits_lowerAll (parameter source) (·.span)
    (fun _ _ => span_parameter) (listed header)
  obtain ⟨locals, hl, hlostl⟩ := visits_lowerAll (declaration source) (·.span)
    (fun _ _ => span_declaration) (node.significant.filter (·.kind == .variableDeclaration))
  obtain ⟨statements, hb, hlostb⟩ := visits_block source maxNesting _ _ hbody
  have hhead : header? node = some header := by
    rw [header?]
    cases hs : node.significant.find? (·.kind == .functionDefinition) with
    | none =>
      rw [hs] at hheader
      cases hheader
    | some found =>
      rw [hs] at hheader
      cases hheader
      rfl
  refine ⟨_, .mk rfl hhead hp hl hb, ?_⟩
  rw [lost_append, lost_append, hlostp, hlostl, hlostb]
  simp [leftOut, listed]

/-- What lowering makes of top-level nodes is what its visits keep, whatever has been said before. -/
theorem visits_functionsFrom (source : Source) (nodes : List Node) (doc : Doc) :
    ∃ visits, ProgramVisits nodes (functionsFrom source doc nodes).1 visits ∧
      lost visits = leftOut (functionsFrom source doc nodes).2 := by
  induction nodes generalizing doc with
  | nil => exact ⟨[], .nil, rfl⟩
  | cons node nodes ih =>
    have hother : ∀ doc, node.kind ≠ .function → ∃ visits,
        ProgramVisits (node :: nodes) (functionsFrom source doc nodes).1 visits ∧
          lost visits = leftOut (functionsFrom source doc nodes).2 := by
      intro doc hk
      obtain ⟨visits, hv, hlost⟩ := ih doc
      exact ⟨visits, .other hk hv, hlost⟩
    rw [functionsFrom]
    split
    · rename_i hk
      exact hother _ (by rw [hk]; decide)
    · rename_i hk
      exact hother _ (by rw [hk]; decide)
    · rename_i hk
      split <;> exact hother _ (by rw [hk]; decide)
    · rename_i hk
      obtain ⟨visits, hrest, hlost⟩ := ih {}
      generalize functionsFrom source {} nodes = rest at hrest hlost
      cases hf : function source node (if doc.isEmpty then none else some doc) with
      | ok lowered =>
        obtain ⟨inside, hinside, hlosti⟩ := visits_function hf
        exact ⟨_, .keep hk hinside hrest, by simp [hlost, hlosti]⟩
      | error cause => exact ⟨_, .lose hk hrest, by simp [hlost]⟩
    · rename_i hk
      exact hother _ hk

/-- **Lowering keeps and leaves out what its visits keep and lose.** -/
theorem exists_visits_lower (source : Source) (root : Node) :
    ∃ visits, ProgramVisits root.significant (lower source root).1 visits ∧
      lost visits = leftOut (lower source root).2 :=
  visits_functionsFrom source root.significant {}

end Cicode.Program

import Cicode.Proofs.Program.Spans
import Cicode.Proofs.Tree.Names

/-!
# The names in a program

Lowering takes every name of a program from a node that the syntax tree shows as a name
(`names_parse`): what holds of the texts of these nodes holds of all names of the program.

Main statement (`names_are_no_keywords`): the names of a program are words of its text that stand at
leaves of the syntax tree, and no keyword in any case is among them; and of all words the keywords are
those that the automaton of keywords finds.
-/

namespace Cicode.Program

open Text Cicode.Lex Cicode.Tree Grammar

/-! ## Names -/

mutual

/-- The variables and functions that an expression names. -/
def Expr.names : Expr → List String
  | .number .. | .string .. => []
  | .variable _ name => [name]
  | .negate _ operand => operand.names
  | .binary _ _ left right => left.names ++ right.names
  | .call _ function arguments => function :: Expr.namesAll arguments

/-- The names in several expressions. -/
def Expr.namesAll : List Expr → List String
  | [] => []
  | first :: rest => first.names ++ Expr.namesAll rest

end

/-- The names in a condition. -/
def Condition.names : Condition → List String
  | .expr _ value => value.names
  | .not _ operand => operand.names
  | .binary _ _ left right => left.names ++ right.names

mutual

/-- The names in a statement: the variable it sets, the function it calls, and those inside it. -/
def Statement.names : Statement → List String
  | .assign _ target _ value => target :: value.names
  | .call _ function arguments => function :: Expr.namesAll arguments
  | .branch _ condition thenPart elsePart =>
    condition.names ++ (Statement.namesAll thenPart ++ Statement.namesElse elsePart)
  | .return _ value => (value.map Expr.names).getD []

/-- The names in several statements. -/
def Statement.namesAll : List Statement → List String
  | [] => []
  | first :: rest => first.names ++ Statement.namesAll rest

/-- The names in an optional branch. -/
def Statement.namesElse : Option (List Statement) → List String
  | none => []
  | some block => Statement.namesAll block

end

/-- The names in a declared variable: its own and that of the variable it begins with. -/
def Variable.names (v : Variable) : List String :=
  v.name :: match v.initializer with
    | some (.variable name, _) => [name]
    | _ => []

/-- All names in a function. -/
def Function.names (f : Function) : List String :=
  f.name :: (f.parameters.map (·.name) ++
    (f.locals.flatMap (·.declared.flatMap Variable.names) ++ Statement.namesAll f.body))

/-! ## Nodes that show names -/

variable {Q : String → Prop} {source : Source} {node : Node}

/-- The property holds of the text of a node if the node shows a name; the field of a name refers to such
nodes only. -/
structure ShowsName (Q : String → Prop) (source : Source) (node : Node) : Prop where
  text : node.kind ∈ nameKinds → node.isMissing = false → Q (String.ofList (textOf source node))
  field : node.label.field = some .name → node.kind ∈ nameKinds

/-- The property holds of the texts of all names below a node. -/
abbrev NamesIn (Q : String → Prop) (source : Source) : Node → Prop :=
  Node.Everywhere (ShowsName Q source)

/-- A name is read from a node that shows one. -/
theorem name_identifier {part : Part} {found : Option Node} {name : String} {span : Span}
    (h : identifier source part found = .ok (name, span)) (hn : ∀ inner ∈ found, NamesIn Q source inner)
    (hkind : ∀ inner ∈ found, inner.kind ∈ nameKinds) : Q name := by
  cases found with
  | none => cases h
  | some inner =>
    rw [identifier] at h
    split at h
    · cases h
    · rename_i hmissing
      cases h
      exact (hn inner rfl).self.text (hkind inner rfl) (by simpa using hmissing)

/-- A name is read from the node that the field of a name refers to. -/
theorem name_child? {part : Part} {name : String} {span : Span} (hn : NamesIn Q source node)
    (h : identifier source part (node.child? .name) = .ok (name, span)) : Q name := by
  refine name_identifier h (fun inner hin => hn.child? hin) fun inner hin => ?_
  have hfield := List.find?_some (p := fun child : Node => child.label.field == some .name) hin
  exact (hn.child? hin).self.field (beq_iff_eq.mp hfield)

/-- A name is read from a node that is known by its kind. -/
theorem name_find? {part : Part} {name : String} {span : Span} {kind : Symbol} (hk : kind ∈ nameKinds)
    {nodes : List Node} (hn : ∀ inner ∈ nodes, NamesIn Q source inner)
    (h : identifier source part (nodes.find? (·.kind == kind)) = .ok (name, span)) : Q name := by
  refine name_identifier h (fun inner hin => hn inner (List.mem_of_find?_eq_some hin)) fun inner hin => ?_
  have hkind := List.find?_some (p := fun child : Node => child.kind == kind) hin
  exact beq_iff_eq.mp hkind ▸ hk

theorem NamesIn.significant (hn : NamesIn Q source node) :
    ∀ inner ∈ node.significant, NamesIn Q source inner :=
  fun _ hin => Node.Everywhere.significant hn hin

/-! ## Expressions -/

@[simp] theorem Expr.names_withSpan (span : Span) (e : Expr) : (e.withSpan span).names = e.names := by
  cases e <;> rfl

/-- The names in what is lowered have the property. -/
def Named (Q : String → Prop) (source : Source) {α : Type} (names : α → List String)
    (lower : Node → Lowered α) : Prop :=
  ∀ node a, lower node = .ok a → NamesIn Q source node → ∀ name ∈ names a, Q name

theorem Named.mapM {lower : Node → Lowered Expr} (hl : Named Q source Expr.names lower)
    {nodes : List Node} (hn : ∀ node ∈ nodes, NamesIn Q source node) {lowered : List Expr}
    (h : nodes.mapM lower = .ok lowered) : ∀ name ∈ Expr.namesAll lowered, Q name := by
  induction nodes generalizing lowered with
  | nil =>
    cases h
    exact fun _ hname => by cases hname
  | cons node rest ih =>
    rw [List.mapM_cons] at h
    obtain ⟨first, hfirst, h⟩ := bind_eq_ok.mp h
    obtain ⟨others, hothers, h⟩ := bind_eq_ok.mp h
    cases h
    obtain ⟨hnode, hrest⟩ := List.forall_mem_cons.mp hn
    rw [Expr.namesAll, List.forall_mem_append]
    exact ⟨hl node first hfirst hnode, ih hrest hothers⟩

theorem named_callWith {argument : Node → Lowered Expr} (ha : Named Q source Expr.names argument) :
    Named Q source (fun call : String × List Expr => call.1 :: Expr.namesAll call.2)
      (callWith source argument) := by
  intro node call h hn
  rw [callWith] at h
  obtain ⟨⟨function, span⟩, hfunction, h⟩ := bind_eq_ok.mp h
  obtain ⟨arguments, harguments, h⟩ := bind_eq_ok.mp h
  cases h
  refine List.forall_mem_cons.mpr ⟨name_find? (by decide) hn.significant hfunction, ?_⟩
  exact ha.mapM (fun inner hin => hn.significant inner (List.mem_of_mem_filter hin)) harguments

theorem named_atomWith {inner : Node → Lowered Expr} (hi : Named Q source Expr.names inner) :
    Named Q source Expr.names (atomWith source inner) := by
  intro node e h hn
  rw [atomWith] at h
  obtain ⟨first, hfirst, h⟩ := bind_eq_ok.mp h
  rw [require_eq_ok] at hfirst
  have hoperand : ∀ operand, require Part.expression node.significant.head? = .ok operand →
      NamesIn Q source operand := fun operand ho =>
    hn.significant operand (List.mem_of_head? (require_eq_ok.mp ho))
  split at h
  · obtain ⟨operand, ho, h⟩ := bind_eq_ok.mp h
    obtain ⟨value, hvalue, h⟩ := bind_eq_ok.mp h
    cases h
    exact hi operand value hvalue (hoperand operand ho)
  · obtain ⟨operand, ho, h⟩ := bind_eq_ok.mp h
    obtain ⟨value, hvalue, h⟩ := bind_eq_ok.mp h
    cases h
    rw [Expr.names_withSpan]
    exact hi operand value hvalue (hoperand operand ho)
  · cases h
  · split at h
    · cases h
    · exact hi first e h (hn.firstToken hfirst)

theorem named_expressionWith {inner : Node → Lowered Expr} (hi : Named Q source Expr.names inner) :
    Named Q source Expr.names (expressionWith source inner) := by
  intro node e h hn
  have hparts := NamesIn.significant hn
  rw [expressionWith] at h
  simp only at h
  split at h
  · split at h
    · rename_i operand heq
      rw [heq, List.forall_mem_singleton] at hparts
      split at h
      · exact named_atomWith hi operand e h hparts
      · exact hi operand e h hparts
    · rename_i left operator right heq
      rw [heq] at hparts
      obtain ⟨operator, -, h⟩ := bind_eq_ok.mp h
      obtain ⟨first, hleft, h⟩ := bind_eq_ok.mp h
      obtain ⟨second, hright, h⟩ := bind_eq_ok.mp h
      cases h
      rw [Expr.names, List.forall_mem_append]
      exact ⟨hi left first hleft (hparts left (by simp)), hi right second hright (hparts right (by simp))⟩
    · cases h
  · exact named_atomWith hi node e h hn
  · obtain ⟨call, hcall, h⟩ := bind_eq_ok.mp h
    cases h
    rw [Expr.names]
    exact named_callWith hi node call hcall hn
  · rename_i hkind
    obtain ⟨⟨name, span⟩, hname, h⟩ := bind_eq_ok.mp h
    cases h
    rw [Expr.names, List.forall_mem_singleton]
    refine name_identifier hname (fun _ hin => Option.some.inj hin ▸ hn) fun _ hin => ?_
    rw [← Option.some.inj hin, hkind]
    decide
  · obtain ⟨value, -, h⟩ := bind_eq_ok.mp h
    cases value <;> cases h <;> exact fun _ hname => by cases hname
  · obtain ⟨value, -, h⟩ := bind_eq_ok.mp h
    cases value <;> cases h <;> exact fun _ hname => by cases hname
  · cases h

theorem named_expression (levels : Nat) : Named Q source Expr.names (expression source levels) := by
  induction levels with
  | zero => exact fun _ _ h => by cases h
  | succ levels ih => exact named_expressionWith ih

/-! ## Conditions -/

@[simp] theorem Condition.names_withSpan (span : Span) (c : Condition) :
    (c.withSpan span).names = c.names := by
  cases c <;> rfl

theorem named_conditionalAtomWith {expr : Node → Lowered Expr} {condition atom : Node → Lowered Condition}
    (he : Named Q source Expr.names expr) (hc : Named Q source Condition.names condition)
    (ha : Named Q source Condition.names atom) :
    Named Q source Condition.names (conditionalAtomWith expr condition atom) := by
  intro node c h hn
  rw [conditionalAtomWith] at h
  obtain ⟨first, -, h⟩ := bind_eq_ok.mp h
  obtain ⟨operand, hoperand, h⟩ := bind_eq_ok.mp h
  have hin : NamesIn Q source operand :=
    hn.significant operand (List.mem_of_head? (require_eq_ok.mp hoperand))
  split at h
  · split at h
    · obtain ⟨inner, hinner, h⟩ := bind_eq_ok.mp h
      cases h
      exact ha operand inner hinner hin
    · obtain ⟨value, hvalue, h⟩ := bind_eq_ok.mp h
      cases h
      exact he operand value hvalue hin
  · obtain ⟨inner, hinner, h⟩ := bind_eq_ok.mp h
    cases h
    rw [Condition.names_withSpan]
    exact hc operand inner hinner hin
  · obtain ⟨value, hvalue, h⟩ := bind_eq_ok.mp h
    cases h
    exact he operand value hvalue hin

theorem NamesIn.innermost (hn : NamesIn Q source node) (fuel : Nat) :
    NamesIn Q source (innermost fuel node) := by
  induction fuel generalizing node with
  | zero => exact hn
  | succ fuel ih =>
    rw [Program.innermost]
    split
    · rename_i operand heq
      split
      · exact ih (hn.significant operand (by rw [heq]; exact List.mem_singleton_self _))
      · exact hn
    · exact hn

theorem named_conditionWith {expr : Node → Lowered Expr} {atom : Node → Lowered Condition}
    {nested : Lowered (Node → Lowered Condition)} (he : Named Q source Expr.names expr)
    (ha : Named Q source Condition.names atom)
    (hnested : ∀ inner, nested = .ok inner → Named Q source Condition.names inner) :
    Named Q source Condition.names (conditionWith expr atom nested) := by
  intro node c h hn
  rw [conditionWith] at h
  have hparts := (NamesIn.innermost hn node.size).significant
  generalize innermost node.size node = node at h hparts
  split at h
  · rename_i operand heq
    rw [heq, List.forall_mem_singleton] at hparts
    split at h
    · exact ha operand c h hparts
    · obtain ⟨value, hvalue, rfl⟩ := map_eq_ok.mp h
      exact he operand value hvalue hparts
  · rename_i left operator right heq
    rw [heq] at hparts
    obtain ⟨inner, hinner, h⟩ := bind_eq_ok.mp h
    obtain ⟨operator, -, h⟩ := bind_eq_ok.mp h
    obtain ⟨first, hleft, h⟩ := bind_eq_ok.mp h
    obtain ⟨second, hright, h⟩ := bind_eq_ok.mp h
    cases h
    rw [Condition.names, List.forall_mem_append]
    exact ⟨hnested inner hinner left first hleft (hparts left (by simp)),
      hnested inner hinner right second hright (hparts right (by simp))⟩
  · cases h

/-- Conditions and their atoms are lowered together, one level further in each time. -/
theorem named_condition (levels : Nat) : Named Q source Condition.names (condition source levels) ∧
    Named Q source Condition.names (conditionalAtom source levels) := by
  have hdeep : ∀ {α : Type} (names : α → List String),
      Named Q source names fun _ => (.error .tooDeep : Lowered α) := fun _ _ _ h => by cases h
  induction levels with
  | zero =>
    refine ⟨fun node c h => ?_, fun _ _ h => by cases h⟩
    rw [condition] at h
    exact named_conditionWith (hdeep _) (hdeep _) (by rintro inner ⟨⟩) node c h
  | succ levels ih =>
    have hatom := named_conditionalAtomWith (named_expression levels) ih.1 ih.2
    refine ⟨fun node c h => ?_, fun node c h => ?_⟩
    · rw [condition] at h
      refine named_conditionWith (named_expression (levels + 1)) hatom (fun inner hinner => ?_) node c h
      cases hinner
      exact ih.1
    · rw [conditionalAtom] at h
      exact hatom node c h

/-! ## Statements -/

/-- Blocks are lowered to statements whose names have the property. -/
def BlockNamed (Q : String → Prop) (source : Source) (block : BlockLowerer) : Prop :=
  ∀ nodes lowered, block nodes = .ok lowered → (∀ node ∈ nodes, NamesIn Q source node) →
    ∀ name ∈ Statement.namesAll lowered.1, Q name

/-- The condition of an IF is the first of its parts that is one. -/
theorem test_of_branchWith {test : Node → Lowered Condition} {block : BlockLowerer} {span : Span}
    {lowered : Statement × List Dropped} (h : branchWith test block span node = .ok lowered) :
    ∃ part condition thenPart elsePart, node.children.find? (·.kind == .conditionalStatement) = some part ∧
      test part = .ok condition ∧ lowered.1 = .branch span condition thenPart elsePart := by
  rw [branchWith] at h
  obtain ⟨part, hpart, h⟩ := bind_eq_ok.mp h
  obtain ⟨condition, hcondition, h⟩ := bind_eq_ok.mp h
  rw [require_eq_ok] at hpart
  simp only at h
  obtain ⟨⟨thenPart, dropped⟩, -, h⟩ := bind_eq_ok.mp h
  simp only at h
  split at h
  · cases h
    exact ⟨part, condition, thenPart, none, hpart, hcondition, rfl⟩
  · obtain ⟨⟨elsePart, alsoDropped⟩, -, h⟩ := bind_eq_ok.mp h
    cases h
    exact ⟨part, condition, thenPart, some elsePart, hpart, hcondition, rfl⟩

theorem names_branchWith {levels : Nat} {block : BlockLowerer} (hb : BlockNamed Q source block)
    {span : Span} {lowered : Statement × List Dropped}
    (h : branchWith (condition source levels) block span node = .ok lowered)
    (hn : NamesIn Q source node) : ∀ name ∈ lowered.1.names, Q name := by
  have hparts : ∀ part ∈ node.children, NamesIn Q source part := fun part hpart =>
    Node.Everywhere.child hn hpart
  obtain ⟨part, test, thenPart, elsePart, hfind, htest, hlowered⟩ := test_of_branchWith h
  have hpart := List.mem_of_find?_eq_some hfind
  have hcondition := (named_condition levels).1 part test htest (hparts part hpart)
  obtain ⟨statement, dropped⟩ := lowered
  rcases branchWith_ok h with ⟨_, _, -, hthen, rfl⟩ |
    ⟨_, before, token, after, _, _, in1, in2, hsplit, -, -, h1, h2, rfl, -⟩
  · cases hlowered
    have hblock := hb _ _ hthen hparts
    simp only [Statement.names, Statement.namesElse, List.append_nil, List.forall_mem_append]
    exact ⟨hcondition, hblock⟩
  · cases hlowered
    rw [hsplit] at hparts
    have hbefore := hb _ _ h1 fun part hpart => hparts part (List.mem_append_left _ hpart)
    have hafter := hb _ _ h2 fun part hpart =>
      hparts part (List.mem_append_right _ (List.mem_cons_of_mem _ hpart))
    simp only [Statement.names, Statement.namesElse, List.forall_mem_append]
    exact ⟨hcondition, hbefore, hafter⟩

theorem names_statementWith {levels : Nat} {block : BlockLowerer} (hb : BlockNamed Q source block)
    {lowered : Statement × List Dropped} (h : statementWith source levels block node = .ok lowered)
    (hn : NamesIn Q source node) : ∀ name ∈ lowered.1.names, Q name := by
  rw [statementWith] at h
  obtain ⟨inner, hinner, h⟩ := bind_eq_ok.mp h
  have hin : NamesIn Q source inner :=
    hn.significant inner (List.mem_of_head? (require_eq_ok.mp hinner))
  split at h
  · obtain ⟨⟨target, targetSpan⟩, htarget, h⟩ := bind_eq_ok.mp h
    obtain ⟨value, hvalue, h⟩ := bind_eq_ok.mp h
    obtain ⟨e, he, h⟩ := bind_eq_ok.mp h
    cases h
    obtain ⟨right, hright, hhead⟩ := Option.bind_eq_some_iff.mp (require_eq_ok.mp hvalue)
    have hvalueIn : NamesIn Q source value :=
      (hin.significant right (List.mem_of_find?_eq_some hright)).significant value
        (List.mem_of_head? hhead)
    rw [Statement.names, List.forall_mem_cons]
    exact ⟨name_find? (by decide) hin.significant htarget, named_expression levels value e he hvalueIn⟩
  · exact names_branchWith hb h hin
  · obtain ⟨call, hcall, h⟩ := bind_eq_ok.mp h
    cases h
    rw [Statement.names]
    exact named_callWith (named_expression levels) inner call hcall hin
  · cases h

theorem names_returnStatement {levels : Nat} {lowered : Statement × List Dropped}
    (h : returnStatement source levels node = .ok lowered) (hn : NamesIn Q source node) :
    ∀ name ∈ lowered.1.names, Q name := by
  rw [returnStatement] at h
  split at h
  · cases h
    exact fun _ hname => by cases hname
  · rename_i value hvalue
    obtain ⟨e, he, rfl⟩ := map_eq_ok.mp h
    exact named_expression levels value e he (hn.significant value (List.mem_of_find?_eq_some hvalue))

theorem names_statementsWith {levels : Nat} {block : BlockLowerer} (hb : BlockNamed Q source block)
    {nodes : List Node} (hn : ∀ node ∈ nodes, NamesIn Q source node) :
    ∀ name ∈ Statement.namesAll (statementsWith source levels block nodes).1, Q name := by
  induction nodes with
  | nil => exact fun _ hname => by cases hname
  | cons node rest ih =>
    obtain ⟨hnode, hrest⟩ := List.forall_mem_cons.mp hn
    have ih := ih hrest
    rw [statementsWith]
    generalize statementsWith source levels block rest = tail at ih
    simp only
    split
    · exact ih
    · rename_i statement inside hsome
      rw [Statement.namesAll, List.forall_mem_append]
      refine ⟨?_, ih⟩
      split at hsome
      · exact names_statementWith hb (Option.some.inj hsome) hnode
      · exact names_returnStatement (Option.some.inj hsome) hnode
      · cases hsome
    · exact ih

theorem blockNamed_block (levels : Nat) : BlockNamed Q source (block source levels) := by
  induction levels with
  | zero => exact fun _ _ h => by cases h
  | succ levels ih =>
    intro nodes lowered h hn
    rw [block] at h
    cases h
    exact names_statementsWith ih hn

/-! ## Declarations and functions -/

theorem names_declarationPart {before after : List Variable}
    (h : declarationPart source before node = .ok after) (hn : NamesIn Q source node)
    (hb : ∀ v ∈ before, ∀ name ∈ v.names, Q name) : ∀ v ∈ after, ∀ name ∈ v.names, Q name := by
  rw [declarationPart] at h
  split at h
  · rename_i hkind
    obtain ⟨⟨name, span⟩, hname, h⟩ := bind_eq_ok.mp h
    cases h
    refine List.forall_mem_cons.mpr ⟨List.forall_mem_singleton.mpr ?_, hb⟩
    refine name_identifier hname (fun _ hin => Option.some.inj hin ▸ hn) fun _ hin => ?_
    rw [← Option.some.inj hin, hkind]
    decide
  · obtain ⟨value, hvalue, h⟩ := bind_eq_ok.mp h
    have hin : NamesIn Q source value :=
      hn.significant value (List.mem_of_head? (require_eq_ok.mp hvalue))
    have hlast : ∀ initializer, (∀ name, initializer = .variable name → Q name) →
        ∀ v ∈ initializeLast initializer (spanOf value) (spanOf node) before,
          ∀ name ∈ v.names, Q name := by
      intro initializer hi
      cases before with
      | nil => exact hb
      | cons last before =>
        obtain ⟨hlast, hbefore⟩ := List.forall_mem_cons.mp hb
        refine List.forall_mem_cons.mpr ⟨?_, hbefore⟩
        cases initializer with
        | literal value => exact List.forall_mem_singleton.mpr (List.forall_mem_cons.mp hlast).1
        | «variable» name =>
          exact List.forall_mem_cons.mpr
            ⟨(List.forall_mem_cons.mp hlast).1, List.forall_mem_singleton.mpr (hi name rfl)⟩
    simp only at h
    split at h
    · rename_i hkind
      obtain ⟨initializer, hinit, h⟩ := bind_eq_ok.mp h
      cases h
      obtain ⟨⟨name, span⟩, hname, rfl⟩ := map_eq_ok.mp hinit
      refine hlast _ fun found hfound => ?_
      cases hfound
      refine name_identifier hname (fun _ hfound => Option.some.inj hfound ▸ hin) fun _ hfound => ?_
      rw [← Option.some.inj hfound, hkind]
      decide
    · obtain ⟨initializer, hinit, h⟩ := bind_eq_ok.mp h
      cases h
      obtain ⟨literal, -, rfl⟩ := map_eq_ok.mp hinit
      exact hlast _ fun _ hfound => by cases hfound
  · cases h
    exact hb

theorem names_foldlM {nodes : List Node} {before after : List Variable}
    (h : nodes.foldlM (declarationPart source) before = .ok after)
    (hn : ∀ node ∈ nodes, NamesIn Q source node) (hb : ∀ v ∈ before, ∀ name ∈ v.names, Q name) :
    ∀ v ∈ after, ∀ name ∈ v.names, Q name := by
  induction nodes generalizing before with
  | nil =>
    cases h
    exact hb
  | cons node rest ih =>
    rw [List.foldlM_cons] at h
    obtain ⟨next, hnext, h⟩ := bind_eq_ok.mp h
    obtain ⟨hnode, hrest⟩ := List.forall_mem_cons.mp hn
    exact ih h hrest (names_declarationPart hnext hnode hb)

theorem names_declaration {d : Declaration} (h : declaration source node = .ok d)
    (hn : NamesIn Q source node) : ∀ v ∈ d.declared, ∀ name ∈ v.names, Q name := by
  rw [declaration] at h
  obtain ⟨type, -, h⟩ := bind_eq_ok.mp h
  obtain ⟨declared, hdeclared, h⟩ := bind_eq_ok.mp h
  cases h
  have hall := names_foldlM hdeclared hn.significant fun _ hv => by cases hv
  exact fun v hv => hall v (List.mem_reverse.mp hv)

theorem name_parameter {p : Parameter} (h : parameter source node = .ok p)
    (hn : NamesIn Q source node) : Q p.name := by
  rw [parameter] at h
  obtain ⟨type, -, h⟩ := bind_eq_ok.mp h
  obtain ⟨⟨name, span⟩, hname, h⟩ := bind_eq_ok.mp h
  simp only at h
  split at h
  · cases h
    exact name_child? hn hname
  · obtain ⟨value, -, h⟩ := bind_eq_ok.mp h
    obtain ⟨default, -, h⟩ := bind_eq_ok.mp h
    cases h
    exact name_child? hn hname

theorem names_function {doc : Option Doc} {f : Function} {dropped : List Dropped}
    (h : function source node doc = .ok (f, dropped)) (hn : NamesIn Q source node) :
    ∀ name ∈ f.names, Q name := by
  rw [function] at h
  obtain ⟨header, hheader, h⟩ := bind_eq_ok.mp h
  obtain ⟨⟨name, nameSpan⟩, hname, h⟩ := bind_eq_ok.mp h
  obtain ⟨⟨body, lostStatements⟩, hbody, h⟩ := bind_eq_ok.mp h
  cases h
  have hhead : NamesIn Q source header :=
    hn.significant header (List.mem_of_find?_eq_some (require_eq_ok.mp hheader))
  simp only [Function.names, List.forall_mem_cons, List.forall_mem_append]
  refine ⟨name_child? hhead hname, ?_, ?_, blockNamed_block maxNesting _ _ hbody hn.significant⟩
  · rw [List.forall_mem_map]
    intro p hp
    obtain ⟨part, hmem, hok⟩ := mem_lowerAll hp
    cases hlist : header.child? .parameters with
    | none =>
      rw [hlist] at hmem
      cases hmem
    | some list =>
      rw [hlist] at hmem
      exact name_parameter hok (NamesIn.significant (hhead.child? hlist) part hmem)
  · intro name hname
    obtain ⟨d, hd, hname⟩ := List.mem_flatMap.mp hname
    obtain ⟨v, hv, hname⟩ := List.mem_flatMap.mp hname
    obtain ⟨part, hmem, hok⟩ := mem_lowerAll hd
    exact names_declaration hok (hn.significant part (List.mem_of_mem_filter hmem)) v hv name hname

theorem names_functionsFrom {nodes : List Node} (hn : ∀ node ∈ nodes, NamesIn Q source node) :
    ∀ f ∈ (functionsFrom source {} nodes).1, ∀ name ∈ f.names, Q name := by
  intro f hf
  obtain ⟨node, hmem, _, _, hlowered, -⟩ :=
    mem_functionsFrom (P := fun _ => True) (fun _ _ _ _ _ => trivial) (.empty _) hf
  exact names_function hlowered (hn node hmem)

/-! ## The names of a program -/

/-- The name stands at a leaf of the syntax tree, and is a word that is no keyword. -/
def IsNameIn (chars : List Char) (root : Node) (name : String) : Prop :=
  ∃ leaf, root.Within leaf ∧ leaf.children = [] ∧
    name = String.ofList (textOf (.ofList chars) leaf) ∧ IsIdentifier name.toList

/-- What is shown as a name in a syntax tree is a name of a program. -/
theorem namesIn_parse (chars : List Char) :
    NamesIn (IsNameIn chars (Node.parse chars)) (.ofList chars) (Node.parse chars) := by
  intro inner hin
  have hnaming := naming_parse chars inner hin
  refine ⟨fun hkind hmissing => ?_, hnaming.field⟩
  obtain ⟨hleaf, pre, word, post, hchars, hstart, hstop, hword⟩ := hnaming.leaf hkind hmissing
  have htext : textOf (.ofList chars) inner = word := by
    rw [textOf, hchars, List.append_assoc]
    refine slice_of_bytes ?_ ?_
    · rw [hstart, Extent.bytes_of]
    · rw [hstop, Extent.bytes_of, byteLength_append]
  refine ⟨inner, hin, hleaf, rfl, ?_⟩
  rwa [htext, String.toList_ofList]

/-- **No name of a program is a keyword.**  Each is a word that stands at a leaf of the syntax tree.
Which words are keywords says the automaton of keywords: it takes a whole word for a keyword exactly if
the word spells it in some case. -/
theorem names_are_no_keywords :
    (∀ text, ∀ f ∈ (parse text).1, ∀ name ∈ f.names,
      IsNameIn text.toList (Node.parse text.toList) name) ∧
    ∀ word, (∀ c ∈ word, isWordChar c = true) → ∀ keyword,
      (scan keywordAutomaton 0 ⟨word, 0⟩).token = some (keyword, Extent.of word) ↔
        keyword ∈ reservedWords ∧ word.map Char.toUpper = keyword.name.toList := by
  refine ⟨fun text f hf => ?_, fun word hword keyword => ?_⟩
  · rw [fst_parse] at hf
    exact names_functionsFrom (namesIn_parse text.toList).significant f hf
  · cases word with
    | nil =>
      have htoken : (scan keywordAutomaton 0 ⟨[], 0⟩).token = none := by
        have hfresh := keywords_checked.2.2.1
        have hend := atEnd_keywords 0
        rw [stateOf] at hfresh hend
        simp [scan, runAutomaton, LexState.tokenAt, hfresh, hend]
      rw [htoken]
      refine iff_of_false (by simp) fun h => (letters_of_keyword h.1).1 h.2.symm
    | cons c word =>
      rw [← Extent.zero_add (Extent.of (c :: word))]
      have hrest : (⟨c :: word, 0⟩ : Lex.Cursor).rest = (c :: word) ++ [] := (List.append_nil _).symm
      exact scan_keyword_iff (List.cons_ne_nil _ _) hword (by simp) hrest keyword

end Cicode.Program

import Cicode.Program.Check
import Cicode.Proofs.Program.Losses

/-!
# Where the diagnostics of a text point

A diagnostic of parsing or lowering points at a node of the syntax tree.  One of validation points at
something that the lowered program has a span of: a name, a parameter, a variable, a result or a
documentation tag; and these spans are those of nodes, or cover two of them.

Main statement (`span_check`): a property that the spans of all nodes have, and that a span has which
covers two others that have it, holds of the span of every diagnostic.
-/

namespace Cicode.Program

open Text Cicode.Lex Cicode.Tree Grammar

/-- The property holds of the spans of a node and of all nodes below it. -/
def SpansIn (P : Span → Prop) (node : Node) : Prop := ∀ inner, node.Within inner → P (spanOf inner)

variable {P : Span → Prop} {source : Source} {node : Node}

namespace SpansIn

theorem self (h : SpansIn P node) : P (spanOf node) := h node (.refl node)

theorem child (h : SpansIn P node) {inner : Node} (hc : inner ∈ node.children) : SpansIn P inner :=
  fun other ho => h other (.step hc ho)

theorem significant (h : SpansIn P node) {inner : Node} (hc : inner ∈ node.significant) :
    SpansIn P inner :=
  h.child (mem_children_of_significant hc)

theorem firstToken (h : SpansIn P node) {inner : Node} (hc : node.firstToken = some inner) :
    SpansIn P inner :=
  h.child (List.mem_of_find?_eq_some hc)

theorem child? (h : SpansIn P node) {field : Field} {inner : Node} (hc : node.child? field = some inner) :
    SpansIn P inner :=
  h.child (List.mem_of_find?_eq_some hc)

end SpansIn

/-- A name has the span of the node it is read from, which is no invented token. -/
theorem identifier_eq_ok {part : Part} {found : Option Node} {name : String} {span : Span}
    (h : identifier source part found = .ok (name, span)) :
    ∃ inner, found = some inner ∧ inner.isMissing = false ∧ span = spanOf inner := by
  cases found with
  | none => cases h
  | some inner =>
    rw [identifier] at h
    split at h
    · cases h
    · rename_i hmissing
      cases h
      exact ⟨inner, rfl, by simpa using hmissing, rfl⟩

/-! ## Expressions -/

@[simp] theorem Expr.span_withSpan (span : Span) (e : Expr) : (e.withSpan span).span = span := by
  cases e <;> rfl

/-- What is lowered has a span in the node. -/
def Spanned (P : Span → Prop) (lower : Node → Lowered Expr) : Prop :=
  ∀ node e, lower node = .ok e → SpansIn P node → P e.span

theorem spanned_atomWith {inner : Node → Lowered Expr} (hi : Spanned P inner) :
    Spanned P (atomWith source inner) := by
  intro node e h hn
  rw [atomWith] at h
  obtain ⟨first, hfirst, h⟩ := bind_eq_ok.mp h
  rw [require_eq_ok] at hfirst
  split at h
  · obtain ⟨operand, -, h⟩ := bind_eq_ok.mp h
    obtain ⟨value, -, h⟩ := bind_eq_ok.mp h
    cases h
    exact hn.self
  · obtain ⟨operand, -, h⟩ := bind_eq_ok.mp h
    obtain ⟨value, -, h⟩ := bind_eq_ok.mp h
    cases h
    rw [Expr.span_withSpan]
    exact hn.self
  · cases h
  · split at h
    · cases h
    · exact hi first e h (hn.firstToken hfirst)

theorem spanned_expressionWith {inner : Node → Lowered Expr} (hi : Spanned P inner) :
    Spanned P (expressionWith source inner) := by
  intro node e h hn
  rw [expressionWith] at h
  simp only at h
  split at h
  · split at h
    · rename_i operand hparts
      have hoperand : SpansIn P operand := hn.significant (by rw [hparts]; exact List.mem_singleton_self _)
      split at h
      · exact spanned_atomWith hi operand e h hoperand
      · exact hi operand e h hoperand
    · obtain ⟨operator, -, h⟩ := bind_eq_ok.mp h
      obtain ⟨left, -, h⟩ := bind_eq_ok.mp h
      obtain ⟨right, -, h⟩ := bind_eq_ok.mp h
      cases h
      exact hn.self
    · cases h
  · exact spanned_atomWith hi node e h hn
  · obtain ⟨⟨function, arguments⟩, -, h⟩ := bind_eq_ok.mp h
    cases h
    exact hn.self
  · obtain ⟨⟨name, span⟩, hname, h⟩ := bind_eq_ok.mp h
    cases h
    obtain ⟨found, hfound, -, rfl⟩ := identifier_eq_ok hname
    cases hfound
    exact hn.self
  · obtain ⟨value, -, h⟩ := bind_eq_ok.mp h
    cases value <;> cases h <;> exact hn.self
  · obtain ⟨value, -, h⟩ := bind_eq_ok.mp h
    cases value <;> cases h <;> exact hn.self
  · cases h

theorem spanned_expression (levels : Nat) : Spanned P (expression source levels) := by
  induction levels with
  | zero => exact fun _ _ h => nomatch h
  | succ levels ih => exact spanned_expressionWith ih

/-! ## Results of functions -/

/-- The property holds of the spans of a RETURN and of its value. -/
def ResultIn (P : Span → Prop) : Statement → Prop
  | .return span value => P span ∧ ∀ e, value = some e → P e.span
  | _ => True

/-- It holds of all RETURNs among some statements, at any depth. -/
def ResultsIn (P : Span → Prop) (statements : List Statement) : Prop :=
  ∀ statement ∈ Statement.walkAll statements, ResultIn P statement

theorem ResultsIn.nil : ResultsIn P [] := fun _ h => nomatch h

theorem resultsIn_cons {statement : Statement} {rest : List Statement} :
    ResultsIn P (statement :: rest) ↔
      (∀ s ∈ Statement.walk statement, ResultIn P s) ∧ ResultsIn P rest := by
  simp only [ResultsIn, Statement.walkAll, List.forall_mem_append]

/-- Blocks are lowered to statements whose results have the property. -/
def BlockSpanned (P : Span → Prop) (block : BlockLowerer) : Prop :=
  ∀ nodes lowered, block nodes = .ok lowered → (∀ node ∈ nodes, SpansIn P node) →
    ResultsIn P lowered.1

theorem resultIn_returnStatement {levels : Nat} {lowered : Statement × List Dropped}
    (h : returnStatement source levels node = .ok lowered) (hn : SpansIn P node) :
    ∀ s ∈ Statement.walk lowered.1, ResultIn P s := by
  rw [returnStatement] at h
  split at h
  · cases h
    intro s hs
    obtain rfl := List.mem_singleton.mp hs
    exact ⟨hn.self, fun _ he => by cases he⟩
  · rename_i value hvalue
    obtain ⟨e, he, rfl⟩ := map_eq_ok.mp h
    intro s hs
    obtain rfl := List.mem_singleton.mp hs
    refine ⟨hn.self, fun e' he' => ?_⟩
    cases he'
    exact spanned_expression levels value e he (hn.significant (List.mem_of_find?_eq_some hvalue))

theorem resultIn_statementWith {levels : Nat} {block : BlockLowerer} (hb : BlockSpanned P block)
    {lowered : Statement × List Dropped} (h : statementWith source levels block node = .ok lowered)
    (hn : SpansIn P node) : ∀ s ∈ Statement.walk lowered.1, ResultIn P s := by
  rw [statementWith] at h
  obtain ⟨inner, hinner, h⟩ := bind_eq_ok.mp h
  have hin : SpansIn P inner := hn.significant (List.mem_of_head? (require_eq_ok.mp hinner))
  obtain ⟨statement, dropped⟩ := lowered
  split at h
  · obtain ⟨⟨target, targetSpan⟩, -, h⟩ := bind_eq_ok.mp h
    obtain ⟨value, -, h⟩ := bind_eq_ok.mp h
    obtain ⟨lowered, -, h⟩ := bind_eq_ok.mp h
    cases h
    intro s hs
    obtain rfl := List.mem_singleton.mp hs
    trivial
  · rcases branchWith_ok h with ⟨test, thenPart, -, hthen, rfl⟩ |
      ⟨test, before, token, after, thenPart, elsePart, in1, in2, hsplit, -, -, h1, h2, rfl, -⟩
    · have hblock := hb _ _ hthen fun part hpart => hin.child hpart
      simp only [Statement.walk, Statement.walkElse, List.append_nil, List.forall_mem_cons]
      exact ⟨trivial, hblock⟩
    · have hparts : ∀ part ∈ before ++ token :: after, SpansIn P part := by
        rw [← hsplit]
        exact fun part hpart => hin.child hpart
      have hbefore := hb _ _ h1 fun part hpart => hparts part (List.mem_append_left _ hpart)
      have hafter := hb _ _ h2 fun part hpart =>
        hparts part (List.mem_append_right _ (List.mem_cons_of_mem _ hpart))
      simp only [Statement.walk, Statement.walkElse, List.forall_mem_cons, List.forall_mem_append]
      exact ⟨trivial, hbefore, hafter⟩
  · obtain ⟨⟨function, arguments⟩, -, h⟩ := bind_eq_ok.mp h
    cases h
    intro s hs
    obtain rfl := List.mem_singleton.mp hs
    trivial
  · cases h

theorem resultsIn_statementsWith {levels : Nat} {block : BlockLowerer} (hb : BlockSpanned P block)
    {nodes : List Node} (hn : ∀ node ∈ nodes, SpansIn P node) :
    ResultsIn P (statementsWith source levels block nodes).1 := by
  induction nodes with
  | nil => exact .nil
  | cons node rest ih =>
    obtain ⟨hnode, hrest⟩ := List.forall_mem_cons.mp hn
    have ih := ih hrest
    rw [statementsWith]
    generalize statementsWith source levels block rest = tail at ih
    simp only
    split
    · exact ih
    · rename_i statement inside hsome
      refine resultsIn_cons.mpr ⟨?_, ih⟩
      split at hsome
      · exact resultIn_statementWith hb (Option.some.inj hsome) hnode
      · exact resultIn_returnStatement (Option.some.inj hsome) hnode
      · cases hsome
    · exact ih

/-- The results of a block have spans of nodes in it. -/
theorem blockSpanned_block (levels : Nat) : BlockSpanned P (block source levels) := by
  induction levels with
  | zero => exact fun _ _ h => nomatch h
  | succ levels ih =>
    intro nodes lowered h hn
    rw [block] at h
    cases h
    exact resultsIn_statementsWith ih hn

/-! ## Variables and parameters -/

/-- A span that covers two with the property has it. -/
def MergeClosed (P : Span → Prop) : Prop := ∀ a b, P a → P b → P (a.merge b)

/-- Some variables have spans with the property. -/
abbrev VariablesIn (P : Span → Prop) (declared : List Variable) : Prop :=
  ∀ v ∈ declared, P v.span

theorem variablesIn_declarationPart (hP : MergeClosed P) {before after : List Variable}
    (h : declarationPart source before node = .ok after) (hn : SpansIn P node)
    (hb : VariablesIn P before) : VariablesIn P after := by
  rw [declarationPart] at h
  split at h
  · obtain ⟨⟨name, span⟩, hname, h⟩ := bind_eq_ok.mp h
    obtain ⟨found, hfound, -, rfl⟩ := identifier_eq_ok hname
    cases hfound
    cases h
    exact List.forall_mem_cons.mpr ⟨hn.self, hb⟩
  · obtain ⟨value, -, h⟩ := bind_eq_ok.mp h
    have hlast : ∀ initializer, VariablesIn P
        (initializeLast initializer (spanOf value) (spanOf node) before) := by
      intro initializer
      cases before with
      | nil => exact hb
      | cons last before =>
        obtain ⟨hlast, hbefore⟩ := List.forall_mem_cons.mp hb
        exact List.forall_mem_cons.mpr ⟨hP _ _ hlast hn.self, hbefore⟩
    simp only at h
    split at h
    all_goals
      obtain ⟨initializer, -, h⟩ := bind_eq_ok.mp h
      cases h
      exact hlast initializer
  · cases h
    exact hb

theorem variablesIn_foldlM (hP : MergeClosed P) {nodes : List Node} {before after : List Variable}
    (h : nodes.foldlM (declarationPart source) before = .ok after)
    (hn : ∀ node ∈ nodes, SpansIn P node) (hb : VariablesIn P before) : VariablesIn P after := by
  induction nodes generalizing before with
  | nil =>
    cases h
    exact hb
  | cons node rest ih =>
    rw [List.foldlM_cons] at h
    obtain ⟨next, hnext, h⟩ := bind_eq_ok.mp h
    obtain ⟨hnode, hrest⟩ := List.forall_mem_cons.mp hn
    exact ih h hrest (variablesIn_declarationPart hP hnext hnode hb)

theorem variablesIn_declaration (hP : MergeClosed P) {d : Declaration}
    (h : declaration source node = .ok d) (hn : SpansIn P node) : VariablesIn P d.declared := by
  rw [declaration] at h
  obtain ⟨type, -, h⟩ := bind_eq_ok.mp h
  obtain ⟨declared, hdeclared, h⟩ := bind_eq_ok.mp h
  cases h
  have hall := variablesIn_foldlM hP hdeclared (fun _ => hn.significant) fun _ hv => by cases hv
  exact fun v hv => hall v (List.mem_reverse.mp hv)

theorem mem_lowerAll {α : Type} {lower : Node → Lowered α} {nodes : List Node} {a : α}
    (h : a ∈ (lowerAll lower nodes).1) : ∃ node ∈ nodes, lower node = .ok a := by
  induction nodes with
  | nil => cases h
  | cons node rest ih =>
    rw [lowerAll] at h
    cases hl : lower node with
    | error cause =>
      rw [hl] at h
      obtain ⟨found, hmem, hok⟩ := ih h
      exact ⟨found, List.mem_cons_of_mem _ hmem, hok⟩
    | ok b =>
      rw [hl] at h
      rcases List.mem_cons.mp h with rfl | h
      · exact ⟨node, List.mem_cons_self, hl⟩
      · obtain ⟨found, hmem, hok⟩ := ih h
        exact ⟨found, List.mem_cons_of_mem _ hmem, hok⟩

/-! ## Functions -/

/-- The documented parameters have spans with the property. -/
abbrev Doc.SpansIn (P : Span → Prop) (doc : Doc) : Prop := ∀ param ∈ doc.params, P param.span

theorem Doc.SpansIn.empty (P : Span → Prop) : ({} : Doc).SpansIn P := by
  intro param hmem
  cases hmem

theorem Doc.SpansIn.addParam {doc : Doc} (h : doc.SpansIn P) {span : Span} (hs : P span)
    (tag content : String) : (doc.addParam tag content span).SpansIn P := by
  rw [Doc.addParam]
  split
  · exact h
  · exact List.forall_mem_append.mpr ⟨h, List.forall_mem_singleton.mpr hs⟩

/-- All that validation points at in a function has the property. -/
structure Function.SpansIn (P : Span → Prop) (f : Function) : Prop where
  name : P f.nameSpan
  parameters : ∀ p ∈ f.parameters, P p.span
  locals : ∀ d ∈ f.locals, VariablesIn P d.declared
  results : ResultsIn P f.body
  documented : ∀ doc, f.doc = some doc → doc.SpansIn P

theorem spansIn_function (hP : MergeClosed P) {doc : Option Doc} {f : Function}
    {dropped : List Dropped} (h : function source node doc = .ok (f, dropped))
    (hn : SpansIn P node) (hdoc : ∀ d, doc = some d → d.SpansIn P) : f.SpansIn P := by
  rw [function] at h
  obtain ⟨header, hheader, h⟩ := bind_eq_ok.mp h
  obtain ⟨⟨name, nameSpan⟩, hname, h⟩ := bind_eq_ok.mp h
  obtain ⟨⟨body, lostStatements⟩, hbody, h⟩ := bind_eq_ok.mp h
  cases h
  have hhead : SpansIn P header :=
    hn.significant (List.mem_of_find?_eq_some (require_eq_ok.mp hheader))
  obtain ⟨nameNode, hfound, -, rfl⟩ := identifier_eq_ok hname
  refine ⟨(hhead.child? hfound).self, fun p hp => ?_, fun d hd => ?_, ?_, hdoc⟩
  · obtain ⟨part, hmem, hok⟩ := mem_lowerAll hp
    rw [span_parameter hok]
    cases hlist : header.child? .parameters with
    | none =>
      rw [hlist] at hmem
      cases hmem
    | some list =>
      rw [hlist] at hmem
      exact ((hhead.child? hlist).significant hmem).self
  · obtain ⟨part, hmem, hok⟩ := mem_lowerAll hd
    exact variablesIn_declaration hP hok (hn.significant (List.mem_filter.mp hmem).1)
  · exact blockSpanned_block maxNesting _ _ hbody fun _ => hn.significant

/-- The tags that name documented parameters in a node have spans with the property. -/
abbrev TagsIn (P : Span → Prop) (node : Node) : Prop :=
  ∀ tag ∈ node.significant, tag.kind = .paramTag → P (spanOf tag)

/-- Each function comes from one of the nodes, with documentation whose parameters tags have named. -/
theorem mem_functionsFrom {nodes : List Node} {doc : Doc} (hn : ∀ node ∈ nodes, TagsIn P node)
    (hdoc : doc.SpansIn P) {f : Function} (hf : f ∈ (functionsFrom source doc nodes).1) :
    ∃ node ∈ nodes, ∃ above dropped, function source node above = .ok (f, dropped) ∧
      ∀ d, above = some d → d.SpansIn P := by
  induction nodes generalizing doc with
  | nil => cases hf
  | cons node rest ih =>
    obtain ⟨hnode, hrest⟩ := List.forall_mem_cons.mp hn
    have behind : ∀ next : Doc, next.SpansIn P → f ∈ (functionsFrom source next rest).1 →
        ∃ inner ∈ node :: rest, ∃ above dropped, function source inner above = .ok (f, dropped) ∧
          ∀ d, above = some d → d.SpansIn P := by
      intro next hnext hf
      obtain ⟨inner, hmem, hfrom⟩ := ih hrest hnext hf
      exact ⟨inner, List.mem_cons_of_mem _ hmem, hfrom⟩
    rw [functionsFrom] at hf
    split at hf
    · exact behind (doc.addSummary _) hdoc hf
    · exact behind (doc.addReturns _) hdoc hf
    · split at hf
      · exact behind doc hdoc hf
      · rename_i tag htag
        have hkind := List.find?_some (p := fun child : Node => child.kind == .paramTag) htag
        have hspan := hnode tag (List.mem_of_find?_eq_some htag) (beq_iff_eq.mp hkind)
        exact behind _ (hdoc.addParam hspan _ _) hf
    · have hothers := behind {} (.empty P)
      generalize functionsFrom source {} rest = tail at hothers hf
      cases hlowered : function source node (if doc.isEmpty then none else some doc) with
      | error cause =>
        rw [hlowered] at hf
        exact hothers hf
      | ok lowered =>
        rw [hlowered] at hf
        rcases List.mem_cons.mp hf with rfl | hf
        · refine ⟨node, List.mem_cons_self, _, lowered.2, hlowered, fun d hd => ?_⟩
          split at hd <;> cases hd
          exact hdoc
        · exact hothers hf
    · exact behind {} (.empty P) hf

theorem spansIn_functionsFrom (hP : MergeClosed P) {nodes : List Node} {doc : Doc}
    (hn : ∀ node ∈ nodes, SpansIn P node) (hdoc : doc.SpansIn P) :
    ∀ f ∈ (functionsFrom source doc nodes).1, f.SpansIn P := by
  intro f hf
  obtain ⟨node, hmem, above, dropped, hlowered, habove⟩ :=
    mem_functionsFrom (fun node hmem _ ht _ => ((hn node hmem).significant ht).self) hdoc hf
  exact spansIn_function hP hlowered (hn node hmem) habove

/-! ## Diagnostics -/

theorem mem_of_mem_repeated {α : Type} {name : α → String} {seen : List String} {entries : List α}
    {a : α} (h : a ∈ repeated name seen entries) : a ∈ entries := by
  induction entries generalizing seen with
  | nil => cases h
  | cons first rest ih =>
    rw [repeated] at h
    split at h
    · rcases List.mem_cons.mp h with rfl | h
      · exact List.mem_cons_self
      · exact List.mem_cons_of_mem _ (ih h)
    · exact List.mem_cons_of_mem _ (ih h)

namespace Function.SpansIn

variable {f : Function} {d : Diagnostic}

theorem checkDeclarations (h : f.SpansIn P) (hd : d ∈ f.checkDeclarations) : P d.span := by
  obtain ⟨⟨what, name, span⟩, hmem, rfl⟩ := List.mem_map.mp hd
  rcases List.mem_append.mp (mem_of_mem_repeated hmem) with hmem | hmem
  · obtain ⟨p, hp, heq⟩ := List.mem_map.mp hmem
    cases heq
    exact h.parameters p hp
  · obtain ⟨declaration, hdecl, hmem⟩ := List.mem_flatMap.mp hmem
    obtain ⟨v, hv, heq⟩ := List.mem_map.mp hmem
    cases heq
    exact h.locals declaration hdecl v hv

theorem checkDoc (h : f.SpansIn P) (hd : d ∈ f.checkDoc) : P d.span := by
  rw [Function.checkDoc] at hd
  split at hd
  · cases hd
  · rename_i doc hdoc
    obtain ⟨param, hmem, rfl⟩ := List.mem_map.mp hd
    exact h.documented doc hdoc param (List.mem_filter.mp hmem).1

theorem checkDefaults {seen : Bool} {parameters : List Parameter} (h : ∀ p ∈ parameters, P p.span)
    (hd : d ∈ Function.checkDefaults seen parameters) : P d.span := by
  induction parameters generalizing seen with
  | nil => cases hd
  | cons p rest ih =>
    obtain ⟨hp, hrest⟩ := List.forall_mem_cons.mp h
    rw [Function.checkDefaults] at hd
    split at hd
    · exact ih hrest hd
    · split at hd
      · rcases List.mem_cons.mp hd with rfl | hd
        · exact hp
        · exact ih hrest hd
      · exact ih hrest hd

theorem checkReturn {statement : Statement} (hs : ResultIn P statement)
    (hd : f.checkReturn statement = some d) : P d.span := by
  rw [Function.checkReturn.eq_def] at hd
  split at hd
  · split at hd <;> cases hd
    · exact hs.2 _ rfl
    · exact hs.1
  · cases hd

theorem checkReturns (h : f.SpansIn P) (hd : d ∈ f.checkReturns) : P d.span := by
  have hwrong : d ∈ (Statement.walkAll f.body).filterMap f.checkReturn → P d.span := by
    intro hd
    obtain ⟨statement, hmem, hd⟩ := List.mem_filterMap.mp hd
    exact checkReturn (h.results statement hmem) hd
  rw [Function.checkReturns] at hd
  split at hd
  · exact hwrong hd
  · split at hd
    · exact hwrong hd
    · rcases List.mem_append.mp hd with hd | hd
      · exact hwrong hd
      · obtain rfl := List.mem_singleton.mp hd
        exact h.name

theorem validate (h : f.SpansIn P) (hd : d ∈ f.validate) : P d.span := by
  simp only [Function.validate, List.mem_append] at hd
  rcases hd with ((hd | hd) | hd) | hd
  · exact h.checkDeclarations hd
  · exact h.checkDoc hd
  · exact checkDefaults h.parameters hd
  · exact h.checkReturns hd

end Function.SpansIn

theorem span_validate {functions : List Function} (h : ∀ f ∈ functions, f.SpansIn P) {d : Diagnostic}
    (hd : d ∈ validate functions) : P d.span := by
  rcases List.mem_append.mp hd with hd | hd
  · obtain ⟨f, hmem, rfl⟩ := List.mem_map.mp hd
    exact (h f (mem_of_mem_repeated hmem)).name
  · obtain ⟨f, hf, hd⟩ := List.mem_flatMap.mp hd
    exact (h f hf).validate hd

/-- What lowering leaves out is a node of the tree. -/
theorem within_leftOut {root : Node} (hsound : root.Sound) {dropped : Dropped}
    (h : dropped ∈ (lower source root).2) : root.Within dropped.node := by
  obtain ⟨visits, hv, hlost⟩ := exists_visits_lower source root
  have hmem : dropped.node ∈ lost visits := by
    rw [hlost]
    exact List.mem_map_of_mem h
  obtain ⟨-, node, hn, hin⟩ := hv.located
    (fun node hn => hsound.child (mem_children_of_significant hn)) _ (mem_lost.mp hmem)
  exact .step (mem_children_of_significant hn) hin

/-- **The span of every diagnostic is that of a node, or covers such spans**: it has each property
that the spans of nodes have and that merging preserves. -/
theorem span_check (text : String) (hn : SpansIn P (Node.parse text.toList)) (hP : MergeClosed P)
    {d : Diagnostic} (hd : d ∈ (check text).diagnostics) : P d.span := by
  have hsound := sound_parse text.toList
  rw [check] at hd
  simp only [List.mem_mergeSort, checkInOrder, parse, List.mem_append] at hd
  generalize Node.parse text.toList = root at hn hsound hd
  rcases hd with (hd | hd) | hd
  · obtain ⟨problem, hmem, rfl⟩ := List.mem_map.mp hd
    rw [Problem.list_eq] at hmem
    obtain ⟨inner, hin, -, hstart, hstop⟩ := Problem.exists_node_of_under root hmem
    rw [reportProblem, hstart, hstop]
    exact hn inner hin
  · obtain ⟨dropped, hmem, hd⟩ := List.mem_filterMap.mp hd
    rw [Dropped.report?] at hd
    split at hd <;> cases hd
    exact hn _ (within_leftOut hsound hmem)
  · exact span_validate (spansIn_functionsFrom hP (fun _ => hn.significant) (.empty P)) hd

end Cicode.Program

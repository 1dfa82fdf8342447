import Cicode.Proofs.Program.Arrangement
import Cicode.Proofs.Program.Names
import Cicode.Proofs.Tree.Branches

/-!
# Lowering arranges what it reads

Lowering takes spans from nodes of different depth, but always from a node inside the one that the whole
is read from.  So what is lowered from a node is arranged and has its span in the node
(`ArrangedIn`), by induction on the levels of the lowering functions; and since the children of a node
stand one after the other, so do the spans of what is lowered from some of them (`Spread.row`).

Main statement (`arranged_parse`): in every program that is read from a text, whatever was repaired or
left out, all functions are arranged; no span of them ends before it begins or beyond the text.
-/

namespace Cicode.Program

open Text Cicode.Lex Cicode.Tree Grammar

/-! ## Expressions -/

/-- Nodes that stand one after the other, and spans each of which is in its node. -/
theorem Spread.row {low high : Nat} {nodes : List Node} {spans : List Span}
    (h : Spread low high nodes) (hspans : List.Forall₂ (fun node span => (spanOf node).Holds [span])
      nodes spans) : Span.Row low high spans := by
  induction hspans generalizing low with
  | nil => exact h
  | cons hspan _ ih =>
    obtain ⟨h1, h2, h3⟩ := hspan
    exact ⟨Nat.le_trans h.1 h1, h2, (ih h.2.2).mono_low h3⟩

variable {source : Source} {node : Node}

theorem holds_children (hs : node.Sound) {nodes : List Node} (hsub : nodes.Sublist node.children)
    {spans : List Span} (hspans : List.Forall₂ (fun node span => (spanOf node).Holds [span]) nodes spans) :
    (spanOf node).Holds spans :=
  Spread.row (hs.fair.spread.sublist hsub) hspans

/-- The span of a node holds those of the nodes below it. -/
theorem holds_within (hs : node.Sound) {inner : Node} (h : node.Within inner) :
    (spanOf node).Holds [spanOf inner] := by
  obtain ⟨h1, h2⟩ := h.inside hs
  exact ⟨h1, (h.sound hs).fair.spread.le, h2⟩

theorem holds_nil (hs : node.Sound) : (spanOf node).Holds [] := hs.fair.spread.le

/-- What is lowered is arranged, and its span is in the node. -/
def ArrangedIn {α : Type} (arranged : α → Prop) (span : α → Span) (lower : Node → Lowered α) : Prop :=
  ∀ node a, lower node = .ok a → node.Sound → arranged a ∧ (spanOf node).Holds [span a]

/-- Several nodes are lowered to arranged parts with spans in the nodes. -/
theorem ArrangedIn.mapM {α : Type} {arranged : α → Prop} {span : α → Span} {lower : Node → Lowered α}
    (hl : ArrangedIn arranged span lower) {nodes : List Node} (hn : ∀ node ∈ nodes, node.Sound)
    {lowered : List α} (h : nodes.mapM lower = .ok lowered) : (∀ a ∈ lowered, arranged a) ∧
      List.Forall₂ (fun node span => (spanOf node).Holds [span]) nodes (lowered.map span) := by
  induction nodes generalizing lowered with
  | nil =>
    cases h
    exact ⟨fun a ha => absurd ha List.not_mem_nil, .nil⟩
  | cons node rest ih =>
    rw [List.mapM_cons] at h
    obtain ⟨first, hfirst, h⟩ := bind_eq_ok.mp h
    obtain ⟨others, hothers, h⟩ := bind_eq_ok.mp h
    cases h
    obtain ⟨hnode, hrest⟩ := List.forall_mem_cons.mp hn
    obtain ⟨harranged, hspan⟩ := hl node first hfirst hnode
    obtain ⟨hall, hspans⟩ := ih hrest hothers
    exact ⟨List.forall_mem_cons.mpr ⟨harranged, hall⟩, .cons hspan hspans⟩

theorem Expr.Arranged.withSpan {e : Expr} (h : e.Arranged) {span : Span} (hs : span.Holds [e.span]) :
    (e.withSpan span).Arranged := by
  cases h with
  | number hin => exact .number (hs.trans hin)
  | string hin => exact .string (hs.trans hin)
  | «variable» hin => exact .variable (hs.trans hin)
  | negate hin ho => exact .negate (hs.trans hin) ho
  | binary hin hl hr => exact .binary (hs.trans hin) hl hr
  | call hin ha => exact .call (hs.trans hin) ha

/-- The arguments of a call stand in its node, one after the other. -/
theorem arranged_callWith {argument : Node → Lowered Expr}
    (ha : ArrangedIn Expr.Arranged Expr.span argument) {function : String} {arguments : List Expr}
    (h : callWith source argument node = .ok (function, arguments)) (hs : node.Sound) :
    (∀ e ∈ arguments, e.Arranged) ∧ (spanOf node).Holds (arguments.map Expr.span) := by
  rw [callWith] at h
  obtain ⟨⟨name, span⟩, -, h⟩ := bind_eq_ok.mp h
  obtain ⟨lowered, hlowered, h⟩ := bind_eq_ok.mp h
  cases h
  have hsub : (node.significant.filter (·.kind == .expression)).Sublist node.children :=
    List.filter_sublist.trans (significant_sublist node)
  obtain ⟨hall, hspans⟩ := ha.mapM (fun inner hin => hs.child (hsub.subset hin)) hlowered
  exact ⟨hall, holds_children hs hsub hspans⟩

/-- The operand of an operator that stands before it. -/
theorem arranged_operand {α : Type} {arranged : α → Prop} {span : α → Span} {lower : Node → Lowered α}
    (hl : ArrangedIn arranged span lower) (hs : node.Sound) {inner : Node}
    (hin : inner ∈ node.significant) {a : α} (h : lower inner = .ok a) :
    arranged a ∧ (spanOf node).Holds [span a] := by
  have hchild := mem_children_of_significant hin
  obtain ⟨harranged, hspan⟩ := hl inner a h (hs.child hchild)
  exact ⟨harranged, (holds_within hs (.child hchild)).trans hspan⟩

/-- The operands of an operator that stands between them. -/
theorem arranged_operands {α : Type} {arranged : α → Prop} {span : α → Span} {lower : Node → Lowered α}
    (hl : ArrangedIn arranged span lower) (hs : node.Sound) {left operator right : Node}
    (hparts : node.significant = [left, operator, right]) {a b : α} (ha : lower left = .ok a)
    (hb : lower right = .ok b) :
    arranged a ∧ arranged b ∧ (spanOf node).Holds [span a, span b] := by
  have hsub : [left, right].Sublist node.children := by
    refine List.Sublist.trans ?_ (significant_sublist node)
    rw [hparts]
    exact .cons_cons left (.cons operator (.refl _))
  obtain ⟨hleft, hinLeft⟩ := hl left a ha (hs.child (hsub.subset (by simp)))
  obtain ⟨hright, hinRight⟩ := hl right b hb (hs.child (hsub.subset (by simp)))
  exact ⟨hleft, hright, holds_children hs hsub (.cons hinLeft (.cons hinRight .nil))⟩

theorem arranged_atomWith {inner : Node → Lowered Expr} (hi : ArrangedIn Expr.Arranged Expr.span inner) :
    ArrangedIn Expr.Arranged Expr.span (atomWith source inner) := by
  intro node e h hs
  rw [atomWith] at h
  obtain ⟨first, hfirst, h⟩ := bind_eq_ok.mp h
  rw [require_eq_ok] at hfirst
  split at h
  · obtain ⟨operand, hoperand, h⟩ := bind_eq_ok.mp h
    obtain ⟨value, hvalue, h⟩ := bind_eq_ok.mp h
    cases h
    obtain ⟨harranged, hspan⟩ :=
      arranged_operand hi hs (List.mem_of_head? (require_eq_ok.mp hoperand)) hvalue
    exact ⟨.negate hspan harranged, .self hspan.le⟩
  · obtain ⟨operand, hoperand, h⟩ := bind_eq_ok.mp h
    obtain ⟨value, hvalue, h⟩ := bind_eq_ok.mp h
    cases h
    obtain ⟨harranged, hspan⟩ :=
      arranged_operand hi hs (List.mem_of_head? (require_eq_ok.mp hoperand)) hvalue
    rw [Expr.span_withSpan]
    exact ⟨harranged.withSpan hspan, .self hspan.le⟩
  · cases h
  · split at h
    · cases h
    · have hchild := List.mem_of_find?_eq_some hfirst
      obtain ⟨harranged, hspan⟩ := hi first e h (hs.child hchild)
      exact ⟨harranged, (holds_within hs (.child hchild)).trans hspan⟩

theorem arranged_expressionWith {inner : Node → Lowered Expr}
    (hi : ArrangedIn Expr.Arranged Expr.span inner) :
    ArrangedIn Expr.Arranged Expr.span (expressionWith source inner) := by
  intro node e h hs
  have hself : (spanOf node).Holds [spanOf node] := .self (holds_nil hs).le
  rw [expressionWith] at h
  simp only at h
  split at h
  · split at h
    · rename_i operand hparts
      have hoperand : operand ∈ node.significant := by
        rw [hparts]
        exact List.mem_singleton_self operand
      split at h
      · exact arranged_operand (arranged_atomWith hi) hs hoperand h
      · exact arranged_operand hi hs hoperand h
    · rename_i hparts
      obtain ⟨operator, -, h⟩ := bind_eq_ok.mp h
      obtain ⟨left, hleft, h⟩ := bind_eq_ok.mp h
      obtain ⟨right, hright, h⟩ := bind_eq_ok.mp h
      cases h
      obtain ⟨hl, hr, hspans⟩ := arranged_operands hi hs hparts hleft hright
      exact ⟨.binary hspans hl hr, hself⟩
    · cases h
  · exact arranged_atomWith hi node e h hs
  · obtain ⟨⟨function, arguments⟩, hcall, h⟩ := bind_eq_ok.mp h
    cases h
    obtain ⟨hall, hspans⟩ := arranged_callWith hi hcall hs
    exact ⟨.call hspans hall, hself⟩
  · obtain ⟨⟨name, span⟩, hname, h⟩ := bind_eq_ok.mp h
    cases h
    obtain ⟨found, hfound, -, rfl⟩ := identifier_eq_ok hname
    cases hfound
    exact ⟨.variable (holds_nil hs), hself⟩
  · obtain ⟨value, -, h⟩ := bind_eq_ok.mp h
    cases value with
    | number value =>
      cases h
      exact ⟨.number (holds_nil hs), hself⟩
    | string value =>
      cases h
      exact ⟨.string (holds_nil hs), hself⟩
  · obtain ⟨value, -, h⟩ := bind_eq_ok.mp h
    cases value with
    | number value =>
      cases h
      exact ⟨.number (holds_nil hs), hself⟩
    | string value =>
      cases h
      exact ⟨.string (holds_nil hs), hself⟩
  · cases h

/-- **Expressions are arranged**, however many levels are left. -/
theorem arranged_expression (levels : Nat) :
    ArrangedIn Expr.Arranged Expr.span (expression source levels) := by
  induction levels with
  | zero => exact fun _ _ h => nomatch h
  | succ levels ih => exact arranged_expressionWith ih

/-! ## Conditions -/

@[simp] theorem Condition.span_withSpan (span : Span) (c : Condition) :
    (c.withSpan span).span = span := by
  cases c <;> rfl

theorem Condition.Arranged.withSpan {c : Condition} (h : c.Arranged) {span : Span}
    (hs : span.Holds [c.span]) : (c.withSpan span).Arranged := by
  cases h with
  | expr hin hv => exact .expr (hs.trans hin) hv
  | not hin ho => exact .not (hs.trans hin) ho
  | binary hin hl hr => exact .binary (hs.trans hin) hl hr

theorem arranged_conditionalAtomWith {expr : Node → Lowered Expr}
    {condition atom : Node → Lowered Condition} (he : ArrangedIn Expr.Arranged Expr.span expr)
    (hc : ArrangedIn Condition.Arranged Condition.span condition)
    (ha : ArrangedIn Condition.Arranged Condition.span atom) :
    ArrangedIn Condition.Arranged Condition.span (conditionalAtomWith expr condition atom) := by
  intro node c h hs
  rw [conditionalAtomWith] at h
  obtain ⟨first, -, h⟩ := bind_eq_ok.mp h
  obtain ⟨operand, hoperand, h⟩ := bind_eq_ok.mp h
  have hmem : operand ∈ node.significant := List.mem_of_head? (require_eq_ok.mp hoperand)
  split at h
  · split at h
    · obtain ⟨inner, hinner, h⟩ := bind_eq_ok.mp h
      cases h
      obtain ⟨harranged, hspan⟩ := arranged_operand ha hs hmem hinner
      exact ⟨.not hspan harranged, .self hspan.le⟩
    · -- The operand is an expression, with the span that the expression has.
      obtain ⟨value, hvalue, h⟩ := bind_eq_ok.mp h
      cases h
      obtain ⟨hv, hspan⟩ := arranged_operand he hs hmem hvalue
      exact ⟨.not hspan (.expr (.self hspan.2.1) hv), .self hspan.le⟩
  · obtain ⟨inner, hinner, h⟩ := bind_eq_ok.mp h
    cases h
    obtain ⟨harranged, hspan⟩ := arranged_operand hc hs hmem hinner
    rw [Condition.span_withSpan]
    exact ⟨harranged.withSpan hspan, .self hspan.le⟩
  · obtain ⟨value, hvalue, h⟩ := bind_eq_ok.mp h
    cases h
    obtain ⟨hv, hspan⟩ := arranged_operand he hs hmem hvalue
    exact ⟨.expr hspan hv, .self hspan.le⟩

theorem within_innermost (fuel : Nat) (node : Node) : node.Within (innermost fuel node) := by
  induction fuel generalizing node with
  | zero => exact .refl node
  | succ fuel ih =>
    rw [innermost]
    split
    · rename_i operand hparts
      split
      · have hmem : operand ∈ node.significant := by
          rw [hparts]
          exact List.mem_singleton_self operand
        exact .step (mem_children_of_significant hmem) (ih operand)
      · exact .refl node
    · exact .refl node

theorem arranged_conditionWith {expr : Node → Lowered Expr} {atom : Node → Lowered Condition}
    {nested : Lowered (Node → Lowered Condition)} (he : ArrangedIn Expr.Arranged Expr.span expr)
    (ha : ArrangedIn Condition.Arranged Condition.span atom)
    (hnested : ∀ inner, nested = .ok inner → ArrangedIn Condition.Arranged Condition.span inner) :
    ArrangedIn Condition.Arranged Condition.span (conditionWith expr atom nested) := by
  intro node c h hs
  rw [conditionWith] at h
  have hwithin := within_innermost node.size node
  have houter := holds_within hs hwithin
  have hs := hwithin.sound hs
  generalize innermost node.size node = inner at h houter hs
  split at h
  · rename_i operand hparts
    have hmem : operand ∈ inner.significant := by
      rw [hparts]
      exact List.mem_singleton_self operand
    split at h
    · obtain ⟨harranged, hspan⟩ := arranged_operand ha hs hmem h
      exact ⟨harranged, houter.trans hspan⟩
    · obtain ⟨value, hvalue, rfl⟩ := map_eq_ok.mp h
      obtain ⟨hv, hspan⟩ := arranged_operand he hs hmem hvalue
      exact ⟨.expr hspan hv, houter⟩
  · rename_i hparts
    obtain ⟨lower, hlower, h⟩ := bind_eq_ok.mp h
    obtain ⟨operator, -, h⟩ := bind_eq_ok.mp h
    obtain ⟨left, hleft, h⟩ := bind_eq_ok.mp h
    obtain ⟨right, hright, h⟩ := bind_eq_ok.mp h
    cases h
    obtain ⟨hl, hr, hspans⟩ := arranged_operands (hnested lower hlower) hs hparts hleft hright
    exact ⟨.binary hspans hl hr, houter⟩
  · cases h

theorem arrangedIn_error {α : Type} (arranged : α → Prop) (span : α → Span) (cause : LowerError) :
    ArrangedIn arranged span fun _ => .error cause := fun _ _ h => nomatch h

/-- **Conditions are arranged**, and so are their atoms, one level further in each time. -/
theorem arranged_condition (levels : Nat) :
    ArrangedIn Condition.Arranged Condition.span (condition source levels) ∧
      ArrangedIn Condition.Arranged Condition.span (conditionalAtom source levels) := by
  induction levels with
  | zero =>
    refine ⟨?_, fun node c h => by rw [conditionalAtom] at h; cases h⟩
    intro node c h
    rw [condition] at h
    exact arranged_conditionWith (arrangedIn_error _ _ _) (arrangedIn_error _ _ _)
      (by rintro inner ⟨⟩) node c h
  | succ levels ih =>
    have hexpr : ArrangedIn Expr.Arranged Expr.span (expression source levels) := arranged_expression levels
    have hatom := arranged_conditionalAtomWith hexpr ih.1 ih.2
    refine ⟨?_, ?_⟩
    · intro node c h
      rw [condition] at h
      refine arranged_conditionWith (arranged_expression _) hatom ?_ node c h
      intro inner hinner
      cases hinner
      exact ih.1
    · intro node c h
      rw [conditionalAtom] at h
      exact hatom node c h

/-! ## Statements -/

/-- What is known of the nodes that statements are lowered from. -/
structure Node.Regular (node : Node) : Prop where
  sound : node.Sound
  conditioned : node.Everywhere Node.Conditioned

namespace Node.Regular

theorem child (h : Regular node) {inner : Node} (hc : inner ∈ node.children) : Regular inner :=
  ⟨h.sound.child hc, h.conditioned.child hc⟩

theorem significant (h : Regular node) {inner : Node} (hc : inner ∈ node.significant) : Regular inner :=
  h.child (mem_children_of_significant hc)

end Node.Regular

/-- Blocks are lowered to arranged statements, with the spans of some of the nodes that are statements. -/
def BlockArranged (block : BlockLowerer) : Prop :=
  ∀ nodes lowered, block nodes = .ok lowered → (∀ node ∈ nodes, Node.Regular node) →
    (∀ statement ∈ lowered.1, statement.Arranged) ∧
      ∃ kept : List Node, kept.Sublist (nodes.filter isStatement) ∧ lowered.1.map Statement.span = kept.map spanOf

/-- The condition of an IF comes before all statements in it. -/
theorem sublist_branch (hk : node.kind = .ifStatement) (hn : node.Everywhere Node.Conditioned) {part : Node}
    (hfind : node.children.find? (·.kind == .conditionalStatement) = some part) {kept : List Node}
    (hkept : kept.Sublist (node.children.filter isStatement)) :
    (part :: kept).Sublist node.children := by
  obtain ⟨before, condition, after, hchildren, hcondition, hbefore⟩ := hn.self hk
  have hopening : ∀ kind ∈ openingKinds, (kind == .conditionalStatement) = false ∧
      (kind == .statementOrExpression || kind == .returnStatement) = false := by decide
  have hnone : before.find? (·.kind == .conditionalStatement) = none := by
    rw [List.find?_eq_none]
    intro other hother
    rw [(hopening _ (hbefore other hother)).1]
    exact Bool.false_ne_true
  obtain rfl : condition = part := by
    rw [hchildren, List.find?_append, hnone, Option.none_or,
      List.find?_cons_of_pos (by rw [hcondition]; rfl), Option.some_inj] at hfind
    exact hfind
  have hfilter : node.children.filter isStatement = after.filter isStatement := by
    have hnil : before.filter isStatement = [] := by
      rw [List.filter_eq_nil_iff]
      intro other hother
      rw [isStatement, (hopening _ (hbefore other hother)).2]
      exact Bool.false_ne_true
    have hneg : isStatement condition = false := by
      rw [isStatement, hcondition]
      rfl
    rw [hchildren, List.filter_append, hnil, List.nil_append,
      List.filter_cons_of_neg (by rw [hneg]; exact Bool.false_ne_true)]
  rw [hfilter] at hkept
  rw [hchildren]
  exact List.Sublist.trans (.cons_cons condition (hkept.trans List.filter_sublist))
    (List.sublist_append_right before _)

/-- Nodes, each with its own span. -/
theorem forall₂_spanOf {nodes : List Node} (hn : ∀ node ∈ nodes, node.Sound) :
    List.Forall₂ (fun node span => (spanOf node).Holds [span]) nodes (nodes.map spanOf) := by
  induction nodes with
  | nil => exact .nil
  | cons node rest ih =>
    obtain ⟨hnode, hrest⟩ := List.forall_mem_cons.mp hn
    exact .cons (.self (holds_nil hnode).le) (ih hrest)

theorem arranged_branchWith {levels : Nat} {block : BlockLowerer} (hb : BlockArranged block) {outer : Span}
    {lowered : Statement × List Dropped}
    (h : branchWith (condition source levels) block outer node = .ok lowered)
    (hk : node.kind = .ifStatement) (hn : Node.Regular node) (houter : outer.Holds [spanOf node]) :
    lowered.1.Arranged := by
  have hparts : ∀ part ∈ node.children, Node.Regular part := fun part hpart => hn.child hpart
  obtain ⟨part, test, thenPart, elsePart, hfind, htest, hlowered⟩ := test_of_branchWith h
  have hmem := List.mem_of_find?_eq_some hfind
  obtain ⟨harranged, hspan⟩ := (arranged_condition levels).1 part test htest (hparts part hmem).sound
  -- The condition and the statements that are kept are some of the children, in their order.
  have hrow : ∀ {spans : List Span} {kept : List Node},
      kept.Sublist (node.children.filter isStatement) → spans = kept.map spanOf →
      outer.Holds (test.span :: spans) := by
    rintro spans kept hkept rfl
    have hsub := sublist_branch hk hn.conditioned hfind hkept
    refine houter.trans (holds_children hn.sound hsub (.cons hspan (forall₂_spanOf ?_)))
    exact fun node hnode => (hparts node (hsub.subset (List.mem_cons_of_mem _ hnode))).sound
  obtain ⟨statement, dropped⟩ := lowered
  rcases branchWith_ok h with ⟨_, _, -, hthen, rfl⟩ |
    ⟨_, before, token, after, _, _, in1, in2, hsplit, -, -, h1, h2, rfl, -⟩
  · cases hlowered
    obtain ⟨hall, kept, hkept, hspans⟩ := hb _ _ hthen hparts
    refine .branch ?_ harranged hall (fun _ hmem => absurd hmem List.not_mem_nil)
    rw [Option.getD_none, List.map_nil, List.append_nil]
    exact hrow hkept hspans
  · cases hlowered
    rw [hsplit] at hparts
    obtain ⟨hall, kept, hkept, hspans⟩ := hb _ _ h1 fun part hpart =>
      hparts part (List.mem_append_left _ hpart)
    obtain ⟨hall', kept', hkept', hspans'⟩ := hb _ _ h2 fun part hpart =>
      hparts part (List.mem_append_right _ (List.mem_cons_of_mem _ hpart))
    refine .branch ?_ harranged hall hall'
    rw [Option.getD_some]
    refine @hrow _ (kept ++ kept') ?_ ?_
    · rw [hsplit, List.filter_append]
      exact hkept.append (hkept'.trans ((List.sublist_cons_self token after).filter isStatement))
    · rw [List.map_append]
      exact congrArg₂ (· ++ ·) hspans hspans'

theorem arranged_statementWith {levels : Nat} {block : BlockLowerer} (hb : BlockArranged block)
    {lowered : Statement × List Dropped} (h : statementWith source levels block node = .ok lowered)
    (hn : Node.Regular node) : lowered.1.Arranged ∧ lowered.1.span = spanOf node := by
  rw [statementWith] at h
  obtain ⟨inner, hinner, h⟩ := bind_eq_ok.mp h
  have hmem : inner ∈ node.significant := List.mem_of_head? (require_eq_ok.mp hinner)
  have hin := hn.significant hmem
  have houter := holds_within hn.sound (.child (mem_children_of_significant hmem))
  split at h
  · obtain ⟨⟨target, targetSpan⟩, htarget, h⟩ := bind_eq_ok.mp h
    obtain ⟨value, hvalue, h⟩ := bind_eq_ok.mp h
    obtain ⟨e, he, h⟩ := bind_eq_ok.mp h
    cases h
    obtain ⟨found, hfound, -, rfl⟩ := identifier_eq_ok htarget
    have htargetMem := mem_children_of_significant (List.mem_of_find?_eq_some hfound)
    obtain ⟨assigned, hassigned, hhead⟩ := Option.bind_eq_some_iff.mp (require_eq_ok.mp hvalue)
    -- The value is one level further below.
    have hwithin : inner.Within value :=
      .step (mem_children_of_significant (List.mem_of_find?_eq_some hassigned))
        (.child (mem_children_of_significant (List.mem_of_head? hhead)))
    obtain ⟨harranged, hspan⟩ := arranged_expression levels value e he (hwithin.sound hin.sound)
    refine ⟨.assign ?_ ?_ harranged, rfl⟩
    · exact houter.trans (holds_within hin.sound (.child htargetMem))
    · exact houter.trans ((holds_within hin.sound hwithin).trans hspan)
  · rename_i hkind
    have hspan : lowered.1.span = spanOf node := by
      obtain ⟨part, test, thenPart, elsePart, -, -, heq⟩ := test_of_branchWith h
      rw [heq, Statement.span]
    exact ⟨arranged_branchWith hb h hkind hin houter, hspan⟩
  · obtain ⟨⟨function, arguments⟩, hcall, h⟩ := bind_eq_ok.mp h
    cases h
    obtain ⟨hall, hspans⟩ := arranged_callWith (arranged_expression levels) hcall hin.sound
    exact ⟨.call (houter.trans hspans) hall, rfl⟩
  · cases h

theorem arranged_returnStatement {levels : Nat} {lowered : Statement × List Dropped}
    (h : returnStatement source levels node = .ok lowered) (hn : Node.Regular node) :
    lowered.1.Arranged ∧ lowered.1.span = spanOf node := by
  rw [returnStatement] at h
  split at h
  · cases h
    exact ⟨.return (holds_nil hn.sound) (fun e he => absurd he (Option.not_mem_none e)), rfl⟩
  · rename_i value hvalue
    obtain ⟨e, he, rfl⟩ := map_eq_ok.mp h
    obtain ⟨harranged, hspan⟩ := arranged_operand (arranged_expression levels) hn.sound
      (List.mem_of_find?_eq_some hvalue) he
    refine ⟨.return hspan fun e' he' => ?_, rfl⟩
    cases he'
    exact harranged

theorem arranged_statementsWith {levels : Nat} {block : BlockLowerer} (hb : BlockArranged block)
    {nodes : List Node} (hn : ∀ node ∈ nodes, Node.Regular node) :
    (∀ statement ∈ (statementsWith source levels block nodes).1, statement.Arranged) ∧
      ∃ kept : List Node, kept.Sublist (nodes.filter isStatement) ∧
        (statementsWith source levels block nodes).1.map Statement.span = kept.map spanOf := by
  induction nodes with
  | nil => exact ⟨fun _ h => absurd h List.not_mem_nil, [], .slnil, rfl⟩
  | cons node rest ih =>
    obtain ⟨hnode, hrest⟩ := List.forall_mem_cons.mp hn
    obtain ⟨hall, kept, hkept, hspans⟩ := ih hrest
    rw [statementsWith]
    generalize statementsWith source levels block rest = tail at hall hspans
    have hskip : kept.Sublist ((node :: rest).filter isStatement) :=
      hkept.trans ((List.sublist_cons_self node rest).filter isStatement)
    simp only
    split
    · exact ⟨hall, kept, hskip, hspans⟩
    · rename_i statement inside hsome
      have hone : isStatement node = true ∧ statement.Arranged ∧ statement.span = spanOf node := by
        split at hsome
        · rename_i hkind
          exact ⟨by rw [isStatement, hkind]; rfl, arranged_statementWith hb (Option.some.inj hsome) hnode⟩
        · rename_i hkind
          exact ⟨by rw [isStatement, hkind]; rfl, arranged_returnStatement (Option.some.inj hsome) hnode⟩
        · cases hsome
      obtain ⟨hstatement, harranged, hspan⟩ := hone
      refine ⟨List.forall_mem_cons.mpr ⟨harranged, hall⟩, node :: kept, ?_, ?_⟩
      · rw [List.filter_cons_of_pos hstatement]
        exact .cons_cons node hkept
      · rw [List.map_cons, List.map_cons, hspan, hspans]
    · exact ⟨hall, kept, hskip, hspans⟩

/-- **Blocks are arranged**, however many levels are left. -/
theorem blockArranged_block (levels : Nat) : BlockArranged (block source levels) := by
  induction levels with
  | zero => exact fun _ _ h => nomatch h
  | succ levels ih =>
    intro nodes lowered h hn
    rw [block] at h
    cases h
    exact arranged_statementsWith ih hn

/-! ## Variables -/

/-- The text of a node is where its span says. -/
theorem exists_text {chars : List Char} (h : node.Placed chars) : ∃ pre post,
    chars = pre ++ textOf (.ofList chars) node ++ post ∧
      spanOf node = ⟨byteLength pre, byteLength (pre ++ textOf (.ofList chars) node)⟩ := by
  obtain ⟨⟨pre, rest, hchars, hstart⟩, ⟨upTo, post, hchars', hstop⟩, hle⟩ := h
  rw [hstart, hstop, Extent.bytes_of, Extent.bytes_of] at hle
  obtain ⟨word, rfl⟩ := prefix_of_byteLength_le (hchars.symm.trans hchars') hle
  have htext : textOf (.ofList chars) node = word := by
    rw [textOf, hchars', List.append_assoc]
    refine slice_of_bytes ?_ ?_
    · rw [hstart, Extent.bytes_of]
    · rw [hstop, Extent.bytes_of, byteLength_append]
  refine ⟨pre, post, by rw [htext, hchars'], ?_⟩
  rw [htext, spanOf, hstart, hstop, Extent.bytes_of, Extent.bytes_of]

/-- Variables, kept in reverse, stand one after the other between two places, and each is arranged. -/
structure DeclaredIn (chars : List Char) (low high : Nat) (declared : List Variable) : Prop where
  row : Span.Row low high (declared.reverse.map (·.span))
  all : ∀ v ∈ declared, v.Arranged chars

/-- One part further in a declaration. -/
theorem DeclaredIn.part {chars : List Char} {low mid : Nat} {before after : List Variable}
    (hb : DeclaredIn chars low mid before) (hmid : mid ≤ node.first) (hs : node.Sound)
    (hp : node.Placed chars) (h : declarationPart (.ofList chars) before node = .ok after) :
    DeclaredIn chars low node.last after := by
  have hle : node.first ≤ node.last := holds_nil hs
  have hskip : DeclaredIn chars low node.last before :=
    ⟨hb.row.mono_high (Nat.le_trans hmid hle), hb.all⟩
  rw [declarationPart] at h
  split at h
  · obtain ⟨⟨name, span⟩, hname, h⟩ := bind_eq_ok.mp h
    cases h
    have hread : name = String.ofList (textOf (.ofList chars) node) ∧ span = spanOf node := by
      rw [identifier] at hname
      split at hname
      · cases hname
      · cases hname
        exact ⟨rfl, rfl⟩
    obtain ⟨rfl, rfl⟩ := hread
    refine ⟨?_, List.forall_mem_cons.mpr ⟨?_, hb.all⟩⟩
    · rw [List.reverse_cons, List.map_append]
      exact hb.row.append ⟨hmid, hle, Nat.le_refl _⟩
    · obtain ⟨pre, post, hchars, hspan⟩ := exists_text hp
      refine ⟨pre, post, by rw [String.toList_ofList]; exact hchars, ?_⟩
      show (spanOf node).Holds [_]
      rw [String.toList_ofList, ← hspan]
      exact .self hle
  · obtain ⟨value, hvalue, h⟩ := bind_eq_ok.mp h
    have hmem := mem_children_of_significant (List.mem_of_head? (require_eq_ok.mp hvalue))
    obtain ⟨hv1, hv2, hv3⟩ := holds_within hs (.child hmem)
    have hlast : ∀ initializer, DeclaredIn chars low node.last
        (initializeLast initializer (spanOf value) (spanOf node) before) := by
      intro initializer
      cases before with
      | nil => exact hskip
      | cons last rest =>
        obtain ⟨harranged, hall⟩ := List.forall_mem_cons.mp hb.all
        have hrow := hb.row
        rw [List.reverse_cons, List.map_append] at hrow
        obtain ⟨m, hrest, hm1, hm2, hm3⟩ := hrow.of_append
        have hm2 : last.span.start ≤ last.span.stop := hm2
        have hm3 : last.span.stop ≤ mid := hm3
        -- The assignment comes after the variable, so that together they end with the assignment.
        have hmerge : last.span.merge (spanOf node) = ⟨last.span.start, node.last⟩ := by
          have hstart : last.span.start ≤ node.first := by omega
          have hstop : last.span.stop ≤ node.last := by omega
          show (⟨min last.span.start node.first, max last.span.stop node.last⟩ : Span) = _
          rw [Nat.min_eq_left hstart, Nat.max_eq_right hstop]
        refine ⟨?_, List.forall_mem_cons.mpr ⟨?_, hall⟩⟩
        · rw [initializeLast, List.reverse_cons, List.map_append]
          refine hrest.append ?_
          show Span.Row m node.last [last.span.merge (spanOf node)]
          rw [hmerge]
          exact ⟨hm1, by show last.span.start ≤ node.last; omega, Nat.le_refl _⟩
        · obtain ⟨pre, post, hchars, hname⟩ := harranged
          obtain ⟨hn1, hn2, hn3⟩ := hname.inside List.mem_cons_self
          refine ⟨pre, post, hchars, ?_⟩
          show Span.Holds (last.span.merge (spanOf node)) [_, spanOf value]
          rw [hmerge]
          refine ⟨hn1, hn2, ?_, hv2, hv3⟩
          exact Nat.le_trans (Nat.le_trans (Nat.le_trans hn3 hm3) hmid) hv1
    simp only at h
    split at h
    all_goals
      obtain ⟨initializer, -, h⟩ := bind_eq_ok.mp h
      cases h
      exact hlast initializer
  · cases h
    exact hskip

theorem DeclaredIn.parts {chars : List Char} {low mid high : Nat} {nodes : List Node}
    {before after : List Variable} (hb : DeclaredIn chars low mid before) (hspread : Spread mid high nodes)
    (hn : ∀ node ∈ nodes, node.Sound ∧ node.Placed chars)
    (h : nodes.foldlM (declarationPart (.ofList chars)) before = .ok after) :
    DeclaredIn chars low high after := by
  induction nodes generalizing before mid with
  | nil =>
    cases h
    exact ⟨hb.row.mono_high hspread, hb.all⟩
  | cons node rest ih =>
    rw [List.foldlM_cons] at h
    obtain ⟨next, hnext, h⟩ := bind_eq_ok.mp h
    obtain ⟨⟨hs, hp⟩, hrest⟩ := List.forall_mem_cons.mp hn
    exact ih (hb.part hspread.1 hs hp hnext) hspread.2.2 hrest h

/-- **The variables of a declaration are arranged in it.** -/
theorem arranged_declaration {chars : List Char} {d : Declaration} (hs : node.Sound)
    (hp : node.AllPlaced chars) (h : declaration (.ofList chars) node = .ok d) :
    d.span.Holds (d.declared.map (·.span)) ∧ ∀ v ∈ d.declared, v.Arranged chars := by
  rw [declaration] at h
  obtain ⟨type, -, h⟩ := bind_eq_ok.mp h
  obtain ⟨declared, hdeclared, h⟩ := bind_eq_ok.mp h
  cases h
  have hstart : DeclaredIn chars node.first node.first [] :=
    ⟨Nat.le_refl _, fun v hv => absurd hv List.not_mem_nil⟩
  have hall := hstart.parts (hs.fair.spread.sublist (significant_sublist node)) (fun inner hin =>
    ⟨hs.child (mem_children_of_significant hin), hp inner (.child (mem_children_of_significant hin))⟩)
    hdeclared
  exact ⟨hall.row, fun v hv => hall.all v (List.mem_reverse.mp hv)⟩

/-! ## Functions -/

/-- What can be lowered of some nodes comes from some of them in their order. -/
theorem exists_kept_lowerAll {α : Type} (lower : Node → Lowered α) (nodes : List Node) :
    ∃ kept : List Node, kept.Sublist nodes ∧
      List.Forall₂ (fun node a => lower node = .ok a) kept (lowerAll lower nodes).1 := by
  induction nodes with
  | nil => exact ⟨[], .slnil, .nil⟩
  | cons node rest ih =>
    obtain ⟨kept, hsub, hkept⟩ := ih
    rw [lowerAll]
    cases hl : lower node with
    | error cause => exact ⟨kept, hsub.cons node, hkept⟩
    | ok a => exact ⟨node :: kept, hsub.cons_cons node, .cons hl hkept⟩

/-- Parts that have the spans of their nodes follow each other in the node around them. -/
theorem holds_lowerAll {α : Type} {lower : Node → Lowered α} {span : α → Span}
    (hspan : ∀ node a, lower node = .ok a → span a = spanOf node) (hs : node.Sound) {nodes : List Node}
    (hsub : nodes.Sublist node.children) : (spanOf node).Holds ((lowerAll lower nodes).1.map span) := by
  obtain ⟨kept, hkept, hall⟩ := exists_kept_lowerAll lower nodes
  have hin := hkept.trans hsub
  have hsound : ∀ inner ∈ kept, inner.Sound := fun inner hmem => hs.child (hin.subset hmem)
  have heq : (lowerAll lower nodes).1.map span = kept.map spanOf := by
    clear hkept hin hsound
    generalize (lowerAll lower nodes).1 = lowered at hall
    induction hall with
    | nil => rfl
    | cons hok _ ih => rw [List.map_cons, List.map_cons, hspan _ _ hok, ih]
  rw [heq]
  exact holds_children hs hin (forall₂_spanOf hsound)

theorem arranged_function {chars : List Char} {doc : Option Doc} {f : Function} {dropped : List Dropped}
    (h : function (.ofList chars) node doc = .ok (f, dropped)) (hn : Node.Regular node)
    (hp : node.AllPlaced chars) (hdoc : ∀ d, doc = some d →
      d.SpansIn fun span => Span.Holds ⟨0, byteLength chars⟩ [span]) : f.Arranged chars := by
  rw [function] at h
  obtain ⟨header, hheader, h⟩ := bind_eq_ok.mp h
  obtain ⟨⟨name, nameSpan⟩, hname, h⟩ := bind_eq_ok.mp h
  obtain ⟨⟨body, lostStatements⟩, hbody, h⟩ := bind_eq_ok.mp h
  cases h
  have hself : (spanOf node).Holds [spanOf node] := .self (holds_nil hn.sound).le
  have hheader := mem_children_of_significant (List.mem_of_find?_eq_some (require_eq_ok.mp hheader))
  have hhead := hn.child hheader
  obtain ⟨nameNode, hfound, -, rfl⟩ := identifier_eq_ok hname
  have hplaced := hp node (.refl node)
  obtain ⟨hall, kept, hkept, hspans⟩ := blockArranged_block maxNesting _ _ hbody fun part hpart =>
    hn.significant hpart
  have hdeclarations : (node.significant.filter (·.kind == .variableDeclaration)).Sublist
      node.significant := List.filter_sublist
  refine ⟨?_, ?_, ?_, ?_, ?_, ?_, ?_, hall, hdoc⟩
  · exact ⟨Nat.zero_le _, hself.le, hplaced.stop.bytes_le⟩
  · exact holds_within hn.sound (.step hheader (.child (List.mem_of_find?_eq_some hfound)))
  · show (spanOf node).Holds _
    cases hlist : header.child? .parameters with
    | none => exact holds_nil hn.sound
    | some list =>
      have hmem := List.mem_of_find?_eq_some hlist
      have hrow : (spanOf list).Holds
          ((lowerAll (parameter (.ofList chars)) list.significant).1.map (·.span)) :=
        holds_lowerAll (fun _ _ hok => span_parameter hok) (hhead.sound.child hmem)
          (significant_sublist list)
      exact (holds_within hn.sound (.step hheader (.child hmem))).trans hrow
  · exact holds_lowerAll (fun part d hok => span_declaration hok) hn.sound
      (hdeclarations.trans (significant_sublist node))
  · intro d hd
    obtain ⟨part, hmem, hok⟩ := mem_lowerAll hd
    have hchild := mem_children_of_significant (hdeclarations.subset hmem)
    exact (arranged_declaration (hn.sound.child hchild)
      (fun inner hin => hp inner (.step hchild hin)) hok).1
  · intro d hd
    obtain ⟨part, hmem, hok⟩ := mem_lowerAll hd
    have hchild := mem_children_of_significant (hdeclarations.subset hmem)
    exact (arranged_declaration (hn.sound.child hchild)
      (fun inner hin => hp inner (.step hchild hin)) hok).2
  · have hsub := (hkept.trans List.filter_sublist).trans (significant_sublist node)
    show (spanOf node).Holds (body.map Statement.span)
    rw [show body.map Statement.span = kept.map spanOf from hspans]
    exact holds_children hn.sound hsub
      (forall₂_spanOf fun inner hin => hn.sound.child (hsub.subset hin))

/-- **Everything in a program is arranged.**  In every function that is read from a text, whatever was
repaired or left out, each part is in the span of what holds it, and parts of one kind follow each other;
no span ends before it begins or beyond the text. -/
theorem arranged_parse (text : String) (f : Function) (hf : f ∈ (parse text).1) :
    f.Arranged text.toList ∧
      ∀ span ∈ f.spans, span.start ≤ span.stop ∧ span.stop ≤ byteLength text.toList := by
  have hsound := sound_parse text.toList
  have hplaced := allPlaced_parse text.toList
  have hconditioned := conditioned_parse text.toList
  simp only [parse] at hf
  generalize Node.parse text.toList = root at hsound hplaced hconditioned hf
  have htags : ∀ node ∈ root.significant,
      TagsIn (fun span => Span.Holds ⟨0, byteLength text.toList⟩ [span]) node := by
    intro node hnode tag htag _
    have hin : root.Within tag :=
      .step (mem_children_of_significant hnode) (.child (mem_children_of_significant htag))
    have hp := hplaced tag hin
    exact ⟨Nat.zero_le _, hp.le, hp.stop.bytes_le⟩
  obtain ⟨node, hnode, above, dropped, hlowered, habove⟩ :=
    mem_functionsFrom htags (Doc.SpansIn.empty _) hf
  have hchild := mem_children_of_significant hnode
  have harranged := arranged_function hlowered ⟨hsound.child hchild, hconditioned.child hchild⟩
    (fun inner hin => hplaced inner (.step hchild hin)) habove
  refine ⟨harranged, fun span hspan => ?_⟩
  obtain ⟨-, h1, h2⟩ := harranged.holds span hspan
  exact ⟨h1, h2⟩

/-- A text with a repair and with something that is left out. -/
def repairedText : String := "FUNCTION F()\nINT a = 1, b;\nIF a THEN\nG(1, b);\nH(2;\nEND\nEND"

/-- Its function is arranged, although one of its statements is left out. -/
theorem arranged_repairedText : (Node.parse repairedText.toList).hasError = true ∧
    ∃ f ∈ (parse repairedText).1, f.name = "F" ∧ f.Arranged repairedText.toList := by
  have hname : (parse repairedText).1.map (·.name) = ["F"] := by decide +kernel
  obtain ⟨f, hf, heq⟩ := List.mem_map.mp (hname ▸ List.mem_singleton_self "F")
  exact ⟨by decide +kernel, f, hf, heq, (arranged_parse repairedText f hf).1⟩

end Cicode.Program

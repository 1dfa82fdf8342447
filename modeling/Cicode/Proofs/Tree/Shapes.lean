import Cicode.Proofs.Tree.Rows

/-!
# The shapes of nodes without repairs

What the rules say of rows says how nodes of a kind look.  A rule *needs* a symbol if all that it matches
holds it; where a rule has no repetitions, all that it matches can be listed.

The shapes of expressions and conditions are given one by one (`ExpressionShape`, `AtomShape`,
`ConditionShape`, `ConditionalAtomShape`, `StatementShape`), with `expression_shape` and its like to say
that every node without repairs has the shape of its kind.
-/

namespace Cicode.Grammar.Rule

/-- Whether all that a rule matches holds a symbol. -/
def needs (s : Symbol) : Rule → Bool
  | .never => true
  | .empty => false
  | .symbol x => x == s
  | .seq a b => a.needs s || b.needs s
  | .choice a b => a.needs s && b.needs s
  | .many _ _ => false

theorem mem_of_needs {r : Rule} {s : Symbol} {xs : List Symbol} (hm : r.Matches xs)
    (h : r.needs s = true) : s ∈ xs := by
  induction hm with
  | empty | done | more => cases h
  | symbol x => exact List.mem_singleton.mpr (beq_iff_eq.mp h).symm
  | seq _ _ iha ihb =>
    rw [needs, Bool.or_eq_true] at h
    exact List.mem_append.mpr (h.imp iha ihb)
  | first _ ih =>
    rw [needs, Bool.and_eq_true] at h
    exact ih h.1
  | second _ ih =>
    rw [needs, Bool.and_eq_true] at h
    exact ih h.2

end Cicode.Grammar.Rule

namespace Cicode.Tree

open Grammar Cicode.Lex

/-! ## Shapes -/

section

variable (source : Source) (node : Node)

/-- What an expression is made of. -/
inductive ExpressionShape : Prop
  | atom (atom : Node) : node.significant = [atom] → atom.kind = .expressionAtom →
      Portrayed source atom → ExpressionShape
  | operation (left operator right : Node) : node.significant = [left, operator, right] →
      left.kind = .expression → operator.kind = .operatorsUsedInStatements → right.kind = .expression →
      Portrayed source left → Portrayed source operator → Portrayed source right → ExpressionShape

/-- What an atom of an expression is made of. -/
inductive AtomShape : Prop
  | plain (first : Node) : node.firstToken = some first →
      first.kind ∈ [Symbol.variableName, .string, .number, .functionCall] → Portrayed source first →
      AtomShape
  | group (opening operand : Node) : node.firstToken = some opening → opening.kind = .lparen →
      node.significant = [operand] → operand.kind = .expression → Portrayed source operand → AtomShape
  | negation (minus operand : Node) : node.firstToken = some minus → minus.kind = .minus →
      node.significant = [operand] → operand.kind = .expressionAtom → Portrayed source operand → AtomShape

/-- What a condition is made of. -/
inductive ConditionShape : Prop
  | single (operand : Node) : node.significant = [operand] →
      operand.kind ∈ [Symbol.expression, .conditionalAtom] → Portrayed source operand → ConditionShape
  | operation (left operator right : Node) : node.significant = [left, operator, right] →
      left.kind = .conditionalStatement → operator.kind = .operatorsUsedInConditionals →
      right.kind = .conditionalStatement → Portrayed source left → Portrayed source operator →
      Portrayed source right → ConditionShape

/-- What an atom of a condition is made of. -/
inductive ConditionalAtomShape : Prop
  | plain (first : Node) : node.firstToken = some first → node.significant = [first] →
      first.kind ∈ [Symbol.variableName, .functionCall] → Portrayed source first → ConditionalAtomShape
  | group (opening operand : Node) : node.firstToken = some opening → opening.kind = .lparen →
      node.significant = [operand] → operand.kind = .conditionalStatement → Portrayed source operand →
      ConditionalAtomShape
  | negation (not operand : Node) : node.firstToken = some not → not.kind = .kwNot →
      node.significant = [operand] → operand.kind = .conditionalAtom → Portrayed source operand →
      ConditionalAtomShape

/-- What a statement other than RETURN is made of. -/
inductive StatementShape : Prop
  | mk (inner : Node) : node.significant = [inner] →
      inner.kind ∈ [Symbol.variableAssignment, .ifStatement, .functionCall] → Portrayed source inner →
      StatementShape

end

namespace Portrayed

variable {source : Source} {node child : Node}

/-! ## What the rules say -/

/-- A node has a child of each kind that its rule needs. -/
theorem exists_child (h : Portrayed source node) (kind : Symbol)
    (hneeds : (rowRule node.kind).needs kind = true) : ∃ child ∈ node.code, child.kind = kind :=
  List.mem_map.mp (Rule.mem_of_needs h.row_matches hneeds)

/-- The kinds of the children occur in the rule. -/
theorem kind_mem (h : Portrayed source node) (hchild : child ∈ node.code) :
    child.kind ∈ (rowRule node.kind).symbols :=
  Rule.mem_symbols_of_matches h.row_matches _ (List.mem_map_of_mem hchild)

/-- What the row is, if the rule has no repetition. -/
theorem row_mem (h : Portrayed source node) {kind : Symbol} (hk : node.kind = kind)
    (hflat : (rowRule kind).IsFlat = true) : node.row ∈ (rowRule kind).expansions :=
  (Rule.matches_iff_mem_expansions hflat).mp (hk ▸ h.row_matches)

/-- A node, if its kind is that of a rule. -/
def named (node : Node) (kind : Symbol) : List Node := bif kind.isNamed then [node] else []

/-- The children of a node with a row of one symbol. -/
theorem exists_one (h : Portrayed source node) {a : Symbol} (hrow : node.row = [a]) :
    ∃ x, x.kind = a ∧ Portrayed source x ∧ node.firstToken = some x ∧ node.significant = named x a := by
  simp only [Node.row, List.map_eq_singleton_iff] at hrow
  obtain ⟨x, hcode, rfl⟩ := hrow
  exact ⟨x, rfl, h.child (by simp [hcode]), by rw [Node.firstToken_eq, hcode]; rfl,
    by rw [Node.significant_eq, hcode, List.filter_singleton]; rfl⟩

/-- The children of a node with a row of two symbols. -/
theorem exists_two (h : Portrayed source node) {a b : Symbol} (hrow : node.row = [a, b]) :
    ∃ x y, (x.kind = a ∧ y.kind = b) ∧ (Portrayed source x ∧ Portrayed source y) ∧
      node.firstToken = some x ∧ node.significant = named x a ++ named y b := by
  simp only [Node.row, List.map_eq_cons_iff, List.map_eq_nil_iff] at hrow
  obtain ⟨x, _, hcode, rfl, y, _, rfl, rfl, rfl⟩ := hrow
  refine ⟨x, y, ⟨rfl, rfl⟩, ⟨h.child (by simp [hcode]), h.child (by simp [hcode])⟩,
    by rw [Node.firstToken_eq, hcode]; rfl, ?_⟩
  rw [Node.significant_eq, hcode, ← List.singleton_append, List.filter_append, List.filter_singleton,
    List.filter_singleton]
  rfl

/-- The children of a node with a row of three symbols. -/
theorem exists_three (h : Portrayed source node) {a b c : Symbol} (hrow : node.row = [a, b, c]) :
    ∃ x y z, (x.kind = a ∧ y.kind = b ∧ z.kind = c) ∧
      (Portrayed source x ∧ Portrayed source y ∧ Portrayed source z) ∧
      node.firstToken = some x ∧ node.significant = named x a ++ (named y b ++ named z c) := by
  simp only [Node.row, List.map_eq_cons_iff, List.map_eq_nil_iff] at hrow
  obtain ⟨x, _, hcode, rfl, y, _, rfl, rfl, z, _, rfl, rfl, rfl⟩ := hrow
  refine ⟨x, y, z, ⟨rfl, rfl, rfl⟩,
    ⟨h.child (by simp [hcode]), h.child (by simp [hcode]), h.child (by simp [hcode])⟩,
    by rw [Node.firstToken_eq, hcode]; rfl, ?_⟩
  rw [Node.significant_eq, hcode, ← List.singleton_append, ← List.singleton_append (x := y),
    List.filter_append, List.filter_append, List.filter_singleton, List.filter_singleton,
    List.filter_singleton]
  rfl

/-! ## Expressions and conditions -/

theorem expression_shape (h : Portrayed source node) (hk : node.kind = .expression) :
    ExpressionShape source node := by
  have hrow := h.row_mem hk rfl
  have hall : (rowRule .expression).expansions = [[.expressionAtom],
    [.expression, .operatorsUsedInStatements, .expression],
    [.expression, .operatorsUsedInStatements, .expression],
    [.expression, .operatorsUsedInStatements, .expression]] := by decide
  simp only [hall, List.mem_cons, List.not_mem_nil, or_false, or_self] at hrow
  rcases hrow with hrow | hrow
  · obtain ⟨atom, ha, hp, -, hs⟩ := h.exists_one hrow
    exact .atom atom hs ha hp
  · obtain ⟨left, operator, right, ⟨hl, ho, hr⟩, ⟨hpl, hpo, hpr⟩, -, hs⟩ := h.exists_three hrow
    exact .operation left operator right hs hl ho hr
      hpl hpo hpr

theorem atom_shape (h : Portrayed source node) (hk : node.kind = .expressionAtom) :
    AtomShape source node := by
  have hrow := h.row_mem hk rfl
  have hall : (rowRule .expressionAtom).expansions = [[.variableName], [.string], [.number],
    [.lparen, .expression, .rparen], [.minus, .expressionAtom], [.functionCall]] := by decide
  have hplain : ∀ {kind : Symbol}, kind ∈ [Symbol.variableName, .string, .number, .functionCall] →
      node.row = [kind] → AtomShape source node := by
    intro kind hmem hrow
    obtain ⟨first, hf, hp, htoken, -⟩ := h.exists_one hrow
    exact .plain first htoken (hf ▸ hmem) hp
  simp only [hall, List.mem_cons, List.not_mem_nil, or_false] at hrow
  rcases hrow with hrow | hrow | hrow | hrow | hrow | hrow
  · exact hplain (by decide) hrow
  · exact hplain (by decide) hrow
  · exact hplain (by decide) hrow
  · obtain ⟨opening, operand, closing, ⟨ho, hi, hc⟩, ⟨-, hp, -⟩, htoken, hs⟩ := h.exists_three hrow
    exact .group opening operand htoken ho hs hi hp
  · obtain ⟨minus, operand, ⟨hm, hi⟩, ⟨-, hp⟩, htoken, hs⟩ := h.exists_two hrow
    exact .negation minus operand htoken hm hs hi hp
  · exact hplain (by decide) hrow

theorem condition_shape (h : Portrayed source node) (hk : node.kind = .conditionalStatement) :
    ConditionShape source node := by
  have hrow := h.row_mem hk rfl
  have hall : (rowRule .conditionalStatement).expansions = [[.expression], [.conditionalAtom],
    [.conditionalStatement, .operatorsUsedInConditionals, .conditionalStatement],
    [.conditionalStatement, .operatorsUsedInConditionals, .conditionalStatement],
    [.conditionalStatement, .operatorsUsedInConditionals, .conditionalStatement]] := by decide
  have hsingle : ∀ {kind : Symbol}, kind ∈ [Symbol.expression, .conditionalAtom] → kind.isNamed = true →
      node.row = [kind] → ConditionShape source node := by
    intro kind hmem hnamed hrow
    obtain ⟨operand, ho, hp, -, hs⟩ := h.exists_one hrow
    exact .single operand (by rw [hs, named, hnamed]; rfl) (ho ▸ hmem) hp
  simp only [hall, List.mem_cons, List.not_mem_nil, or_false, or_self] at hrow
  rcases hrow with hrow | hrow | hrow
  · exact hsingle (by decide) rfl hrow
  · exact hsingle (by decide) rfl hrow
  · obtain ⟨left, operator, right, ⟨hl, ho, hr⟩, ⟨hpl, hpo, hpr⟩, -, hs⟩ := h.exists_three hrow
    exact .operation left operator right hs hl ho hr
      hpl hpo hpr

theorem conditionalAtom_shape (h : Portrayed source node) (hk : node.kind = .conditionalAtom) :
    ConditionalAtomShape source node := by
  have hrow := h.row_mem hk rfl
  have hall : (rowRule .conditionalAtom).expansions = [[.variableName], [.functionCall],
    [.lparen, .conditionalStatement, .rparen], [.kwNot, .conditionalAtom],
    [.lparen, .conditionalStatement, .rparen], [.kwNot, .conditionalAtom]] := by decide
  have hplain : ∀ {kind : Symbol}, kind ∈ [Symbol.variableName, .functionCall] → kind.isNamed = true →
      node.row = [kind] → ConditionalAtomShape source node := by
    intro kind hmem hnamed hrow
    obtain ⟨first, hf, hp, htoken, hs⟩ := h.exists_one hrow
    exact .plain first htoken (by rw [hs, named, hnamed]; rfl) (hf ▸ hmem) hp
  have hgroup : node.row = [.lparen, .conditionalStatement, .rparen] →
      ConditionalAtomShape source node := by
    intro hrow
    obtain ⟨opening, operand, closing, ⟨ho, hi, hc⟩, ⟨-, hp, -⟩, htoken, hs⟩ := h.exists_three hrow
    exact .group opening operand htoken ho hs hi hp
  have hnegation : node.row = [.kwNot, .conditionalAtom] → ConditionalAtomShape source node := by
    intro hrow
    obtain ⟨not, operand, ⟨hn, hi⟩, ⟨-, hp⟩, htoken, hs⟩ := h.exists_two hrow
    exact .negation not operand htoken hn hs hi hp
  simp only [hall, List.mem_cons, List.not_mem_nil, or_false] at hrow
  rcases hrow with hrow | hrow | hrow | hrow | hrow | hrow
  · exact hplain (by decide) rfl hrow
  · exact hplain (by decide) rfl hrow
  · exact hgroup hrow
  · exact hnegation hrow
  · exact hgroup hrow
  · exact hnegation hrow

theorem statement_shape (h : Portrayed source node) (hk : node.kind = .statementOrExpression) :
    StatementShape source node := by
  have hrow := h.row_mem hk rfl
  have hall : (rowRule .statementOrExpression).expansions = [[.variableAssignment], [.ifStatement],
    [.functionCall, .semicolon]] := by decide
  simp only [hall, List.mem_cons, List.not_mem_nil, or_false] at hrow
  rcases hrow with hrow | hrow | hrow
  · obtain ⟨inner, hi, hp, -, hs⟩ := h.exists_one hrow
    exact .mk inner hs (by rw [hi]; decide) hp
  · obtain ⟨inner, hi, hp, -, hs⟩ := h.exists_one hrow
    exact .mk inner hs (by rw [hi]; decide) hp
  · obtain ⟨inner, semicolon, ⟨hi, hsemi⟩, ⟨hp, -⟩, -, hs⟩ := h.exists_two hrow
    exact .mk inner hs (by rw [hi]; decide) hp

end Portrayed

end Cicode.Tree

import Cicode.Proofs.Program.Names
import Cicode.Proofs.Program.Nesting

/-!
# The arguments of calls

What an expression, a condition or a statement *passes* are the arguments of the calls in it.  A node
without repairs is lowered to what passes all that its children are lowered to: each child of a kind that
matters is lowered by one of the calls of its parent (`call_of_expression` and its like), and what these
calls pass is passed (`Call.PassesIn.calls`).
-/

namespace Cicode.Program

open Grammar Text Cicode.Lex Cicode.Tree

/-! ## Arguments -/

mutual

/-- The arguments of the calls in an expression. -/
def Expr.passed : Expr → List Expr
  | .number .. | .string .. | .variable .. => []
  | .negate _ operand => operand.passed
  | .binary _ _ left right => left.passed ++ right.passed
  | .call _ _ arguments => arguments ++ Expr.passedAll arguments

/-- The arguments of the calls in several expressions. -/
def Expr.passedAll : List Expr → List Expr
  | [] => []
  | first :: rest => first.passed ++ Expr.passedAll rest

end

/-- The arguments of the calls in a condition. -/
def Condition.passed : Condition → List Expr
  | .expr _ value => value.passed
  | .not _ operand => operand.passed
  | .binary _ _ left right => left.passed ++ right.passed

/-- The arguments of the calls in a statement, its branches left aside. -/
def Statement.passed : Statement → List Expr
  | .assign _ _ _ value => value.passed
  | .call _ _ arguments => arguments ++ Expr.passedAll arguments
  | .branch _ condition _ _ => condition.passed
  | .return _ value => (value.map Expr.passed).getD []

/-- The arguments of the calls in a function. -/
def Function.passed (f : Function) : List Expr := (Statement.walkAll f.body).flatMap Statement.passed

@[simp] theorem Expr.passed_withSpan (span : Span) (e : Expr) : (e.withSpan span).passed = e.passed := by
  cases e <;> rfl

@[simp] theorem Condition.passed_withSpan (span : Span) (c : Condition) :
    (c.withSpan span).passed = c.passed := by
  cases c <;> rfl

theorem Expr.passedAll_eq (es : List Expr) : Expr.passedAll es = es.flatMap Expr.passed := by
  induction es with
  | nil => rfl
  | cons e es ih => rw [Expr.passedAll, List.flatMap_cons, ih]

section

variable {source : Source} {node : Node}

/-! ## Calls -/

/-- What a call makes, as the arguments in it. -/
def Call.passed (source : Source) (levels : Nat) : Call → Lowered (List Expr)
  | .expression node => (Program.expression source levels node).map Expr.passed
  | .condition node => (Program.condition source levels node).map Condition.passed
  | .atom node => (conditionalAtom source levels node).map Condition.passed

theorem exists_of_mapM {f : Node → Lowered Expr} {nodes : List Node} {es : List Expr}
    (h : nodes.mapM f = .ok es) : ∀ n ∈ nodes, ∃ e ∈ es, f n = .ok e := by
  induction nodes generalizing es with
  | nil => exact fun n hn => absurd hn List.not_mem_nil
  | cons n nodes ih =>
    rw [List.mapM_cons] at h
    obtain ⟨e, he, h⟩ := bind_eq_ok.mp h
    obtain ⟨rest, hrest, h⟩ := bind_eq_ok.mp h
    cases h
    intro m hm
    rcases List.mem_cons.mp hm with rfl | hm
    · exact ⟨e, List.mem_cons_self, he⟩
    · obtain ⟨e', he', hf⟩ := ih hrest m hm
      exact ⟨e', List.mem_cons_of_mem _ he', hf⟩

/-- The arguments of a call are lowered, and they are passed with those in them. -/
theorem exists_of_callWith {argument : Node → Lowered Expr} {name : String} {es : List Expr}
    (h : callWith source argument node = .ok (name, es)) :
    ∀ n ∈ node.significant, n.kind = .expression → ∃ e ∈ es, argument n = .ok e := by
  rw [callWith] at h
  obtain ⟨function, -, h⟩ := bind_eq_ok.mp h
  obtain ⟨found, hfound, h⟩ := bind_eq_ok.mp h
  cases h
  exact fun n hn hk => exists_of_mapM hfound n (List.mem_filter.mpr ⟨hn, by simp [hk]⟩)

/-- An atom of an expression passes what the expression in it passes. -/
theorem passed_atomWith (h : Portrayed source node) (hk : node.kind = .expressionAtom)
    {lower : Node → Lowered Expr} {e : Expr} (hok : atomWith source lower node = .ok e) :
    ∀ inner ∈ Call.ofAtom node, ∃ n e', inner = .expression n ∧ lower n = .ok e' ∧ e'.passed = e.passed := by
  intro inner hinner
  rw [atomWith] at hok
  cases h.atom_shape hk with
  | plain first htoken hfirst hp =>
    have hkinds : first.kind = .variableName ∨ first.kind = .string ∨ first.kind = .number ∨
        first.kind = .functionCall := by simpa using hfirst
    have heq : Call.ofAtom node = [.expression first] := by
      rcases hkinds with hkind | hkind | hkind | hkind <;> simp [Call.ofAtom, htoken, hkind, hp.present]
    rw [heq, List.mem_singleton] at hinner
    rw [htoken, require, ok_bind] at hok
    refine ⟨first, e, hinner, ?_, rfl⟩
    rcases hkinds with hkind | hkind | hkind | hkind <;> simpa [hkind, hp.present] using hok
  | group opening operand htoken ho hs hi hp =>
    have heq : Call.ofAtom node = [.expression operand] := by simp [Call.ofAtom, htoken, ho, hs]
    rw [heq, List.mem_singleton] at hinner
    simp only [htoken, require, ok_bind, ho, hs, List.head?_cons] at hok
    obtain ⟨e', he', hok⟩ := bind_eq_ok.mp hok
    cases hok
    exact ⟨operand, e', hinner, he', (Expr.passed_withSpan ..).symm⟩
  | negation minus operand htoken hm hs hi hp =>
    have heq : Call.ofAtom node = [.expression operand] := by simp [Call.ofAtom, htoken, hm, hs]
    rw [heq, List.mem_singleton] at hinner
    simp only [htoken, require, ok_bind, hm, hs, List.head?_cons] at hok
    obtain ⟨e', he', hok⟩ := bind_eq_ok.mp hok
    cases hok
    exact ⟨operand, e', hinner, he', rfl⟩

/-- The call succeeds with some number of levels and passes nothing but given arguments. -/
def Call.PassesIn (source : Source) (call : Call) (given : List Expr) : Prop :=
  ∃ levels found, call.passed source levels = .ok found ∧ found ⊆ given

theorem passesIn_expression {n : Node} {levels : Nat} {e : Expr} {given : List Expr}
    (h : expression source levels n = .ok e) (hsub : e.passed ⊆ given) :
    (Call.expression n).PassesIn source given :=
  ⟨levels, e.passed, by rw [Call.passed, h]; rfl, hsub⟩

theorem passesIn_condition {n : Node} {levels : Nat} {c : Condition} {given : List Expr}
    (h : condition source levels n = .ok c) (hsub : c.passed ⊆ given) :
    (Call.condition n).PassesIn source given :=
  ⟨levels, c.passed, by rw [Call.passed, h]; rfl, hsub⟩

theorem passesIn_atom {n : Node} {levels : Nat} {c : Condition} {given : List Expr}
    (h : conditionalAtom source levels n = .ok c) (hsub : c.passed ⊆ given) :
    (Call.atom n).PassesIn source given :=
  ⟨levels, c.passed, by rw [Call.passed, h]; rfl, hsub⟩

/-- What the calls of an expression pass, the expression passes. -/
theorem passesIn_of_expression (h : (Call.expression node).Proper source) {levels : Nat} {e : Expr}
    (hok : expression source levels node = .ok e) :
    ∀ inner ∈ (Call.expression node).calls, inner.PassesIn source e.passed := by
  cases levels with
  | zero => cases hok
  | succ levels =>
    rw [expression, expressionWith] at hok
    have hp : Portrayed source node := h.portrayed
    have hatom : ∀ atom : Node, Portrayed source atom → atom.kind = .expressionAtom →
        atomWith source (expression source levels) atom = .ok e →
        ∀ inner ∈ Call.ofAtom atom, inner.PassesIn source e.passed := by
      intro atom hpa hka hok inner hinner
      obtain ⟨n, e', rfl, he', heq⟩ := passed_atomWith hpa hka hok inner hinner
      exact passesIn_expression he' (by simp [heq])
    intro inner hinner
    rw [Call.calls] at hinner
    split at hok
    · rename_i hk
      rw [hk] at hinner
      cases hp.expression_shape hk with
      | atom atom hs ha hpa =>
        simp only [hs, ha, beq_self_eq_true, if_true] at hinner hok
        exact hatom atom hpa ha hok inner hinner
      | operation left operator right hs hl ho hr hpl hpo hpr =>
        simp only [hs, List.mem_cons, List.not_mem_nil, or_false] at hinner hok
        obtain ⟨op, -, hok⟩ := bind_eq_ok.mp hok
        obtain ⟨a, ha, hok⟩ := bind_eq_ok.mp hok
        obtain ⟨b, hb, hok⟩ := bind_eq_ok.mp hok
        cases hok
        rw [Expr.passed]
        rcases hinner with rfl | rfl
        · exact passesIn_expression ha (List.subset_append_left ..)
        · exact passesIn_expression hb (List.subset_append_right ..)
    · rename_i hk
      rw [hk] at hinner
      exact hatom node hp hk hok inner hinner
    · rename_i hk
      rw [hk] at hinner
      obtain ⟨argument, hargument, rfl⟩ := List.mem_map.mp hinner
      obtain ⟨hmem, hka⟩ := List.mem_filter.mp hargument
      obtain ⟨⟨name, es⟩, hcall, hok⟩ := bind_eq_ok.mp hok
      cases hok
      obtain ⟨e, he, hlower⟩ := exists_of_callWith hcall argument hmem (by simpa using hka)
      refine passesIn_expression hlower ?_
      rw [Expr.passed, Expr.passedAll_eq]
      exact fun x hx => List.mem_append_right _ (List.mem_flatMap.mpr ⟨e, he, hx⟩)
    · rename_i hk
      rw [hk] at hinner
      cases hinner
    · rename_i hk
      rw [hk] at hinner
      cases hinner
    · rename_i hk
      rw [hk] at hinner
      cases hinner
    · cases hok

theorem passesIn_of_conditionalAtom (h : Portrayed source node) (hk : node.kind = .conditionalAtom)
    {levels : Nat} {c : Condition} (hok : conditionalAtom source levels node = .ok c) :
    ∀ inner ∈ (Call.atom node).calls, inner.PassesIn source c.passed := by
  cases levels with
  | zero => cases hok
  | succ levels =>
    intro inner hinner
    rw [conditionalAtom, conditionalAtomWith] at hok
    rw [Call.calls] at hinner
    cases h.conditionalAtom_shape hk with
    | plain first htoken hs hfirst hp =>
      have hkinds : first.kind = .variableName ∨ first.kind = .functionCall := by simpa using hfirst
      simp only [htoken, hs, List.head?_cons, require, ok_bind] at hinner hok
      rcases hkinds with hkind | hkind <;>
      · simp only [hkind, List.mem_singleton] at hinner hok
        subst hinner
        obtain ⟨e, he, hok⟩ := bind_eq_ok.mp hok
        cases hok
        exact passesIn_expression he (by simp [Condition.passed])
    | group opening operand htoken ho hs hi hp =>
      simp only [htoken, hs, List.head?_cons, require, ok_bind, ho, List.mem_singleton] at hinner hok
      subst hinner
      obtain ⟨c', hc', hok⟩ := bind_eq_ok.mp hok
      cases hok
      exact passesIn_condition hc' (by simp)
    | negation not operand htoken hn hs hi hp =>
      simp only [htoken, hs, List.head?_cons, require, ok_bind, hn, hi, beq_self_eq_true, if_true,
        List.mem_singleton] at hinner hok
      subst hinner
      obtain ⟨c', hc', hok⟩ := bind_eq_ok.mp hok
      cases hok
      exact passesIn_atom hc' (by simp [Condition.passed])

theorem passesIn_of_condition (h : Portrayed source node) (hk : node.kind = .conditionalStatement)
    {levels : Nat} {c : Condition} (hok : condition source levels node = .ok c) :
    ∀ inner ∈ (Call.condition node).calls, inner.PassesIn source c.passed := by
  intro inner hinner
  rw [Call.calls] at hinner
  cases h.condition_shape hk with
  | single operand hs ho hp =>
    have hkinds : operand.kind = .expression ∨ operand.kind = .conditionalAtom := by simpa using ho
    have hinnermost : innermost node.size node = node := by
      refine innermost_eq _ fun other hother => ?_
      obtain rfl := List.singleton_inj.mp (hs.symm.trans hother)
      rcases hkinds with hkind | hkind <;> rw [hkind] <;> decide
    rcases hkinds with hkind | hkind
    · obtain rfl : inner = .expression operand := by simpa [hs, hkind] using hinner
      cases levels with
      | zero =>
        simp only [condition, conditionWith, hinnermost, hs, hkind] at hok
        cases hok
      | succ levels =>
        simp only [condition, conditionWith, hinnermost, hs, hkind] at hok
        obtain ⟨e, he, rfl⟩ := map_eq_ok.mp hok
        exact passesIn_expression he (by simp [Condition.passed])
    · obtain rfl : inner = .atom operand := by simpa [hs, hkind] using hinner
      cases levels with
      | zero =>
        simp only [condition, conditionWith, hinnermost, hs, hkind] at hok
        cases hok
      | succ levels =>
        simp only [condition, conditionWith, hinnermost, hs, hkind, beq_self_eq_true, if_true] at hok
        exact passesIn_atom (show conditionalAtom source (levels + 1) _ = _ by rw [conditionalAtom]; exact hok)
          (List.Subset.refl _)
  | operation left operator right hs hl ho hr hpl hpo hpr =>
    have hinnermost : innermost node.size node = node := by
      refine innermost_eq _ fun other hother => ?_
      rw [hs] at hother
      cases hother
    cases levels with
    | zero =>
      simp only [condition, conditionWith, hinnermost, hs] at hok
      cases hok
    | succ levels =>
      simp only [condition, conditionWith, hinnermost, hs, ok_bind] at hok
      obtain ⟨op, -, hok⟩ := bind_eq_ok.mp hok
      obtain ⟨a, ha, hok⟩ := bind_eq_ok.mp hok
      obtain ⟨b, hb, hok⟩ := bind_eq_ok.mp hok
      cases hok
      simp only [hs, List.mem_cons, List.not_mem_nil, or_false] at hinner
      rcases hinner with rfl | rfl
      · exact passesIn_condition ha (List.subset_append_left ..)
      · exact passesIn_condition hb (List.subset_append_right ..)

theorem Call.PassesIn.mono {call : Call} {given more : List Expr} (h : call.PassesIn source given)
    (hsub : given ⊆ more) : call.PassesIn source more := by
  obtain ⟨levels, found, hok, hfound⟩ := h
  exact ⟨levels, found, hok, List.Subset.trans hfound hsub⟩

/-- **What the calls of a call pass, the call passes.** -/
theorem Call.PassesIn.calls {call : Call} {given : List Expr} (h : call.PassesIn source given)
    (hp : call.Proper source) : ∀ inner ∈ call.calls, inner.PassesIn source given := by
  obtain ⟨levels, found, hok, hfound⟩ := h
  intro inner hinner
  refine Call.PassesIn.mono (show inner.PassesIn source found from ?_) hfound
  cases call with
  | expression node =>
    obtain ⟨e, he, rfl⟩ := map_eq_ok.mp hok
    exact passesIn_of_expression hp he inner hinner
  | condition node =>
    obtain ⟨c, hc, rfl⟩ := map_eq_ok.mp hok
    exact passesIn_of_condition hp.portrayed (List.mem_singleton.mp hp.kind_mem) hc inner hinner
  | atom node =>
    obtain ⟨c, hc, rfl⟩ := map_eq_ok.mp hok
    exact passesIn_of_conditionalAtom hp.portrayed (List.mem_singleton.mp hp.kind_mem) hc inner hinner

/-! ## Calls for children -/

section

variable {child : Node}

theorem mem_significant_of_code (hchild : child ∈ node.code) {kind : Symbol} (hk : child.kind = kind)
    (hnamed : kind.isNamed = true) : child ∈ node.significant := by
  rw [Node.significant_eq]
  exact List.mem_filter.mpr ⟨hchild, by rw [Node.isNamed, hk, hnamed]⟩

/-- An expression calls for the expressions below it. -/
theorem call_of_expression (h : Portrayed source node) (hk : node.kind = .expression)
    (hchild : child ∈ node.code) (hc : child.kind = .expression) :
    .expression child ∈ (Call.expression node).calls := by
  have hmem := mem_significant_of_code hchild hc rfl
  cases h.expression_shape hk with
  | atom atom hs ha hp =>
    rw [hs, List.mem_singleton] at hmem
    rw [← hmem, hc] at ha
    cases ha
  | operation left operator right hs hl ho hr =>
    simp only [hs, List.mem_cons, List.not_mem_nil, or_false] at hmem
    rcases hmem with rfl | rfl | rfl
    · simp [Call.calls, hk, hs]
    · rw [hc] at ho
      cases ho
    · simp [Call.calls, hk, hs]

/-- An expression that consists of an atom calls for what the atom does. -/
theorem calls_of_atom (h : Portrayed source node) (hk : node.kind = .expression)
    (hchild : child ∈ node.code) (hc : child.kind = .expressionAtom) :
    (Call.expression node).calls = Call.ofAtom child := by
  have hmem := mem_significant_of_code hchild hc rfl
  cases h.expression_shape hk with
  | atom atom hs ha hp =>
    rw [hs, List.mem_singleton] at hmem
    subst hmem
    simp [Call.calls, hk, hs, hc]
  | operation left operator right hs hl ho hr =>
    simp only [hs, List.mem_cons, List.not_mem_nil, or_false] at hmem
    rcases hmem with rfl | rfl | rfl
    · rw [hc] at hl
      cases hl
    · rw [hc] at ho
      cases ho
    · rw [hc] at hr
      cases hr

/-- An atom that is no group and no negation has one child. -/
theorem code_of_plain (h : Portrayed source node) (hk : node.kind = .expressionAtom) {first : Node}
    (htoken : node.firstToken = some first)
    (hfirst : first.kind ∈ [Symbol.variableName, .string, .number, .functionCall]) : node.code = [first] := by
  have hrows : ∀ row ∈ (rowRule .expressionAtom).expansions, row.head?.any
      [Symbol.variableName, .string, .number, .functionCall].contains = true → row.length = 1 := by
    decide
  rw [Node.firstToken_eq] at htoken
  have hlength := hrows _ (h.row_mem hk rfl) (by simpa [Node.row, htoken] using hfirst)
  rw [Node.row, List.length_map] at hlength
  obtain ⟨only, honly⟩ := List.length_eq_one_iff.mp hlength
  rw [honly] at htoken ⊢
  rw [Option.some.inj htoken]

/-- An atom of an expression calls for what is below it. -/
theorem call_of_expressionAtom (h : Portrayed source node) (hk : node.kind = .expressionAtom)
    (hchild : child ∈ node.code) (hc : child.kind ∈ [Symbol.expression, .expressionAtom, .functionCall]) :
    .expression child ∈ Call.ofAtom node := by
  have hnamed : child.kind.isNamed = true := by
    have hall : ∀ kind ∈ [Symbol.expression, .expressionAtom, .functionCall], kind.isNamed = true := by decide
    exact hall _ hc
  have hmem := mem_significant_of_code hchild rfl hnamed
  cases h.atom_shape hk with
  | plain first htoken hfirst hp =>
    rw [code_of_plain h hk htoken hfirst, List.mem_singleton] at hchild
    subst hchild
    have hkinds : child.kind = .variableName ∨ child.kind = .string ∨ child.kind = .number ∨
        child.kind = .functionCall := by simpa using hfirst
    rcases hkinds with hkind | hkind | hkind | hkind <;> simp [Call.ofAtom, htoken, hkind, hp.present]
  | group opening operand htoken ho hs hi hp =>
    rw [hs, List.mem_singleton] at hmem
    subst hmem
    simp [Call.ofAtom, htoken, ho, hs]
  | negation minus operand htoken hm hs hi hp =>
    rw [hs, List.mem_singleton] at hmem
    subst hmem
    simp [Call.ofAtom, htoken, hm, hs]

/-- The call that lowers a node in a condition. -/
def callIn (node : Node) : Call :=
  match node.kind with
  | .conditionalStatement => .condition node
  | .conditionalAtom => .atom node
  | _ => .expression node

/-- A condition calls for what is below it. -/
theorem call_of_condition (h : Portrayed source node) (hk : node.kind = .conditionalStatement)
    (hchild : child ∈ node.code)
    (hc : child.kind ∈ [Symbol.expression, .conditionalStatement, .conditionalAtom]) :
    callIn child ∈ (Call.condition node).calls := by
  have hkinds : child.kind = .expression ∨ child.kind = .conditionalStatement ∨
      child.kind = .conditionalAtom := by simpa using hc
  have hnamed : child.kind.isNamed = true := by rcases hkinds with hk | hk | hk <;> rw [hk] <;> rfl
  have hmem := mem_significant_of_code hchild rfl hnamed
  cases h.condition_shape hk with
  | single operand hs ho =>
    rw [hs, List.mem_singleton] at hmem
    subst hmem
    rcases hkinds with hk | hk | hk <;> simp [Call.calls, callIn, hs, hk]
  | operation left operator right hs hl ho hr =>
    simp only [hs, List.mem_cons, List.not_mem_nil, or_false] at hmem
    rcases hmem with rfl | rfl | rfl
    · simp [Call.calls, callIn, hs, hl]
    · rw [ho] at hkinds
      simp at hkinds
    · simp [Call.calls, callIn, hs, hr]

/-- An atom of a condition calls for what is below it. -/
theorem call_of_conditionalAtom (h : Portrayed source node) (hk : node.kind = .conditionalAtom)
    (hchild : child ∈ node.code)
    (hc : child.kind ∈ [Symbol.functionCall, .conditionalStatement, .conditionalAtom]) :
    callIn child ∈ (Call.atom node).calls := by
  have hkinds : child.kind = .functionCall ∨ child.kind = .conditionalStatement ∨
      child.kind = .conditionalAtom := by simpa using hc
  have hnamed : child.kind.isNamed = true := by rcases hkinds with hk | hk | hk <;> rw [hk] <;> rfl
  have hmem := mem_significant_of_code hchild rfl hnamed
  cases h.conditionalAtom_shape hk with
  | plain first htoken hs hfirst hp =>
    rw [hs, List.mem_singleton] at hmem
    subst hmem
    have hfirst : child.kind = .variableName ∨ child.kind = .functionCall := by simpa using hfirst
    rcases hfirst with hk | hk
    · rw [hk] at hkinds
      simp at hkinds
    · simp [Call.calls, callIn, htoken, hs, hk]
  | group opening operand htoken ho hs hi hp =>
    rw [hs, List.mem_singleton] at hmem
    subst hmem
    simp [Call.calls, callIn, htoken, ho, hs, hi]
  | negation not operand htoken hn hs hi hp =>
    rw [hs, List.mem_singleton] at hmem
    subst hmem
    simp [Call.calls, callIn, htoken, hn, hs, hi]

end

/-! ## Statements -/

theorem passesIn_of_callWith {levels : Nat} {name : String} {es : List Expr}
    (h : callWith source (expression source levels) node = .ok (name, es)) :
    ∀ argument ∈ node.significant, argument.kind = .expression → ∃ e ∈ es,
      expression source levels argument = .ok e ∧ e.passed ⊆ es ++ Expr.passedAll es := by
  intro argument hmem hk
  obtain ⟨e, he, hlower⟩ := exists_of_callWith h argument hmem hk
  refine ⟨e, he, hlower, fun x hx => List.mem_append_right _ ?_⟩
  rw [Expr.passedAll_eq]
  exact List.mem_flatMap.mpr ⟨e, he, hx⟩

/-- What the calls of a statement pass, the statement passes. -/
theorem passesIn_of_statement (h : Portrayed source node) (hstatement : isStatement node = true)
    {levels : Nat} {block : BlockLowerer} {s : Statement} {inside : List Dropped}
    (hok : statement source levels block node = .ok (s, inside)) :
    ∀ call ∈ statementCalls node, call.PassesIn source s.passed := by
  intro call hcall
  rcases isStatement_kind hstatement with hk | hk
  · obtain ⟨inner, hs, hki, hp⟩ := h.statement_shape hk
    have hkinds : inner.kind = .variableAssignment ∨ inner.kind = .ifStatement ∨
        inner.kind = .functionCall := by simpa using hki
    rw [statement, if_neg (by rw [hk]; decide), statementWith, hs, List.head?_cons, require, ok_bind] at hok
    rcases hkinds with hki | hki | hki
    · obtain ⟨target, holder, value, -, -, hholder, hvalue, -, -⟩ := exists_value hp hki
      simp only [statementCalls, hk, hs, List.head?_cons, hki, hholder, Option.bind_some, hvalue,
        Option.toList_some, List.map_singleton, List.mem_singleton] at hcall
      simp only [hki, hholder, Option.bind_some, hvalue, require, ok_bind] at hok
      obtain ⟨name, -, hok⟩ := bind_eq_ok.mp hok
      obtain ⟨e, he, hok⟩ := bind_eq_ok.mp hok
      cases hok
      subst hcall
      exact passesIn_expression he (List.Subset.refl _)
    · simp only [hki] at hok
      obtain ⟨test, c, thenPart, elsePart, htest, hc, rfl⟩ := test_of_branchWith hok
      simp only [statementCalls, hk, hs, List.head?_cons, hki, htest, Option.toList_some,
        List.map_singleton, List.mem_singleton] at hcall
      subst hcall
      exact passesIn_condition hc (List.Subset.refl _)
    · simp only [hki] at hok
      obtain ⟨⟨name, es⟩, hcallWith, hok⟩ := bind_eq_ok.mp hok
      cases hok
      simp only [statementCalls, hk, hs, List.head?_cons, hki] at hcall
      obtain ⟨argument, hargument, rfl⟩ := List.mem_map.mp hcall
      obtain ⟨hmem, hka⟩ := List.mem_filter.mp hargument
      obtain ⟨e, -, he, hsub⟩ := passesIn_of_callWith hcallWith argument hmem (by simpa using hka)
      exact passesIn_expression he hsub
  · rw [statement, if_pos (by rw [hk]; rfl), returnStatement] at hok
    simp only [statementCalls, hk] at hcall
    obtain ⟨value, hvalue, rfl⟩ := List.mem_map.mp hcall
    rw [Option.mem_toList] at hvalue
    rw [hvalue] at hok
    obtain ⟨e, he, hok⟩ := map_eq_ok.mp hok
    cases hok
    exact passesIn_expression he (by simp [Statement.passed])

/-- The arguments of a call that is a statement are passed. -/
theorem argument_of_statement (h : Portrayed source node) (hk : node.kind = .statementOrExpression)
    {levels : Nat} {block : BlockLowerer} {s : Statement} {inside : List Dropped}
    (hok : statement source levels block node = .ok (s, inside)) {call : Node}
    (hcall : call ∈ node.code) (hkc : call.kind = .functionCall) :
    ∀ argument ∈ call.significant, argument.kind = .expression → ∃ e ∈ s.passed,
      ∃ levels, expression source levels argument = .ok e ∧ e.passed ⊆ s.passed := by
  obtain ⟨inner, hs, -, hp⟩ := h.statement_shape hk
  have hmem := mem_significant_of_code hcall hkc rfl
  rw [hs, List.mem_singleton] at hmem
  subst hmem
  rw [statement, if_neg (by rw [hk]; decide), statementWith, hs, List.head?_cons, require, ok_bind] at hok
  simp only [hkc] at hok
  obtain ⟨⟨name, es⟩, hcallWith, hok⟩ := bind_eq_ok.mp hok
  cases hok
  intro argument hmem hka
  obtain ⟨e, he, hlower, hsub⟩ := passesIn_of_callWith hcallWith argument hmem hka
  exact ⟨e, List.mem_append_left _ he, levels, hlower, hsub⟩

end

end Cicode.Program

import Cicode.Proofs.Program.DerivedProgram
import Cicode.Proofs.Program.Reading

/-!
# Printed programs are read back

What was said of expressions and conditions carries over to statements, declarations, headers and
functions.  A block is read back among other nodes, since lowering passes over what is no statement; so
the same statement serves the body of a function and both branches of an IF statement.

Main statement (`parse_print`): printing a program, then parsing the text, gives the program again,
places aside, and no diagnostics.
-/

namespace Cicode.Program

open Grammar Text Cicode.Lex Cicode.Tree

section Reading

variable {source : Source} {kind : Symbol} {field : Option Field} {node : Node} {levels : Nat}

/-- What corresponds to two lists one after the other. -/
theorem exists_of_forall₂_append {α β : Type} {R : α → β → Prop} {as bs : List α} {cs : List β}
    (h : List.Forall₂ R (as ++ bs) cs) :
    ∃ xs ys, cs = xs ++ ys ∧ List.Forall₂ R as xs ∧ List.Forall₂ R bs ys := by
  induction as generalizing cs with
  | nil => exact ⟨[], cs, rfl, .nil, h⟩
  | cons a as ih =>
    obtain ⟨c, rest, hc, hrest, rfl⟩ := List.forall₂_cons_left_iff.mp h
    obtain ⟨xs, ys, rfl, hxs, hys⟩ := ih hrest
    exact ⟨c :: xs, ys, rfl, .cons hc hxs, hys⟩

/-! ## Statements -/

/-- The node is no statement. -/
def IsOther (node : Node) : Prop := node.kind ≠ .statementOrExpression ∧ node.kind ≠ .returnStatement

/-- The node is lowered to a statement, and nothing is left out. -/
def Keeps (source : Source) (levels : Nat) (node : Node) (statement : Statement) : Prop :=
  node.kind = .statementOrExpression ∧
      statementWith source levels (block source levels) node = .ok (statement, []) ∨
    node.kind = .returnStatement ∧ returnStatement source levels node = .ok (statement, [])

/-- The nodes of a block are read back as its statements. -/
def RecoversBlock (source : Source) (levels : Nat) (nodes : List Node) (statements : List Statement) :
    Prop :=
  ∃ statements', statementsWith source levels (block source levels) nodes = (statements', []) ∧
    Statement.unplacedAll statements' = Statement.unplacedAll statements

/-- What is no statement is passed over. -/
theorem statementsWith_other {block : BlockLowerer} (h : IsOther node) (rest : List Node) :
    statementsWith source levels block (node :: rest) = statementsWith source levels block rest := by
  rw [statementsWith]
  rcases statementsWith source levels block rest with ⟨statements, dropped⟩
  simp only
  split <;> rename_i heq <;> split at heq
  all_goals first
    | exact absurd ‹node.kind = _› h.1
    | exact absurd ‹node.kind = _› h.2
    | cases heq
  rfl

namespace RecoversBlock

variable {nodes : List Node} {statements : List Statement}

theorem nil : RecoversBlock source levels [] [] := ⟨[], rfl, rfl⟩

theorem other (hnode : IsOther node) (h : RecoversBlock source levels nodes statements) :
    RecoversBlock source levels (node :: nodes) statements := by
  obtain ⟨statements', heq, hsame⟩ := h
  exact ⟨statements', by rw [statementsWith_other hnode, heq], hsame⟩

theorem others {before : List Node} (hbefore : ∀ node ∈ before, IsOther node)
    (h : RecoversBlock source levels nodes statements) :
    RecoversBlock source levels (before ++ nodes) statements := by
  induction before with
  | nil => exact h
  | cons node before ih =>
    obtain ⟨hnode, hrest⟩ := List.forall_mem_cons.mp hbefore
    exact .other hnode (ih hrest)

theorem keep {s s' : Statement} (hs : Keeps source levels node s') (hsame : s'.unplaced = s.unplaced)
    (h : RecoversBlock source levels nodes statements) :
    RecoversBlock source levels (node :: nodes) (s :: statements) := by
  obtain ⟨statements', heq, hsame'⟩ := h
  refine ⟨s' :: statements', ?_, by rw [Statement.unplacedAll, Statement.unplacedAll, hsame, hsame']⟩
  rw [statementsWith, heq]
  rcases hs with ⟨hkind, hs⟩ | ⟨hkind, hs⟩
  · rw [hkind, hs]
    rfl
  · rw [hkind, hs]
    rfl

end RecoversBlock

/-! ## Statements without branches -/

/-- An assignment. -/
theorem keeps_assign {target : String} {value : Expr} {span targetSpan : Span} (hp : value.Printable)
    (hn : value.nesting 1 ≤ levels)
    (h : Depicts source ⟨.statementOrExpression, field,
      (Statement.assign span target targetSpan value).derivation⟩ node) :
    ∃ s, Keeps source levels node s ∧ s.unplaced = (Statement.assign span target targetSpan value).unplaced := by
  obtain ⟨inner, hsignificant, hinner⟩ := only_significant [] _ [] h rfl rfl (by decide)
  obtain ⟨name, given, hparts, hname, hgiven⟩ :=
    DepictAll.two (hinner.significant_of_shown (List.all_eq_true.mp rfl))
  obtain ⟨below, hbelow, hvalue⟩ := only_significant [] _ [] hgiven (value.symbol_derivation 1) rfl (by decide)
  obtain ⟨e, he, hsame⟩ := recovers_expr value hp hn .whole hvalue
  have hkind : inner.kind = .variableAssignment := hinner.kind_eq
  have hnameKind : (name.kind == .variableName) = true := by rw [hname.kind_eq]; rfl
  have hother : (name.kind == .expressionVariableAssignments) = false := by rw [hname.kind_eq]; rfl
  have hgivenKind : (given.kind == .expressionVariableAssignments) = true := by rw [hgiven.kind_eq]; rfl
  refine ⟨.assign (spanOf node) target (spanOf name) e, .inl ⟨h.kind_eq, ?_⟩, by
    rw [Statement.unplaced, Statement.unplaced, hsame]⟩
  simp only [statementWith, hsignificant, List.head?_cons, require, ok_bind, hkind, hparts,
    List.find?_cons, hnameKind, identifier_of_depicts hname, hother, hgivenKind, Option.bind_some, hbelow,
    he, pure, Except.pure]

/-- A call that is a statement. -/
theorem keeps_call {function : String} {arguments : List Expr} {span : Span}
    (hp : Expr.AllPrintable arguments) (hn : Expr.nestingEach arguments ≤ levels)
    (h : Depicts source ⟨.statementOrExpression, field,
      (Statement.call span function arguments).derivation⟩ node) :
    ∃ s, Keeps source levels node s ∧ s.unplaced = (Statement.call span function arguments).unplaced := by
  obtain ⟨inner, hsignificant, hinner⟩ := only_significant [] _ [fixed .semicolon] h rfl rfl (by decide)
  obtain ⟨nodes, hnodes, hcall⟩ := callWith_of_depicts hinner
  obtain ⟨es, hes, hsame⟩ := gives_mapM (gives_exprs arguments hp hn hnodes)
  have hkind : inner.kind = .functionCall := hinner.kind_eq
  refine ⟨.call (spanOf node) function es, .inl ⟨h.kind_eq, ?_⟩, by
    rw [Statement.unplaced, Statement.unplaced, hsame]⟩
  simp only [statementWith, hsignificant, List.head?_cons, require, ok_bind, hkind, hcall hes, pure,
    Except.pure]

/-- A RETURN statement without a value. -/
theorem keeps_returnNothing {span : Span}
    (h : Depicts source ⟨.returnStatement, field, (Statement.return span none).derivation⟩ node) :
    ∃ s, Keeps source levels node s ∧ s.unplaced = (Statement.return span none).unplaced := by
  have hsignificant : DepictAll source [] node.significant :=
    h.significant_of_shown (List.all_eq_true.mp rfl)
  refine ⟨.return (spanOf node) none, .inr ⟨h.kind_eq, ?_⟩, rfl⟩
  rw [returnStatement, List.forall₂_nil_left_iff.mp hsignificant]
  rfl

/-- A RETURN statement with a value. -/
theorem keeps_return {value : Expr} {span : Span} (hp : value.Printable) (hn : value.nesting 1 ≤ levels)
    (h : Depicts source ⟨.returnStatement, field, (Statement.return span (some value)).derivation⟩ node) :
    ∃ s, Keeps source levels node s ∧ s.unplaced = (Statement.return span (some value)).unplaced := by
  obtain ⟨below, hsignificant, hbelow⟩ := only_significant [fixed .kwReturn] _ [fixed .semicolon] h
    (value.symbol_derivation 1) rfl (by decide)
  obtain ⟨e, he, hsame⟩ := recovers_expr value hp hn .whole hbelow
  have hkind : (below.kind == .expression) = true := by rw [hbelow.kind_eq]; rfl
  refine ⟨.return (spanOf node) (some e), .inr ⟨h.kind_eq, ?_⟩, ?_⟩
  · simp only [returnStatement, hsignificant, List.find?_cons, hkind, he, Except.map]
  · simp only [Statement.unplaced, Option.map_some, hsame]

/-! ## Branches -/

/-- The nodes of a block, one by one. -/
abbrev DepictBlock (source : Source) (statements : List Statement) (nodes : List Node) : Prop :=
  List.Forall₂ (fun s n => Depicts source ⟨s.derivation.symbol, none, s.derivation⟩ n) statements nodes

theorem Statement.symbol_derivation (s : Statement) :
    s.derivation.symbol = .statementOrExpression ∨ s.derivation.symbol = .returnStatement := by
  cases s with
  | assign | call | branch => exact .inl rfl
  | «return» _ value => cases value <;> exact .inr rfl

/-- A statement becomes a node of its own wherever it stands. -/
theorem partsAll_derivations {parent : Symbol} (hp : showsIn parent .bodyStatement = false)
    (statements : List Statement) : partsAll parent (Statement.derivations statements) =
      statements.map fun s => ⟨s.derivation.symbol, none, s.derivation⟩ := by
  induction statements with
  | nil => rfl
  | cons s statements ih =>
    have hone : parts .bodyStatement s.derivation = [⟨s.derivation.symbol, none, s.derivation⟩] := by
      rw [parts_of_shown (by rcases s.symbol_derivation with h | h <;> rw [h] <;> rfl), Tree.Part.of]
      rcases s.symbol_derivation with h | h <;> rw [h] <;> rfl
    rw [Statement.derivations, partsAll, parts, hp, if_neg Bool.false_ne_true, partsAll, partsAll, hone, ih]
    rfl

theorem depictBlock_of_depictAll {parent : Symbol} (hp : showsIn parent .bodyStatement = false)
    {statements : List Statement} {nodes : List Node}
    (h : DepictAll source (partsAll parent (Statement.derivations statements)) nodes) :
    DepictBlock source statements nodes := by
  rwa [partsAll_derivations hp, DepictAll, List.forall₂_map_left_iff] at h

/-- A list is split where it first fails to have a property. -/
theorem span_append {α : Type} {choose : α → Bool} {before after : List α}
    (hbefore : ∀ a ∈ before, choose a = true) (hafter : ∀ a ∈ after.head?, choose a = false) :
    (before ++ after).span choose = (before, after) := by
  rw [List.span_eq_takeWhile_dropWhile, List.takeWhile_append_of_pos hbefore,
    List.dropWhile_append_of_pos hbefore]
  cases after with
  | nil => simp
  | cons a after => simp [hafter a rfl]

/-- The nodes of a block are read back, whatever other nodes come after them. -/
def Recoverable (source : Source) (levels : Nat) (statements : List Statement) : Prop :=
  ∀ {nodes after : List Node}, DepictBlock source statements nodes → (∀ n ∈ after, IsOther n) →
    RecoversBlock source levels (nodes ++ after) statements

theorem block_of_recovers {nodes : List Node} {statements : List Statement}
    (h : RecoversBlock source levels nodes statements) : ∃ statements',
      block source (levels + 1) nodes = .ok (statements', []) ∧
      Statement.unplacedAll statements' = Statement.unplacedAll statements := by
  obtain ⟨statements', heq, hsame⟩ := h
  exact ⟨statements', by rw [block, heq], hsame⟩

/-- The nodes of an IF statement up to its first branch. -/
theorem children_branch {test : Condition} {thenPart : List Statement} {rest : List (Derivation Word)}
    (h : Depicts source ⟨kind, field, .node .ifStatement (fixed .kwIf :: test.derivation 1 ::
      fixed .kwThen :: (Statement.derivations thenPart ++ rest))⟩ node) :
    ∃ first given second nodes tail, node.children = first :: given :: second :: (nodes ++ tail) ∧
      first.kind = .kwIf ∧ Depicts source ⟨.conditionalStatement, none, test.derivation 1⟩ given ∧
      second.kind = .kwThen ∧ DepictBlock source thenPart nodes ∧
      DepictAll source (partsAll .ifStatement rest) tail := by
  have hall : DepictAll source (partsAll .ifStatement (fixed .kwIf :: test.derivation 1 ::
      fixed .kwThen :: (Statement.derivations thenPart ++ rest))) node.children := h.children
  have hshown : showsIn .ifStatement (test.derivation 1).symbol = true := by
    rw [test.symbol_derivation]
    rfl
  have hof : Tree.Part.of .ifStatement (test.derivation 1) =
      ⟨.conditionalStatement, none, test.derivation 1⟩ := by
    rw [Tree.Part.of, test.symbol_derivation]
    rfl
  rw [partsAll, parts_of_shown rfl, partsAll, parts_of_shown hshown, partsAll, parts_of_shown rfl,
    partsAll_append, hof] at hall
  simp only [List.singleton_append] at hall
  obtain ⟨first, afterIf, hfirst, hafterIf, heq⟩ := List.forall₂_cons_left_iff.mp hall
  obtain ⟨given, afterTest, hgiven, hafterTest, rfl⟩ := List.forall₂_cons_left_iff.mp hafterIf
  obtain ⟨second, afterThen, hsecond, hafterThen, rfl⟩ := List.forall₂_cons_left_iff.mp hafterTest
  obtain ⟨nodes, tail, rfl, hnodes, htail⟩ := exists_of_forall₂_append hafterThen
  exact ⟨first, given, second, nodes, tail, heq, hfirst.kind_eq, hgiven, hsecond.kind_eq,
    depictBlock_of_depictAll rfl hnodes, htail⟩

theorem kind_of_mem_depictBlock {statements : List Statement} {nodes : List Node}
    (h : DepictBlock source statements nodes) :
    ∀ n ∈ nodes, n.kind = .statementOrExpression ∨ n.kind = .returnStatement := by
  intro n hn
  obtain ⟨s, -, hs⟩ := exists_of_forall₂_right h hn
  rw [hs.kind_eq]
  exact s.symbol_derivation

/-- A node that is one of the tokens of an IF statement. -/
theorem isOther_of_kind {s : Symbol} (hs : s ∈ [Symbol.kwIf, .kwThen, .kwElse, .kwEnd, .conditionalStatement])
    (h : node.kind = s) : IsOther node := by
  rw [IsOther, h]
  clear h
  revert s
  decide

/-- What comes after the first branch is the end, or the second branch and the end. -/
theorem tail_branch {elsePart : Option (List Statement)} {tail : List Node}
    (h : DepictAll source (partsAll .ifStatement (Statement.elseDerivations elsePart ++ [fixed .kwEnd])) tail) :
    (∃ final, final.kind = .kwEnd ∧ elsePart = none ∧ tail = [final]) ∨
      ∃ token nodes final statements, token.kind = .kwElse ∧ final.kind = .kwEnd ∧
        elsePart = some statements ∧ tail = token :: (nodes ++ [final]) ∧ DepictBlock source statements nodes := by
  cases elsePart with
  | none =>
    obtain ⟨final, rfl, hfinal⟩ := DepictAll.one (p := .of .ifStatement (fixed .kwEnd)) h
    exact .inl ⟨final, hfinal.kind_eq, rfl, rfl⟩
  | some statements =>
    rw [Statement.elseDerivations, List.cons_append, partsAll, parts_of_shown rfl, partsAll_append,
      List.singleton_append] at h
    obtain ⟨token, rest, htoken, hrest, rfl⟩ := List.forall₂_cons_left_iff.mp h
    obtain ⟨nodes, last, rfl, hnodes, hlast⟩ := exists_of_forall₂_append hrest
    obtain ⟨final, rfl, hfinal⟩ := DepictAll.one (p := .of .ifStatement (fixed .kwEnd)) hlast
    exact .inr ⟨token, nodes, final, statements, htoken.kind_eq, hfinal.kind_eq, rfl, rfl,
      depictBlock_of_depictAll rfl hnodes⟩

/-- An IF statement. -/
theorem keeps_branch {test : Condition} {thenPart : List Statement} {elsePart : Option (List Statement)}
    {span : Span} (htest : RecoversCondition source (levels + 1) (test.derivation 1) test)
    (hthen : Recoverable source levels thenPart) (helse : ∀ b ∈ elsePart, Recoverable source levels b)
    (h : Depicts source ⟨.statementOrExpression, field,
      (Statement.branch span test thenPart elsePart).derivation⟩ node) :
    ∃ s, Keeps source (levels + 1) node s ∧
      s.unplaced = (Statement.branch span test thenPart elsePart).unplaced := by
  obtain ⟨inner, hsignificant, hinner⟩ := only_significant [] _ [] h rfl rfl (by decide)
  have hkind : inner.kind = .ifStatement := hinner.kind_eq
  obtain ⟨first, given, second, nodes, tail, hchildren, hfirst, hgiven, hsecond, hnodes, htail⟩ :=
    children_branch hinner
  obtain ⟨test', htest', hsame⟩ := htest hgiven
  have hgiven : given.kind = .conditionalStatement := hgiven.kind_eq
  have hhead : ∀ {after : List Node}, (∀ n ∈ after, IsOther n) →
      RecoversBlock source levels (first :: given :: second :: (nodes ++ after)) thenPart := fun hafter =>
    .other (isOther_of_kind (by decide) hfirst) (.other (isOther_of_kind (by decide) hgiven)
      (.other (isOther_of_kind (by decide) hsecond) (hthen hnodes hafter)))
  have hfind : inner.children.find? (·.kind == .conditionalStatement) = some given := by
    rw [hchildren, List.find?_cons, hfirst, List.find?_cons, hgiven]
    rfl
  have hbefore : ∀ n ∈ first :: given :: second :: nodes, (n.kind != .kwElse) = true := by
    simp only [List.forall_mem_cons, hfirst, hgiven, hsecond]
    refine ⟨rfl, rfl, rfl, fun n hn => ?_⟩
    rcases kind_of_mem_depictBlock hnodes n hn with hn | hn <;> rw [hn] <;> rfl
  rcases tail_branch htail with ⟨final, hfinal, rfl, rfl⟩ |
    ⟨token, others, final, statements, htoken, hfinal, rfl, rfl, hothers⟩
  · -- no second branch: the first one goes on to the end
    obtain ⟨thenPart', hblock, hsame'⟩ :=
      block_of_recovers (hhead (List.forall_mem_singleton.mpr (isOther_of_kind (by decide) hfinal)))
    refine ⟨.branch (spanOf node) test' thenPart' none, .inl ⟨h.kind_eq, ?_⟩, by
      simp only [Statement.unplaced, Statement.unplacedElse, hsame, hsame']⟩
    have hall : ∀ n ∈ inner.children, (n.kind != .kwElse) = true := by
      rw [hchildren, ← List.cons_append, ← List.cons_append, ← List.cons_append]
      refine List.forall_mem_append.mpr ⟨hbefore, List.forall_mem_singleton.mpr ?_⟩
      rw [hfinal]
      rfl
    have hspan : (inner.children ++ []).span (·.kind != Symbol.kwElse) = (inner.children, []) :=
      span_append hall (by simp)
    rw [List.append_nil] at hspan
    rw [← hchildren] at hblock
    simp only [statementWith, hsignificant, List.head?_cons, require, ok_bind, hkind, branchWith, hfind,
      htest', hspan, hblock, pure, Except.pure]
  · have hfirstBranch : RecoversBlock source levels (first :: given :: second :: nodes) thenPart := by
      have hnone := hhead (List.forall_mem_nil _)
      rwa [List.append_nil] at hnone
    obtain ⟨thenPart', hblock, hsame'⟩ := block_of_recovers hfirstBranch
    obtain ⟨elsePart', hblock', hsame''⟩ := block_of_recovers
      (helse _ rfl hothers (List.forall_mem_singleton.mpr (isOther_of_kind (by decide) hfinal)))
    refine ⟨.branch (spanOf node) test' thenPart' (some elsePart'), .inl ⟨h.kind_eq, ?_⟩, by
      simp only [Statement.unplaced, Statement.unplacedElse, hsame, hsame', hsame'']⟩
    have hspan : inner.children.span (·.kind != .kwElse) =
        (first :: given :: second :: nodes, token :: (others ++ [final])) := by
      rw [hchildren]
      exact span_append hbefore (by simp [htoken])
    simp only [statementWith, hsignificant, List.head?_cons, require, ok_bind, hkind, branchWith, hfind,
      htest', hspan, hblock, hblock', pure, Except.pure, List.append_nil]

mutual

/-- **A statement is read back from where it is printed**, if there are levels enough. -/
theorem keeps_statement : ∀ (s : Statement), s.Printable → ∀ {levels : Nat}, s.nesting ≤ levels →
    ∀ {field : Option Field} {node : Node}, Depicts source ⟨s.derivation.symbol, field, s.derivation⟩ node →
    ∃ s', Keeps source levels node s' ∧ s'.unplaced = s.unplaced
  | .assign _ _ _ _, hp, _, hn, _, _, h => keeps_assign hp.2 hn h
  | .call _ _ _, hp, _, hn, _, _, h => keeps_call hp.2 hn h
  | .return _ none, _, _, _, _, _, h => keeps_returnNothing h
  | .return _ (some _), hp, _, hn, _, _, h => keeps_return hp hn h
  | .branch _ test thenPart elsePart, hp, levels, hn, _, _, h => by
    rw [Statement.nesting, Nat.max_le, Nat.max_le] at hn
    obtain ⟨htest, hthen, helse⟩ := hn
    obtain ⟨levels, rfl⟩ := Nat.exists_eq_add_of_le' (Nat.le_of_add_left_le hthen)
    exact keeps_branch (recoversCondition test hp.1 htest)
      (recoverable_block thenPart hp.2.1 (Nat.le_of_succ_le_succ hthen))
      (recoverable_else elsePart hp.2.2 helse) h

/-- The statements of a block are read back. -/
theorem recoverable_block : ∀ (statements : List Statement), Statement.AllPrintable statements →
    ∀ {levels : Nat}, Statement.nestingAll statements ≤ levels → Recoverable source levels statements
  | [], _, levels, _, _, after, .nil, hafter => by
    have h : RecoversBlock source levels (after ++ []) [] := .others hafter .nil
    rwa [List.append_nil] at h
  | s :: statements, hp, _, hn, _, _, .cons h hs, hafter => by
    rw [Statement.nestingAll, Nat.max_le] at hn
    obtain ⟨s', hs', hsame⟩ := keeps_statement s hp.1 hn.1 h
    exact .keep hs' hsame (recoverable_block statements hp.2 hn.2 hs hafter)

/-- The branch after `ELSE` is read back. -/
theorem recoverable_else : ∀ (elsePart : Option (List Statement)), Statement.ElsePrintable elsePart →
    ∀ {levels : Nat}, Statement.nestingElse elsePart ≤ levels + 1 →
    ∀ b ∈ elsePart, Recoverable source levels b
  | some block, hp, _, hn, _, rfl => recoverable_block block hp (Nat.le_of_succ_le_succ hn)

end

/-! ## Parameters and declarations -/

/-- The type that a token names. -/
theorem dataType?_token (type : DataType) : dataType? type.token = some type := by cases type <;> rfl

/-- The token of a type is its only one. -/
theorem firstToken_type {type : DataType} {symbol : Symbol}
    (hs : symbol ∈ [Symbol.parameterType, .variableType, .functionTypes])
    (h : Depicts source ⟨kind, field, .node symbol [type.derivation]⟩ node) :
    ∃ token, node.firstToken = some token ∧ token.kind = type.token := by
  have hbelow : (Tree.Part.mk kind field (.node symbol [type.derivation])).below =
      [.of .type (fixed type.token)] := by
    simp only [List.mem_cons, List.not_mem_nil, or_false] at hs
    rcases hs with rfl | rfl | rfl <;> cases type <;> rfl
  have hfirst := h.firstToken
  rw [hbelow] at hfirst
  have hkind : ([Tree.Part.of .type (fixed type.token)].find? (·.kind != .comment)) =
      some (.of .type (fixed type.token)) := by cases type <;> rfl
  rw [hkind] at hfirst
  obtain ⟨token, htoken, hdepicts⟩ := exists_of_rel_some hfirst
  refine ⟨token, htoken, hdepicts.kind_eq.trans ?_⟩
  cases type <;> rfl

theorem typeOf_of_depicts {type : DataType} {symbol : Symbol}
    (hs : symbol ∈ [Symbol.parameterType, .variableType, .functionTypes])
    (h : Depicts source ⟨kind, field, .node symbol [type.derivation]⟩ node) :
    typeOf (some node) = .ok type := by
  obtain ⟨token, htoken, hkind⟩ := firstToken_type hs h
  simp only [typeOf, Option.filter_some, h.present, Bool.not_false, if_true, Option.bind_some, htoken,
    hkind, dataType?_token, require]

/-- The node that a field refers to, if no derivation gives way to what is below it. -/
theorem child?_of_depicts {symbol : Symbol} {ds : List (Derivation Word)}
    (h : Depicts source ⟨kind, field, .node symbol ds⟩ node)
    (hshown : (ds.all fun d => showsIn symbol d.symbol) = true) (f : Field) :
    Option.Rel (Depicts source) ((ds.map (Tree.Part.of symbol)).find? (·.field == some f)) (node.child? f) := by
  have hbelow : (Tree.Part.mk kind field (.node symbol ds)).below = ds.map (Tree.Part.of symbol) :=
    partsAll_of_shown (List.all_eq_true.mp hshown)
  have hchild := h.child? f
  rwa [hbelow] at hchild

/-- The value after an equality sign. -/
theorem literal_of_given {value : Literal} (hp : value.Printable)
    {symbol : Symbol} (hs : symbol = .defaultValue ∨ symbol = .assignToValue)
    (h : Depicts source ⟨kind, field, .node symbol [fixed .equal, value.derivation]⟩ node) :
    ∃ given, node.significant.head? = some given ∧ given.kind = value.symbol ∧
      literal source given = .ok value := by
  have hshown : (showsIn symbol value.symbol && isSignificant symbol value.symbol) = true := by
    rcases hs with rfl | rfl <;> cases value <;> rfl
  have hothers : ∀ x ∈ [fixed .equal], showsIn symbol x.symbol = true ∧
      isSignificant symbol x.symbol = false := by
    rcases hs with rfl | rfl <;> decide
  have hsame : (shownAs symbol value.symbol).getD value.symbol = value.symbol := by
    rcases hs with rfl | rfl <;> cases value <;> rfl
  obtain ⟨given, hsignificant, hgiven⟩ :=
    only_significant [fixed .equal] value.derivation [] h
      (show value.derivation.symbol = value.symbol from rfl) hshown hothers
  rw [hsame] at hgiven
  exact ⟨given, by rw [hsignificant]; rfl, hgiven.kind_eq, literal_of_depicts hp hgiven⟩

/-- A parameter is read back. -/
theorem parameter_of_depicts {p : Parameter} (hp : ∀ value ∈ p.default, value.Printable)
    (h : Depicts source ⟨.functionParameter, field, p.derivation⟩ node) :
    Gives Parameter.unplaced (parameter source node) p := by
  refine ⟨{ p with span := spanOf node }, ?_, rfl⟩
  obtain ⟨name, type, default, span⟩ := p
  cases default with
  | none =>
    have hshown : ([Derivation.node .parameterType [type.derivation], named name].all fun d =>
        showsIn .functionParameter d.symbol) = true := rfl
    obtain ⟨typeNode, htype, htypeNode⟩ := exists_of_rel_some (child?_of_depicts h hshown .type)
    obtain ⟨nameNode, hname, hnameNode⟩ := exists_of_rel_some (child?_of_depicts h hshown .name)
    have hdefault : node.child? .defaultval = none :=
      eq_none_of_rel (child?_of_depicts h hshown .defaultval)
    simp only [parameter, htype, typeOf_of_depicts (.head _) htypeNode, hname,
      identifier_of_depicts hnameNode, hdefault, ok_bind, pure, Except.pure]
  | some value =>
    have hshown : ([Derivation.node .parameterType [type.derivation], named name,
        .node .defaultValue [fixed .equal, value.derivation]].all fun d =>
        showsIn .functionParameter d.symbol) = true := rfl
    obtain ⟨typeNode, htype, htypeNode⟩ := exists_of_rel_some (child?_of_depicts h hshown .type)
    obtain ⟨nameNode, hname, hnameNode⟩ := exists_of_rel_some (child?_of_depicts h hshown .name)
    obtain ⟨given, hdefault, hgiven⟩ := exists_of_rel_some (child?_of_depicts h hshown .defaultval)
    obtain ⟨literalNode, hhead, -, hliteral⟩ := literal_of_given (hp value rfl) (.inl rfl) hgiven
    simp only [parameter, htype, typeOf_of_depicts (.head _) htypeNode, hname,
      identifier_of_depicts hnameNode, hdefault, hhead, require, hliteral, Except.map, ok_bind, pure,
      Except.pure]

/-- What is read back one by one is read back together, and nothing is left out. -/
theorem lowerAll_of_gives {α : Type} {unplaced : α → α} {lower : Node → Lowered α} {as : List α}
    {nodes : List Node} (h : List.Forall₂ (fun a n => Gives unplaced (lower n) a) as nodes) :
    ∃ as', lowerAll lower nodes = (as', []) ∧ as'.map unplaced = as.map unplaced := by
  induction h with
  | nil => exact ⟨[], rfl, rfl⟩
  | cons hfirst _ ih =>
    obtain ⟨a', hfirst, hsame⟩ := hfirst
    obtain ⟨as', hrest, hsame'⟩ := ih
    refine ⟨a' :: as', ?_, by rw [List.map_cons, List.map_cons, hsame, hsame']⟩
    rw [lowerAll, hrest, hfirst]

/-- The initial value of the last variable is read back. -/
theorem declarationPart_assign {name : String} {given : Initializer × Span} (hp : given.1.Printable)
    (h : Depicts source ⟨.assignToValue, field, .node .assignToValue [fixed .equal, given.1.derivation]⟩ node)
    (span lastSpan : Span) (before : List Variable) : ∃ declared',
      declarationPart source (⟨name, none, lastSpan⟩ :: before) node = .ok (declared' :: before) ∧
      declared'.unplaced = (Variable.mk name (some given) span).unplaced := by
  obtain ⟨value, valueSpan⟩ := given
  cases value with
  | literal value =>
    obtain ⟨literalNode, hhead, hkind, hliteral⟩ := literal_of_given hp (.inr rfl) h
    refine ⟨⟨name, some (.literal value, spanOf literalNode), lastSpan.merge (spanOf node)⟩, ?_, rfl⟩
    rw [declarationPart, h.kind_eq]
    cases value <;> simp only [hhead, require, hkind, Literal.symbol, hliteral, Except.map, ok_bind, pure,
      Except.pure, initializeLast]
  | «variable» other =>
    obtain ⟨nameNode, hsignificant, hname⟩ :=
      only_significant [fixed .equal] (named other) [] h rfl rfl (by decide)
    have hkind : nameNode.kind = .variableName := hname.kind_eq
    refine ⟨⟨name, some (.variable other, spanOf nameNode), lastSpan.merge (spanOf node)⟩, ?_, rfl⟩
    rw [declarationPart, h.kind_eq]
    simp only [hsignificant, List.head?_cons, require, hkind, identifier_of_depicts hname, Except.map,
      ok_bind, pure, Except.pure, initializeLast]

/-- The nodes of a variable are read back. -/
theorem foldlM_variable {declared : Variable} (hp : declared.Printable) {nodes : List Node}
    (h : DepictAll source (declared.derivations.map (.of .variableDeclaration)) nodes)
    (before : List Variable) : ∃ declared', nodes.foldlM (declarationPart source) before =
      .ok (declared' :: before) ∧ declared'.unplaced = declared.unplaced := by
  obtain ⟨name, initializer, span⟩ := declared
  have hfirst : ∀ {nameNode : Node}, Depicts source (.of .variableDeclaration (named name)) nameNode →
      declarationPart source before nameNode = .ok (⟨name, none, spanOf nameNode⟩ :: before) := by
    intro nameNode hname
    have hkind : nameNode.kind = .variableName := hname.kind_eq
    rw [declarationPart, hkind]
    simp only [identifier_of_depicts hname, ok_bind, pure, Except.pure]
  cases initializer with
  | none =>
    obtain ⟨nameNode, rfl, hname⟩ := DepictAll.one h
    refine ⟨⟨name, none, spanOf nameNode⟩, ?_, rfl⟩
    rw [List.foldlM_cons, hfirst hname]
    rfl
  | some given =>
    obtain ⟨nameNode, assigned, rfl, hname, hassigned⟩ := DepictAll.two h
    obtain ⟨declared', hpart, hsame⟩ :=
      declarationPart_assign (hp.initializer given rfl) hassigned span (spanOf nameNode) before
    refine ⟨declared', ?_, hsame⟩
    rw [List.foldlM_cons, hfirst hname, ok_bind, List.foldlM_cons, hpart]
    rfl

/-- The nodes of several variables are read back. -/
theorem foldlM_variables {declared : List Variable} (hp : ∀ v ∈ declared, v.Printable) {nodes : List Node}
    (h : DepictAll source ((declared.flatMap Variable.derivations).map (.of .variableDeclaration)) nodes)
    (before : List Variable) : ∃ declared' : List Variable, nodes.foldlM (declarationPart source) before =
      .ok (declared'.reverse ++ before) ∧ declared'.map Variable.unplaced = declared.map Variable.unplaced := by
  induction declared generalizing nodes before with
  | nil =>
    cases h
    exact ⟨[], rfl, rfl⟩
  | cons v declared ih =>
    obtain ⟨hv, hrest⟩ := List.forall_mem_cons.mp hp
    rw [List.flatMap_cons, List.map_append] at h
    obtain ⟨first, rest, rfl, hfirst, hafter⟩ := exists_of_forall₂_append h
    obtain ⟨v', hv', hsame⟩ := foldlM_variable hv hfirst before
    obtain ⟨declared', hdeclared, hsame'⟩ := ih hrest hafter (v' :: before)
    refine ⟨v' :: declared', ?_, by rw [List.map_cons, List.map_cons, hsame, hsame']⟩
    rw [List.foldlM_append, hv', ok_bind, hdeclared]
    simp

/-- The variables of a declaration are shown, with their names and their values. -/
theorem forall_mem_variables {P : Symbol → Prop} (hname : P .identifier) (hvalue : P .assignToValue)
    (declared : Variable) : ∀ d ∈ declared.derivations, P d.symbol := by
  obtain ⟨name, initializer, span⟩ := declared
  cases initializer with
  | none => exact List.forall_mem_singleton.mpr hname
  | some given => exact List.forall_mem_cons.mpr ⟨hname, List.forall_mem_singleton.mpr hvalue⟩

/-- A declaration is read back. -/
theorem declaration_of_depicts {declared : Declaration} (hp : declared.Printable)
    (h : Depicts source ⟨.variableDeclaration, field, declared.derivation⟩ node) :
    Gives Declaration.unplaced (declaration source node) declared := by
  have hshown : ∀ d ∈ .node .variableType [declared.type.derivation] ::
      (joined (declared.declared.map Variable.derivations) ++ [fixed .semicolon]),
      showsIn .variableDeclaration d.symbol = true := by
    refine List.forall_mem_cons.mpr ⟨rfl, List.forall_mem_append.mpr
      ⟨forall_mem_joined rfl ?_, List.forall_mem_singleton.mpr rfl⟩⟩
    exact List.forall_mem_map.mpr fun v _ =>
      forall_mem_variables (P := fun s => showsIn .variableDeclaration s = true) rfl rfl v
  have hjoined : (joined (declared.declared.map Variable.derivations)).filter
      (fun d => isSignificant .variableDeclaration d.symbol) =
      declared.declared.flatMap Variable.derivations := by
    rw [filter_joined rfl, ← List.flatMap_def, List.filter_eq_self]
    intro d hd
    obtain ⟨v, -, hd⟩ := List.mem_flatMap.mp hd
    exact forall_mem_variables (P := fun s => isSignificant .variableDeclaration s = true) rfl rfl v d hd
  obtain ⟨typeNode, htype, htypeNode⟩ := exists_of_rel_some
    (child?_of_depicts h (List.all_eq_true.mpr hshown) .varType)
  have hall := h.significant_of_shown hshown
  rw [List.filter_cons_of_pos rfl, List.filter_append, hjoined, List.filter_cons_of_neg (by decide),
    List.filter_nil, List.append_nil, List.map_cons] at hall
  obtain ⟨first, nodes, hfirst, hnodes, heq⟩ := List.forall₂_cons_left_iff.mp hall
  obtain ⟨declared', hdeclared, hsame⟩ := foldlM_variables hp.declared hnodes []
  have hkind : first.kind = .variableType := hfirst.kind_eq
  have hpass : declarationPart source [] first = .ok [] := by rw [declarationPart, hkind]
  rw [List.append_nil] at hdeclared
  refine ⟨⟨declared.type, declared', spanOf node⟩, ?_, ?_⟩
  · simp only [declaration, htype, typeOf_of_depicts (.tail _ (.head _)) htypeNode, heq, List.foldlM_cons,
      hpass, hdeclared, ok_bind, List.reverse_reverse, pure, Except.pure]
  · simp only [Declaration.unplaced, hsame]

/-! ## Functions -/

/-- A relation of what corresponds to each other, for members of the first list. -/
theorem forall₂_of_mem {α β : Type} {R S : α → β → Prop} {as : List α} {bs : List β}
    (h : List.Forall₂ R as bs) (himp : ∀ a ∈ as, ∀ b, R a b → S a b) : List.Forall₂ S as bs := by
  induction h with
  | nil => exact .nil
  | cons hfirst _ ih =>
    obtain ⟨ha, has⟩ := List.forall_mem_cons.mp himp
    exact .cons (ha _ hfirst) (ih has)

/-- The parameters of a header are read back. -/
theorem parameters_of_depicts {parameters : List Parameter}
    (hp : ∀ p ∈ parameters, ∀ value ∈ p.default, value.Printable) {list : Option Node} (h : Option.Rel (Depicts source)
      ((parametersDerivation parameters).head?.map (.of .functionDefinition)) list) :
    ∃ parameters', lowerAll (parameter source) ((list.map (·.significant)).getD []) = (parameters', []) ∧
      parameters'.map Parameter.unplaced = parameters.map Parameter.unplaced := by
  cases parameters with
  | nil =>
    rw [eq_none_of_rel h]
    exact ⟨[], rfl, rfl⟩
  | cons first rest =>
    obtain ⟨list, rfl, hlist⟩ := exists_of_rel_some h
    have hshown : ∀ d ∈ joined ((first :: rest).map fun p => [p.derivation]),
        showsIn .functionParameters d.symbol = true := by
      refine forall_mem_joined rfl (List.forall_mem_map.mpr fun p _ => ?_)
      exact List.forall_mem_singleton.mpr rfl
    have hjoined : (joined ((first :: rest).map fun p => [p.derivation])).filter
        (fun d => isSignificant .functionParameters d.symbol) =
        (first :: rest).map Parameter.derivation := by
      rw [filter_joined rfl, ← List.flatMap_def, ← List.map_eq_flatMap, List.filter_eq_self]
      exact List.forall_mem_map.mpr fun _ _ => rfl
    have hall := hlist.significant_of_shown hshown
    rw [hjoined, List.map_map, DepictAll, List.forall₂_map_left_iff] at hall
    exact lowerAll_of_gives (forall₂_of_mem hall fun p hmem _ hnode => parameter_of_depicts (hp p hmem) hnode)

/-- What lowering reads from a header. -/
structure ReadsHeader (source : Source) (header : Node) (f : Function) : Prop where
  name : ∃ nameNode, header.child? .name = some nameNode ∧
    identifier source .functionName (some nameNode) = .ok (f.name, spanOf nameNode)
  scope : ((header.child? .scope).bind (·.firstToken)).map (·.kind) = some .kwPrivate ↔ f.scope = .private
  returnType : ∀ type, ((header.child? .returnType).bind (·.firstToken)).bind (dataType? ·.kind) =
    some type ↔ f.returnType = .value type
  parameters : ∃ parameters', lowerAll (parameter source)
      (((header.child? .parameters).map (·.significant)).getD []) = (parameters', []) ∧
    parameters'.map Parameter.unplaced = f.parameters.map Parameter.unplaced

/-- A scope is read back. -/
theorem firstToken_scope {scope : Scope}
    (h : Depicts source ⟨kind, field, scope.derivation⟩ node) :
    ∃ token, node.firstToken = some token ∧ token.kind = scope.token := by
  have hshown : (showsIn .functionScope scope.token &&
      (shownAs .functionScope scope.token).getD scope.token != .comment) = true := by cases scope <;> rfl
  obtain ⟨token, htoken, hdepicts⟩ := firstToken_of_depicts (d := fixed scope.token) h hshown
  refine ⟨token, htoken, hdepicts.kind_eq.trans ?_⟩
  cases scope <;> rfl

theorem token_eq_private (scope : Scope) :
    some scope.token = some Symbol.kwPrivate ↔ scope = .private := by
  cases scope <;> decide

/-- A return type is read back: a type names itself, and `VOID` names none. -/
theorem dataType?_returnType {returnType : ReturnType}
    (h : Depicts source ⟨kind, field, returnType.derivation⟩ node) (type : DataType) :
    node.firstToken.bind (dataType? ·.kind) = some type ↔ returnType = .value type := by
  cases returnType with
  | void =>
    obtain ⟨token, htoken, hdepicts⟩ := firstToken_of_depicts h rfl
    have hkind : token.kind = .kwVoid := hdepicts.kind_eq
    rw [htoken, Option.bind_some, hkind]
    exact ⟨fun heq => (by cases heq), fun heq => (by cases heq)⟩
  | value given =>
    obtain ⟨token, htoken, hkind⟩ := firstToken_type (.tail _ (.tail _ (.head _))) h
    rw [htoken, Option.bind_some, hkind, dataType?_token, Option.some_inj, ReturnType.value.injEq]

/-- The derivation of a header with derivations of its scope. -/
def headerWith (scopes : List (Derivation Word)) (f : Function) : Derivation Word :=
  .node .functionDefinition (scopes ++ f.returnType.derivation :: fixed .kwFunction :: named f.name ::
    fixed .lparen :: (parametersDerivation f.parameters ++ [fixed .rparen, fixed .lineFeed]))

/-- A scope is written as its keyword, or left out if it is the one that is meant then. -/
inductive ShowsScope : Scope → List (Derivation Word) → Prop
  | written (scope : Scope) : ShowsScope scope [scope.derivation]
  | left_out : ShowsScope .public []

theorem readsHeader_of_depicts {f : Function} (hp : ∀ p ∈ f.parameters, ∀ value ∈ p.default, value.Printable)
    {scopes : List (Derivation Word)} (hs : ShowsScope f.scope scopes) {header : Node}
    (h : Depicts source ⟨.functionDefinition, field, headerWith scopes f⟩ header) :
    ReadsHeader source header f := by
  obtain ⟨name, nameSpan, scope, returnType, parameters, locals, body, doc, span⟩ := f
  have hsymbol : returnType.derivation.symbol = .functionTypes := by cases returnType <;> rfl
  have htypes : Tree.Part.of .functionDefinition returnType.derivation =
      ⟨.functionTypes, some .returnType, returnType.derivation⟩ := by
    rw [Tree.Part.of, hsymbol]
    rfl
  have hshown : ((scopes ++ returnType.derivation ::
    fixed .kwFunction :: named name :: fixed .lparen ::
      (parametersDerivation parameters ++ [fixed .rparen, fixed .lineFeed])).all fun d =>
        showsIn .functionDefinition d.symbol) = true := by
    cases hs <;> cases returnType <;> cases parameters <;> rfl
  have hchild := child?_of_depicts h hshown
  simp only [List.map_append, List.map_cons, htypes] at hchild
  constructor
  · have hname := hchild .name
    obtain ⟨nameNode, hname, hdepicts⟩ : ∃ nameNode, header.child? .name = some nameNode ∧
        Depicts source ⟨.functionName, some .name, named name⟩ nameNode := by
      cases hs <;> exact exists_of_rel_some hname
    exact ⟨nameNode, hname, identifier_of_depicts hdepicts _⟩
  · have hscope := hchild .scope
    cases hs with
    | written scope =>
      obtain ⟨scopeNode, hscope, hdepicts⟩ := exists_of_rel_some hscope
      obtain ⟨token, htoken, hkind⟩ := firstToken_scope hdepicts
      rw [hscope, Option.bind_some, htoken, Option.map_some, hkind]
      exact token_eq_private scope
    | left_out =>
      have hnone : header.child? .scope = none := by cases parameters <;> exact eq_none_of_rel hscope
      rw [hnone]
      exact iff_of_false (fun heq => by cases heq) fun heq => by cases heq
  · have htype := hchild .returnType
    obtain ⟨typeNode, htype, hdepicts⟩ : ∃ typeNode, header.child? .returnType = some typeNode ∧
        Depicts source ⟨.functionTypes, some .returnType, returnType.derivation⟩ typeNode := by
      cases hs <;> exact exists_of_rel_some htype
    rw [htype, Option.bind_some]
    exact dataType?_returnType hdepicts
  · refine parameters_of_depicts hp ?_
    have hparameters := hchild .parameters
    cases hs <;> cases parameters <;> exact hparameters

/-- The nodes of a function: its header, its declarations and its statements. -/
theorem significant_function {f : Function}
    (h : Depicts source ⟨.function, field, f.derivation⟩ node) :
    ∃ header locals body, node.significant = header :: (locals ++ body) ∧
      Depicts source ⟨.functionDefinition, none, f.headerDerivation⟩ header ∧
      List.Forall₂ (fun d n => Depicts source ⟨.variableDeclaration, none, d.derivation⟩ n) f.locals locals ∧
      DepictBlock source f.body body := by
  have hlocals : partsAll .function (f.locals.map Declaration.derivation) =
      f.locals.map fun d => ⟨.variableDeclaration, none, d.derivation⟩ := by
    rw [partsAll_of_shown (List.forall_mem_map.mpr fun _ _ => rfl), List.map_map]
    rfl
  have hall := h.significant
  have hbelow : (Tree.Part.mk .function field f.derivation).below =
      ⟨.functionDefinition, none, f.headerDerivation⟩ ::
        ((f.locals.map fun d => ⟨.variableDeclaration, none, d.derivation⟩) ++
          ((f.body.map fun s => ⟨s.derivation.symbol, none, s.derivation⟩) ++
            [⟨.kwEnd, none, fixed .kwEnd⟩])) := by
    show partsAll .function (f.headerDerivation :: (f.locals.map Declaration.derivation ++
      (Statement.derivations f.body ++ [fixed .kwEnd]))) = _
    rw [partsAll, parts_of_shown rfl, partsAll_append, partsAll_append, hlocals, partsAll_derivations rfl]
    rfl
  have hstatements : (f.body.map fun s => Tree.Part.mk s.derivation.symbol none s.derivation).filter
      (fun p => p.kind != .comment && p.kind.isNamed) =
      f.body.map fun s => ⟨s.derivation.symbol, none, s.derivation⟩ := by
    refine List.filter_eq_self.mpr (List.forall_mem_map.mpr fun s _ => ?_)
    rcases s.symbol_derivation with hs | hs <;> rw [hs] <;> rfl
  have hdeclarations : (f.locals.map fun d => Tree.Part.mk .variableDeclaration none d.derivation).filter
      (fun p => p.kind != .comment && p.kind.isNamed) =
      f.locals.map fun d => ⟨.variableDeclaration, none, d.derivation⟩ :=
    List.filter_eq_self.mpr (List.forall_mem_map.mpr fun _ _ => rfl)
  rw [hbelow, List.filter_cons_of_pos rfl, List.filter_append, List.filter_append, hstatements,
    hdeclarations, List.filter_cons_of_neg (by decide), List.filter_nil, List.append_nil] at hall
  obtain ⟨header, rest, hheader, hrest, heq⟩ := List.forall₂_cons_left_iff.mp hall
  obtain ⟨locals, body, rfl, hlocalNodes, hbody⟩ := exists_of_forall₂_append hrest
  rw [List.forall₂_map_left_iff] at hlocalNodes hbody
  exact ⟨header, locals, body, heq, hheader, hlocalNodes, hbody⟩

/-- The statements of a function are read back from all of its parts. -/
theorem body_of_depicts {f : Function} (hp : f.Printable) {header : Node} {locals body : List Node}
    (hheader : header.kind = .functionDefinition)
    (hlocals : ∀ n ∈ locals, n.kind = .variableDeclaration) (hbody : DepictBlock source f.body body) :
    ∃ body', block source maxNesting (header :: (locals ++ body)) = .ok (body', []) ∧
      Statement.unplacedAll body' = Statement.unplacedAll f.body := by
  have hnesting : Statement.nestingAll f.body ≤ 255 := Nat.le_of_succ_le_succ hp.nesting
  have hafter := recoverable_block f.body hp.body hnesting hbody (List.forall_mem_nil _)
  rw [List.append_nil] at hafter
  have hother : IsOther header := by
    rw [IsOther, hheader]
    decide
  have hothers : ∀ n ∈ locals, IsOther n := by
    intro n hn
    rw [IsOther, hlocals n hn]
    decide
  exact block_of_recovers (.other hother (.others hothers hafter))

/-- A function whose parts are read back is read back, and nothing of it is left out. -/
theorem function_of_parts {f : Function} (hdoc : f.doc = none) {header : Node} {locals body : List Node}
    (hparts : node.significant = header :: (locals ++ body)) (hkind : header.kind = .functionDefinition)
    (hread : ReadsHeader source header f) (hlocals : ∀ n ∈ locals, n.kind = .variableDeclaration)
    (hbody : ∀ n ∈ body, n.kind ≠ .variableDeclaration)
    (hlowered : ∃ locals', lowerAll (declaration source) locals = (locals', []) ∧
      locals'.map Declaration.unplaced = f.locals.map Declaration.unplaced)
    (hblock : ∃ body', block source maxNesting (header :: (locals ++ body)) = .ok (body', []) ∧
      Statement.unplacedAll body' = Statement.unplacedAll f.body) :
    ∃ f', function source node none = .ok (f', []) ∧ f'.unplaced = f.unplaced := by
  obtain ⟨nameNode, hnameNode, hname⟩ := hread.name
  obtain ⟨parameters', hparameters, hsame⟩ := hread.parameters
  obtain ⟨locals', hlowered, hsame'⟩ := hlowered
  obtain ⟨body', hblock, hsame''⟩ := hblock
  have hfind : (header :: (locals ++ body)).find? (·.kind == .functionDefinition) = some header := by
    rw [List.find?_cons, hkind]
    rfl
  have hdeclarations : (header :: (locals ++ body)).filter (·.kind == .variableDeclaration) = locals := by
    have hkept : locals.filter (·.kind == .variableDeclaration) = locals :=
      List.filter_eq_self.mpr fun n hn => by rw [hlocals n hn]; rfl
    have hdropped : body.filter (·.kind == .variableDeclaration) = [] :=
      List.filter_eq_nil_iff.mpr fun n hn => by simp [hbody n hn]
    rw [List.filter_cons, hkind, List.filter_append, hkept, hdropped, List.append_nil]
    rfl
  refine ⟨{ f with
    nameSpan := spanOf nameNode, parameters := parameters', locals := locals', body := body'
    span := spanOf node }, ?_, by simp only [Function.unplaced, hsame, hsame', hsame'']⟩
  have hscope := hread.scope
  simp only [function, hparts, hfind, require, ok_bind, hnameNode, hname, hparameters, hdeclarations, hlowered,
    hblock, List.append_nil, pure, Except.pure, hdoc]
  congr 3
  · split
    · exact (hscope.mp ‹_›).symm
    · rename_i hother
      cases hf : f.scope with
      | «public» => rfl
      | «private» => exact absurd (hscope.mpr hf) hother
  · cases htype : f.returnType with
    | void =>
      have hnone : ((header.child? .returnType).bind (·.firstToken)).bind (dataType? ·.kind) = none := by
        refine Option.eq_none_iff_forall_ne_some.mpr fun type heq => ?_
        rw [hread.returnType, htype] at heq
        cases heq
      rw [hnone]
    | value type => rw [(hread.returnType type).mpr htype]

/-- **A function is read back**, and nothing of it is left out. -/
theorem function_of_depicts {f : Function} (hp : f.Printable)
    (h : Depicts source ⟨.function, field, f.derivation⟩ node) : ∃ f',
      function source node none = .ok (f', []) ∧ f'.unplaced = f.unplaced := by
  obtain ⟨header, locals, body, hparts, hheader, hlocals, hbody⟩ := significant_function h
  have hkind : header.kind = .functionDefinition := hheader.kind_eq
  have hlocalKind : ∀ n ∈ locals, n.kind = .variableDeclaration := by
    intro n hn
    obtain ⟨d, -, hd⟩ := exists_of_forall₂_right hlocals hn
    exact hd.kind_eq
  have hbodyKind : ∀ n ∈ body, n.kind ≠ .variableDeclaration := by
    intro n hn
    rcases kind_of_mem_depictBlock hbody n hn with hn | hn <;> rw [hn] <;> decide
  have hread : ReadsHeader source header f :=
    readsHeader_of_depicts (fun p hmem => (hp.parameters p hmem).default) (.written f.scope) hheader
  exact function_of_parts hp.no_doc hparts hkind hread hlocalKind hbodyKind
    (lowerAll_of_gives
      (forall₂_of_mem hlocals fun d hmem _ hnode => declaration_of_depicts (hp.locals d hmem) hnode))
    (body_of_depicts hp hkind hlocalKind hbody)

/-! ## Programs -/

/-- **A program is read back**, and nothing of it is left out. -/
theorem functionsFrom_of_depicts {program : List Function} (hp : ∀ f ∈ program, f.Printable)
    {nodes : List Node}
    (h : List.Forall₂ (fun f n => Depicts source ⟨.function, none, f.derivation⟩ n) program nodes) :
    ∃ program', functionsFrom source {} nodes = (program', []) ∧
      program'.map Function.unplaced = program.map Function.unplaced := by
  induction h with
  | nil => exact ⟨[], rfl, rfl⟩
  | cons hfirst _ ih =>
    obtain ⟨hf, hrest⟩ := List.forall_mem_cons.mp hp
    obtain ⟨f', hf', hsame⟩ := function_of_depicts hf hfirst
    obtain ⟨program', hprogram, hsame'⟩ := ih hrest
    refine ⟨f' :: program', ?_, by rw [List.map_cons, List.map_cons, hsame, hsame']⟩
    have hdoc : ({} : Doc).isEmpty = true := rfl
    simp only [functionsFrom, hfirst.kind_eq, hprogram, hdoc, if_true, hf', List.append_nil]

end Reading

/-- The text of a program is its derivation written down. -/
theorem written_yield {program : List Function} (h : ∀ f ∈ program, f.Printable) :
    Parse.written (programDerivation program).yield = (print program).toList := by
  have hwords := (writes_program h).words_eq
  rw [print, String.toList_ofList, render, ← hwords, List.flatMap_map]
  rfl

/-- A tree without repairs has no problems. -/
theorem list_eq_nil {source : Source} {root : Node} (h : root.hasError = false) :
    Problem.list source root = [] := by
  rw [Problem.list_eq, Problem.under_eq, h]
  rfl

/-- **Printing a program, then parsing and lowering the text is the identity, places aside**, and nothing
is reported. -/
theorem parse_print (program : List Function) (h : ∀ f ∈ program, f.Printable) :
    (parse (print program)).1.map Function.unplaced = program.map Function.unplaced ∧
      (parse (print program)).2 = [] := by
  have hwrites := writes_program h
  have hroot := depicts_parse hwrites.spelled ⟨hwrites.good.follows, hwrites.good.symbol_eq, rfl⟩
    hwrites.good.resolved
  rw [written_yield h] at hroot
  have hall := hroot.significant_of_shown (List.forall_mem_map.mpr fun _ _ => rfl)
  have hkept : (program.map Function.derivation).filter (fun d => isSignificant .sourceFile d.symbol) =
      program.map Function.derivation :=
    List.filter_eq_self.mpr (List.forall_mem_map.mpr fun _ _ => rfl)
  rw [hkept, List.map_map, DepictAll, List.forall₂_map_left_iff] at hall
  obtain ⟨program', hprogram, hsame⟩ := functionsFrom_of_depicts h hall
  simp only [parse, lower, hprogram, list_eq_nil hroot.sound, List.map_nil, List.filterMap_nil,
    List.append_nil, hsame, and_self]

/-- A function that prints conditions of all kinds. -/
def greatest : Function :=
  let first : Expr := .variable nowhere "first"
  let second : Expr := .variable nowhere "second"
  { name := "Greatest"
    nameSpan := nowhere
    scope := .public
    returnType := .value .int
    parameters := [⟨"first", .int, none, nowhere⟩, ⟨"second", .int, some (.number 2), nowhere⟩]
    locals := [⟨.int, [⟨"chosen", some (.variable "second", nowhere), nowhere⟩], nowhere⟩]
    body := [
      .branch nowhere
        (.binary nowhere .and
          (.not nowhere (.binary nowhere .less (.expr nowhere first) (.expr nowhere second)))
          (.expr nowhere (.binary nowhere .multiply (.binary nowhere .add first second)
            (.negate nowhere second))))
        [.assign nowhere "chosen" nowhere first] (some []),
      .return nowhere (some (.variable nowhere "chosen"))]
    doc := none
    span := nowhere }

theorem printable_greatest : greatest.Printable := by
  have hnames : IsName "Greatest".toList ∧ IsName "first".toList ∧ IsName "second".toList ∧
      IsName "chosen".toList := by
    unfold IsName
    decide +kernel
  obtain ⟨hgreatest, hfirst, hsecond, hchosen⟩ := hnames
  refine ⟨hgreatest, ?_, ?_, ?_, rfl, by decide +kernel⟩
  · refine List.forall_mem_cons.mpr ⟨⟨hfirst, ?_⟩, List.forall_mem_singleton.mpr ⟨hsecond, ?_⟩⟩
    · rintro value ⟨⟩
    · rintro value ⟨⟩
      show 2 ≤ maxNumber
      decide
  · refine List.forall_mem_singleton.mpr
      ⟨List.cons_ne_nil _ _, List.forall_mem_singleton.mpr ⟨hchosen, ?_⟩⟩
    rintro value ⟨⟩
    exact hsecond
  · have hbranch : (Statement.AllPrintable [.assign nowhere "chosen" nowhere (.variable nowhere "first")] ∧
        Statement.ElsePrintable (some [])) := ⟨⟨⟨hchosen, hfirst⟩, trivial⟩, trivial⟩
    exact ⟨⟨⟨⟨hfirst, hsecond⟩, ⟨hfirst, hsecond⟩, hsecond⟩, hbranch⟩, hchosen, trivial⟩

theorem parse_print_greatest :
    (parse (print [greatest])).1.map Function.unplaced = [greatest].map Function.unplaced ∧
      (parse (print [greatest])).2 = [] :=
  parse_print [greatest] (List.forall_mem_singleton.mpr printable_greatest)

end Cicode.Program

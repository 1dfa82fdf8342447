import Cicode.Proofs.Program.Derivation
import Cicode.Proofs.Tree.Depiction

/-!
# Reading printed expressions and conditions back

The syntax tree of a printed text depicts its derivation.  Lowering looks at the kinds, the fields and
the texts of nodes alone, which the derivation says, so that each step of lowering is the inverse of a
step of printing.  Parentheses leave no trace but the place that an expression is read from, and
lowering spends as many levels as printing counts (`Expr.nesting`).

Main statements (`recovers_expr`, `recoversCondition`): an expression and a condition are read back
from where they are printed, places aside.
-/

namespace Cicode.Program

open Grammar Text Cicode.Lex Cicode.Tree

@[simp] theorem ok_bind {ε α β : Type} (a : α) (f : α → Except ε β) : (Except.ok a >>= f) = f a := rfl

/-! ## Literals -/

theorem numberOf_digits {value : Nat} (h : value ≤ maxNumber) : numberOf (digits value) = .ok value := by
  have hvalue : digitsValue (digits value) = value :=
    Nat.ofDigitChars_toDigits (by decide) (Nat.le_refl 10)
  rw [numberOf, hvalue, if_pos h]

theorem unescape_cons {c : Char} (h : c ≠ '^') (rest : List Char) :
    unescape (c :: rest) = c :: unescape rest := by
  rw [unescape.eq_def]
  split <;> rename_i heq <;> cases heq <;> first | rfl | exact absurd rfl h

theorem escape_cons {c : Char} (hfeed : c ≠ '\n') (hquote : c ≠ '"') (hcaret : c ≠ '^') (rest : List Char) :
    escape (c :: rest) = c :: escape rest := by
  rw [escape.eq_def]
  split <;> rename_i heq <;> cases heq
  · exact absurd rfl hfeed
  · exact absurd rfl hquote
  · exact absurd rfl hcaret
  · rfl

/-- Escapes are resolved to what they were written for. -/
theorem unescape_escape (s : List Char) : unescape (escape s) = s := by
  induction s with
  | nil => rfl
  | cons c s ih =>
    rw [escape.eq_def]
    split <;> rename_i heq
    · cases heq
    · cases heq
      exact congrArg _ ih
    · cases heq
      exact congrArg _ ih
    · cases heq
      exact congrArg _ ih
    · rename_i hcaret
      cases heq
      rw [unescape_cons hcaret, ih]

theorem stringOf_enclosed (body : List Char) :
    stringOf ('"' :: body ++ ['"']) = String.ofList (unescape body) := by
  have hdrop : dropClosingQuote (body ++ ['"']) = body := by simp [dropClosingQuote]
  have hunquote : unquote ('"' :: body ++ ['"']) = body := hdrop
  rw [stringOf, hunquote]

theorem stringOf_quoted (value : String) : stringOf (quoted value) = value := by
  rw [quoted, stringOf_enclosed, unescape_escape, String.ofList_toList]

section Reading

variable {source : Source} {kind : Symbol} {field : Option Field} {node : Node}

/-- What is lowered is the given thing, places aside. -/
def Gives {α : Type} (unplaced : α → α) (lowered : Lowered α) (a : α) : Prop :=
  ∃ a', lowered = .ok a' ∧ unplaced a' = unplaced a

theorem literal_of_depicts {value : Literal} (hp : value.Printable)
    (h : Depicts source ⟨value.symbol, field, value.derivation⟩ node) :
    literal source node = .ok value := by
  rw [literal, if_neg (by rw [h.present]; exact Bool.false_ne_true), textOf, h.text, h.kind_eq]
  cases value with
  | number value =>
    show (numberOf (digits value)).map _ = _
    rw [numberOf_digits hp]
    rfl
  | string value => exact congrArg (fun s => Except.ok (Literal.string s)) (stringOf_quoted value)

theorem identifier_of_depicts {name : String} (h : Depicts source ⟨kind, field, named name⟩ node)
    (part : Part) : identifier source part (some node) = .ok (name, spanOf node) := by
  rw [identifier, if_neg (by rw [h.present]; exact Bool.false_ne_true), textOf, h.text,
    String.ofList_toList]

/-- The operator of a node is that of its token. -/
theorem operatorOf_of_depicts {α : Type} {ofToken : Symbol → Option α} {operator : α}
    {outer inner token : Symbol} {word : Word}
    (h : Depicts source ⟨kind, field, .node outer [.node inner [.leaf token word]]⟩ node)
    (hshown : (showsIn outer inner && ((shownAs outer inner).getD inner).isNamed &&
      showsIn inner token && (shownAs inner token).getD token == token && token != .comment) = true)
    (hop : ofToken token = some operator) : operatorOf ofToken node = .ok operator := by
  simp only [Bool.and_eq_true, beq_iff_eq, bne_iff_ne] at hshown
  obtain ⟨⟨⟨⟨hinner, hnamed⟩, htoken⟩, hsame⟩, hcomment⟩ := hshown
  obtain ⟨symbols, hsymbols, hd⟩ := (h.children_of_shown (List.forall_mem_singleton.mpr hinner)).one
  obtain ⟨leaf, hleaf, hl⟩ :=
    (Depicts.children_of_shown hd (List.forall_mem_singleton.mpr htoken)).one
  have hkind : leaf.kind = token := hl.kind_eq.trans hsame
  have hfirst : symbols.firstToken = some leaf := by
    rw [Node.firstToken, hleaf, List.find?_cons, Node.isComment, hkind, beq_false_of_ne hcomment]
    rfl
  have hhead : node.namedChildren.head? = some symbols := by
    rw [Node.namedChildren, hsymbols, List.filter_cons, Node.isNamed, hd.kind_eq]
    exact congrArg List.head? (if_pos hnamed)
  simp only [operatorOf, hhead, Option.bind_some, hfirst, require, ok_bind, hkind, hop]

/-! ## Atoms -/

/-- The part shows an expression, or the atom that it consists of. -/
inductive ShowsExpression (d : Derivation Word) : Tree.Part → Prop
  | whole {field : Option Field} : ShowsExpression d ⟨.expression, field, d⟩
  | atom {field : Option Field} {inner : Derivation Word} : d = .node .expression [inner] →
      inner.symbol = .expressionAtom → ShowsExpression d ⟨.expressionAtom, field, inner⟩

/-- An expression that is an atom is lowered as the atom. -/
theorem exists_atom {ds : List (Derivation Word)} {part : Tree.Part}
    (hpart : ShowsExpression (.node .expression [.node .expressionAtom ds]) part)
    (h : Depicts source part node) : ∃ field atom,
      Depicts source ⟨.expressionAtom, field, .node .expressionAtom ds⟩ atom ∧
      ∀ levels, expression source (levels + 1) node = atomWith source (expression source levels) atom := by
  cases hpart with
  | whole =>
    obtain ⟨atom, hsignificant, hatom⟩ :=
      (h.significant_of_shown (List.forall_mem_singleton.mpr rfl)).one
    refine ⟨_, atom, hatom, fun levels => ?_⟩
    have hkind : (atom.kind == .expressionAtom) = true := by rw [hatom.kind_eq]; rfl
    simp only [expression, expressionWith, h.kind_eq, hsignificant, hkind, if_true]
  | atom heq _ =>
    cases heq
    refine ⟨_, node, h, fun levels => ?_⟩
    rw [expression, expressionWith, h.kind_eq]

/-- The first node below is that of the first derivation. -/
theorem firstToken_of_depicts {symbol : Symbol} {d : Derivation Word} {ds : List (Derivation Word)}
    (h : Depicts source ⟨kind, field, .node symbol (d :: ds)⟩ node)
    (hshown : (showsIn symbol d.symbol && (shownAs symbol d.symbol).getD d.symbol != .comment) = true) :
    ∃ first, node.firstToken = some first ∧ Depicts source (.of symbol d) first := by
  rw [Bool.and_eq_true] at hshown
  refine exists_of_rel_some ?_
  have hfirst := h.firstToken
  have hbelow : (Tree.Part.mk kind field (.node symbol (d :: ds))).below =
      .of symbol d :: partsAll symbol ds := congrArg (· ++ _) (parts_of_shown hshown.1)
  have hkind : ((Tree.Part.of symbol d).kind != .comment) = true := hshown.2
  rw [hbelow, List.find?_cons, hkind] at hfirst
  exact hfirst

/-- The kinds of the atoms that are a token or a call. -/
theorem atom_kinds : ∀ symbol ∈ [Symbol.number, .string, .identifier, .functionCall],
    (showsIn .expressionAtom symbol &&
      (shownAs .expressionAtom symbol).getD symbol != .comment) = true ∧
    (shownAs .expressionAtom symbol).getD symbol ∉ [Symbol.minus, .lparen, .error] := by
  decide

/-- An atom that is a token or a call is lowered as it. -/
theorem atomWith_of_depicts {d : Derivation Word} {atom : Node}
    (h : Depicts source ⟨.expressionAtom, field, .node .expressionAtom [d]⟩ atom)
    (hd : d.symbol ∈ [Symbol.number, .string, .identifier, .functionCall]) :
    ∃ first, Depicts source (.of .expressionAtom d) first ∧
      ∀ inner, atomWith source inner atom = inner first := by
  obtain ⟨hshown, hkind⟩ := atom_kinds d.symbol hd
  obtain ⟨first, hfirst, hdepicts⟩ := firstToken_of_depicts h hshown
  refine ⟨first, hdepicts, fun inner => ?_⟩
  have hother : first.kind ∉ [Symbol.minus, .lparen, .error] := hdepicts.kind_eq ▸ hkind
  simp only [List.mem_cons, List.not_mem_nil, or_false, not_or] at hother
  simp only [atomWith, hfirst, require, ok_bind]
  split
  · exact absurd ‹_› hother.1
  · exact absurd ‹_› hother.2.1
  · exact absurd ‹_› hother.2.2
  · exact if_neg (by rw [hdepicts.present]; exact Bool.false_ne_true)

/-- An expression that is a token or a call is lowered as it. -/
theorem expression_of_depicts {d : Derivation Word} {part : Tree.Part}
    (hpart : ShowsExpression (.node .expression [.node .expressionAtom [d]]) part)
    (h : Depicts source part node) (hd : d.symbol ∈ [Symbol.number, .string, .identifier, .functionCall]) :
    ∃ first, Depicts source (.of .expressionAtom d) first ∧
      ∀ levels, expression source (levels + 1) node = expression source levels first := by
  obtain ⟨_, atom, hatom, heq⟩ := exists_atom hpart h
  obtain ⟨first, hfirst, heq'⟩ := atomWith_of_depicts hatom hd
  exact ⟨first, hfirst, fun levels => (heq levels).trans (heq' _)⟩

/-- A number is read back. -/
theorem gives_number {value : Nat} {span : Span} {part : Tree.Part}
    (hpart : ShowsExpression (.node .expression [.node .expressionAtom [(Literal.number value).derivation]]) part)
    (h : Depicts source part node) (hp : value ≤ maxNumber) {levels : Nat} (hl : 2 ≤ levels) :
    Gives Expr.unplaced (expression source levels node) (.number span value) := by
  obtain ⟨levels, rfl⟩ := Nat.exists_eq_add_of_le' hl
  obtain ⟨first, hfirst, heq⟩ := expression_of_depicts hpart h (.head _)
  have hkind : first.kind = .number := hfirst.kind_eq
  have hvalue : literal source first = .ok (.number value) := literal_of_depicts hp hfirst
  refine ⟨.number (spanOf first) value, ?_, rfl⟩
  rw [heq, expression, expressionWith, hkind]
  simp only [hvalue, ok_bind, pure, Except.pure]

/-- A string is read back. -/
theorem gives_string {value : String} {span : Span} {part : Tree.Part}
    (hpart : ShowsExpression (.node .expression [.node .expressionAtom [(Literal.string value).derivation]]) part)
    (h : Depicts source part node) (hp : '\x00' ∉ value.toList) {levels : Nat} (hl : 2 ≤ levels) :
    Gives Expr.unplaced (expression source levels node) (.string span value) := by
  obtain ⟨levels, rfl⟩ := Nat.exists_eq_add_of_le' hl
  obtain ⟨first, hfirst, heq⟩ := expression_of_depicts hpart h (.tail _ (.head _))
  have hkind : first.kind = .string := hfirst.kind_eq
  have hvalue : literal source first = .ok (.string value) := literal_of_depicts hp hfirst
  refine ⟨.string (spanOf first) value, ?_, rfl⟩
  rw [heq, expression, expressionWith, hkind]
  simp only [hvalue, ok_bind, pure, Except.pure]

/-- A name is read back as a variable. -/
theorem gives_name {name : String} {span : Span}
    (h : Depicts source ⟨.variableName, field, named name⟩ node) (levels : Nat) :
    Gives Expr.unplaced (expression source (levels + 1) node) (.variable span name) := by
  have hname := identifier_of_depicts h .expression
  refine ⟨.variable (spanOf node) name, ?_, rfl⟩
  rw [expression, expressionWith, h.kind_eq]
  simp only [hname, ok_bind, pure, Except.pure]

/-- A variable is read back. -/
theorem gives_variable {name : String} {span : Span} {part : Tree.Part}
    (hpart : ShowsExpression (.node .expression [.node .expressionAtom [named name]]) part)
    (h : Depicts source part node) {levels : Nat} (hl : 2 ≤ levels) :
    Gives Expr.unplaced (expression source levels node) (.variable span name) := by
  obtain ⟨levels, rfl⟩ := Nat.exists_eq_add_of_le' hl
  obtain ⟨first, hfirst, heq⟩ := expression_of_depicts hpart h (.tail _ (.tail _ (.head _)))
  rw [heq]
  exact gives_name hfirst levels

/-! ## Calls -/

@[simp] theorem Expr.symbol_derivation (e : Expr) (level : Nat) :
    (e.derivation level).symbol = .expression := by
  cases e with
  | binary _ operator left right =>
    rw [Expr.derivation]
    split <;> rfl
  | number | string | «variable» | negate | call => rfl

theorem Expr.derivations_eq (es : List Expr) : Expr.derivations es = es.map (·.derivation 1) := by
  induction es with
  | nil => rfl
  | cons e es ih => rw [Expr.derivations, ih, List.map_cons]

/-- What is chosen from items with commas in between, but no comma. -/
theorem filter_joined {items : List (List (Derivation Word))} {choose : Derivation Word → Bool}
    (h : choose (fixed .comma) = false) :
    (joined items).filter choose = items.flatten.filter choose := by
  cases items with
  | nil => rfl
  | cons first rest =>
    rw [joined, List.flatten_cons, List.filter_append, List.filter_append]
    congr 1
    induction rest with
    | nil => rfl
    | cons item rest ih => simp [List.flatMap_cons, h, ih]

theorem forall_mem_joined {items : List (List (Derivation Word))} {P : Derivation Word → Prop}
    (hcomma : P (fixed .comma)) (h : ∀ item ∈ items, ∀ d ∈ item, P d) : ∀ d ∈ joined items, P d := by
  cases items with
  | nil => simp [joined]
  | cons first rest =>
    intro d hd
    rw [joined, List.mem_append, List.mem_flatMap] at hd
    rcases hd with hd | ⟨item, hitem, hd⟩
    · exact h first List.mem_cons_self d hd
    · rcases List.mem_cons.mp hd with rfl | hd
      · exact hcomma
      · exact h item (List.mem_cons_of_mem _ hitem) d hd

theorem symbol_of_mem_derivations {es : List Expr} {d : Derivation Word}
    (h : d ∈ Expr.derivations es) : d.symbol = .expression := by
  rw [Expr.derivations_eq] at h
  obtain ⟨e, -, rfl⟩ := List.mem_map.mp h
  exact e.symbol_derivation 1

/-- The significant nodes of a call are its name and its arguments. -/
theorem significant_call {function : String} {arguments : List Expr}
    (h : Depicts source ⟨kind, field, callDerivation function (Expr.derivations arguments)⟩ node) :
    ∃ name nodes, node.significant = name :: nodes ∧
      Depicts source ⟨.functionName, none, named function⟩ name ∧
      List.Forall₂ (fun e n => Depicts source ⟨.expression, none, e.derivation 1⟩ n) arguments nodes := by
  have hshown : ∀ d ∈ named function :: fixed .lparen ::
      (joined ((Expr.derivations arguments).map ([·])) ++ [fixed .rparen]),
      showsIn .functionCall d.symbol = true := by
    refine List.forall_mem_cons.mpr ⟨rfl, List.forall_mem_cons.mpr ⟨rfl, ?_⟩⟩
    refine List.forall_mem_append.mpr ⟨forall_mem_joined rfl ?_, List.forall_mem_singleton.mpr rfl⟩
    simp only [List.forall_mem_map, List.forall_mem_singleton]
    intro d hd
    rw [symbol_of_mem_derivations hd]
    rfl
  have hjoined : (joined ((Expr.derivations arguments).map ([·]))).filter
      (fun d => isSignificant .functionCall d.symbol) = Expr.derivations arguments := by
    rw [filter_joined rfl, ← List.flatMap_def, List.flatMap_singleton', List.filter_eq_self]
    intro d hd
    rw [symbol_of_mem_derivations hd]
    rfl
  have hall := h.significant_of_shown hshown
  rw [List.filter_cons_of_pos rfl, List.filter_cons_of_neg (by decide), List.filter_append, hjoined,
    List.filter_cons_of_neg (by decide), List.filter_nil, List.append_nil, List.map_cons] at hall
  obtain ⟨name, nodes, hname, hnodes, heq⟩ := List.forall₂_cons_left_iff.mp hall
  refine ⟨name, nodes, heq, hname, ?_⟩
  rw [Expr.derivations_eq, List.map_map, List.forall₂_map_left_iff] at hnodes
  refine hnodes.imp fun e n hn => ?_
  have hpart : Tree.Part.of .functionCall (e.derivation 1) = ⟨.expression, none, e.derivation 1⟩ := by
    rw [Tree.Part.of, e.symbol_derivation]
    rfl
  exact hpart ▸ hn

/-- Arguments that are read back one by one are read back together. -/
theorem gives_mapM {lower : Node → Lowered Expr} {es : List Expr} {nodes : List Node}
    (h : List.Forall₂ (fun e n => Gives Expr.unplaced (lower n) e) es nodes) : ∃ es',
      nodes.mapM lower = .ok es' ∧ Expr.unplacedEach es' = Expr.unplacedEach es := by
  induction h with
  | nil => exact ⟨[], rfl, rfl⟩
  | cons hfirst _ ih =>
    obtain ⟨e', hfirst, hsame⟩ := hfirst
    obtain ⟨es', hrest, hsame'⟩ := ih
    refine ⟨e' :: es', ?_, ?_⟩
    · simp only [List.mapM_cons, hfirst, hrest, ok_bind, pure, Except.pure]
    · rw [Expr.unplacedEach, Expr.unplacedEach, hsame, hsame']

/-- A call is read back if its arguments are. -/
theorem callWith_of_depicts {function : String} {arguments : List Expr}
    (h : Depicts source ⟨kind, field, callDerivation function (Expr.derivations arguments)⟩ node) :
    ∃ nodes,
      List.Forall₂ (fun e n => Depicts source ⟨.expression, none, e.derivation 1⟩ n) arguments nodes ∧
      ∀ {lower : Node → Lowered Expr} {es : List Expr}, nodes.mapM lower = .ok es →
        callWith source lower node = .ok (function, es) := by
  obtain ⟨name, nodes, heq, hname, hnodes⟩ := significant_call h
  refine ⟨nodes, hnodes, fun {lower es} hes => ?_⟩
  have hkind : (name.kind == .functionName) = true := by rw [hname.kind_eq]; rfl
  have hother : (name.kind == .expression) = false := by rw [hname.kind_eq]; rfl
  have hfilter : nodes.filter (·.kind == .expression) = nodes := by
    refine List.filter_eq_self.mpr fun n hn => ?_
    obtain ⟨e, -, hdepicts⟩ := exists_of_forall₂_right hnodes hn
    rw [hdepicts.kind_eq]
    rfl
  simp only [callWith, heq, List.find?_cons, hkind, List.filter_cons, hother, hfilter,
    identifier_of_depicts hname, ok_bind, hes, Bool.false_eq_true, if_false, pure, Except.pure]

/-- A call is read back if its arguments are. -/
theorem gives_call {function : String} {arguments : List Expr} {span : Span}
    (h : Depicts source ⟨.functionCall, field, callDerivation function (Expr.derivations arguments)⟩ node)
    {levels : Nat} (hall : ∀ {nodes : List Node},
      List.Forall₂ (fun e n => Depicts source ⟨.expression, none, e.derivation 1⟩ n) arguments nodes →
      List.Forall₂ (fun e n => Gives Expr.unplaced (expression source levels n) e) arguments nodes) :
    Gives Expr.unplaced (expression source (levels + 1) node) (.call span function arguments) := by
  obtain ⟨nodes, hnodes, hcall⟩ := callWith_of_depicts h
  obtain ⟨es, hes, hsame⟩ := gives_mapM (hall hnodes)
  refine ⟨.call (spanOf node) function es, ?_, by rw [Expr.unplaced, Expr.unplaced, hsame]⟩
  rw [expression, expressionWith, h.kind_eq]
  simp only [hcall hes, ok_bind, pure, Except.pure]

/-! ## Expressions -/

@[simp] theorem Expr.unplaced_withSpan (e : Expr) (span : Span) :
    (e.withSpan span).unplaced = e.unplaced := by
  cases e <;> rfl

/-- Lowering at a number of levels reads an expression back from where it is printed so. -/
def Recovers (source : Source) (levels : Nat) (d : Derivation Word) (e : Expr) : Prop :=
  ∀ {part : Tree.Part} {node : Node}, ShowsExpression d part → Depicts source part node →
    Gives Expr.unplaced (expression source levels node) e

/-- The only child with a rule of its own. -/
theorem only_significant (before : List (Derivation Word)) (d : Derivation Word)
    (after : List (Derivation Word)) {symbol shown : Symbol}
    (h : Depicts source ⟨kind, field, .node symbol (before ++ d :: after)⟩ node) (hd : d.symbol = shown)
    (hshown : (showsIn symbol shown && isSignificant symbol shown) = true)
    (hothers : ∀ x ∈ before ++ after,
      showsIn symbol x.symbol = true ∧ isSignificant symbol x.symbol = false) :
    ∃ child, node.significant = [child] ∧
      Depicts source ⟨(shownAs symbol shown).getD shown, labelOf symbol shown, d⟩ child := by
  subst hd
  rw [Bool.and_eq_true] at hshown
  rw [List.forall_mem_append] at hothers
  obtain ⟨hbefore, hafter⟩ := hothers
  have hall : ∀ x ∈ before ++ d :: after, showsIn symbol x.symbol = true :=
    List.forall_mem_append.mpr ⟨fun x hx => (hbefore x hx).1,
      List.forall_mem_cons.mpr ⟨hshown.1, fun x hx => (hafter x hx).1⟩⟩
  have hdropped : ∀ {xs : List (Derivation Word)}, (∀ x ∈ xs,
      showsIn symbol x.symbol = true ∧ isSignificant symbol x.symbol = false) →
      xs.filter (fun x => isSignificant symbol x.symbol) = [] := by
    intro xs hxs
    rw [List.filter_eq_nil_iff]
    intro x hx
    rw [(hxs x hx).2]
    exact Bool.false_ne_true
  have hdepict := h.significant_of_shown hall
  rw [List.filter_append, hdropped hbefore, List.filter_cons, if_pos hshown.2, hdropped hafter] at hdepict
  exact hdepict.one

/-- Two operands and an operator in between are all that is below an operation. -/
theorem three_significant {l o r : Derivation Word} {symbol operand operator : Symbol}
    (h : Depicts source ⟨kind, field, .node symbol [l, o, r]⟩ node) (hl : l.symbol = operand)
    (ho : o.symbol = operator) (hr : r.symbol = operand)
    (hshown : ([operand, operator, operand].all fun s => showsIn symbol s && isSignificant symbol s) = true) :
    ∃ a b c, node.significant = [a, b, c] ∧
      Depicts source ⟨(shownAs symbol operand).getD operand, labelOf symbol operand, l⟩ a ∧
      Depicts source ⟨(shownAs symbol operator).getD operator, labelOf symbol operator, o⟩ b ∧
      Depicts source ⟨(shownAs symbol operand).getD operand, labelOf symbol operand, r⟩ c := by
  simp only [List.all_cons, List.all_nil, Bool.and_true, Bool.and_eq_true] at hshown
  subst ho
  obtain ⟨⟨hs, hk⟩, ⟨hs', hk'⟩, -⟩ := hshown
  have hall : ∀ x ∈ [l, o, r], showsIn symbol x.symbol = true := by
    rw [List.forall_mem_cons, List.forall_mem_cons, List.forall_mem_singleton, hl, hr]
    exact ⟨hs, hs', hs⟩
  have hdepict := h.significant_of_shown hall
  rw [List.filter_cons, if_pos (hl ▸ hk), List.filter_cons, if_pos hk', List.filter_cons,
    if_pos (hr ▸ hk), List.filter_nil] at hdepict
  obtain ⟨a, b, c, heq, ha, hb, hc⟩ := hdepict.three
  rw [Tree.Part.of, hl] at ha
  rw [Tree.Part.of, hr] at hc
  exact ⟨a, b, c, heq, ha, hb, hc⟩

/-- A minus sign and its operand. -/
theorem recovers_negate {operand : Expr} {span : Span} {levels : Nat}
    (h : Recovers source levels (operand.derivation atomic) operand) :
    Recovers source (levels + 1) (.node .expression
      [.node .expressionAtom (fixed .minus :: (operand.derivation atomic).children)])
      (.negate span operand) := by
  intro part node hpart hnode
  obtain ⟨inner, heq, hsymbol⟩ := operand.exists_atom
  rw [heq] at hpart
  obtain ⟨_, atom, hatom, hlower⟩ := exists_atom hpart hnode
  obtain ⟨first, hfirst, hminus⟩ := firstToken_of_depicts hatom rfl
  obtain ⟨below, hsignificant, hbelow⟩ :=
    only_significant [fixed .minus] inner [] hatom hsymbol rfl (by decide)
  obtain ⟨e', he', hsame⟩ := h (.atom heq hsymbol) hbelow
  have hkind : first.kind = .minus := hminus.kind_eq
  refine ⟨.negate (spanOf atom) e', ?_, by rw [Expr.unplaced, Expr.unplaced, hsame]⟩
  rw [hlower, atomWith, hfirst, hsignificant]
  simp only [require, ok_bind, hkind, List.head?_cons, he', pure, Except.pure]

/-- An expression in parentheses. -/
theorem recovers_enclosed {d : Derivation Word} {e : Expr} {levels : Nat} (hd : d.symbol = .expression)
    (h : Recovers source levels d e) :
    Recovers source (levels + 1) (.node .expression [enclosed .expressionAtom d]) e := by
  intro part node hpart hnode
  obtain ⟨_, atom, hatom, hlower⟩ := exists_atom hpart hnode
  obtain ⟨first, hfirst, hopen⟩ := firstToken_of_depicts hatom rfl
  obtain ⟨below, hsignificant, hbelow⟩ :=
    only_significant [fixed .lparen] d [fixed .rparen] hatom hd rfl (by decide)
  obtain ⟨e', he', hsame⟩ := h .whole hbelow
  have hkind : first.kind = .lparen := hopen.kind_eq
  refine ⟨e'.withSpan (spanOf atom), ?_, by rw [Expr.unplaced_withSpan, hsame]⟩
  rw [hlower, atomWith, hfirst, hsignificant]
  simp only [require, ok_bind, hkind, List.head?_cons, he', pure, Except.pure]

/-- The operator of an operation on values. -/
theorem operatorOf_binary {operator : BinaryOperator}
    (h : Depicts source ⟨kind, field, operator.derivation⟩ node) :
    operatorOf binaryOperator? node = .ok operator := by
  refine operatorOf_of_depicts h ?_ ?_ <;> cases operator <;> rfl

/-- An operation. -/
theorem recovers_operation {operator : BinaryOperator} {l r : Derivation Word} {left right : Expr}
    {span : Span} {levels : Nat} (hl : l.symbol = .expression) (hr : r.symbol = .expression)
    (hleft : Recovers source levels l left) (hright : Recovers source levels r right) :
    Recovers source (levels + 1) (.node .expression [l, operator.derivation, r])
      (.binary span operator left right) := by
  intro part node hpart hnode
  cases hpart with
  | atom heq => cases heq
  | whole =>
    have hshown : ([.expression, operator.symbols.1, .expression].all fun s =>
        showsIn .expression s && isSignificant .expression s) = true := by cases operator <;> rfl
    obtain ⟨a, b, c, hsignificant, ha, hb, hc⟩ := three_significant hnode hl rfl hr hshown
    obtain ⟨left', hleft', hsame⟩ := hleft .whole ha
    obtain ⟨right', hright', hsame'⟩ := hright .whole hc
    have hop := operatorOf_binary hb
    refine ⟨.binary (spanOf node) operator left' right', ?_, by
      rw [Expr.unplaced, Expr.unplaced, hsame, hsame']⟩
    rw [expression, expressionWith, hnode.kind_eq]
    simp only [hsignificant, hop, hleft', hright', ok_bind, pure, Except.pure]

mutual

/-- **An expression is read back from where it is printed**, if there are levels enough. -/
theorem recovers_expr : ∀ (e : Expr), e.Printable → ∀ {level levels : Nat}, e.nesting level ≤ levels →
    Recovers source levels (e.derivation level) e
  | .number _ _, hp, _, _, hn => fun hpart hnode => gives_number hpart hnode hp hn
  | .string _ _, hp, _, _, hn => fun hpart hnode => gives_string hpart hnode hp hn
  | .variable _ _, _, _, _, hn => fun hpart hnode => gives_variable hpart hnode hn
  | .negate _ operand, hp, _, levels, hn => by
    obtain ⟨levels, rfl⟩ := Nat.exists_eq_add_of_le' (Nat.le_of_add_left_le hn)
    exact recovers_negate (recovers_expr operand hp (Nat.le_of_succ_le_succ hn))
  | .binary span operator left right, hp, level, levels, hn => by
    rw [Expr.nesting, operationNesting] at hn
    have hoperation : ∀ {m : Nat}, max (left.nesting operator.strength)
        (right.nesting (operator.strength + 1)) ≤ m →
        Recovers source (m + 1) (.node .expression [left.derivation operator.strength,
          operator.derivation, right.derivation (operator.strength + 1)])
          (.binary span operator left right) := by
      intro m hm
      rw [Nat.max_le] at hm
      exact recovers_operation (left.symbol_derivation _) (right.symbol_derivation _)
        (recovers_expr left hp.1 hm.1) (recovers_expr right hp.2 hm.2)
    rw [Expr.derivation]
    by_cases hlt : operator.strength < level
    · rw [if_pos hlt] at hn ⊢
      obtain ⟨levels, rfl⟩ := Nat.exists_eq_add_of_le' (Nat.le_of_add_left_le hn)
      exact recovers_enclosed rfl (hoperation (Nat.le_of_add_le_add_right hn))
    · rw [if_neg hlt] at hn ⊢
      obtain ⟨levels, rfl⟩ := Nat.exists_eq_add_of_le' (Nat.le_of_add_left_le hn)
      exact hoperation (Nat.le_of_add_le_add_right hn)
  | .call _ _ arguments, hp, _, levels, hn => by
    obtain ⟨levels, rfl⟩ := Nat.exists_eq_add_of_le' (Nat.le_of_add_left_le hn)
    intro hpart hnode
    obtain ⟨first, hfirst, heq⟩ :=
      expression_of_depicts hpart hnode (.tail _ (.tail _ (.tail _ (.head _))))
    rw [heq]
    exact gives_call hfirst (gives_exprs arguments hp.2 (Nat.le_of_add_le_add_right hn))

/-- Expressions side by side are read back. -/
theorem gives_exprs : ∀ (es : List Expr), Expr.AllPrintable es → ∀ {levels : Nat},
    Expr.nestingEach es ≤ levels → ∀ {nodes : List Node},
    List.Forall₂ (fun e n => Depicts source ⟨.expression, none, e.derivation 1⟩ n) es nodes →
    List.Forall₂ (fun e n => Gives Expr.unplaced (expression source levels n) e) es nodes
  | [], _, _, _, _, .nil => .nil
  | e :: es, hp, _, hn, _, .cons h hs => by
    rw [Expr.nestingEach, Nat.max_le] at hn
    exact .cons (recovers_expr e hp.1 hn.1 .whole h) (gives_exprs es hp.2 hn.2 hs)

end

/-! ## Conditions -/

@[simp] theorem Condition.symbol_derivation (c : Condition) (level : Nat) :
    (c.derivation level).symbol = .conditionalStatement := by
  cases c with
  | binary _ operator left right =>
    rw [Condition.derivation]
    split <;> rfl
  | expr | not => rfl

@[simp] theorem Condition.symbol_operandDerivation (c : Condition) :
    c.operandDerivation.symbol = .conditionalAtom := by
  cases c with
  | expr _ value => cases value <;> rfl
  | not | binary => rfl

@[simp] theorem Condition.unplaced_withSpan (c : Condition) (span : Span) :
    (c.withSpan span).unplaced = c.unplaced := by
  cases c <;> rfl

/-- A condition that does not consist of another one is the innermost. -/
theorem innermost_eq (fuel : Nat)
    (h : ∀ operand, node.significant = [operand] → operand.kind ≠ .conditionalStatement) :
    innermost fuel node = node := by
  cases fuel with
  | zero => rfl
  | succ fuel =>
    rw [innermost]
    split
    · rename_i operand heq
      exact if_neg (by simpa using h operand heq)
    · rfl

/-- Lowering at a number of levels reads a condition back from where it is printed so. -/
def RecoversCondition (source : Source) (levels : Nat) (d : Derivation Word) (c : Condition) : Prop :=
  ∀ {field : Option Field} {node : Node}, Depicts source ⟨.conditionalStatement, field, d⟩ node →
    Gives Condition.unplaced (condition source levels node) c

/-- Lowering at a number of levels reads an atom back from where it is printed so. -/
def RecoversAtom (source : Source) (levels : Nat) (d : Derivation Word) (c : Condition) : Prop :=
  ∀ {field : Option Field} {node : Node}, Depicts source ⟨.conditionalAtom, field, d⟩ node →
    Gives Condition.unplaced (conditionalAtom source levels node) c

variable {levels : Nat} {d : Derivation Word} {e : Expr} {c : Condition} {span : Span}

/-- An expression alone. -/
theorem recoversCondition_expr (hd : d.symbol = .expression) (h : Recovers source (levels + 1) d e) :
    RecoversCondition source (levels + 1) (.node .conditionalStatement [d]) (.expr span e) := by
  intro field node hnode
  obtain ⟨operand, hsignificant, hoperand⟩ := only_significant [] d [] hnode hd rfl (by decide)
  have hinner : innermost node.size node = node := by
    refine innermost_eq _ fun operand' heq => ?_
    rw [hsignificant] at heq
    cases heq
    rw [hoperand.kind_eq]
    exact ne_of_beq_false rfl
  obtain ⟨e', he', hsame⟩ := h .whole hoperand
  have hkind : (operand.kind == .conditionalAtom) = false := by rw [hoperand.kind_eq]; rfl
  refine ⟨.expr (spanOf node) e', ?_, by rw [Condition.unplaced, Condition.unplaced, hsame]⟩
  simp only [condition, conditionWith, hinner, hsignificant, hkind, Bool.false_eq_true, if_false, he',
    Except.map]

/-- An atom alone. -/
theorem recoversCondition_atom (hd : d.symbol = .conditionalGroup)
    (h : RecoversAtom source (levels + 1) d c) :
    RecoversCondition source (levels + 1) (.node .conditionalStatement [d]) c := by
  intro field node hnode
  obtain ⟨operand, hsignificant, hoperand⟩ := only_significant [] d [] hnode hd rfl (by decide)
  have hinner : innermost node.size node = node := by
    refine innermost_eq _ fun operand' heq => ?_
    rw [hsignificant] at heq
    cases heq
    rw [hoperand.kind_eq]
    exact ne_of_beq_false rfl
  obtain ⟨c', hc', hsame⟩ := h hoperand
  have hkind : (operand.kind == .conditionalAtom) = true := by rw [hoperand.kind_eq]; rfl
  refine ⟨c', ?_, hsame⟩
  rw [conditionalAtom] at hc'
  simp only [condition, conditionWith, hinner, hsignificant, hkind, if_true, hc']

/-- `NOT` and its operand. -/
theorem recoversAtom_not {symbol : Symbol} (hs : symbol = .conditionalGroup ∨ symbol = .conditionalAtom)
    (hd : d.symbol = .conditionalAtom) (h : RecoversAtom source levels d c) :
    RecoversAtom source (levels + 1) (.node symbol [fixed .kwNot, d]) (.not span c) := by
  intro field node hnode
  obtain ⟨first, hfirst, hnot⟩ := firstToken_of_depicts hnode (by rcases hs with rfl | rfl <;> rfl)
  obtain ⟨operand, hsignificant, hoperand⟩ := only_significant [fixed .kwNot] d [] hnode hd
    (by rcases hs with rfl | rfl <;> rfl) (by rcases hs with rfl | rfl <;> decide)
  have hkind : first.kind = .kwNot := by rcases hs with rfl | rfl <;> exact hnot.kind_eq
  have hatom : Depicts source ⟨.conditionalAtom, none, d⟩ operand := by
    rcases hs with rfl | rfl <;> exact hoperand
  have hkind' : (operand.kind == .conditionalAtom) = true := by rw [hatom.kind_eq]; rfl
  obtain ⟨c', hc', hsame⟩ := h hatom
  refine ⟨.not (spanOf node) c', ?_, by rw [Condition.unplaced, Condition.unplaced, hsame]⟩
  simp only [conditionalAtom, conditionalAtomWith, hfirst, hsignificant, List.head?_cons, require, ok_bind,
    hkind, hkind', if_true, hc', pure, Except.pure]

/-- A condition in parentheses. -/
theorem recoversAtom_enclosed {symbol : Symbol}
    (hs : symbol = .conditionalGroup ∨ symbol = .conditionalAtom) (hd : d.symbol = .conditionalStatement)
    (h : RecoversCondition source levels d c) :
    RecoversAtom source (levels + 1) (enclosed symbol d) c := by
  intro field node hnode
  obtain ⟨first, hfirst, hopen⟩ := firstToken_of_depicts hnode (by rcases hs with rfl | rfl <;> rfl)
  obtain ⟨operand, hsignificant, hoperand⟩ := only_significant [fixed .lparen] d [fixed .rparen] hnode hd
    (by rcases hs with rfl | rfl <;> rfl) (by rcases hs with rfl | rfl <;> decide)
  have hkind : first.kind = .lparen := by rcases hs with rfl | rfl <;> exact hopen.kind_eq
  have hinner : Depicts source ⟨.conditionalStatement, none, d⟩ operand := by
    rcases hs with rfl | rfl <;> exact hoperand
  obtain ⟨c', hc', hsame⟩ := h hinner
  refine ⟨c'.withSpan (spanOf node), ?_, by rw [Condition.unplaced_withSpan, hsame]⟩
  simp only [conditionalAtom, conditionalAtomWith, hfirst, hsignificant, List.head?_cons, require, ok_bind,
    hkind, hc', pure, Except.pure]

/-- A token or a call that is an expression. -/
theorem recoversAtom_expr {symbol : Symbol}
    (hs : symbol = .identifier ∨ symbol = .functionCall) (hd : d.symbol = symbol)
    (h : ∀ {node}, Depicts source (.of .conditionalAtom d) node →
      Gives Expr.unplaced (expression source levels node) e) :
    RecoversAtom source (levels + 1) (.node .conditionalAtom [d]) (.expr span e) := by
  subst hd
  intro field node hnode
  obtain ⟨first, hfirst, hdepicts⟩ := firstToken_of_depicts hnode
    (by rcases hs with hs | hs <;> rw [hs] <;> rfl)
  obtain ⟨operand, hsignificant, hoperand⟩ := only_significant [] d [] hnode rfl
    (by rcases hs with hs | hs <;> rw [hs] <;> rfl) (by decide)
  have hkind : first.kind ≠ .kwNot ∧ first.kind ≠ .lparen := by
    rw [hdepicts.kind_eq, Tree.Part.of]
    rcases hs with hs | hs <;> rw [hs] <;> exact ⟨ne_of_beq_false rfl, ne_of_beq_false rfl⟩
  obtain ⟨e', he', hsame⟩ := h hoperand
  refine ⟨.expr (spanOf node) e', ?_, by rw [Condition.unplaced, Condition.unplaced, hsame]⟩
  simp only [conditionalAtom, conditionalAtomWith, hfirst, hsignificant, List.head?_cons, require, ok_bind,
    he', pure, Except.pure]
  split
  · exact absurd ‹_› hkind.1
  · exact absurd ‹_› hkind.2
  · rfl

/-- The operator of an operation on conditions. -/
theorem operatorOf_condition {operator : ConditionOperator}
    (h : Depicts source ⟨kind, field, operator.derivation⟩ node) :
    operatorOf conditionOperator? node = .ok operator := by
  refine operatorOf_of_depicts h ?_ ?_ <;> cases operator <;> rfl

/-- An operation on conditions. -/
theorem recoversCondition_operation {operator : ConditionOperator} {l r : Derivation Word}
    {left right : Condition} (hl : l.symbol = .conditionalStatement)
    (hr : r.symbol = .conditionalStatement) (hleft : RecoversCondition source levels l left)
    (hright : RecoversCondition source levels r right) :
    RecoversCondition source (levels + 1) (.node .conditionalStatement [l, operator.derivation, r])
      (.binary span operator left right) := by
  intro field node hnode
  have hshown : ([.conditionalStatement, operator.symbols.1, .conditionalStatement].all fun s =>
      showsIn .conditionalStatement s && isSignificant .conditionalStatement s) = true := by
    cases operator <;> rfl
  obtain ⟨a, b, c, hsignificant, ha, hb, hc⟩ := three_significant hnode hl rfl hr hshown
  have hinner : innermost node.size node = node := by
    refine innermost_eq _ fun operand' heq => ?_
    rw [hsignificant] at heq
    cases heq
  obtain ⟨left', hleft', hsame⟩ := hleft ha
  obtain ⟨right', hright', hsame'⟩ := hright hc
  have hop := operatorOf_condition hb
  refine ⟨.binary (spanOf node) operator left' right', ?_, by
    rw [Condition.unplaced, Condition.unplaced, hsame, hsame']⟩
  simp only [condition, conditionWith, hinner, hsignificant, ok_bind, hop, hleft', hright', pure, Except.pure]

theorem Expr.one_le_nesting (e : Expr) (level : Nat) : 1 ≤ e.nesting level := by
  cases e with
  | binary _ operator left right =>
    rw [Expr.nesting, operationNesting]
    split <;> omega
  | number | string | «variable» | negate | call => rw [Expr.nesting]; omega

/-- An expression alone, at any number of levels that is enough. -/
theorem recoversCondition_value (hp : e.Printable) (hn : e.nesting 1 ≤ levels) :
    RecoversCondition source levels (.node .conditionalStatement [e.derivation 1]) (.expr span e) := by
  obtain ⟨levels, rfl⟩ := Nat.exists_eq_add_of_le' ((e.one_le_nesting 1).trans hn)
  exact recoversCondition_expr (e.symbol_derivation 1) (recovers_expr e hp hn)

mutual

/-- **A condition is read back from where it is printed**, if there are levels enough. -/
theorem recoversCondition : ∀ (c : Condition), c.Printable → ∀ {level levels : Nat},
    c.nesting level ≤ levels → RecoversCondition source levels (c.derivation level) c
  | .expr _ value, hp, _, _, hn => recoversCondition_value hp hn
  | .not _ operand, hp, _, levels, hn => by
    obtain ⟨levels, rfl⟩ := Nat.exists_eq_add_of_le' (Nat.le_of_add_left_le hn)
    exact recoversCondition_atom rfl (recoversAtom_not (.inl rfl) operand.symbol_operandDerivation
      (recoversAtom operand hp (Nat.le_of_succ_le_succ hn)))
  | .binary span operator left right, hp, level, levels, hn => by
    rw [Condition.nesting, operationNesting] at hn
    have hoperation : ∀ {m : Nat}, max (left.nesting operator.strength)
        (right.nesting (operator.strength + 1)) ≤ m →
        RecoversCondition source (m + 1) (.node .conditionalStatement
          [left.derivation operator.strength, operator.derivation,
            right.derivation (operator.strength + 1)]) (.binary span operator left right) := by
      intro m hm
      rw [Nat.max_le] at hm
      exact recoversCondition_operation (left.symbol_derivation _) (right.symbol_derivation _)
        (recoversCondition left hp.1 hm.1) (recoversCondition right hp.2 hm.2)
    rw [Condition.derivation]
    by_cases hlt : operator.strength < level
    · rw [if_pos hlt] at hn ⊢
      obtain ⟨levels, rfl⟩ := Nat.exists_eq_add_of_le' (Nat.le_of_add_left_le hn)
      exact recoversCondition_atom rfl (recoversAtom_enclosed (.inl rfl) rfl
        (hoperation (Nat.le_of_add_le_add_right hn)))
    · rw [if_neg hlt] at hn ⊢
      obtain ⟨levels, rfl⟩ := Nat.exists_eq_add_of_le' (Nat.le_of_add_left_le hn)
      exact hoperation (Nat.le_of_add_le_add_right hn)

/-- A condition after `NOT` is read back. -/
theorem recoversAtom : ∀ (c : Condition), c.Printable → ∀ {levels : Nat},
    c.operandNesting ≤ levels → RecoversAtom source levels c.operandDerivation c
  | .expr _ (.variable _ name), hp, levels, hn => by
    obtain ⟨levels, rfl⟩ := Nat.exists_eq_add_of_le' hn
    exact recoversAtom_expr (.inl rfl) rfl fun hnode => gives_name hnode levels
  | .expr _ (.call _ function arguments), hp, levels, hn => by
    obtain ⟨levels, rfl⟩ := Nat.exists_eq_add_of_le' (Nat.le_of_add_left_le hn)
    exact recoversAtom_expr (.inr rfl) rfl fun hnode =>
      gives_call hnode (gives_exprs arguments hp.2 (Nat.le_of_add_le_add_right hn))
  | .expr _ (.number span value), hp, levels, hn => by
    obtain ⟨levels, rfl⟩ := Nat.exists_eq_add_of_le' (Nat.le_of_add_left_le hn)
    exact recoversAtom_enclosed (.inr rfl) rfl
      (recoversCondition_value (e := .number span value) hp (Nat.le_of_succ_le_succ hn))
  | .expr _ (.string span value), hp, levels, hn => by
    obtain ⟨levels, rfl⟩ := Nat.exists_eq_add_of_le' (Nat.le_of_add_left_le hn)
    exact recoversAtom_enclosed (.inr rfl) rfl
      (recoversCondition_value (e := .string span value) hp (Nat.le_of_succ_le_succ hn))
  | .expr _ (.negate span operand), hp, levels, hn => by
    obtain ⟨levels, rfl⟩ := Nat.exists_eq_add_of_le' (Nat.le_of_add_left_le hn)
    exact recoversAtom_enclosed (.inr rfl) rfl
      (recoversCondition_value (e := .negate span operand) hp (Nat.le_of_succ_le_succ hn))
  | .expr _ (.binary span operator left right), hp, levels, hn => by
    obtain ⟨levels, rfl⟩ := Nat.exists_eq_add_of_le' (Nat.le_of_add_left_le hn)
    exact recoversAtom_enclosed (.inr rfl) rfl
      (recoversCondition_value (e := .binary span operator left right) hp (Nat.le_of_succ_le_succ hn))
  | .not _ operand, hp, levels, hn => by
    obtain ⟨levels, rfl⟩ := Nat.exists_eq_add_of_le' (Nat.le_of_add_left_le hn)
    exact recoversAtom_not (.inr rfl) operand.symbol_operandDerivation
      (recoversAtom operand hp (Nat.le_of_succ_le_succ hn))
  | .binary _ operator left right, hp, levels, hn => by
    have hlt : operator.strength < atomic := by cases operator <;> decide
    rw [Condition.operandNesting, operationNesting, if_pos hlt] at hn
    obtain ⟨levels, rfl⟩ := Nat.exists_eq_add_of_le' (Nat.le_of_add_left_le hn)
    have hm := Nat.max_le.mp (Nat.le_of_add_le_add_right hn)
    exact recoversAtom_enclosed (.inr rfl) rfl
      (recoversCondition_operation (left.symbol_derivation _) (right.symbol_derivation _)
        (recoversCondition left hp.1 hm.1) (recoversCondition right hp.2 hm.2))

end

end Reading
end Cicode.Program

import Cicode.Proofs.Program.Losses
import Cicode.Proofs.Program.Nesting
import Cicode.Proofs.Program.Spans
import Cicode.Proofs.Tree.Fields
import Cicode.Proofs.Tree.Wellformed

/-!
# What can fail in a well-formed tree

Lowering fails for a part that is missing, for something unexpected in its place, or because a limit is
passed: the nesting is too deep or a number too large.  In a tree without repairs every part is where it
is looked for, so that limits are the only cause.

Main statement (`limited_lower`): whatever lowering leaves out of a well-formed tree passes a limit.
-/

namespace Cicode.Program

open Grammar Text Cicode.Lex Cicode.Tree

/-- The error says that a limit is passed, and not that the text is ill-formed. -/
def LowerError.IsLimit : LowerError → Prop
  | .numberOutOfRange _ | .tooDeep => True
  | .missing _ | .unexpected _ => False

/-- Lowering fails at limits only. -/
def OnlyLimits {α : Type} (x : Lowered α) : Prop := ∀ e, x = .error e → e.IsLimit

namespace OnlyLimits

variable {α β : Type} {x : Lowered α}

theorem ok (a : α) : OnlyLimits (.ok a : Lowered α) := fun _ h => nomatch h

theorem bind {f : α → Lowered β} (hx : OnlyLimits x) (hf : ∀ a, x = .ok a → OnlyLimits (f a)) :
    OnlyLimits (x >>= f) := by
  cases x with
  | ok a => exact hf a rfl
  | error e =>
    intro e' he
    cases he
    exact hx e rfl

theorem map_iff {f : α → β} : OnlyLimits (x.map f) ↔ OnlyLimits x := by
  cases x with
  | ok a => exact ⟨fun _ => ok a, fun _ => ok (f a)⟩
  | error e => exact ⟨fun h e' he => h e' (by cases he; rfl), fun h e' he => h e' (by cases he; rfl)⟩

end OnlyLimits

section

variable {source : Source} {node : Node}

/-! ## Expressions and statements -/

theorem onlyLimits_call {call : Call} (h : call.Proper source) (levels : Nat) :
    OnlyLimits (call.run source levels) := by
  intro e he
  rcases Call.error_cases h he with rfl | ⟨n, -, -, -, rfl⟩ <;> trivial

theorem onlyLimits_statement (h : Portrayed source node) (hstatement : isStatement node = true)
    (levels : Nat) : OnlyLimits (statement source levels (block source levels) node) := by
  rw [← OnlyLimits.map_iff (f := fun _ => ()), statement_forget h hstatement]
  refine .bind (fun e he => ?_) fun _ _ => ?_
  · obtain ⟨call, hcall, he⟩ := exists_error_of_forM he
    exact onlyLimits_call (proper_of_mem_statementCalls h hcall).1 levels e he
  · split
    · rintro _ ⟨⟩
      trivial
    · exact .ok ()

/-! ## Parameters and declarations -/

theorem onlyLimits_literal (h : Portrayed source node) (hk : node.kind = .number ∨ node.kind = .string) :
    OnlyLimits (literal source node) := by
  rw [literal, h.present]
  rcases hk with hk | hk
  · simp only [hk, Bool.false_eq_true, if_false]
    rw [OnlyLimits.map_iff, numberOf]
    split
    · exact .ok _
    · rintro _ ⟨⟩
      trivial
  · simp only [hk, Bool.false_eq_true, if_false]
    exact .ok _

/-- The type of a node that stands for one is found. -/
theorem exists_typeOf (h : Portrayed source node) {kind : Symbol} (hk : node.kind = kind)
    (hkind : kind = .parameterType ∨ kind = .variableType) : ∃ type, typeOf (some node) = .ok type := by
  have hrows : (rowRule kind).expansions = [[.kwInt], [.kwString], [.kwReal], [.kwQuality], [.kwTimestamp],
      [.kwBool], [.kwObject], [.kwLong]] := by rcases hkind with rfl | rfl <;> decide
  have hflat : (rowRule kind).IsFlat = true := by rcases hkind with rfl | rfl <;> rfl
  obtain ⟨token, hcode, -, htoken⟩ := exists_only (p := fun x => (dataType? x).isSome = true) h hk hflat
    (by simp [hrows, IsSingle, dataType?])
  obtain ⟨type, htype⟩ := Option.isSome_iff_exists.mp htoken
  have hfirst : node.firstToken = some token := by rw [Node.firstToken_eq, hcode]; rfl
  refine ⟨type, ?_⟩
  simp [typeOf, require, h.present, Option.filter, hfirst, htype]

/-- The name of a node that needs one is found. -/
theorem exists_identifier (h : Portrayed source node) (symbol : Symbol) {kind : Symbol} (hk : node.kind = kind)
    (hf : Portrayed.isFieldOf kind symbol .name = true)
    (hneeds : (rowRule kind).needs (kindIn kind symbol) = true) (part : Part) :
    ∃ name span, identifier source part (node.child? .name) = .ok (name, span) := by
  subst hk
  obtain ⟨child, hchild, -, hp⟩ := h.exists_child? symbol .name hf hneeds
  exact ⟨_, _, by rw [hchild, identifier_of_portrayed hp]⟩

/-- A node that gives a value consists of it. -/
theorem exists_given (h : Portrayed source node) (kinds : List Symbol) {kind : Symbol} (hk : node.kind = kind)
    (hflat : (rowRule kind).IsFlat = true) (hnamed : kinds.all (·.isNamed) = true)
    (hrows : (rowRule kind).expansions = kinds.map fun value => [.equal, value]) :
    ∃ value, node.significant = [value] ∧ value.kind ∈ kinds ∧ Portrayed source value := by
  have hrow := h.row_mem hk hflat
  rw [hrows] at hrow
  obtain ⟨kind, hkind, hrow⟩ := List.mem_map.mp hrow
  obtain ⟨equal, value, ⟨-, hv⟩, ⟨-, hp⟩, -, hs⟩ := h.exists_two hrow.symm
  refine ⟨value, ?_, hv ▸ hkind, hp⟩
  rw [hs, Portrayed.named, Portrayed.named, List.all_eq_true.mp hnamed kind hkind]
  rfl

/-- The default value of a parameter. -/
theorem exists_default (h : Portrayed source node) (hk : node.kind = .defaultValue) :
    ∃ value, node.significant = [value] ∧ (value.kind = .number ∨ value.kind = .string) ∧
      Portrayed source value := by
  obtain ⟨value, hs, hv, hp⟩ :=
    exists_given h [.number, .string] hk rfl (by decide) (by decide)
  exact ⟨value, hs, by simpa using hv, hp⟩

/-- The initial value of a variable. -/
theorem exists_initial (h : Portrayed source node) (hk : node.kind = .assignToValue) :
    ∃ value, node.significant = [value] ∧
      (value.kind = .variableName ∨ value.kind = .number ∨ value.kind = .string) ∧
      Portrayed source value := by
  obtain ⟨value, hs, hv, hp⟩ :=
    exists_given h [.number, .string, .variableName] hk rfl (by decide) (by decide)
  have hv : value.kind = .number ∨ value.kind = .string ∨ value.kind = .variableName := by simpa using hv
  exact ⟨value, hs, by tauto, hp⟩

theorem onlyLimits_parameter (h : Portrayed source node) (hk : node.kind = .functionParameter) :
    OnlyLimits (parameter source node) := by
  obtain ⟨typeNode, htype, hkt, hpt⟩ := h.exists_child? .parameterType .type
    (by rw [hk]; decide) (by rw [hk]; decide)
  rw [hk] at hkt
  obtain ⟨type, htypeOf⟩ := exists_typeOf hpt hkt (.inl rfl)
  obtain ⟨name, span, hname⟩ := exists_identifier h .identifier hk (by decide) (by decide) .parameterName
  rw [parameter, htype, htypeOf, hname, ok_bind, ok_bind]
  simp only
  split
  · exact .ok _
  · rename_i given hgiven
    obtain ⟨hcode, hkg⟩ := h.child?_spec .defaultValue (by rw [hk]; decide) hgiven
    rw [hk] at hkg
    obtain ⟨value, hs, hkv, hpv⟩ := exists_default (h.child hcode) hkg
    rw [hs, List.head?_cons, require, ok_bind]
    exact .bind (OnlyLimits.map_iff.mpr (onlyLimits_literal hpv hkv)) fun default _ => .ok _

theorem onlyLimits_declarationPart (h : Portrayed source node) (before : List Variable) :
    OnlyLimits (declarationPart source before node) := by
  rw [declarationPart]
  split
  · rw [identifier_of_portrayed h]
    exact .ok _
  · rename_i hk
    obtain ⟨value, hs, hkv, hpv⟩ := exists_initial h hk
    rw [hs, List.head?_cons, require, ok_bind]
    simp only
    split
    · rw [identifier_of_portrayed hpv]
      exact .ok _
    · rename_i hname
      exact .bind (OnlyLimits.map_iff.mpr (onlyLimits_literal hpv (hkv.resolve_left hname)))
        fun initializer _ => .ok _
  · exact .ok _

theorem onlyLimits_declaration (h : Portrayed source node) (hk : node.kind = .variableDeclaration) :
    OnlyLimits (declaration source node) := by
  obtain ⟨typeNode, htype, hkt, hpt⟩ := h.exists_child? .variableType .varType
    (by rw [hk]; decide) (by rw [hk]; decide)
  rw [hk] at hkt
  obtain ⟨type, htypeOf⟩ := exists_typeOf hpt hkt (.inr rfl)
  have hfold : ∀ (nodes : List Node) (before : List Variable), (∀ n ∈ nodes, Portrayed source n) →
      OnlyLimits (nodes.foldlM (declarationPart source) before) := by
    intro nodes
    induction nodes with
    | nil => exact fun _ _ => .ok _
    | cons n nodes ih =>
      intro before hall
      obtain ⟨hn, hnodes⟩ := List.forall_mem_cons.mp hall
      rw [List.foldlM_cons]
      exact .bind (onlyLimits_declarationPart hn before) fun after _ => ih after hnodes
  rw [declaration, htype, htypeOf, ok_bind]
  exact .bind (hfold _ _ fun n hn => (portrayed_of_mem_significant h hn).1) fun declared _ => .ok _

/-! ## What is left out -/

/-- What is left out passes a limit. -/
def LimitsPassed (dropped : List Dropped) : Prop := ∀ d ∈ dropped, d.cause.IsLimit

theorem LimitsPassed.append {a b : List Dropped} (ha : LimitsPassed a) (hb : LimitsPassed b) :
    LimitsPassed (a ++ b) := fun d hd => (List.mem_append.mp hd).elim (ha d) (hb d)

theorem limitsPassed_lowerAll {α : Type} {lower : Node → Lowered α} {nodes : List Node}
    (h : ∀ n ∈ nodes, OnlyLimits (lower n)) : LimitsPassed (lowerAll lower nodes).2 := by
  induction nodes with
  | nil => exact fun d hd => absurd hd List.not_mem_nil
  | cons n nodes ih =>
    obtain ⟨hn, hnodes⟩ := List.forall_mem_cons.mp h
    rw [lowerAll]
    cases hlower : lower n with
    | ok a => exact ih hnodes
    | error cause =>
      exact fun d hd => (List.mem_cons.mp hd).elim (fun hd => hd ▸ hn cause hlower) (ih hnodes d)

/-! ## Statements and their branches -/

theorem walkAll_append (a b : List Statement) :
    Statement.walkAll (a ++ b) = Statement.walkAll a ++ Statement.walkAll b := by
  induction a with
  | nil => rfl
  | cons s a ih => rw [List.cons_append, Statement.walkAll, Statement.walkAll, ih, List.append_assoc]

/-- The branches of a statement, both in one block; nothing if it has none. -/
def branchesOf (source : Source) (levels : Nat) (node : Node) : Block :=
  match branching? node, levels with
  | some inner, levels + 1 => statementsWith source levels (block source levels) inner.children
  | _, _ => ([], [])

theorem branchesOf_none {levels : Nat} (h : branching? node = none) :
    branchesOf source levels node = ([], []) := by
  simp [branchesOf, h]

/-- The branches of an IF are lowered like one block, since ELSE is no statement. -/
theorem branchWith_branches {condition : Node → Lowered Condition} {levels : Nat} {span : Span}
    {inner : Node} (hbranching : branching? node = some inner) {s : Statement} {inside : List Dropped}
    (hok : branchWith condition (block source levels) span inner = .ok (s, inside)) :
    (branching? node = none ∨ 0 < levels) ∧ inside = (branchesOf source levels node).2 ∧
      s.walk = s :: Statement.walkAll (branchesOf source levels node).1 := by
  cases levels with
  | zero =>
    rcases branchWith_ok hok with ⟨_, _, -, hthen, -⟩ | ⟨_, _, _, _, _, _, _, _, -, -, -, hthen, -⟩ <;>
      cases hthen
  | succ levels =>
    simp only [branchesOf, hbranching]
    rcases branchWith_ok hok with ⟨test, thenPart, -, hthen, rfl⟩ |
      ⟨test, before, token, after, thenPart, elsePart, inThen, inElse, hsplit, -, htoken, hthen, helse, rfl,
        rfl⟩
    · rw [Except.ok.inj hthen]
      exact ⟨.inr (Nat.succ_pos _), rfl, by simp [Statement.walk, Statement.walkElse]⟩
    · have htoken : isStatement token = false := by rw [isStatement, htoken]; rfl
      rw [hsplit, statementsWith_append, statementsWith_cons, htoken, if_neg Bool.false_ne_true,
        Except.ok.inj hthen, Except.ok.inj helse, walkAll_append]
      exact ⟨.inr (Nat.succ_pos _), rfl, by simp [Statement.walk, Statement.walkElse]⟩

/-- **What a statement that is lowered holds, and what is left out of it**, is what its branches do. -/
theorem statement_branches {levels : Nat} {s : Statement} {inside : List Dropped}
    (hstatement : isStatement node = true)
    (hok : statement source levels (block source levels) node = .ok (s, inside)) :
    (branching? node = none ∨ 0 < levels) ∧ inside = (branchesOf source levels node).2 ∧
      s.walk = s :: Statement.walkAll (branchesOf source levels node).1 := by
  rw [statement] at hok
  split at hok
  · rename_i hk
    have hnone : branching? node = none := by rw [branching?, beq_iff_eq.mp hk]; rfl
    rw [branchesOf_none hnone]
    rw [returnStatement] at hok
    split at hok
    · cases hok
      exact ⟨.inl hnone, rfl, by rw [Statement.walk]; rfl⟩
    · obtain ⟨e, -, hok⟩ := map_eq_ok.mp hok
      cases hok
      exact ⟨.inl hnone, rfl, by rw [Statement.walk]; rfl⟩
  · rename_i hr
    have hk : node.kind = .statementOrExpression := by
      simpa [isStatement, hr] using hstatement
    rw [statementWith] at hok
    obtain ⟨inner, hinner, hok⟩ := bind_eq_ok.mp hok
    have hbranching : branching? node = if inner.kind == .ifStatement then some inner else none := by
      rw [branching?, hk, require_eq_ok.mp hinner]
      rfl
    split at hok
    · rename_i hkind
      have hnone : branching? node = none := by rw [hbranching, hkind]; rfl
      rw [branchesOf_none hnone]
      obtain ⟨target, -, hok⟩ := bind_eq_ok.mp hok
      obtain ⟨value, -, hok⟩ := bind_eq_ok.mp hok
      obtain ⟨e, -, hok⟩ := bind_eq_ok.mp hok
      cases hok
      exact ⟨.inl hnone, rfl, by rw [Statement.walk]; rfl⟩
    · rename_i hkind
      exact branchWith_branches (by rw [hbranching, hkind]; rfl) hok
    · rename_i hkind
      have hnone : branching? node = none := by rw [hbranching, hkind]; rfl
      rw [branchesOf_none hnone]
      obtain ⟨call, -, hok⟩ := bind_eq_ok.mp hok
      cases hok
      exact ⟨.inl hnone, rfl, by rw [Statement.walk]; rfl⟩
    · cases hok

/-! ## Functions -/

/-- All statements among some nodes portray something. -/
def PortrayedStatements (source : Source) (nodes : List Node) : Prop :=
  ∀ n ∈ nodes, isStatement n = true → Portrayed source n

/-- The statements in the branches of a statement portray something. -/
theorem portrayed_branch {inner child : Node} (h : Portrayed source node)
    (hinner : branching? node = some inner) (hchild : child ∈ inner.children)
    (hstatement : isStatement child = true) : Portrayed source child := by
  have hp := (portrayed_of_mem_significant h (mem_significant_of_branching hinner)).1
  refine hp.child (List.mem_filter.mpr ⟨hchild, ?_⟩)
  rcases isStatement_kind hstatement with hk | hk <;> rw [Node.isComment, hk] <;> rfl

/-- Whatever is left out of a block passes a limit. -/
theorem limitsPassed_statementsWith {levels : Nat} {nodes : List Node} (h : PortrayedStatements source nodes) :
    LimitsPassed (statementsWith source levels (block source levels) nodes).2 := by
  induction levels using Nat.strong_induction_on generalizing nodes with
  | h levels ihlevels =>
  induction nodes with
  | nil => exact fun d hd => absurd hd List.not_mem_nil
  | cons node nodes ih =>
    obtain ⟨hnode, hnodes⟩ := List.forall_mem_cons.mp h
    rw [statementsWith_cons]
    split
    · rename_i hstatement
      have hp := hnode hstatement
      cases hlowered : statement source levels (block source levels) node with
      | error cause =>
        have hcause := onlyLimits_statement hp hstatement levels cause hlowered
        exact fun d hd => (List.mem_cons.mp hd).elim (fun hd => hd ▸ hcause) (ih hnodes d)
      | ok result =>
        obtain ⟨s, inside⟩ := result
        refine .append (a := inside) ?_ (ih hnodes)
        rw [(statement_branches hstatement hlowered).2.1]
        unfold branchesOf
        split
        · rename_i inner levels hinner
          exact ihlevels levels (Nat.lt_succ_self _) fun n hn hs => portrayed_branch hp hinner hn hs
        · exact fun d hd => absurd hd List.not_mem_nil
    · exact ih hnodes

/-- The list in a header consists of parameters. -/
theorem portrayed_listed {header : Node} (h : Portrayed source header)
    (hk : header.kind = .functionDefinition) :
    ∀ n ∈ listed header, Portrayed source n ∧ n.kind = .functionParameter := by
  rw [listed]
  cases hlist : header.child? .parameters with
  | none => exact fun n hn => absurd hn List.not_mem_nil
  | some list =>
    obtain ⟨hcode, hkl⟩ := h.child?_spec .functionParameters (by rw [hk]; decide) hlist
    rw [hk, show kindIn .functionDefinition .functionParameters = .functionParameters by rfl] at hkl
    intro n hn
    change n ∈ list.significant at hn
    rw [Node.significant_eq, List.mem_filter] at hn
    have hmem := (h.child hcode).kind_mem hn.1
    have hsymbols : ∀ x ∈ (rowRule .functionParameters).symbols, x.isNamed = true → x = .functionParameter := by
      decide
    exact ⟨(h.child hcode).child hn.1, hsymbols _ (hkl ▸ hmem) hn.2⟩

/-- What a function is lowered to, and what is left out of it. -/
structure LowersTo (source : Source) (node header : Node) (f : Function) (dropped : List Dropped) : Prop where
  headed : header? node = some header
  span : f.span = spanOf node
  returnType : f.returnType =
    match ((header.child? .returnType).bind (·.firstToken)).bind (dataType? ·.kind) with
    | some type => .value type
    | none => .void
  parameters : f.parameters = (lowerAll (parameter source) (listed header)).1
  locals : f.locals =
    (lowerAll (declaration source) (node.significant.filter (·.kind == .variableDeclaration))).1
  body : f.body = (statementsWith source 255 (block source 255) node.significant).1
  dropped : dropped = (lowerAll (parameter source) (listed header)).2 ++
    (lowerAll (declaration source) (node.significant.filter (·.kind == .variableDeclaration))).2 ++
    (statementsWith source 255 (block source 255) node.significant).2

/-- **Every function is kept.** -/
theorem exists_function (h : Portrayed source node) (hk : node.kind = .function) (doc : Option Doc) :
    ∃ header f dropped, function source node doc = .ok (f, dropped) ∧
      LowersTo source node header f dropped := by
  obtain ⟨header, hheader, hkh, hph⟩ :=
    exists_find? h .functionDefinition rfl (by rw [hk]; decide)
  obtain ⟨name, span, hname⟩ :=
    exists_identifier hph .identifier hkh (by decide) (by decide) .functionName
  have hblock : block source maxNesting node.significant =
      .ok (statementsWith source 255 (block source 255) node.significant) := rfl
  rw [function, hheader, require, ok_bind, hname, ok_bind]
  simp only [hblock, ok_bind]
  exact ⟨header, _, _, rfl, hheader, rfl, rfl, rfl, rfl, rfl, rfl⟩

/-- What is left out of a function passes a limit. -/
theorem LowersTo.limitsPassed {header : Node} {f : Function} {dropped : List Dropped}
    (hf : LowersTo source node header f dropped) (h : Portrayed source node) : LimitsPassed dropped := by
  obtain ⟨hheader, hkh⟩ := header?_spec hf.headed
  have hparts : ∀ n ∈ node.significant, Portrayed source n :=
    fun n hn => (portrayed_of_mem_significant h hn).1
  rw [hf.dropped]
  refine .append (.append ?_ ?_) ?_
  · refine limitsPassed_lowerAll fun n hn => ?_
    obtain ⟨hp, hkn⟩ := portrayed_listed (hparts header hheader) hkh n hn
    exact onlyLimits_parameter hp hkn
  · refine limitsPassed_lowerAll fun n hn => ?_
    obtain ⟨hmem, hkn⟩ := List.mem_filter.mp hn
    exact onlyLimits_declaration (hparts n hmem) (by simpa using hkn)
  · exact limitsPassed_statementsWith fun n hn _ => hparts n hn

/-! ## Programs -/

theorem functionsFrom_cons_other (source : Source) (doc : Doc) (hk : node.kind ≠ .function) :
    ∃ doc', ∀ rest, functionsFrom source doc (node :: rest) = functionsFrom source doc' rest := by
  by_cases hsummary : node.kind = .docSummary
  · exact ⟨_, fun rest => by simp only [functionsFrom, hsummary]; rfl⟩
  · by_cases hreturns : node.kind = .docReturns
    · exact ⟨_, fun rest => by simp only [functionsFrom, hreturns]; rfl⟩
    · by_cases hparam : node.kind = .docParam
      · cases htag : node.significant.find? (·.kind == .paramTag) with
        | none => exact ⟨doc, fun rest => by simp only [functionsFrom, hparam, htag]⟩
        | some tag => exact ⟨_, fun rest => by simp only [functionsFrom, hparam, htag]; rfl⟩
      · exact ⟨{}, fun rest => by rw [functionsFrom]; split <;> first | contradiction | rfl⟩

theorem functionsFrom_cons_function (doc : Doc) (rest : List Node) (hk : node.kind = .function) {f : Function}
    {inside : List Dropped} (hf : function source node (if doc.isEmpty then none else some doc) = .ok (f, inside)) :
    functionsFrom source doc (node :: rest) =
      (f :: (functionsFrom source {} rest).1, inside ++ (functionsFrom source {} rest).2) := by
  rw [functionsFrom]
  simp only [hk, hf]

/-- The top-level nodes become functions, one each, and what is left out of them passes a limit. -/
theorem limitsPassed_functionsFrom {nodes : List Node}
    (h : ∀ n ∈ nodes, n.kind = .function → Portrayed source n) (doc : Doc) :
    (functionsFrom source doc nodes).1.map (·.span) = (nodes.filter (·.kind == .function)).map spanOf ∧
      LimitsPassed (functionsFrom source doc nodes).2 := by
  induction nodes generalizing doc with
  | nil => exact ⟨rfl, fun d hd => absurd hd List.not_mem_nil⟩
  | cons node nodes ih =>
    obtain ⟨hnode, hnodes⟩ := List.forall_mem_cons.mp h
    by_cases hk : node.kind = .function
    · obtain ⟨header, f, inside, hf, hlowers⟩ :=
        exists_function (hnode hk) hk (if doc.isEmpty then none else some doc)
      obtain ⟨hspans, hlimits⟩ := ih hnodes {}
      rw [functionsFrom_cons_function doc nodes hk hf]
      refine ⟨?_, (hlowers.limitsPassed (hnode hk)).append hlimits⟩
      simp [hk, hspans, hlowers.span]
    · obtain ⟨doc', heq⟩ := functionsFrom_cons_other source doc hk
      rw [heq]
      simpa [hk] using ih hnodes doc'

/-- **Whatever is left out of a well-formed tree passes a limit.** -/
theorem limited_lower {root : Node} (h : Wellformed source root) :
    (lower source root).1.map (·.span) = (root.significant.filter (·.kind == .function)).map spanOf ∧
      LimitsPassed (lower source root).2 :=
  limitsPassed_functionsFrom (fun n hn _ => h.portrayed n (.child (mem_children_of_significant hn))) {}

/-- Whatever node of the tree is lowered, lowering fails at limits only. -/
structure FailsAtLimits (source : Source) (root : Node) : Prop where
  function : ∀ node, root.Within node → node.kind = .function → ∀ doc, ∃ f dropped,
    function source node doc = .ok (f, dropped)
  parameter : ∀ node, root.Within node → node.kind = .functionParameter →
    OnlyLimits (parameter source node)
  declaration : ∀ node, root.Within node → node.kind = .variableDeclaration →
    OnlyLimits (declaration source node)
  statement : ∀ node, root.Within node → isStatement node = true → ∀ levels,
    OnlyLimits (statement source levels (block source levels) node)
  call : ∀ call : Call, root.Within call.node → call.node.kind ∈ call.kinds → ∀ levels,
    OnlyLimits (call.run source levels)

theorem failsAtLimits {root : Node} (h : Wellformed source root) : FailsAtLimits source root where
  function node hin hk doc := by
    obtain ⟨header, f, dropped, hf, -⟩ := exists_function (h.portrayed node hin) hk doc
    exact ⟨f, dropped, hf⟩
  parameter node hin hk := onlyLimits_parameter (h.portrayed node hin) hk
  declaration node hin hk := onlyLimits_declaration (h.portrayed node hin) hk
  statement node hin hs := onlyLimits_statement (h.portrayed node hin) hs
  call call hin hk := onlyLimits_call ⟨h.portrayed call.node hin, hk⟩

end

end Cicode.Program

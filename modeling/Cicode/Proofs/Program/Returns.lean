import Cicode.Proofs.Program.Arrangement
import Cicode.Proofs.Program.Breaches
import Cicode.Proofs.Program.Completeness
import Cicode.Proofs.Program.Remarks

/-!
# Functions that never return a value

The warning that a function never returns a value is about what is left of it after lowering.  A RETURN
statement with an expression is kept, and then the function returns a value; or it lies in a statement
that is left out (`value_kept_or_dropped`).  Statements that are kept lie apart from those that are left
out (`kept_apart`), so that the spans of the reports tell which it is.

Main statement (`never_returns_iff_values_dropped`): in a text without repairs a function with a result is
warned about exactly if each RETURN statement with an expression in it lies in the span of a report of
lowering.
-/

namespace Cicode.Program

open Grammar Text Cicode.Lex Cicode.Tree

/-- The node is a RETURN statement with an expression. -/
def givesValue (node : Node) : Bool :=
  node.kind == .returnStatement && node.significant.any (·.kind == .expression)

section

variable {source : Source} {root node : Node}

/-! ## Where statements stand -/

/-- The kinds below which no statement stands. -/
def plainKinds : List Symbol :=
  treeKinds.filter fun kind => !([.sourceFile, .function, .statementOrExpression, .ifStatement,
    .returnStatement].contains kind)

/-- What the rules have below the kinds around a statement, besides plain nodes. -/
def statementParts (kind : Symbol) : List Symbol :=
  match kind with
  | .function | .ifStatement => [.statementOrExpression, .returnStatement]
  | .statementOrExpression => [.ifStatement]
  | _ => []

theorem parts_known :
    (∀ kind ∈ .comment :: plainKinds, ∀ x ∈ (rowRule kind).symbols, x ∈ plainKinds) ∧
    ∀ kind ∈ [Symbol.function, .ifStatement, .statementOrExpression, .returnStatement],
      kind ∉ .comment :: plainKinds ∧
      ∀ x ∈ (rowRule kind).symbols, x ∈ .comment :: plainKinds ∨ x ∈ statementParts kind := by
  decide +kernel

/-- Below such a node stand only nodes of such kinds. -/
theorem plain_of_within (h : Wellformed source root) (hin : root.Within node)
    (hk : node.kind ∈ .comment :: plainKinds) {inner : Node} (hinner : node.Within inner) :
    inner.kind ∈ .comment :: plainKinds := by
  refine hinner.downward (P := fun inner => inner.kind ∈ .comment :: plainKinds) hk ?_
  intro parent child hparent hchild hkind
  by_cases hc : child.isComment = true
  · rw [show child.kind = .comment from beq_iff_eq.mp hc]
    exact List.mem_cons_self
  · have hcode : child ∈ parent.code := List.mem_filter.mpr ⟨hchild, by simp [hc]⟩
    have hmem := (h.portrayed parent (hin.trans hparent)).kind_mem hcode
    exact List.mem_cons_of_mem _ (parts_known.1 _ hkind _ hmem)

/-- The child around a statement is one of those that may hold statements. -/
theorem around_statement (h : Wellformed source root) (hin : root.Within node) {child inner : Node}
    (hchild : child ∈ node.children) (hbelow : child.Within inner) (hs : isStatement inner = true) :
    child ∈ node.code ∧ child.kind ∈ (rowRule node.kind).symbols ∧ child.kind ∉ .comment :: plainKinds := by
  have hplain : child.kind ∉ .comment :: plainKinds := by
    intro hk
    have hkind := plain_of_within h (hin.trans (.child hchild)) hk hbelow
    have hkinds : inner.kind ∈ [Symbol.function, .ifStatement, .statementOrExpression, .returnStatement] := by
      rcases isStatement_kind hs with hks | hks <;> rw [hks] <;> decide
    exact (parts_known.2 _ hkinds).1 hkind
  have hc : child.isComment = false := by
    by_contra hc
    rw [show child.kind = .comment by simpa [Node.isComment] using hc] at hplain
    exact hplain List.mem_cons_self
  have hcode : child ∈ node.code := List.mem_filter.mpr ⟨hchild, by rw [hc]; rfl⟩
  exact ⟨hcode, (h.portrayed node hin).kind_mem hcode, hplain⟩

/-- Below a statement another one stands only in its branches. -/
theorem statement_in_branches (h : Wellformed source root) (hin : root.Within node)
    (hstatement : isStatement node = true) {inner : Node} (hinner : node.Within inner)
    (hs : isStatement inner = true) :
    inner = node ∨ ∃ branches child, branching? node = some branches ∧ child ∈ branches.children ∧
      isStatement child = true ∧ child.Within inner := by
  cases hinner with
  | refl => exact .inl rfl
  | @step _ child _ hchild hbelow =>
    right
    obtain ⟨hcode, hmem, hkind⟩ := around_statement h hin hchild hbelow hs
    rcases isStatement_kind hstatement with hk | hk
    · have hkc : child.kind = .ifStatement := by
        have hpart := ((parts_known.2 .statementOrExpression (by decide)).2 _ (hk ▸ hmem)).resolve_left hkind
        exact List.mem_singleton.mp hpart
      have hbranching := branching?_of_code (h.portrayed node hin) hk hcode hkc
      cases hbelow with
      | refl => rcases isStatement_kind hs with hks | hks <;> rw [hkc] at hks <;> cases hks
      | @step _ part _ hpart hbelow =>
        obtain ⟨-, hmem, hkind⟩ := around_statement h (hin.trans (.child hchild)) hpart hbelow hs
        have hkp := ((parts_known.2 .ifStatement (by decide)).2 _ (hkc ▸ hmem)).resolve_left hkind
        refine ⟨child, part, hbranching, hpart, ?_, hbelow⟩
        rcases List.mem_pair.mp hkp with hkp | hkp <;> rw [isStatement, hkp] <;> rfl
    · exact absurd ((parts_known.2 .returnStatement (by decide)).2 _ (hk ▸ hmem)) (by simp [statementParts, hkind])

/-- A statement in a function stands in one of the statements of its body. -/
theorem statement_in_function (h : Wellformed source root) (hin : root.Within node) (hk : node.kind = .function)
    {inner : Node} (hinner : node.Within inner) (hs : isStatement inner = true) :
    ∃ part ∈ node.significant, isStatement part = true ∧ part.Within inner := by
  cases hinner with
  | refl => rcases isStatement_kind hs with hks | hks <;> rw [hk] at hks <;> cases hks
  | @step _ part _ hpart hbelow =>
    obtain ⟨hcode, hmem, hkind⟩ := around_statement h hin hpart hbelow hs
    have hparts := ((parts_known.2 .function (by decide)).2 _ (hk ▸ hmem)).resolve_left hkind
    rcases List.mem_pair.mp hparts with hkp | hkp
    · exact ⟨part, mem_significant_of_code hcode hkp rfl, by rw [isStatement, hkp]; rfl, hbelow⟩
    · exact ⟨part, mem_significant_of_code hcode hkp rfl, by rw [isStatement, hkp]; rfl, hbelow⟩

/-! ## Kept or left out -/

/-- Each statement of a block is lowered, or left out. -/
theorem kept_or_dropped (source : Source) (levels : Nat) (block : BlockLowerer) {nodes : List Node} (hnode : node ∈ nodes)
    (hstatement : isStatement node = true) :
    (∃ cause, statement source levels block node = .error cause ∧
      ⟨node, cause⟩ ∈ (statementsWith source levels block nodes).2) ∨
    ∃ s inside, statement source levels block node = .ok (s, inside) ∧
      s ∈ (statementsWith source levels block nodes).1 ∧
      inside ⊆ (statementsWith source levels block nodes).2 := by
  induction nodes with
  | nil => exact absurd hnode List.not_mem_nil
  | cons first rest ih =>
    rw [statementsWith_cons]
    rcases List.mem_cons.mp hnode with rfl | hnode
    · rw [if_pos hstatement]
      cases hlower : statement source levels block node with
      | error cause => exact .inl ⟨cause, rfl, List.mem_cons_self⟩
      | ok result => exact .inr ⟨result.1, result.2, rfl, List.mem_cons_self, List.subset_append_left ..⟩
    · split
      · cases statement source levels block first with
        | error cause =>
          exact (ih hnode).imp (fun ⟨c, h, hmem⟩ => ⟨c, h, List.mem_cons_of_mem _ hmem⟩)
            fun ⟨s, inside, h, hmem, hsub⟩ => ⟨s, inside, h, hmem, List.subset_cons_of_subset _ hsub⟩
        | ok result =>
          exact (ih hnode).imp (fun ⟨c, h, hmem⟩ => ⟨c, h, List.mem_append_right _ hmem⟩)
            fun ⟨s, inside, h, hmem, hsub⟩ =>
              ⟨s, inside, h, List.mem_cons_of_mem _ hmem, List.subset_append_of_subset_right _ hsub⟩
      · exact ih hnode

/-- A RETURN statement with an expression that is lowered returns a value, and no other does. -/
theorem returnsValue_iff {levels : Nat} {block : BlockLowerer} {s : Statement} {inside : List Dropped}
    (hok : statement source levels block node = .ok (s, inside)) :
    Function.returnsValue s = true ↔ givesValue node = true := by
  rw [statement] at hok
  split at hok
  · rename_i hk
    rw [returnStatement] at hok
    split at hok
    · rename_i hnone
      cases hok
      have hno : node.significant.any (·.kind == .expression) = false := by
        rw [List.any_eq_false]
        exact List.find?_eq_none.mp hnone
      simp [Function.returnsValue, givesValue, hno]
    · rename_i value hsome
      obtain ⟨e, -, hok⟩ := map_eq_ok.mp hok
      cases hok
      have hany : node.significant.any (·.kind == .expression) = true :=
        List.any_eq_true.mpr
        ⟨value, List.mem_of_find?_eq_some hsome, by simpa using List.find?_some hsome⟩
      rw [givesValue, hk, hany]
      exact ⟨fun _ => rfl, fun _ => rfl⟩
  · rename_i hk
    have hnot : givesValue node = false := by simp [givesValue, hk]
    have hs : Function.returnsValue s = false := by
      rw [statementWith] at hok
      obtain ⟨inner, -, hok⟩ := bind_eq_ok.mp hok
      split at hok
      · obtain ⟨target, -, hok⟩ := bind_eq_ok.mp hok
        obtain ⟨value, -, hok⟩ := bind_eq_ok.mp hok
        obtain ⟨e, -, hok⟩ := bind_eq_ok.mp hok
        cases hok
        rfl
      · rcases branchWith_ok hok with ⟨_, _, -, -, rfl⟩ | ⟨_, _, _, _, _, _, _, _, -, -, -, -, -, rfl, -⟩ <;> rfl
      · obtain ⟨call, -, hok⟩ := bind_eq_ok.mp hok
        cases hok
        rfl
      · cases hok
    simp [hnot, hs]

/-- **A RETURN statement with an expression is kept or lies in a statement that is left out**, by induction
on the levels that are left. -/
theorem value_kept_or_dropped (h : Wellformed source root) (levels : Nat) {nodes : List Node}
    (hnode : node ∈ nodes) (hin : root.Within node) (hstatement : isStatement node = true) {ret : Node}
    (hret : node.Within ret) (hvalue : givesValue ret = true) :
    (∃ d ∈ (statementsWith source levels (block source levels) nodes).2, d.node.Within ret) ∨
      (Statement.walkAll (statementsWith source levels (block source levels) nodes).1).any Function.returnsValue = true := by
  induction levels using Nat.strong_induction_on generalizing nodes node with
  | h levels ih =>
  have hs : isStatement ret = true := by
    rw [givesValue, Bool.and_eq_true] at hvalue
    rw [isStatement, hvalue.1, Bool.or_true]
  rcases kept_or_dropped source levels (block source levels) hnode hstatement with
    ⟨cause, -, hmem⟩ | ⟨s, inside, hok, hmem, hsub⟩
  · exact .inl ⟨_, hmem, hret⟩
  · obtain ⟨hlevels, hinside, hwalk⟩ := statement_branches hstatement hok
    rcases statement_in_branches h hin hstatement hret hs with rfl | ⟨branches, child, hbranching, hchild, hsc, hbelow⟩
    · exact .inr (List.any_eq_true.mpr ⟨s, Statement.mem_walkAll hmem, (returnsValue_iff hok).mpr hvalue⟩)
    · cases levels with
      | zero => simp [hbranching] at hlevels
      | succ levels =>
        simp only [branchesOf, hbranching] at hinside hwalk
        have hinner := (hin.trans (.child (branching?_mem hbranching))).trans (.child hchild)
        rcases ih levels (Nat.lt_succ_self _) hchild hinner hsc hbelow with ⟨d, hd, hdw⟩ | hany
        · exact .inl ⟨d, hsub (hinside ▸ hd), hdw⟩
        · obtain ⟨s', hs', hreturns⟩ := List.any_eq_true.mp hany
          refine .inr (List.any_eq_true.mpr ⟨s', Statement.walkAll_subset (Statement.mem_walkAll hmem) ?_, hreturns⟩)
          rw [hwalk]
          exact List.mem_cons_of_mem _ hs'

/-- What is left out of a block lies in its statements. -/
theorem dropped_located {levels : Nat} {nodes : List Node} {d : Dropped}
    (hd : d ∈ (statementsWith source levels (block source levels) nodes).2) :
    ∃ n ∈ nodes, n.Within d.node := by
  obtain ⟨visits, hv, hlost⟩ := visits_statementsWith (visits_block source levels) nodes
  have hmem : d.node ∈ lost visits := by
    rw [hlost]
    exact List.mem_map_of_mem hd
  obtain ⟨-, n, hn, -, hin⟩ := hv.located _ (mem_lost.mp hmem)
  exact ⟨n, hn, hin⟩

/-- What a statement that returns a value comes from: a RETURN statement with an expression, apart from all
that is left out. -/
structure ComesFrom (s : Statement) (nodes : List Node) (dropped : List Dropped) (ret : Node) : Prop where
  gives : givesValue ret = true
  span : s.span = spanOf ret
  located : ∃ n ∈ nodes, isStatement n = true ∧ n.Within ret
  apart : ∀ d ∈ dropped, ret.Apart d.node

/-- **Statements that are kept lie apart from those that are left out.** -/
theorem kept_apart {levels : Nat} {nodes : List Node} (hsound : ∀ n ∈ nodes, n.Sound)
    (hnodes : nodes.Pairwise Node.Apart) {s : Statement}
    (hs : s ∈ Statement.walkAll (statementsWith source levels (block source levels) nodes).1)
    (hreturns : Function.returnsValue s = true) :
    ∃ ret, ComesFrom s nodes (statementsWith source levels (block source levels) nodes).2 ret := by
  induction levels using Nat.strong_induction_on generalizing nodes with
  | h levels ihlevels =>
  induction nodes with
  | nil => exact absurd hs List.not_mem_nil
  | cons node nodes ih =>
    obtain ⟨hnode, hrest⟩ := List.forall_mem_cons.mp hsound
    obtain ⟨hfirst, hnodes⟩ := List.pairwise_cons.mp hnodes
    rw [statementsWith_cons] at hs ⊢
    -- What is left out of the other statements is apart from all that is in this one.
    have hothers : ∀ {ret : Node}, node.Within ret →
        ∀ d ∈ (statementsWith source levels (block source levels) nodes).2, ret.Apart d.node := by
      intro ret hret d hd
      obtain ⟨n, hn, hin⟩ := dropped_located hd
      exact (hfirst n hn).within hret hin hnode (hrest n hn)
    have hlater : ∀ dropped : List Dropped, (∀ d ∈ dropped, node.Within d.node) →
        s ∈ Statement.walkAll (statementsWith source levels (block source levels) nodes).1 →
        ∃ ret, ComesFrom s (node :: nodes)
          (dropped ++ (statementsWith source levels (block source levels) nodes).2) ret := by
      intro dropped hdropped hs
      obtain ⟨ret, hgives, hspan, ⟨n, hn, hsn, hin⟩, hapart⟩ := ih hrest hnodes hs
      refine ⟨ret, hgives, hspan, ⟨n, List.mem_cons_of_mem _ hn, hsn, hin⟩, fun d hd => ?_⟩
      rcases List.mem_append.mp hd with hd | hd
      · exact ((hfirst n hn).within (hdropped d hd) hin hnode (hrest n hn)).symm
      · exact hapart d hd
    split at hs
    · rename_i hstatement
      rw [if_pos hstatement]
      cases hlower : statement source levels (block source levels) node with
      | error cause =>
        rw [hlower] at hs
        refine hlater [⟨node, cause⟩] (fun d hd => ?_) hs
        rw [List.mem_singleton.mp hd]
        exact .refl node
      | ok result =>
        obtain ⟨lowered, inside⟩ := result
        rw [hlower] at hs
        obtain ⟨-, rfl, hwalk⟩ := statement_branches hstatement hlower
        have hinside : ∀ d ∈ (branchesOf source levels node).2, node.Within d.node := by
          intro d hd
          unfold branchesOf at hd
          split at hd
          · rename_i inner levels hinner
            obtain ⟨n, hn, hin⟩ := dropped_located hd
            exact .step (branching?_mem hinner) (.step hn hin)
          · exact absurd hd List.not_mem_nil
        rw [Statement.walkAll, hwalk, List.cons_append, List.mem_cons, List.mem_append] at hs
        rcases hs with rfl | hs | hs
        · have hgives := (returnsValue_iff hlower).mp hreturns
          have hkind : node.kind = .returnStatement := by
            rw [givesValue, Bool.and_eq_true] at hgives
            simpa using hgives.1
          have hnone : branching? node = none := by rw [branching?, hkind]; rfl
          refine ⟨node, hgives, ?_, ⟨node, List.mem_cons_self, hstatement, .refl node⟩, fun d hd => ?_⟩
          · rw [statement, hkind] at hlower
            exact (returnStatement_ok hlower).1
          · rw [branchesOf_none hnone] at hd
            exact hothers (.refl node) d hd
        · unfold branchesOf at hs hinside ⊢
          split at hs
          · rename_i inner levels hinner
            have hsoundi := hnode.child (branching?_mem hinner)
            obtain ⟨ret, hgives, hspan, ⟨n, hn, -, hin⟩, hapart⟩ := ihlevels levels (Nat.lt_succ_self _)
              (fun n hn => hsoundi.child hn) hsoundi.fair.spread.pairwise_apart hs
            have hret : node.Within ret := .step (branching?_mem hinner) (.step hn hin)
            refine ⟨ret, hgives, hspan, ⟨node, List.mem_cons_self, hstatement, hret⟩, fun d hd => ?_⟩
            rcases List.mem_append.mp hd with hd | hd
            · exact hapart d hd
            · exact hothers hret d hd
          · exact absurd hs List.not_mem_nil
        · exact hlater _ hinside hs
    · rename_i hstatement
      rw [if_neg hstatement]
      exact hlater [] (fun d hd => absurd hd List.not_mem_nil) hs

/-! ## Functions -/

/-- The name of a function is a part of its header. -/
theorem nameSpan_function {doc : Option Doc} {f : Function} {dropped : List Dropped}
    (h : function source node doc = .ok (f, dropped)) : ∃ header child, header? node = some header ∧
      header.child? .name = some child ∧ f.nameSpan = spanOf child := by
  rw [function] at h
  obtain ⟨header, hheader, h⟩ := bind_eq_ok.mp h
  obtain ⟨⟨name, nameSpan⟩, hname, h⟩ := bind_eq_ok.mp h
  obtain ⟨⟨body, lostStatements⟩, -, h⟩ := bind_eq_ok.mp h
  cases h
  obtain ⟨child, hchild, -, hspan⟩ := identifier_eq_ok hname
  exact ⟨header, child, require_eq_ok.mp hheader, hchild, hspan⟩

/-- Each function comes from a node, and what is left out of it is left out of the whole. -/
theorem exists_lowered {nodes : List Node} (hp : ∀ n ∈ nodes, n.kind = .function → Portrayed source n)
    {doc : Doc} {f : Function} (hf : f ∈ (functionsFrom source doc nodes).1) :
    ∃ n ∈ nodes, n.kind = .function ∧ ∃ header dropped, LowersTo source n header f dropped ∧
      dropped ⊆ (functionsFrom source doc nodes).2 ∧ ∃ child, header.child? .name = some child ∧
        f.nameSpan = spanOf child := by
  induction nodes generalizing doc with
  | nil => exact absurd hf List.not_mem_nil
  | cons n nodes ih =>
    obtain ⟨hn, hnodes⟩ := List.forall_mem_cons.mp hp
    by_cases hk : n.kind = .function
    · obtain ⟨header, found, inside, hfound, hlowers⟩ :=
        exists_function (hn hk) hk (if doc.isEmpty then none else some doc)
      rw [functionsFrom_cons_function doc nodes hk hfound] at hf ⊢
      rcases List.mem_cons.mp hf with rfl | hf
      · obtain ⟨header', child, hheader, hchild, hspan⟩ := nameSpan_function hfound
        obtain rfl := Option.some.inj (hheader.symm.trans hlowers.headed)
        exact ⟨n, List.mem_cons_self, hk, header', inside, hlowers, List.subset_append_left .., child, hchild, hspan⟩
      · obtain ⟨m, hm, hkm, header, dropped, hlowers, hsub, hname⟩ := ih hnodes hf
        exact ⟨m, List.mem_cons_of_mem _ hm, hkm, header, dropped, hlowers,
          List.subset_append_of_subset_right _ hsub, hname⟩
    · obtain ⟨doc', heq⟩ := functionsFrom_cons_other source doc hk
      rw [heq] at hf ⊢
      obtain ⟨m, hm, hrest⟩ := ih hnodes hf
      exact ⟨m, List.mem_cons_of_mem _ hm, hrest⟩

/-- What is left out is left out of a function. -/
theorem exists_owner {nodes : List Node} (hp : ∀ n ∈ nodes, n.kind = .function → Portrayed source n)
    {doc : Doc} {d : Dropped} (hd : d ∈ (functionsFrom source doc nodes).2) :
    ∃ n ∈ nodes, n.kind = .function ∧ ∃ header f dropped, LowersTo source n header f dropped ∧ d ∈ dropped := by
  induction nodes generalizing doc with
  | nil => exact absurd hd List.not_mem_nil
  | cons n nodes ih =>
    obtain ⟨hn, hnodes⟩ := List.forall_mem_cons.mp hp
    by_cases hk : n.kind = .function
    · obtain ⟨header, found, inside, hfound, hlowers⟩ :=
        exists_function (hn hk) hk (if doc.isEmpty then none else some doc)
      rw [functionsFrom_cons_function doc nodes hk hfound] at hd
      rcases List.mem_append.mp hd with hd | hd
      · exact ⟨n, List.mem_cons_self, hk, header, found, inside, hlowers, hd⟩
      · obtain ⟨m, hm, hrest⟩ := ih hnodes hd
        exact ⟨m, List.mem_cons_of_mem _ hm, hrest⟩
    · obtain ⟨doc', heq⟩ := functionsFrom_cons_other source doc hk
      rw [heq] at hd
      obtain ⟨m, hm, hrest⟩ := ih hnodes hd
      exact ⟨m, List.mem_cons_of_mem _ hm, hrest⟩

theorem mem_of_lowerAll {α : Type} {lower : Node → Lowered α} {nodes : List Node} {d : Dropped}
    (hd : d ∈ (lowerAll lower nodes).2) : d.node ∈ nodes := by
  induction nodes with
  | nil => exact absurd hd List.not_mem_nil
  | cons n nodes ih =>
    rw [lowerAll] at hd
    cases hlower : lower n with
    | ok a =>
      rw [hlower] at hd
      exact List.mem_cons_of_mem _ (ih hd)
    | error cause =>
      rw [hlower] at hd
      rcases List.mem_cons.mp hd with rfl | hd
      · exact List.mem_cons_self
      · exact List.mem_cons_of_mem _ (ih hd)

/-- What is left out of a function lies in one of its parts: a statement, or another part if it is no
statement itself. -/
theorem LowersTo.located {header : Node} {f : Function} {dropped : List Dropped}
    (h : LowersTo source node header f dropped) (hsound : node.Sound) {d : Dropped} (hd : d ∈ dropped) :
    d ∈ (statementsWith source 255 (block source 255) node.significant).2 ∨
      ∃ part ∈ node.significant, isStatement part = false ∧ part.Within d.node := by
  obtain ⟨hmem, hk⟩ := header?_spec h.headed
  rw [h.dropped] at hd
  rcases List.mem_append.mp hd with hd | hd
  · right
    rcases List.mem_append.mp hd with hd | hd
    · have hheader := hsound.child (mem_children_of_significant hmem)
      exact ⟨header, hmem, by rw [isStatement, hk]; rfl, ((listed_spec hheader hk).2 _ (mem_of_lowerAll hd)).1⟩
    · obtain ⟨hsig, hkind⟩ := List.mem_filter.mp (mem_of_lowerAll hd)
      exact ⟨d.node, hsig, by rw [isStatement, beq_iff_eq.mp hkind]; rfl, .refl _⟩
  · exact .inl hd

/-- A node that takes up some text is in no span apart from it. -/
theorem not_holds_of_apart {a b : Node} (h : a.Apart b) (ha : a.first < a.last) :
    ¬(spanOf b).Holds [spanOf a] := by
  have hspan : ∀ node, spanOf node = ⟨node.first, node.last⟩ := fun _ => rfl
  rw [hspan, hspan]
  rintro ⟨h1, -, h2⟩
  simp only [Span.Row] at h1 h2
  rcases h with h | h <;> omega

theorem isStatement_of_givesValue (h : givesValue node = true) : isStatement node = true := by
  rw [givesValue, Bool.and_eq_true] at h
  rw [isStatement, h.1, Bool.or_true]

/-- **A value is returned by a function exactly if some RETURN statement with an expression lies apart from
all that is left out.** -/
theorem returns_iff (h : Wellformed source root) (hsound : root.Sound) (hmem : node ∈ root.significant)
    (hk : node.kind = .function) {header : Node} {f : Function} {dropped : List Dropped}
    (hf : LowersTo source node header f dropped) (hsub : dropped ⊆ (lower source root).2) :
    (Statement.walkAll f.body).any Function.returnsValue = true ↔
      ∃ ret, node.Within ret ∧ givesValue ret = true ∧
        ∀ d ∈ (lower source root).2, ¬(spanOf d.node).Holds [spanOf ret] := by
  have hchild := mem_children_of_significant hmem
  have hin : root.Within node := .child hchild
  have hnode := hsound.child hchild
  have hparts := hnode.fair.spread.sublist (significant_sublist node)
  constructor
  · intro hany
    obtain ⟨s, hs, hreturns⟩ := List.any_eq_true.mp hany
    rw [hf.body] at hs
    obtain ⟨ret, hgives, -, ⟨part, hpart, hsp, hret⟩, hapart⟩ := kept_apart
      (fun n hn => hnode.child (mem_children_of_significant hn)) hparts.pairwise_apart hs hreturns
    have hwithin : node.Within ret := .step (mem_children_of_significant hpart) hret
    have hpartSound := hnode.child (mem_children_of_significant hpart)
    refine ⟨ret, hwithin, hgives, fun d hd hholds => ?_⟩
    -- What is left out is apart, wherever it lies.
    have hall : ret.Apart d.node := by
      obtain ⟨other, hother, hko, header', f', dropped', hlowers, hd⟩ :=
        exists_owner (fun n hn _ => h.portrayed n (.child (mem_children_of_significant hn))) hd
      have hotherSound := hsound.child (mem_children_of_significant hother)
      by_cases hsame : other = node
      · subst hsame
        rcases hlowers.located hnode hd with hd | ⟨piece, hpiece, hs, hdw⟩
        · exact hapart d hd
        · refine (hparts.apart hpart hpiece fun heq => ?_).within hret hdw hpartSound
            (hnode.child (mem_children_of_significant hpiece))
          rw [heq, hs] at hsp
          cases hsp
      · have hin' : other.Within d.node := by
          rcases hlowers.located hotherSound hd with hd | ⟨piece, hpiece, -, hdw⟩
          · obtain ⟨n, hn, hdw⟩ := dropped_located hd
            exact .step (mem_children_of_significant hn) hdw
          · exact .step (mem_children_of_significant hpiece) hdw
        exact ((hsound.fair.spread.sublist (significant_sublist root)).apart hother hmem hsame).symm.within
          hwithin hin' hnode hotherSound
    have hwide := (hwithin.sound hnode).fair.wide_statement (isStatement_kind (isStatement_of_givesValue hgives))
    exact not_holds_of_apart hall hwide hholds
  · rintro ⟨ret, hret, hgives, hfree⟩
    obtain ⟨part, hpart, hs, hbelow⟩ := statement_in_function h hin hk hret (isStatement_of_givesValue hgives)
    have hkept := value_kept_or_dropped h 255 hpart
      (hin.trans (.child (mem_children_of_significant hpart))) hs hbelow hgives
    rw [hf.body]
    refine hkept.resolve_left ?_
    rintro ⟨d, hd, hdw⟩
    have hdd : d ∈ dropped := by
      rw [hf.dropped]
      exact List.mem_append_right _ hd
    obtain ⟨n, hn, hdn⟩ := dropped_located hd
    have hdSound : d.node.Sound := hdn.sound (hnode.child (mem_children_of_significant hn))
    obtain ⟨h1, h2⟩ := hdw.inside hdSound
    exact hfree d (hsub hdd) ⟨h1, (hdw.sound hdSound).fair.spread.le, h2⟩

/-! ## The warning -/

/-- The only warnings are about functions that never return a value. -/
theorem warning_of_mem {functions : List Function} {d : Diagnostic} (hd : d ∈ validate functions)
    (hw : d.severity = .warning) : ∃ f ∈ functions, ∃ type, f.returnType = .value type ∧
      (Statement.walkAll f.body).any Function.returnsValue = false ∧
      d = (Fault.neverReturns f.name type).reportAt f.nameSpan := by
  obtain ⟨p, hbreach⟩ := (tells_validate functions).mem_iff.mp hd
  cases hbreach with
  | redefined => cases hw
  | @inside pre post f p _ hlist hbreach =>
    cases hbreach with
    | redeclared | unknownParameter | defaultNeeded | valueInVoid | valueMissing => cases hw
    | neverReturns htype hno =>
      exact ⟨f, hlist ▸ by simp, _, htype, (Function.any_returnsValue_eq_false _).mpr hno, rfl⟩

theorem mem_validate_of_never {functions : List Function} {f : Function} (hf : f ∈ functions) {type : DataType}
    (htype : f.returnType = .value type)
    (hno : (Statement.walkAll f.body).any Function.returnsValue = false) :
    (Fault.neverReturns f.name type).reportAt f.nameSpan ∈ validate functions := by
  refine List.mem_append_right _ (List.mem_flatMap.mpr ⟨f, hf, List.mem_append_right _ ?_⟩)
  rw [Function.checkReturns]
  simp [htype, hno]

/-- The name of a function takes up some text inside the function. -/
theorem wide_functionName (h : Wellformed source root) (hsound : root.Sound) {header child : Node}
    (hmem : node ∈ root.significant) (hheader : header? node = some header)
    (hchild : header.child? .name = some child) : node.Within child ∧ child.first < child.last := by
  obtain ⟨hin, hk⟩ := header?_spec hheader
  have hheaderIn : root.Within header :=
    .step (mem_children_of_significant hmem) (.child (mem_children_of_significant hin))
  have hp := h.portrayed header hheaderIn
  obtain ⟨hcode, hkc⟩ := hp.child?_spec .identifier (by rw [hk]; decide) hchild
  have hbelow := List.mem_of_mem_filter hcode
  refine ⟨.step (mem_children_of_significant hin) (.child hbelow), ?_⟩
  refine wide_of_isCode ((hheaderIn.sound hsound).child hbelow) (isCode_of_kind hkc ?_) (hp.child hcode).sound
  rw [hk]
  decide

/-- Nodes whose spans overlap are one. -/
theorem eq_of_overlap (hsound : root.Sound) {a b x y : Node} (ha : a ∈ root.significant)
    (hb : b ∈ root.significant) (hx : a.Within x) (hy : b.Within y) (hwide : x.first < x.last)
    (hspan : spanOf x = spanOf y) : a = b := by
  by_contra hne
  have hapart := ((hsound.fair.spread.sublist (significant_sublist root)).apart ha hb hne).within hx hy
    (hsound.child (mem_children_of_significant ha)) (hsound.child (mem_children_of_significant hb))
  refine not_holds_of_apart hapart hwide ?_
  rw [← hspan]
  exact .self (Nat.le_of_lt hwide)

/-- **A function with a result is warned about exactly if nothing in it is known to return a value.** -/
theorem warned_iff (h : Wellformed source root) (hsound : root.Sound) {f : Function}
    (hf : f ∈ (lower source root).1) {type : DataType} (htype : f.returnType = .value type) :
    (Fault.neverReturns f.name type).reportAt f.nameSpan ∈ validate (lower source root).1 ↔
      (Statement.walkAll f.body).any Function.returnsValue = false := by
  refine ⟨fun hd => ?_, mem_validate_of_never hf htype⟩
  obtain ⟨g, hg, type', -, hno, heq⟩ := warning_of_mem hd rfl
  have hportrayed : ∀ n ∈ root.significant, n.kind = .function → Portrayed source n :=
    fun n hn _ => h.portrayed n (.child (mem_children_of_significant hn))
  -- Another function with the same warning would have its name at the same place.
  obtain ⟨m, hm, -, headerf, droppedf, hlowersf, -, childf, hchildf, hspanf⟩ := exists_lowered hportrayed hf
  obtain ⟨n, hn, -, headerg, droppedg, hlowersg, -, childg, hchildg, hspang⟩ := exists_lowered hportrayed hg
  obtain ⟨hwithinf, hwide⟩ := wide_functionName h hsound hm hlowersf.headed hchildf
  obtain ⟨hwithing, -⟩ := wide_functionName h hsound hn hlowersg.headed hchildg
  have hspan : f.nameSpan = g.nameSpan := congrArg Diagnostic.span heq
  obtain rfl := eq_of_overlap hsound hm hn hwithinf hwithing hwide (hspanf ▸ hspang ▸ hspan)
  rw [hlowersf.body, ← hlowersg.body]
  exact hno

end

/-- **The warning matches what is left of the source.**  In a text without repairs a function that is
declared with a result is warned about exactly if each RETURN statement with an expression in it, at any
depth, lies in the span of a report of lowering. -/
theorem never_returns_iff_values_dropped (text : String) (hsound : (Node.parse text.toList).hasError = false)
    {f : Function} (hf : f ∈ (parse text).1) {fn : Node} (hfn : (Node.parse text.toList).Within fn)
    (hk : fn.kind = .function) (hspan : f.span = spanOf fn) {type : DataType}
    (htype : f.returnType = .value type) :
    (Fault.neverReturns f.name type).reportAt f.nameSpan ∈ (check text).diagnostics ↔
      ∀ ret, fn.Within ret → givesValue ret = true → ∃ d ∈ reports text, d.span.Holds [spanOf ret] := by
  have hwell := wellformed_parse hsound
  have hall := sound_parse text.toList
  have hreports : ∀ span, (∃ d ∈ reports text, d.span.Holds [span]) ↔
      ∃ d ∈ (lower (.ofList text.toList) (Node.parse text.toList)).2, (spanOf d.node).Holds [span] := by
    intro span
    constructor
    · rintro ⟨d, hd, hholds⟩
      rw [reports_eq] at hd
      obtain ⟨dropped, hdropped, hreport⟩ := List.mem_filterMap.mp hd
      exact ⟨dropped, hdropped, report?_span hreport ▸ hholds⟩
    · rintro ⟨dropped, hdropped, hholds⟩
      obtain ⟨d, hd, hspan⟩ := exists_report hsound hdropped
      exact ⟨d, hd, hspan ▸ hholds⟩
  rw [fst_parse] at hf
  have hparsed : (Fault.neverReturns f.name type).reportAt f.nameSpan ∉ (parse text).2 := by
    intro hd
    have herror := isError_parse hd
    cases herror
  rw [mem_check, or_iff_right hparsed, fst_parse, warned_iff hwell hall hf htype]
  simp only [hreports]
  generalize Node.parse text.toList = root at hwell hall hf hfn ⊢
  have hportrayed : ∀ n ∈ root.significant, n.kind = .function → Portrayed (.ofList text.toList) n :=
    fun n hn _ => hwell.portrayed n (.child (mem_children_of_significant hn))
  have hmem := mem_significant_of_function hwell hfn hk
  obtain ⟨n, hn, hkn, header, dropped, hlowers, hsub, -⟩ := exists_lowered hportrayed hf
  have hwide := wide_of_isCode (hfn.sound hall) (isCode_of_kind hk (by decide)) (hwell.portrayed fn hfn).sound
  obtain rfl := eq_of_overlap hall hmem hn (.refl fn) (.refl n) hwide (hspan.symm.trans hlowers.span)
  rw [← Bool.not_eq_true, returns_iff hwell hall hmem hk hlowers hsub]
  constructor
  · intro hno ret hret hgives
    by_contra hfree
    exact hno ⟨ret, hret, hgives, fun d hd hholds => hfree ⟨d, hd, hholds⟩⟩
  · rintro hall ⟨ret, hret, hgives, hfree⟩
    obtain ⟨d, hd, hholds⟩ := hall ret hret hgives
    exact hfree d hd hholds

/-- A function whose only value does not fit, so that its RETURN is left out. -/
def lostValueText : String := "INT FUNCTION F()\nRETURN 99999999999999999999;\nEND"

/-- The function of the text. -/
def lostValueFunction : Function := (parse lostValueText).1.headD default

/-- The node of the function. -/
def lostValueNode : Node := (Node.parse lostValueText.toList).significant.headD default

/-- What the text, its function and its warning are, by evaluation. -/
theorem lostValue : (Node.parse lostValueText.toList).hasError = false ∧
    (parse lostValueText).1.length = 1 ∧ (Node.parse lostValueText.toList).significant.length = 1 ∧
    lostValueNode.kind = .function ∧ lostValueFunction.span = spanOf lostValueNode ∧
    lostValueFunction.returnType = .value .int ∧ lostValueNode.all.any givesValue = true ∧
    (Fault.neverReturns lostValueFunction.name .int).reportAt lostValueFunction.nameSpan ∈
      validate (parse lostValueText).1 := by
  decide +kernel

theorem mem_headD {α : Type} {l : List α} {a : α} (h : l.length = 1) : l.headD a ∈ l := by
  obtain ⟨b, rfl⟩ := List.length_eq_one_iff.mp h
  exact List.mem_cons_self

/-- The function of the text is warned about, and its RETURN lies in the span of a report. -/
theorem never_returns_iff_values_dropped_lostValueText :
    (Node.parse lostValueText.toList).hasError = false ∧ lostValueFunction ∈ (parse lostValueText).1 ∧
    (Node.parse lostValueText.toList).Within lostValueNode ∧ lostValueNode.kind = .function ∧
    lostValueFunction.span = spanOf lostValueNode ∧ lostValueFunction.returnType = .value .int ∧
    (Fault.neverReturns lostValueFunction.name .int).reportAt lostValueFunction.nameSpan ∈
      (check lostValueText).diagnostics ∧
    ∀ ret, lostValueNode.Within ret → givesValue ret = true →
      ∃ d ∈ reports lostValueText, d.span.Holds [spanOf ret] := by
  obtain ⟨hsound, hone, hnodes, hk, hspan, htype, -, hwarned⟩ := lostValue
  have hf : lostValueFunction ∈ (parse lostValueText).1 := mem_headD hone
  have hfn : (Node.parse lostValueText.toList).Within lostValueNode :=
    .child (mem_children_of_significant (mem_headD hnodes))
  have hwarned := mem_check.mpr (.inr hwarned)
  exact ⟨hsound, hf, hfn, hk, hspan, htype, hwarned,
    (never_returns_iff_values_dropped lostValueText hsound hf hfn hk hspan htype).mp hwarned⟩

/-- **A function is warned about although its source returns a value**: what is left out is not
validated. -/
theorem never_returns_despite_value : (Node.parse lostValueText.toList).hasError = false ∧
    lostValueFunction ∈ (parse lostValueText).1 ∧ (Node.parse lostValueText.toList).Within lostValueNode ∧
    lostValueNode.kind = .function ∧ lostValueFunction.span = spanOf lostValueNode ∧
    lostValueFunction.returnType = .value .int ∧
    ¬((Fault.neverReturns lostValueFunction.name .int).reportAt lostValueFunction.nameSpan ∈
        (check lostValueText).diagnostics ↔
      ¬∃ ret, lostValueNode.Within ret ∧ givesValue ret = true) := by
  obtain ⟨hsound, hone, hnodes, hk, hspan, htype, hany, hwarned⟩ := lostValue
  refine ⟨hsound, mem_headD hone, .child (mem_children_of_significant (mem_headD hnodes)), hk, hspan, htype,
    fun hiff => hiff.mp (mem_check.mpr (.inr hwarned)) ?_⟩
  obtain ⟨ret, hret, hgives⟩ := List.any_eq_true.mp hany
  exact ⟨ret, Node.mem_all.mp hret, hgives⟩

end Cicode.Program

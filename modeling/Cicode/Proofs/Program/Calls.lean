import Cicode.Proofs.Program.Reading
import Cicode.Proofs.Program.Visits
import Cicode.Proofs.Tree.Shapes

/-!
# The calls of lowering

To lower an expression or a condition, lowering calls itself on nodes below.  A call spends a level if it
lowers an expression, an atom of a condition, or a condition with an operator; the *depth* of a call is the
largest number of calls that spend a level on a way down from it.

On nodes without repairs there is little that a call can do (`run_eq`): it fails if it has no level to
spend or if it reads a number that is too large, and else fails as the first of its own calls that does.

Main statements (`run_eq_of_fits`, `error_cases`): a call with numbers that fit fails exactly if it is
deeper than there are levels, and whatever fails is too deep or holds a number that does not fit.
-/

namespace Cicode.Tree.Node

theorem size_lt_of_mem {node child : Node} (h : child ∈ node.children) : child.size < node.size := by
  obtain ⟨label, children⟩ := node
  rw [size]
  change child ∈ children at h
  induction children with
  | nil => cases h
  | cons first rest ih =>
    rw [sizeAll]
    rcases List.mem_cons.mp h with rfl | h
    · omega
    · have := ih h
      omega

theorem Within.size_le {node inner : Node} (h : node.Within inner) : inner.size ≤ node.size := by
  induction h with
  | refl => exact Nat.le_refl _
  | step hc _ ih => exact ih.trans (Nat.le_of_lt (size_lt_of_mem hc))

end Cicode.Tree.Node

namespace Cicode.Program

open Grammar Text Cicode.Lex Cicode.Tree

/-! ## Calls -/

/-- A call that lowers a node: as an expression, as a condition, or as an atom of a condition. -/
inductive Call where
  | expression (node : Node)
  | condition (node : Node)
  | atom (node : Node)

namespace Call

/-- The node that is lowered. -/
def node : Call → Node
  | .expression node | .condition node | .atom node => node

/-- The calls that an atom of an expression makes. -/
def ofAtom (node : Node) : List Call :=
  match node.firstToken with
  | some first =>
    match first.kind with
    | .minus | .lparen => node.significant.head?.toList.map .expression
    | .error => []
    | _ => if first.isMissing then [] else [.expression first]
  | none => []

/-- The calls that a call makes. -/
def calls : Call → List Call
  | .expression node =>
    match node.kind with
    | .expression =>
      match node.significant with
      | [operand] => if operand.kind == .expressionAtom then ofAtom operand else [.expression operand]
      | [left, _, right] => [.expression left, .expression right]
      | _ => []
    | .expressionAtom => ofAtom node
    | .functionCall => (node.significant.filter (·.kind == .expression)).map .expression
    | _ => []
  | .condition node =>
    match node.significant with
    | [operand] =>
      if operand.kind == .conditionalAtom then [.atom operand]
      else if operand.kind == .conditionalStatement then [.condition operand]
      else [.expression operand]
    | [left, _, right] => [.condition left, .condition right]
    | _ => []
  | .atom node =>
    match node.firstToken, node.significant.head? with
    | some first, some operand =>
      match first.kind with
      | .kwNot => if operand.kind == .conditionalAtom then [.atom operand] else [.expression operand]
      | .lparen => [.condition operand]
      | _ => [.expression operand]
    | _, _ => []

/-- The levels that a call spends itself. -/
def weight : Call → Nat
  | .expression _ | .atom _ => 1
  | .condition node => if node.significant.length = 3 then 1 else 0

/-- The largest number of levels spent on a way down, as far as fuel allows. -/
def depthIn : Nat → Call → Nat
  | 0, _ => 0
  | fuel + 1, call => call.weight + (call.calls.map (depthIn fuel)).foldr max 0

/-- The largest number of levels spent on a way down from a call. -/
def depth (call : Call) : Nat := depthIn call.node.size call

/-! ## Depth -/

theorem mem_children_of_mem_ofAtom {node : Node} {inner : Call} (h : inner ∈ ofAtom node) :
    inner.node ∈ node.children := by
  rw [ofAtom] at h
  split at h
  · rename_i first hfirst
    have hoperand : inner ∈ node.significant.head?.toList.map Call.expression →
        inner.node ∈ node.children := by
      intro h
      obtain ⟨operand, hmem, rfl⟩ := List.mem_map.mp h
      exact mem_children_of_significant (List.mem_of_mem_head? (Option.mem_toList.mp hmem))
    split at h
    · exact hoperand h
    · exact hoperand h
    · cases h
    · split at h
      · cases h
      · rw [List.mem_singleton.mp h]
        exact List.mem_of_find?_eq_some hfirst
  · cases h

/-- A call makes calls on nodes below. -/
theorem exists_child_of_mem_calls {call inner : Call} (h : inner ∈ call.calls) :
    ∃ child ∈ call.node.children, child.Within inner.node := by
  have hself : ∀ {node : Node}, inner.node ∈ node.children →
      ∃ child ∈ node.children, child.Within inner.node := fun hmem => ⟨_, hmem, .refl _⟩
  cases call with
  | expression node =>
    have hmem : ∀ n ∈ node.significant, n ∈ node.children :=
      fun n => mem_children_of_significant
    change ∃ child ∈ node.children, _
    rw [calls] at h
    split at h
    · split at h
      · rename_i operand hs
        have hoperand := hmem operand (hs ▸ List.mem_singleton.mpr rfl)
        split at h
        · exact ⟨operand, hoperand, .child (mem_children_of_mem_ofAtom h)⟩
        · rw [List.mem_singleton.mp h]
          exact ⟨operand, hoperand, .refl _⟩
      · rename_i left operator right hs
        rw [hs] at hmem
        simp only [List.mem_cons, List.not_mem_nil, or_false] at h
        rcases h with rfl | rfl
        · exact ⟨left, hmem left (by simp), .refl _⟩
        · exact ⟨right, hmem right (by simp), .refl _⟩
      · cases h
    · exact hself (mem_children_of_mem_ofAtom h)
    · obtain ⟨argument, harg, rfl⟩ := List.mem_map.mp h
      exact hself (hmem argument (List.mem_of_mem_filter harg))
    · cases h
  | condition node =>
    have hmem : ∀ n ∈ node.significant, n ∈ node.children :=
      fun n => mem_children_of_significant
    change ∃ child ∈ node.children, _
    rw [calls] at h
    split at h
    · rename_i operand hs
      have hoperand := hmem operand (hs ▸ List.mem_singleton.mpr rfl)
      have hall : ∀ call : Call, call.node = operand →
          ∃ child ∈ node.children, child.Within call.node :=
        fun _ heq => ⟨operand, hoperand, heq ▸ .refl _⟩
      split at h
      · exact List.mem_singleton.mp h ▸ hall _ rfl
      · split at h <;> exact List.mem_singleton.mp h ▸ hall _ rfl
    · rename_i left operator right hs
      rw [hs] at hmem
      simp only [List.mem_cons, List.not_mem_nil, or_false] at h
      rcases h with rfl | rfl
      · exact ⟨left, hmem left (by simp), .refl _⟩
      · exact ⟨right, hmem right (by simp), .refl _⟩
    · cases h
  | atom node =>
    change ∃ child ∈ node.children, _
    rw [calls] at h
    split at h
    · rename_i first operand _ hoperand
      have hoperand : operand ∈ node.children :=
        mem_children_of_significant (List.mem_of_mem_head? hoperand)
      split at h
      · split at h <;> exact List.mem_singleton.mp h ▸ ⟨operand, hoperand, .refl _⟩
      · exact List.mem_singleton.mp h ▸ ⟨operand, hoperand, .refl _⟩
      · exact List.mem_singleton.mp h ▸ ⟨operand, hoperand, .refl _⟩
    · cases h

theorem size_lt_of_mem_calls {call inner : Call} (h : inner ∈ call.calls) :
    inner.node.size < call.node.size := by
  obtain ⟨child, hchild, hwithin⟩ := exists_child_of_mem_calls h
  exact hwithin.size_le.trans_lt (Node.size_lt_of_mem hchild)

theorem within_of_mem_calls {call inner : Call} (h : inner ∈ call.calls) :
    call.node.Within inner.node := by
  obtain ⟨child, hchild, hwithin⟩ := exists_child_of_mem_calls h
  exact .step hchild hwithin

/-- More fuel than a node is large makes no difference. -/
theorem depthIn_eq {fuel fuel' : Nat} {call : Call} (h : call.node.size ≤ fuel)
    (h' : call.node.size ≤ fuel') : depthIn fuel call = depthIn fuel' call := by
  have hpos : 0 < call.node.size := by
    generalize call.node = node
    cases node
    exact Nat.succ_pos _
  induction fuel generalizing fuel' call with
  | zero => omega
  | succ fuel ih =>
    cases fuel' with
    | zero => omega
    | succ fuel' =>
      rw [depthIn, depthIn]
      congr 2
      refine List.map_congr_left fun inner hinner => ?_
      have hlt := size_lt_of_mem_calls hinner
      have hpos : 0 < inner.node.size := by
        generalize inner.node = node
        cases node
        exact Nat.succ_pos _
      exact ih (by omega) (by omega) hpos

theorem depth_eq (call : Call) : call.depth = call.weight + (call.calls.map depth).foldr max 0 := by
  have hsize : call.node.size = call.node.size - 1 + 1 := by
    generalize call.node = node
    cases node
    rfl
  rw [depth, hsize, depthIn]
  congr 2
  refine List.map_congr_left fun inner hinner => depthIn_eq ?_ (Nat.le_refl _)
  have := size_lt_of_mem_calls hinner
  omega

/-! ## What a call does -/

/-- What a call does with a number of levels left. -/
def run (source : Source) (levels : Nat) : Call → Lowered Unit
  | .expression node => (Program.expression source levels node).map fun _ => ()
  | .condition node => (Program.condition source levels node).map fun _ => ()
  | .atom node => (conditionalAtom source levels node).map fun _ => ()

/-- What a call does itself: it reads a number. -/
def own (source : Source) : Call → Lowered Unit
  | .expression node =>
    if node.kind = .number then (numberOf (textOf source node)).map fun _ => () else .ok ()
  | .condition _ | .atom _ => .ok ()

/-- The kinds of nodes that may be lowered by a call. -/
def kinds : Call → List Symbol
  | .expression _ => [.expression, .expressionAtom, .functionCall, .variableName, .number, .string]
  | .condition _ => [.conditionalStatement]
  | .atom _ => [.conditionalAtom]

/-- The call lowers a node without repairs, and one that may be lowered so. -/
structure Proper (source : Source) (call : Call) : Prop where
  portrayed : Portrayed source call.node
  kind_mem : call.node.kind ∈ call.kinds

end Call

section Steps

variable {source : Source} {node : Node}

@[simp] theorem map_map_ok {α β γ : Type} (x : Lowered α) (f : α → β) (g : β → γ) :
    (x.map f).map g = x.map (g ∘ f) := by
  cases x <;> rfl

theorem mapM_forget {α : Type} (f : Node → Lowered α) (nodes : List Node) :
    (nodes.mapM f).map (fun _ => ()) = forM nodes fun n => (f n).map fun _ => () := by
  induction nodes with
  | nil => rfl
  | cons n nodes ih =>
    rw [List.mapM_cons, List.forM_cons, ← ih]
    cases f n with
    | error e => rfl
    | ok a => cases nodes.mapM f <;> rfl

theorem forM_singleton {α : Type} (f : α → Lowered Unit) (a : α) : forM [a] f = f a := by
  rw [List.forM_cons, List.forM_nil]
  cases f a <;> rfl

theorem forM_pair {α : Type} (f : α → Lowered Unit) (a b : α) :
    forM [a, b] f = f a >>= fun _ => f b := by
  rw [List.forM_cons, forM_singleton]

theorem forM_map {α β : Type} (g : α → β) (f : β → Lowered Unit) (as : List α) :
    forM (as.map g) f = forM as fun a => f (g a) := by
  induction as with
  | nil => rfl
  | cons a as ih => rw [List.map_cons, List.forM_cons, List.forM_cons, ih]

/-! ## Parts that are there -/

/-- The row is a single symbol with a property. -/
def IsSingle (p : Symbol → Prop) (row : List Symbol) : Prop := row.length = 1 ∧ ∀ x ∈ row, p x

/-- The only child of a node whose rule knows nothing but rows of one symbol. -/
theorem exists_only (h : Portrayed source node) {kind : Symbol} (hk : node.kind = kind)
    (hflat : (rowRule kind).IsFlat = true) {p : Symbol → Prop}
    (hall : ∀ row ∈ (rowRule kind).expansions, IsSingle p row) :
    ∃ only, node.code = [only] ∧ Portrayed source only ∧ p only.kind := by
  obtain ⟨hlength, hp⟩ := hall _ (h.row_mem hk hflat)
  rw [Node.row, List.length_map] at hlength
  obtain ⟨only, hcode⟩ := List.length_eq_one_iff.mp hlength
  have hmem : only ∈ node.code := hcode ▸ List.mem_singleton.mpr rfl
  exact ⟨only, hcode, h.child hmem, hp _ (List.mem_map_of_mem hmem)⟩

/-- The operator of a node without repairs is found. -/
theorem exists_operatorOf {α : Type} {ofToken : Symbol → Option α} (h : Portrayed source node)
    {kind : Symbol} (hk : node.kind = kind) (hoperator : kind ∈ Node.operatorKinds)
    (hflat : (rowRule kind).IsFlat = true)
    (hall : ∀ row ∈ (rowRule kind).expansions, IsSingle (fun inner => inner.isNamed = true ∧
      (rowRule inner).IsFlat = true ∧
      ∀ row ∈ (rowRule inner).expansions, IsSingle (fun token => (ofToken token).isSome = true) row) row) :
    ∃ operator, operatorOf ofToken node = .ok operator := by
  obtain ⟨inner, hcode, hinner, hnamed, hflat', hall'⟩ := exists_only h hk hflat hall
  obtain ⟨token, hcode', -, htoken⟩ := exists_only hinner rfl hflat' hall'
  obtain ⟨operator, hsome⟩ := Option.isSome_iff_exists.mp htoken
  -- An operator does not begin with a comment, so that the first named child is no comment.
  have hhead : node.namedChildren.head? = some inner := by
    have hfirst := h.tidy.first (hk ▸ hoperator)
    rw [Node.code] at hcode
    cases hc : node.children with
    | nil =>
      rw [hc] at hcode
      cases hcode
    | cons first rest =>
      rw [hc] at hcode hfirst
      obtain ⟨hname, hcomment⟩ := hfirst first rfl
      rw [List.filter_cons_of_pos (by rw [hcomment]; rfl)] at hcode
      rw [Node.namedChildren, hc, List.filter_cons_of_pos hname]
      exact congrArg some (List.cons.inj hcode).1
  have hfirst : inner.firstToken = some token := by rw [Node.firstToken_eq, hcode']; rfl
  refine ⟨operator, ?_⟩
  simp only [operatorOf, hhead, Option.bind_some, hfirst, require, ok_bind, hsome]

theorem exists_binaryOperator (h : Portrayed source node) (hk : node.kind = .operatorsUsedInStatements) :
    ∃ operator, operatorOf binaryOperator? node = .ok operator :=
  exists_operatorOf h hk (by decide) (by decide) (by unfold IsSingle; decide)

theorem exists_conditionOperator (h : Portrayed source node)
    (hk : node.kind = .operatorsUsedInConditionals) :
    ∃ operator, operatorOf conditionOperator? node = .ok operator :=
  exists_operatorOf h hk (by decide) (by decide) (by unfold IsSingle; decide)

/-- The first of the nodes of a kind that is needed. -/
theorem exists_find? (h : Portrayed source node) (kind : Symbol) (hnamed : kind.isNamed = true)
    (hneeds : (rowRule node.kind).needs kind = true) :
    ∃ found, node.significant.find? (·.kind == kind) = some found ∧ found.kind = kind ∧
      Portrayed source found := by
  obtain ⟨child, hmem, hkind⟩ := h.exists_child kind hneeds
  have hsignificant : child ∈ node.significant := by
    rw [Node.significant_eq]
    exact List.mem_filter.mpr ⟨hmem, by rw [Node.isNamed, hkind, hnamed]⟩
  cases hfind : node.significant.find? (·.kind == kind) with
  | none =>
    rw [List.find?_eq_none] at hfind
    exact absurd (beq_iff_eq.mpr hkind) (hfind child hsignificant)
  | some found =>
    have hkind : (found.kind == kind) = true := by simpa using List.find?_some hfind
    have hfound := List.mem_of_find?_eq_some hfind
    rw [Node.significant_eq] at hfound
    exact ⟨found, rfl, beq_iff_eq.mp hkind, h.child (List.mem_of_mem_filter hfound)⟩

theorem identifier_of_portrayed (h : Portrayed source node) (part : Part) :
    identifier source part (some node) = .ok (String.ofList (textOf source node), spanOf node) := by
  rw [identifier, if_neg (by rw [h.present]; exact Bool.false_ne_true)]

/-! ## Expressions -/

/-- An atom of an expression does what its calls do. -/
theorem atomWith_forget (h : Portrayed source node) (hk : node.kind = .expressionAtom) (levels : Nat) :
    (atomWith source (expression source levels) node).map (fun _ => ()) =
      forM (Call.ofAtom node) (Call.run source levels) := by
  cases h.atom_shape hk with
  | plain first htoken hfirst hp =>
    have hkinds : first.kind = .variableName ∨ first.kind = .string ∨ first.kind = .number ∨
        first.kind = .functionCall := by simpa using hfirst
    rcases hkinds with hkind | hkind | hkind | hkind <;>
      simp [atomWith, Call.ofAtom, htoken, require, hkind, hp.present, Call.run]
  | group opening operand htoken ho hs hi hp =>
    simp only [atomWith, Call.ofAtom, htoken, require, ok_bind, ho, hs, List.head?_cons,
      Option.toList_some, List.map_singleton, forM_singleton, Call.run]
    cases expression source levels operand <;> rfl
  | negation minus operand htoken hm hs hi hp =>
    simp only [atomWith, Call.ofAtom, htoken, require, ok_bind, hm, hs, List.head?_cons,
      Option.toList_some, List.map_singleton, forM_singleton, Call.run]
    cases expression source levels operand <;> rfl

/-- A function call does what the calls for its arguments do. -/
theorem callWith_forget (h : Portrayed source node) (hk : node.kind = .functionCall)
    (argument : Node → Lowered Expr) : (callWith source argument node).map (fun _ => ()) =
      forM (node.significant.filter (·.kind == .expression)) fun n => (argument n).map fun _ => () := by
  obtain ⟨name, hfind, -, hname⟩ := exists_find? h .functionName rfl (by rw [hk]; decide)
  rw [← mapM_forget]
  simp only [callWith, hfind, identifier_of_portrayed hname, ok_bind]
  cases (node.significant.filter (·.kind == .expression)).mapM argument <;> rfl

/-- An expression reads a number and does what its calls do. -/
theorem expressionWith_forget (h : (Call.expression node).Proper source) (levels : Nat) :
    (expressionWith source (expression source levels) node).map (fun _ => ()) =
      ((Call.expression node).own source >>= fun _ =>
        forM (Call.expression node).calls (Call.run source levels)) := by
  obtain ⟨h, hkinds⟩ := h
  change Portrayed source node at h
  have hkinds : node.kind = .expression ∨ node.kind = .expressionAtom ∨ node.kind = .functionCall ∨
      node.kind = .variableName ∨ node.kind = .number ∨ node.kind = .string := by
    simpa [Call.kinds, Call.node] using hkinds
  have hpresent := h.present
  by_cases hnumber : node.kind = .number
  · have hown : (Call.expression node).own source =
        (numberOf (textOf source node)).map fun _ => () := if_pos hnumber
    simp only [expressionWith, Call.calls, hnumber, literal, hpresent, Bool.false_eq_true, if_false, hown]
    cases numberOf (textOf source node) <;> rfl
  · have hown : (Call.expression node).own source = .ok () := if_neg hnumber
    rw [hown, ok_bind]
    rcases hkinds with hk | hk | hk | hk | hk | hk
    · cases h.expression_shape hk with
      | atom atom hs ha hp =>
        simpa [expressionWith, Call.calls, hk, hs, ha] using atomWith_forget hp ha levels
      | operation left operator right hs hl ho hr hpl hpo hpr =>
        obtain ⟨op, hop⟩ := exists_binaryOperator hpo ho
        simp only [expressionWith, Call.calls, hk, hs, hop, ok_bind, forM_pair, Call.run]
        cases expression source levels left with
        | error e => rfl
        | ok a => cases expression source levels right <;> rfl
    · simpa [expressionWith, Call.calls, hk] using atomWith_forget h hk levels
    · have hforget := callWith_forget h hk (expression source levels)
      simp only [Call.calls, hk, forM_map, Call.run, ← hforget, expressionWith]
      cases callWith source (expression source levels) node <;> rfl
    · simp only [expressionWith, Call.calls, hk, identifier_of_portrayed h]
      rfl
    · exact absurd hk hnumber
    · simp only [expressionWith, Call.calls, hk, literal, hpresent, Bool.false_eq_true, if_false]
      rfl

/-! ## Conditions -/

/-- An atom of a condition does what its calls do. -/
theorem conditionalAtomWith_forget (h : Portrayed source node) (hk : node.kind = .conditionalAtom)
    (levels : Nat) : (conditionalAtomWith (expression source levels) (condition source levels)
      (conditionalAtom source levels) node).map (fun _ => ()) =
      forM (Call.atom node).calls (Call.run source levels) := by
  cases h.conditionalAtom_shape hk with
  | plain first htoken hs hfirst hp =>
    have hkinds : first.kind = .variableName ∨ first.kind = .functionCall := by simpa using hfirst
    rcases hkinds with hkind | hkind <;>
      simp only [conditionalAtomWith, Call.calls, htoken, hs, List.head?_cons, require, ok_bind, hkind,
        forM_singleton, Call.run] <;> cases expression source levels first <;> rfl
  | group opening operand htoken ho hs hi hp =>
    simp only [conditionalAtomWith, Call.calls, htoken, hs, List.head?_cons, require, ok_bind, ho,
      forM_singleton, Call.run]
    cases condition source levels operand <;> rfl
  | negation not operand htoken hn hs hi hp =>
    simp only [conditionalAtomWith, Call.calls, htoken, hs, List.head?_cons, require, ok_bind, hn, hi,
      beq_self_eq_true, if_true, forM_singleton, Call.run]
    cases conditionalAtom source levels operand <;> rfl

/-- A condition without an operator does what its operand does. -/
theorem condition_single {operand : Node} (hs : node.significant = [operand])
    (ho : operand.kind ∈ [Symbol.expression, .conditionalAtom]) (levels : Nat) :
    (condition source levels node).map (fun _ => ()) =
      forM (Call.condition node).calls (Call.run source levels) := by
  have hkinds : operand.kind = .expression ∨ operand.kind = .conditionalAtom := by simpa using ho
  have hinner : innermost node.size node = node := by
    refine innermost_eq _ fun other hother => ?_
    obtain rfl := (List.singleton_inj.mp (hs.symm.trans hother))
    rcases hkinds with hkind | hkind <;> rw [hkind] <;> decide
  rcases hkinds with hkind | hkind
  · have hcalls : (Call.condition node).calls = [.expression operand] := by
      simp only [Call.calls, hs, hkind]
      rfl
    rw [hcalls, forM_singleton, Call.run]
    cases levels with
    | zero =>
      simp only [condition, conditionWith, hinner, hs, hkind]
      rfl
    | succ levels =>
      simp only [condition, conditionWith, hinner, hs, hkind]
      exact map_map_ok ..
  · have hcalls : (Call.condition node).calls = [.atom operand] := by
      simp only [Call.calls, hs, hkind]
      rfl
    rw [hcalls, forM_singleton, Call.run]
    cases levels <;> simp only [condition, conditionWith, hinner, hs, hkind] <;> rfl

/-- A condition does what its calls do, one level further in if it has an operator. -/
theorem condition_forget (h : Portrayed source node) (hk : node.kind = .conditionalStatement)
    (levels : Nat) : (condition source levels node).map (fun _ => ()) =
      if levels < (Call.condition node).weight then .error .tooDeep
      else forM (Call.condition node).calls
        (Call.run source (levels - (Call.condition node).weight)) := by
  cases h.condition_shape hk with
  | single operand hs ho hp =>
    have hweight : (Call.condition node).weight = 0 := by rw [Call.weight, hs]; rfl
    rw [hweight, if_neg (Nat.not_lt_zero _), Nat.sub_zero]
    exact condition_single hs ho levels
  | operation left operator right hs hl ho hr hpl hpo hpr =>
    have hweight : (Call.condition node).weight = 1 := by rw [Call.weight, hs]; rfl
    have hinner : innermost node.size node = node := by
      refine innermost_eq _ fun other hother => ?_
      rw [hs] at hother
      cases hother
    obtain ⟨op, hop⟩ := exists_conditionOperator hpo ho
    rw [hweight]
    cases levels with
    | zero =>
      simp only [condition, conditionWith, hinner, hs]
      rfl
    | succ levels =>
      simp only [condition, conditionWith, hinner, hs, hop, ok_bind, Call.calls, forM_pair, Call.run,
        Nat.add_sub_cancel]
      cases condition source levels left with
      | error e => rfl
      | ok a => cases condition source levels right <;> rfl

end Steps

/-! ## Calls one after the other -/

theorem forM_eq_ok {α : Type} {f : α → Lowered Unit} {as : List α} :
    forM as f = .ok () ↔ ∀ a ∈ as, f a = .ok () := by
  induction as with
  | nil => exact ⟨fun _ _ h => (nomatch h), fun _ => rfl⟩
  | cons a as ih =>
    rw [List.forM_cons, List.forall_mem_cons, ← ih]
    cases f a with
    | error e => exact ⟨(nomatch ·), fun h => (nomatch h.1)⟩
    | ok u => exact ⟨fun h => ⟨rfl, h⟩, fun h => h.2⟩

/-- Calls made one after the other fail as one of them does. -/
theorem exists_error_of_forM {α : Type} {f : α → Lowered Unit} {as : List α} {e : LowerError}
    (h : forM as f = .error e) : ∃ a ∈ as, f a = .error e := by
  induction as with
  | nil => cases h
  | cons a as ih =>
    rw [List.forM_cons] at h
    cases hf : f a with
    | error e' =>
      rw [hf] at h
      cases h
      exact ⟨a, List.mem_cons_self, hf⟩
    | ok u =>
      rw [hf] at h
      obtain ⟨b, hb, hfb⟩ := ih h
      exact ⟨b, List.mem_cons_of_mem _ hb, hfb⟩

theorem foldr_max_le {ns : List Nat} {n : Nat} : ns.foldr max 0 ≤ n ↔ ∀ m ∈ ns, m ≤ n := by
  induction ns with
  | nil => simp
  | cons m ns ih => rw [List.foldr_cons, Nat.max_le, ih, List.forall_mem_cons]

namespace Call

variable {source : Source} {call inner : Call}

/-- **What a call does**: it fails if it has no level to spend, and else it reads its own number and does
what its calls do, with the levels that are left. -/
theorem run_eq (h : call.Proper source) (levels : Nat) : call.run source levels =
    if levels < call.weight then .error .tooDeep
    else call.own source >>= fun _ => forM call.calls (run source (levels - call.weight)) := by
  cases call with
  | expression node =>
    cases levels with
    | zero => rfl
    | succ levels =>
      rw [if_neg (by rw [weight]; omega), run, Program.expression]
      exact expressionWith_forget h levels
  | condition node =>
    exact condition_forget h.portrayed (List.mem_singleton.mp h.kind_mem) levels
  | atom node =>
    have hk : node.kind = .conditionalAtom := List.mem_singleton.mp h.kind_mem
    cases levels with
    | zero => rfl
    | succ levels =>
      rw [if_neg (by rw [weight]; omega), run, conditionalAtom]
      exact conditionalAtomWith_forget h.portrayed hk levels

theorem Proper.expression {node : Node} (h : Portrayed source node) (hk : node.kind ∈
    [Symbol.expression, .expressionAtom, .functionCall, .variableName, .number, .string]) :
    (Call.expression node).Proper source := ⟨h, hk⟩

theorem Proper.condition {node : Node} (h : Portrayed source node)
    (hk : node.kind = .conditionalStatement) : (Call.condition node).Proper source :=
  ⟨h, List.mem_singleton.mpr hk⟩

theorem Proper.atom {node : Node} (h : Portrayed source node) (hk : node.kind = .conditionalAtom) :
    (Call.atom node).Proper source :=
  ⟨h, List.mem_singleton.mpr hk⟩

/-- The calls of an atom of an expression lower nodes that may be lowered so. -/
theorem Proper.of_mem_ofAtom {node : Node} (h : Portrayed source node) (hk : node.kind = .expressionAtom)
    (hinner : inner ∈ ofAtom node) : inner.Proper source := by
  cases h.atom_shape hk with
  | plain first htoken hfirst hp =>
    have hkinds : first.kind = .variableName ∨ first.kind = .string ∨ first.kind = .number ∨
        first.kind = .functionCall := by simpa using hfirst
    have heq : ofAtom node = [.expression first] := by
      rcases hkinds with hkind | hkind | hkind | hkind <;> simp [ofAtom, htoken, hkind, hp.present]
    rw [heq, List.mem_singleton] at hinner
    subst hinner
    exact .expression hp (by rcases hkinds with hkind | hkind | hkind | hkind <;> rw [hkind] <;> decide)
  | group opening operand htoken ho hs hi hp | negation opening operand htoken ho hs hi hp =>
    have heq : ofAtom node = [.expression operand] := by simp [ofAtom, htoken, ho, hs]
    rw [heq, List.mem_singleton] at hinner
    subst hinner
    exact .expression hp (by rw [hi]; decide)

/-- Calls are made on nodes that may be lowered so. -/
theorem Proper.of_mem_calls (h : call.Proper source) (hinner : inner ∈ call.calls) :
    inner.Proper source := by
  cases call with
  | expression node =>
    have hp : Portrayed source node := h.portrayed
    rw [calls] at hinner
    split at hinner
    · rename_i hk
      cases hp.expression_shape hk with
      | atom atom hs ha hpa =>
        simp only [hs, ha, beq_self_eq_true, if_true] at hinner
        exact .of_mem_ofAtom hpa ha hinner
      | operation left operator right hs hl ho hr hpl hpo hpr =>
        simp only [hs, List.mem_cons, List.not_mem_nil, or_false] at hinner
        rcases hinner with rfl | rfl
        · exact .expression hpl (by rw [hl]; decide)
        · exact .expression hpr (by rw [hr]; decide)
    · rename_i hk
      exact .of_mem_ofAtom hp hk hinner
    · obtain ⟨argument, harg, rfl⟩ := List.mem_map.mp hinner
      obtain ⟨hmem, hk⟩ := List.mem_filter.mp harg
      rw [Node.significant_eq] at hmem
      exact .expression (hp.child (List.mem_of_mem_filter hmem)) (by rw [beq_iff_eq.mp hk]; decide)
    · cases hinner
  | condition node =>
    cases h.portrayed.condition_shape (List.mem_singleton.mp h.kind_mem) with
    | single operand hs ho hpo =>
      change node.significant = [operand] at hs
      have hkinds : operand.kind = .expression ∨ operand.kind = .conditionalAtom := by simpa using ho
      rcases hkinds with hk | hk
      · simp [calls, hs, hk] at hinner
        subst hinner
        exact .expression hpo (by rw [hk]; decide)
      · simp [calls, hs, hk] at hinner
        subst hinner
        exact .atom hpo hk
    | operation left operator right hs hl ho hr hpl hpo hpr =>
      change node.significant = [left, operator, right] at hs
      simp only [calls, hs, List.mem_cons, List.not_mem_nil, or_false] at hinner
      rcases hinner with rfl | rfl
      · exact .condition hpl hl
      · exact .condition hpr hr
  | atom node =>
    cases h.portrayed.conditionalAtom_shape (List.mem_singleton.mp h.kind_mem) with
    | plain first htoken hs hfirst hpf =>
      change node.firstToken = some first at htoken
      change node.significant = [first] at hs
      have hkinds : first.kind = .variableName ∨ first.kind = .functionCall := by simpa using hfirst
      have heq : (Call.atom node).calls = [.expression first] := by
        rcases hkinds with hk | hk <;> simp [calls, htoken, hs, hk]
      rw [heq, List.mem_singleton] at hinner
      subst hinner
      exact .expression hpf (by rcases hkinds with hk | hk <;> rw [hk] <;> decide)
    | group opening operand htoken ho hs hi hpo =>
      change node.firstToken = some opening at htoken
      change node.significant = [operand] at hs
      simp [calls, htoken, hs, ho] at hinner
      subst hinner
      exact .condition hpo hi
    | negation not operand htoken hn hs hi hpo =>
      change node.firstToken = some not at htoken
      change node.significant = [operand] at hs
      simp [calls, htoken, hs, hn, hi] at hinner
      subst hinner
      exact .atom hpo hi

/-- The numbers of a node fit. -/
def Fits (source : Source) (node : Node) : Prop := node.Everywhere fun inner =>
  inner.kind = .number → digitsValue (textOf source inner) ≤ maxNumber

theorem own_eq_ok (h : Fits source call.node) : call.own source = .ok () := by
  cases call with
  | expression node =>
    rw [own]
    split
    · rename_i hk
      have hle : digitsValue (textOf source node) ≤ maxNumber := h.self hk
      rw [numberOf, if_pos hle]
      rfl
    · rfl
  | condition node | atom node => rfl

/-- What a call reads itself may not fit. -/
theorem own_error {e : LowerError} (he : call.own source = .error e) :
    call.node.kind = .number ∧ maxNumber < digitsValue (textOf source call.node) ∧
      e = .numberOutOfRange (String.ofList (textOf source call.node)) := by
  cases call with
  | expression node =>
    rw [own] at he
    split at he
    · rename_i hk
      rw [numberOf] at he
      split at he
      · cases he
      · rename_i hlt
        cases he
        exact ⟨hk, Nat.lt_of_not_le hlt, rfl⟩
    · cases he
  | condition node | atom node => cases he

/-- **The errors of lowering**: a call fails for want of levels or of a number that fits. -/
theorem error_cases {e : LowerError} {levels : Nat} (h : call.Proper source)
    (he : call.run source levels = .error e) :
    e = .tooDeep ∨ ∃ n, call.node.Within n ∧ n.kind = .number ∧
      maxNumber < digitsValue (textOf source n) ∧
      e = .numberOutOfRange (String.ofList (textOf source n)) := by
  induction hsize : call.node.size using Nat.strong_induction_on generalizing call levels with
  | h size ih =>
    rw [run_eq h] at he
    split at he
    · cases he
      exact .inl rfl
    · cases hown : call.own source with
      | error e' =>
        rw [hown] at he
        cases he
        obtain ⟨hk, hlt, heq⟩ := own_error hown
        exact .inr ⟨call.node, .refl _, hk, hlt, heq⟩
      | ok u =>
        rw [hown] at he
        obtain ⟨inner, hinner, hrun⟩ := exists_error_of_forM he
        have hlt := size_lt_of_mem_calls hinner
        rcases ih _ (hsize ▸ hlt) (h.of_mem_calls hinner) hrun rfl with hdeep | ⟨n, hwithin, hn⟩
        · exact .inl hdeep
        · exact .inr ⟨n, (within_of_mem_calls hinner).trans hwithin, hn⟩

/-- **A call whose numbers fit fails exactly if it is deeper than there are levels.** -/
theorem run_eq_of_fits (h : call.Proper source) (hfits : Fits source call.node) (levels : Nat) :
    call.run source levels = if levels < call.depth then .error .tooDeep else .ok () := by
  induction hsize : call.node.size using Nat.strong_induction_on generalizing call levels with
  | h size ih =>
    have hcalls : ∀ inner ∈ call.calls, ∀ levels,
        inner.run source levels = if levels < inner.depth then .error .tooDeep else .ok () := by
      intro inner hinner levels
      have hin : Fits source inner.node := fun n hn => hfits n ((within_of_mem_calls hinner).trans hn)
      exact ih _ (hsize ▸ size_lt_of_mem_calls hinner) (h.of_mem_calls hinner) hin levels rfl
    rw [run_eq h, own_eq_ok hfits, ok_bind, depth_eq]
    have hle : (call.calls.map depth).foldr max 0 ≤ levels - call.weight ↔
        ∀ inner ∈ call.calls, inner.depth ≤ levels - call.weight := by
      rw [foldr_max_le, List.forall_mem_map]
    by_cases hlt : levels < call.weight
    · rw [if_pos hlt, if_pos (by omega)]
    · rw [if_neg hlt]
      by_cases hall : ∀ inner ∈ call.calls, inner.depth ≤ levels - call.weight
      · have := hle.mpr hall
        rw [if_neg (by omega), forM_eq_ok]
        intro inner hinner
        rw [hcalls inner hinner, if_neg (Nat.not_lt.mpr (hall inner hinner))]
      · have := mt hle.mp hall
        rw [if_pos (by omega)]
        cases hforM : forM call.calls (run source (levels - call.weight)) with
        | ok u =>
          refine absurd (fun inner hinner => ?_) hall
          have hok := forM_eq_ok.mp hforM inner hinner
          rw [hcalls inner hinner] at hok
          split at hok
          · cases hok
          · omega
        | error e =>
          obtain ⟨inner, hinner, hrun⟩ := exists_error_of_forM hforM
          rw [hcalls inner hinner] at hrun
          split at hrun
          · cases hrun
            rfl
          · cases hrun

end Call

end Cicode.Program

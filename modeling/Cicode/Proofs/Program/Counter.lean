import Cicode.Program.Counter
import Cicode.Proofs.Program.Nesting

/-!
# The counter leaves no trace

Lowering with a counter has the results of lowering with a number of levels left.  A run is *steady* if it
has a result and keeps all that lowering keeps; a body that is steady one level further in is steady when a
level is spent for it, since the counter goes back to where it was (`Steady.nested`).

Main statements (`steady_expression`, `steady_condition`, `yields_block`): expressions and conditions are
steady, and a block adds to what is left out and changes nothing else.  In particular the counter never
leaves its range.
-/

namespace Cicode.Program

open Grammar Text Cicode.Lex Cicode.Tree

namespace Counted

variable {α β : Type}

/-- The run has a result; it leaves out what is said and changes nothing else. -/
def Yields (m : Counted α) (p : Progress) (result : Lowered α) (dropped : List Dropped) : Prop :=
  m.run.run p = some (result, { p with dropped := p.dropped ++ dropped })

/-- The run has a result and changes nothing. -/
def Steady (m : Counted α) (p : Progress) (result : Lowered α) : Prop :=
  m.run.run p = some (result, p)

section

variable {m : Counted α} {p : Progress} {x : Lowered α} {dropped more : List Dropped}

theorem run_bind (m : Counted α) (f : α → Counted β) (p : Progress) : (m >>= f).run.run p =
    (m.run.run p).bind fun q => match q.1 with
      | .ok a => (f a).run.run q.2
      | .error e => some (.error e, q.2) := by
  rw [ExceptT.run_bind, StateT.run_bind]
  cases m.run.run p with
  | none => rfl
  | some q =>
    obtain ⟨r, p⟩ := q
    cases r <;> rfl

theorem Steady.yields (h : Steady m p x) : Yields m p x [] := by
  rw [Yields, List.append_nil]
  exact h

theorem Yields.steady (h : Yields m p x []) : Steady m p x := by
  rw [Yields, List.append_nil] at h
  exact h

theorem Yields.error {e : LowerError} (h : Yields m p (.error e) dropped) (f : α → Counted β) :
    Yields (m >>= f) p (.error e) dropped := by
  rw [Yields, run_bind, h]
  rfl

theorem Yields.bind {a : α} {f : α → Counted β} {y : Lowered β} (h : Yields m p (.ok a) dropped)
    (hf : Yields (f a) { p with dropped := p.dropped ++ dropped } y more) :
    Yields (m >>= f) p y (dropped ++ more) := by
  rw [Yields, run_bind, h, ← List.append_assoc]
  exact hf

theorem Steady.bind {f : α → Counted β} {g : α → Lowered β} (h : Steady m p x)
    (hf : ∀ a, x = .ok a → Steady (f a) p (g a)) : Steady (m >>= f) p (x >>= g) := by
  rw [Steady, run_bind, h]
  cases x with
  | error e => rfl
  | ok a => exact hf a rfl

theorem Steady.lift (x : Lowered α) (p : Progress) : Steady (Counted.lift x) p x := rfl

theorem Steady.pure (a : α) (p : Progress) : Steady (Pure.pure a) p (.ok a) := rfl

theorem lift_ok_bind (a : α) (f : α → Counted β) : (Counted.lift (.ok a) >>= f) = f a := rfl

/-- The counter may take any value in its range. -/
theorem run_setCounter {value : Nat} (hvalue : value ≤ maxNesting) {given : Int} (hgiven : given = value)
    (p : Progress) : (setCounter given).run p = some ((), { p with counter := value }) := by
  subst hgiven
  rw [setCounter, if_pos (by omega)]
  rfl

/-- The counter goes back to where it was. -/
theorem Yields.nested (hp : p.counter < maxNesting)
    (h : Yields m { p with counter := p.counter + 1 } x dropped) :
    Yields (Counted.nested m) p x dropped := by
  have hup : (setCounter (p.counter + 1)).run p = some ((), { p with counter := p.counter + 1 }) :=
    run_setCounter hp (Int.natCast_succ p.counter).symm p
  have hdown := run_setCounter (Nat.le_of_lt hp) (Int.add_sub_cancel p.counter 1)
    { p with counter := p.counter + 1, dropped := p.dropped ++ dropped }
  rw [Yields] at h
  rw [Yields, Counted.nested, ExceptT.run_mk, StateT.run_bind, StateT.run_get]
  simp only [pure_bind]
  rw [if_neg (by omega)]
  simp only [StateT.run_bind, hup, h, Option.bind_eq_bind, Option.bind_some, StateT.run_get,
    Option.pure_def, Nat.cast_add, Nat.cast_one, hdown]
  rfl

theorem Steady.nested_tooDeep (hp : maxNesting ≤ p.counter) :
    Steady (Counted.nested m) p (.error .tooDeep) := by
  rw [Steady, Counted.nested, ExceptT.run_mk, StateT.run_bind, StateT.run_get]
  simp only [pure_bind]
  rw [if_pos (by omega)]
  rfl

theorem Steady.mapM {f : Node → Counted α} {g : Node → Lowered α} {nodes : List Node}
    (h : ∀ node ∈ nodes, Steady (f node) p (g node)) : Steady (nodes.mapM f) p (nodes.mapM g) := by
  induction nodes with
  | nil => exact .pure [] p
  | cons node nodes ih =>
    obtain ⟨hnode, hnodes⟩ := List.forall_mem_cons.mp h
    rw [List.mapM_cons, List.mapM_cons]
    exact hnode.bind fun a _ => (ih hnodes).bind fun as _ => .pure (a :: as) p

/-- A level is spent, if there is one left. -/
theorem Steady.nested {f : Nat → Lowered α} (hzero : f 0 = .error .tooDeep)
    (h : ∀ levels, p.counter + levels + 1 = maxNesting →
      Steady m { p with counter := p.counter + 1 } (f (levels + 1))) :
    Steady (Counted.nested m) p (f (maxNesting - p.counter)) := by
  rcases Nat.lt_or_ge p.counter maxNesting with hlt | hge
  · obtain ⟨levels, hlevels⟩ : ∃ levels, maxNesting - p.counter = levels + 1 :=
      ⟨maxNesting - p.counter - 1, by omega⟩
    rw [hlevels]
    exact (Yields.nested hlt (h levels (by omega)).yields).steady
  · rw [Nat.sub_eq_zero_of_le hge, hzero]
    exact .nested_tooDeep hge

end

section

variable {source : Source} {node : Node} {p : Progress}

/-! ## Expressions -/

theorem steady_call {argument : Node → Counted Expr} {given : Node → Lowered Expr}
    (h : ∀ n, n.size < node.size → Steady (argument n) p (given n)) :
    Steady (call source argument node) p (callWith source given node) := by
  refine (Steady.lift _ p).bind fun ⟨function, _⟩ _ => ?_
  refine (Steady.mapM fun n hn => h n ?_).bind fun arguments _ => .pure _ p
  exact Node.size_lt_of_mem (mem_children_of_significant (List.mem_of_mem_filter hn))

theorem steady_atom {inner : Node → Counted Expr} {given : Node → Lowered Expr}
    (h : ∀ n, n.size < node.size → Steady (inner n) p (given n)) :
    Steady (atom source inner node) p (atomWith source given node) := by
  cases hfirst : require .expression node.firstToken with
  | error e =>
    rw [atom, atomWith, hfirst]
    exact .lift _ p
  | ok first =>
    have hsmaller := Node.size_lt_of_mem (List.mem_of_find?_eq_some (require_eq_ok.mp hfirst))
    have hoperand : ∀ operand, require .expression node.significant.head? = .ok operand →
        Steady (inner operand) p (given operand) := fun operand hok => h operand <|
      Node.size_lt_of_mem (mem_children_of_significant (List.mem_of_mem_head? (require_eq_ok.mp hok)))
    rw [atom, hfirst, lift_ok_bind]
    dsimp only
    -- The side without a counter is opened case by case: it matches on the same kind again.
    split
    · rename_i hk
      simp only [atomWith, hfirst, ok_bind, hk]
      exact (Steady.lift _ p).bind fun operand hok => (hoperand operand hok).bind fun _ _ => .pure _ p
    · rename_i hk
      simp only [atomWith, hfirst, ok_bind, hk]
      exact (Steady.lift _ p).bind fun operand hok => (hoperand operand hok).bind fun _ _ => .pure _ p
    · rename_i hk
      simp only [atomWith, hfirst, ok_bind, hk]
      exact .lift _ p
    · simp only [atomWith, hfirst, ok_bind]
      split
      · exact .lift _ p
      · exact h first hsmaller

theorem steady_expressionBody {inner : Node → Counted Expr} {given : Node → Lowered Expr}
    (h : ∀ n, n.size < node.size → Steady (inner n) p (given n)) :
    Steady (expressionBody source inner node) p (expressionWith source given node) := by
  have hmem : ∀ n ∈ node.significant, n.size < node.size :=
    fun n hn => Node.size_lt_of_mem (mem_children_of_significant hn)
  rw [expressionBody]
  dsimp only
  split
  · rename_i hk
    split
    · rename_i operand hs
      rw [hs] at hmem
      have hoperand := hmem operand (by simp)
      simp only [expressionWith, hk, hs]
      split
      · exact steady_atom fun n hn => h n (hn.trans hoperand)
      · exact h operand hoperand
    · rename_i left operator right hs
      rw [hs] at hmem
      simp only [expressionWith, hk, hs]
      exact (Steady.lift _ p).bind fun _ _ => (h left (hmem left (by simp))).bind fun _ _ =>
        (h right (hmem right (by simp))).bind fun _ _ => .pure _ p
    · simp only [expressionWith, hk]
      exact .lift _ p
  · rename_i hk
    simp only [expressionWith, hk]
    exact steady_atom h
  · rename_i hk
    simp only [expressionWith, hk]
    exact (steady_call h).bind fun call _ => by cases call; exact .pure _ p
  · rename_i hk
    simp only [expressionWith, hk]
    exact (Steady.lift _ p).bind fun name _ => by cases name; exact .pure _ p
  · rename_i hk
    simp only [expressionWith, hk]
    exact (Steady.lift _ p).bind fun value _ => by cases value <;> exact .pure _ p
  · rename_i hk
    simp only [expressionWith, hk]
    exact (Steady.lift _ p).bind fun value _ => by cases value <;> exact .pure _ p
  · simp only [expressionWith]
    exact .lift _ p

/-- **An expression is lowered with a counter as with the levels that the counter leaves.** -/
theorem steady_expression {fuel : Nat} (hfuel : node.size ≤ fuel) (hp : p.counter ≤ maxNesting) :
    Steady (expression source fuel node) p
      (Program.expression source (maxNesting - p.counter) node) := by
  induction fuel generalizing node p with
  | zero =>
    obtain ⟨label, children⟩ := node
    rw [Node.size] at hfuel
    omega
  | succ fuel ih =>
    refine Steady.nested (f := fun levels => Program.expression source levels node) rfl ?_
    intro levels hlevels
    refine steady_expressionBody fun n hn => ?_
    have hsteady : Steady (expression source fuel n) { p with counter := p.counter + 1 }
        (Program.expression source (maxNesting - (p.counter + 1)) n) := ih (by omega)
      (by show p.counter + 1 ≤ maxNesting; omega)
    rwa [show maxNesting - (p.counter + 1) = levels by omega] at hsteady

/-! ## Conditions -/

theorem size_pos (node : Node) : 0 < node.size := by
  cases node
  exact Nat.succ_pos _

/-- More fuel than a node is large makes no difference. -/
theorem innermost_fuel {fuel fuel' : Nat} (h : node.size ≤ fuel) (h' : node.size ≤ fuel') :
    innermost fuel node = innermost fuel' node := by
  have hpos := size_pos node
  induction fuel generalizing fuel' node with
  | zero => omega
  | succ fuel ih =>
    cases fuel' with
    | zero => omega
    | succ fuel' =>
      rw [innermost, innermost]
      split
      · rename_i operand hs
        have hlt : operand.size < node.size :=
          Node.size_lt_of_mem (mem_children_of_significant (by rw [hs]; simp))
        have hfits : operand.size ≤ fuel' := by omega
        rw [ih (by omega) hfits (size_pos operand)]
      · rfl

/-- A condition that consists of nothing but another one is lowered as that. -/
theorem condition_of_condition {operand : Node} (hs : node.significant = [operand])
    (hk : operand.kind = .conditionalStatement) (levels : Nat) :
    Program.condition source levels node = Program.condition source levels operand := by
  have hlt : operand.size < node.size :=
    Node.size_lt_of_mem (mem_children_of_significant (by rw [hs]; simp))
  have hinner : innermost node.size node = innermost operand.size operand := by
    obtain ⟨size, hsize⟩ : ∃ size, node.size = size + 1 := ⟨node.size - 1, by omega⟩
    rw [hsize, innermost]
    simp only [hs, hk, beq_self_eq_true, if_true]
    exact innermost_fuel (by omega) (Nat.le_refl _)
  cases levels <;> simp only [Program.condition, conditionWith, hinner]

/-- A condition with an operand of another kind. -/
theorem condition_of_operand {operand : Node} (hs : node.significant = [operand])
    (hk : operand.kind ≠ .conditionalStatement) (levels : Nat) :
    Program.condition source levels node =
      if operand.kind == .conditionalAtom then Program.conditionalAtom source levels operand
      else (Program.expression source levels operand).map (.expr (spanOf node)) := by
  have hinner : innermost node.size node = node := by
    refine innermost_eq _ fun other hother => ?_
    rw [← List.singleton_inj.mp (hs.symm.trans hother)]
    exact hk
  cases levels with
  | zero => simp only [Program.condition, conditionWith, hinner, hs, Program.conditionalAtom, Program.expression]
  | succ levels =>
    simp only [Program.condition, conditionWith, hinner, hs, Program.conditionalAtom]

/-- A condition with an operator spends a level. -/
theorem condition_of_operation {left operator right : Node}
    (hs : node.significant = [left, operator, right]) (levels : Nat) :
    Program.condition source levels node =
      match levels with
      | 0 => .error .tooDeep
      | levels + 1 => do
        let operator ← operatorOf conditionOperator? operator
        return .binary (spanOf node) operator (← Program.condition source levels left)
          (← Program.condition source levels right) := by
  have hinner : innermost node.size node = node := by
    refine innermost_eq _ fun other hother => ?_
    rw [hs] at hother
    cases hother
  cases levels <;> simp only [Program.condition, conditionWith, hinner, hs] <;> rfl

/-- A condition that is neither. -/
theorem condition_of_others (hone : ∀ operand, node.significant = [operand] → False)
    (hthree : ∀ left operator right, node.significant = [left, operator, right] → False)
    (levels : Nat) : Program.condition source levels node = .error (.missing .condition) := by
  have hinner : innermost node.size node = node :=
    innermost_eq _ fun other hother => (hone other hother).elim
  cases levels <;> simp only [Program.condition, conditionWith, hinner]

theorem steady_conditionalAtomBody {expr : Node → Counted Expr} {condition atom : Node → Counted Condition}
    {expr' : Node → Lowered Expr} {condition' atom' : Node → Lowered Condition}
    (he : ∀ n, n.size < node.size → Steady (expr n) p (expr' n))
    (hc : ∀ n, n.size < node.size → Steady (condition n) p (condition' n))
    (ha : ∀ n, n.size < node.size → Steady (atom n) p (atom' n)) :
    Steady (conditionalAtomBody expr condition atom node) p
      (conditionalAtomWith expr' condition' atom' node) := by
  cases hfirst : require .condition node.firstToken with
  | error e =>
    rw [conditionalAtomBody, conditionalAtomWith, hfirst]
    exact .lift _ p
  | ok first =>
    cases hoperand : require .condition node.significant.head? with
    | error e =>
      rw [conditionalAtomBody, conditionalAtomWith, hfirst, hoperand]
      exact .lift _ p
    | ok operand =>
      have hlt : operand.size < node.size := Node.size_lt_of_mem
        (mem_children_of_significant (List.mem_of_mem_head? (require_eq_ok.mp hoperand)))
      rw [conditionalAtomBody, hfirst, lift_ok_bind, hoperand, lift_ok_bind]
      split
      · rename_i hk
        simp only [conditionalAtomWith, hfirst, hoperand, ok_bind, hk]
        split
        · exact (ha operand hlt).bind fun _ _ => .pure _ p
        · exact (he operand hlt).bind fun _ _ => (Steady.pure _ p).bind fun _ _ => .pure _ p
      · rename_i hk
        simp only [conditionalAtomWith, hfirst, hoperand, ok_bind, hk]
        exact (hc operand hlt).bind fun _ _ => .pure _ p
      · simp only [conditionalAtomWith, hfirst, hoperand, ok_bind]
        exact (he operand hlt).bind fun _ _ => .pure _ p

/-- **Conditions and their atoms are lowered with a counter as with the levels that it leaves.** -/
theorem steady_condition {fuel : Nat} (hfuel : node.size ≤ fuel) (hp : p.counter ≤ maxNesting) :
    Steady (condition source fuel node) p (Program.condition source (maxNesting - p.counter) node) ∧
    Steady (conditionalAtom source fuel node) p
      (Program.conditionalAtom source (maxNesting - p.counter) node) := by
  have hpos := size_pos node
  induction fuel generalizing node p with
  | zero => omega
  | succ fuel ih =>
    have hmem : ∀ n ∈ node.significant, n.size < node.size :=
      fun n hn => Node.size_lt_of_mem (mem_children_of_significant hn)
    -- One level further in, where as many levels are left as the counter leaves.
    have hdeeper : ∀ {levels : Nat}, p.counter + levels + 1 = maxNesting → ∀ {n : Node},
        n.size < node.size →
        Steady (condition source fuel n) { p with counter := p.counter + 1 }
          (Program.condition source levels n) ∧
        Steady (conditionalAtom source fuel n) { p with counter := p.counter + 1 }
          (Program.conditionalAtom source levels n) := by
      intro levels hlevels n hn
      have hsteady :
          Steady (condition source fuel n) { p with counter := p.counter + 1 }
            (Program.condition source (maxNesting - (p.counter + 1)) n) ∧
          Steady (conditionalAtom source fuel n) { p with counter := p.counter + 1 }
            (Program.conditionalAtom source (maxNesting - (p.counter + 1)) n) := ih (by omega)
        (by show p.counter + 1 ≤ maxNesting; omega) (size_pos n)
      rwa [show maxNesting - (p.counter + 1) = levels by omega] at hsteady
    constructor
    · rw [condition]
      split
      · rename_i operand hs
        rw [hs] at hmem
        have hlt := hmem operand (by simp)
        by_cases hk : operand.kind = .conditionalStatement
        · rw [if_neg (by rw [hk]; decide), if_pos (by rw [hk]; rfl), condition_of_condition hs hk]
          exact (ih (by omega) hp (size_pos operand)).1
        · rw [condition_of_operand hs hk]
          split
          · exact (ih (by omega) hp (size_pos operand)).2
          · rw [if_neg (by simpa using hk)]
            refine Steady.bind (steady_expression (by omega) hp) fun _ _ => .pure _ p
      · rename_i left operator right hs
        rw [hs] at hmem
        refine Steady.nested (f := fun levels => Program.condition source levels node)
          (condition_of_operation hs 0) fun levels hlevels => ?_
        simp only [condition_of_operation hs]
        exact (Steady.lift _ _).bind fun _ _ => (hdeeper hlevels (hmem left (by simp))).1.bind fun _ _ =>
          (hdeeper hlevels (hmem right (by simp))).1.bind fun _ _ => .pure _ _
      · rename_i hone hthree
        rw [condition_of_others hone hthree]
        exact .lift _ p
    · rw [conditionalAtom]
      refine Steady.nested (f := fun levels => Program.conditionalAtom source levels node) rfl ?_
      intro levels hlevels
      refine steady_conditionalAtomBody (fun n hn => ?_) (fun n hn => (hdeeper hlevels hn).1)
        fun n hn => (hdeeper hlevels hn).2
      have hsteady : Steady (expression source fuel n) { p with counter := p.counter + 1 }
          (Program.expression source (maxNesting - (p.counter + 1)) n) := steady_expression (by omega)
        (by show p.counter + 1 ≤ maxNesting; omega)
      rwa [show maxNesting - (p.counter + 1) = levels by omega] at hsteady

/-! ## Statements -/

/-- What is left out of something that is lowered; nothing if it is not. -/
def leftOver {α : Type} : Lowered (α × List Dropped) → List Dropped
  | .ok (_, dropped) => dropped
  | .error _ => []

/-- The run lowers something as said, and leaves out what is left out of it. -/
def Lowers {α : Type} (m : Counted α) (p : Progress) (lowered : Lowered (α × List Dropped)) : Prop :=
  Yields m p (lowered.map Prod.fst) (leftOver lowered)

/-- What comes after a steady run. -/
theorem Steady.lowers {α β : Type} {m : Counted α} {x : Lowered α} {f : α → Counted β}
    {g : α → Lowered (β × List Dropped)} (h : Steady m p x)
    (hf : ∀ a, x = .ok a → Lowers (f a) p (g a)) : Lowers (m >>= f) p (x >>= g) := by
  cases x with
  | error e => exact h.yields.error f
  | ok a =>
    have hbind : Yields _ p ((g a).map Prod.fst) ([] ++ leftOver (g a)) := Yields.bind h.yields (f := f)
      (by rw [List.append_nil]; exact hf a rfl)
    exact hbind

theorem Lowers.pure {α : Type} (a : α) (p : Progress) : Lowers (Pure.pure a) p (.ok (a, [])) :=
  (Steady.pure a p).yields

/-- The block lowers whatever it is given, or fails whatever it is given. -/
def Uniform (block : BlockLowerer) : Prop :=
  (∃ e, ∀ nodes, block nodes = .error e) ∨ ∀ nodes, ∃ lowered, block nodes = .ok lowered

theorem uniform_block (source : Source) (levels : Nat) : Uniform (Program.block source levels) := by
  cases levels with
  | zero => exact .inl ⟨_, fun _ => rfl⟩
  | succ levels => exact .inr fun _ => ⟨_, rfl⟩

/-- Blocks of nodes that are small are lowered as said, however much was left out before. -/
def LowersBlocks (block : List Node → Counted (List Statement)) (counter size : Nat)
    (given : BlockLowerer) : Prop :=
  ∀ (p : Progress) (nodes : List Node), p.counter = counter → (∀ n ∈ nodes, n.size < size) →
    Lowers (block nodes) p (given nodes)

theorem lowers_branch {condition : Node → Counted Condition} {condition' : Node → Lowered Condition}
    {block : List Node → Counted (List Statement)} {given : BlockLowerer} {span : Span}
    (hc : ∀ n, n.size < node.size → Steady (condition n) p (condition' n)) (hu : Uniform given)
    (hb : LowersBlocks block p.counter node.size given) :
    Lowers (branch condition block span node) p (branchWith condition' given span node) := by
  refine (Steady.lift _ p).lowers fun test htest => ?_
  have hsize := Node.size_lt_of_mem (List.mem_of_find?_eq_some (require_eq_ok.mp htest))
  refine (hc test hsize).lowers fun test _ => ?_
  have hmem : ∀ n ∈ node.children, n.size < node.size := fun n => Node.size_lt_of_mem
  have hsplit := List.takeWhile_append_dropWhile (p := (·.kind != .kwElse)) (l := node.children)
  simp only [List.span_eq_takeWhile_dropWhile]
  generalize node.children.takeWhile (·.kind != .kwElse) = before at hsplit ⊢
  generalize node.children.dropWhile (·.kind != .kwElse) = fromElse at hsplit ⊢
  rw [← hsplit] at hmem
  have hthen := hb p before rfl fun n hn => hmem n (List.mem_append_left _ hn)
  rw [Lowers] at hthen ⊢
  rcases hu with ⟨e, hu⟩ | hu
  · rw [hu before] at hthen ⊢
    exact hthen.error _
  · obtain ⟨⟨thenPart, inThen⟩, hbefore⟩ := hu before
    rw [hbefore] at hthen ⊢
    cases fromElse with
    | nil =>
      have hend := hthen.bind (f := fun thenPart => pure (Statement.branch span test thenPart none))
        (Steady.pure _ _).yields
      rwa [List.append_nil] at hend
    | cons token after =>
      obtain ⟨⟨elsePart, inElse⟩, hafter⟩ := hu after
      have helse := hb { p with dropped := p.dropped ++ inThen } after rfl fun n hn =>
        hmem n (List.mem_append_right _ (List.mem_cons_of_mem _ hn))
      rw [Lowers, hafter] at helse
      have hend := helse.bind (f := fun elsePart => pure (Statement.branch span test thenPart (some elsePart)))
        (Steady.pure _ _).yields
      rw [List.append_nil] at hend
      simp only [ok_bind, hafter]
      exact hthen.bind hend

theorem lowers_statement {fuel : Nat} {block : List Node → Counted (List Statement)}
    {given : BlockLowerer} (hfuel : node.size ≤ fuel) (hp : p.counter ≤ maxNesting) (hu : Uniform given)
    (hb : LowersBlocks block p.counter node.size given) :
    Lowers (statement source fuel block node) p
      (Program.statement source (maxNesting - p.counter) given node) := by
  have hmem : ∀ n ∈ node.significant, n.size < node.size :=
    fun n hn => Node.size_lt_of_mem (mem_children_of_significant hn)
  rw [statement, Program.statement]
  split
  · split
    · rename_i hnone
      simp only [returnStatement, hnone]
      exact .pure _ p
    · rename_i value hvalue
      simp only [returnStatement, hvalue]
      have hlt := hmem value (List.mem_of_find?_eq_some hvalue)
      exact (steady_expression (by omega) hp).lowers fun _ _ => .pure _ p
  · cases hinner : require .statement node.significant.head? with
    | error e =>
      rw [statementWith, hinner]
      exact (Steady.lift _ p).yields
    | ok inner =>
      have hlt := hmem inner (List.mem_of_mem_head? (require_eq_ok.mp hinner))
      rw [lift_ok_bind]
      dsimp only
      split
      · rename_i hk
        simp only [statementWith, hinner, ok_bind, hk]
        refine (Steady.lift _ p).lowers fun target _ => ?_
        cases target
        refine (Steady.lift _ p).lowers fun value hvalue => ?_
        obtain ⟨holder, hholder, hhead⟩ := Option.bind_eq_some_iff.mp (require_eq_ok.mp hvalue)
        have hvlt : value.size < inner.size :=
          (Node.size_lt_of_mem (mem_children_of_significant (List.mem_of_mem_head? hhead))).trans
            (Node.size_lt_of_mem (mem_children_of_significant (List.mem_of_find?_eq_some hholder)))
        exact (steady_expression (by omega) hp).lowers fun _ _ => .pure _ p
      · rename_i hk
        simp only [statementWith, hinner, ok_bind, hk]
        refine lowers_branch (fun n hn => (steady_condition (by omega) hp).1) hu ?_
        exact fun q nodes hq hnodes => hb q nodes hq fun n hn => (hnodes n hn).trans hlt
      · rename_i hk
        simp only [statementWith, hinner, ok_bind, hk]
        exact (steady_call fun n hn => steady_expression (by omega) hp).lowers fun call _ => by
          cases call
          exact .pure _ p
      · simp only [statementWith, hinner, ok_bind]
        exact (Steady.lift _ p).yields

theorem Yields.attempt {α : Type} {m : Counted α} {x : Lowered α} {dropped : List Dropped}
    (h : Yields m p x dropped) : Yields (Counted.attempt m) p (.ok x) dropped := by
  rw [Yields, Counted.attempt, ExceptT.run_mk, StateT.run_bind, h]
  rfl

theorem yields_leaveOut (dropped : Dropped) : Yields (leaveOut dropped) p (.ok ()) [dropped] := rfl

/-- Statements are lowered one by one, with the same counter. -/
theorem yields_statements {lower : Node → Counted Statement} {levels : Nat} {given : BlockLowerer}
    {nodes : List Node} (h : ∀ n ∈ nodes, ∀ q : Progress, q.counter = p.counter →
      Lowers (lower n) q (Program.statement source levels given n)) :
    Yields (statements lower nodes) p (.ok (statementsWith source levels given nodes).1)
      (statementsWith source levels given nodes).2 := by
  induction nodes generalizing p with
  | nil => exact (Steady.pure _ p).yields
  | cons node nodes ih =>
    obtain ⟨hnode, hnodes⟩ := List.forall_mem_cons.mp h
    rw [statements, statementsWith_cons]
    by_cases hs : isStatement node = true
    · rw [if_pos hs, if_pos (by exact hs)]
      have hlower := (hnode p rfl).attempt
      cases hlowered : Program.statement source levels given node with
      | ok lowered =>
        obtain ⟨lowered, inside⟩ := lowered
        rw [hlowered] at hlower
        have hrest := (ih (p := { p with dropped := p.dropped ++ inside }) hnodes).bind
          (f := fun rest => pure (lowered :: rest)) (Steady.pure _ _).yields
        rw [List.append_nil] at hrest
        exact hlower.bind hrest
      | error cause =>
        rw [hlowered] at hlower
        have hrest := (yields_leaveOut (p := { p with dropped := p.dropped ++ [] }) ⟨node, cause⟩).bind
          (f := fun _ => statements lower nodes) (ih hnodes)
        exact hlower.bind hrest
    · rw [if_neg hs, if_neg (by exact hs)]
      exact ih hnodes

/-- The statements of a block are lowered with a counter as with the levels that it leaves, if blocks of
smaller nodes are. -/
theorem yields_nodes {fuel levels : Nat} {nodes : List Node} (hfuel : ∀ n ∈ nodes, n.size ≤ fuel)
    (hlevels : p.counter + levels = maxNesting)
    (hb : 0 < fuel → LowersBlocks (block source fuel) p.counter fuel (Program.block source levels)) :
    Yields (statements (statement source fuel (block source fuel)) nodes) p
      (.ok (statementsWith source levels (Program.block source levels) nodes).1)
      (statementsWith source levels (Program.block source levels) nodes).2 := by
  refine yields_statements fun n hn q hq => ?_
  have hn := hfuel n hn
  have hpos := size_pos n
  have hblocks : LowersBlocks (block source fuel) q.counter n.size (Program.block source levels) :=
    fun r nodes hr hnodes => hb (by omega) r nodes (hr.trans hq) fun m hm => by
      have := hnodes m hm
      omega
  have hlower : Lowers (statement source _ _ n) q
      (Program.statement source (maxNesting - q.counter) _ n) := lowers_statement hn (by omega)
    (uniform_block source levels) hblocks
  rwa [show maxNesting - q.counter = levels by omega] at hlower

/-- **A block is lowered with a counter as with the levels that it leaves**: what it leaves out is put
down, and nothing else changes. -/
theorem lowers_block {fuel : Nat} {nodes : List Node} (hfuel : ∀ n ∈ nodes, n.size ≤ fuel)
    (hp : p.counter ≤ maxNesting) :
    Lowers (block source (fuel + 1) nodes) p (Program.block source (maxNesting - p.counter) nodes) := by
  induction fuel using Nat.strong_induction_on generalizing nodes p with
  | h fuel ih =>
    rcases Nat.lt_or_ge p.counter maxNesting with hlt | hge
    · obtain ⟨levels, hlevels⟩ : ∃ levels, maxNesting - p.counter = levels + 1 :=
        ⟨maxNesting - p.counter - 1, by omega⟩
      have hdeeper : p.counter + 1 + levels = maxNesting := by omega
      rw [hlevels]
      refine Yields.nested hlt (yields_nodes hfuel hdeeper ?_)
      -- The branches of a statement are blocks of smaller nodes.
      intro hpos r nodes hr hnodes
      change r.counter = p.counter + 1 at hr
      obtain ⟨fuel, rfl⟩ : ∃ f, fuel = f + 1 := ⟨fuel - 1, by omega⟩
      have hblock : Lowers (block source (fuel + 1) nodes) r
          (Program.block source (maxNesting - r.counter) nodes) := ih fuel (by omega)
        (fun n hn => by have := hnodes n hn; omega) (by omega)
      rwa [show maxNesting - r.counter = levels by omega] at hblock
    · rw [Nat.sub_eq_zero_of_le hge]
      exact (Steady.nested_tooDeep hge).yields

/-- Blocks of nodes that are small are lowered with a counter as with the levels that it leaves. -/
theorem lowersBlocks_block {fuel : Nat} (hfuel : 0 < fuel) (hp : p.counter ≤ maxNesting) :
    LowersBlocks (block source fuel) p.counter fuel
      (Program.block source (maxNesting - p.counter)) := by
  intro q nodes hq hnodes
  obtain ⟨fuel, rfl⟩ : ∃ f, fuel = f + 1 := ⟨fuel - 1, by omega⟩
  rw [← hq]
  exact lowers_block (fun n hn => Nat.le_of_lt_succ (hnodes n hn)) (by omega)

end

end Counted

end Cicode.Program

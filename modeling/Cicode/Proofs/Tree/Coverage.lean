import Cicode.Proofs.Tree.Layout
import Cicode.Proofs.Tree.Problems

/-!
# Which nodes the problems of a tree cover

A problem below a node lies inside it.  The walk that lists problems stops at the first problem on
its way down, so that a node with repairs may have its problem above it; such a problem encloses the
node.

Main statement (`Node.Sound.covered`): of each node with repairs outside documentation, some problem of
the whole tree lies inside the node or encloses it.
-/

namespace Cicode.Tree

open Grammar Text Cicode.Lex

namespace Node

/-- The node itself, or a node below it at any depth. -/
inductive Within : Node → Node → Prop
  | refl (node : Node) : Within node node
  | step {node child other : Node} : child ∈ node.children → Within child other → Within node other

/-- A problem of the tree: a token that the text does not hold, or text that was skipped. -/
def isProblem (node : Node) : Bool := node.isMissing || node.isError

namespace Within

variable {node inner other : Node}

theorem child (h : inner ∈ node.children) : node.Within inner := .step h (.refl inner)

theorem trans (h : node.Within inner) (h' : inner.Within other) : node.Within other := by
  induction h with
  | refl => exact h'
  | step hc _ ih => exact .step hc (ih h')

theorem sound (h : node.Within inner) (hs : node.Sound) : inner.Sound := by
  induction h with
  | refl => exact hs
  | step hc _ ih => exact ih (hs.child hc)

/-- What is below a node lies inside it. -/
theorem inside (h : node.Within inner) (hs : node.Sound) :
    node.first ≤ inner.first ∧ inner.last ≤ node.last := by
  induction h with
  | refl => exact ⟨Nat.le_refl _, Nat.le_refl _⟩
  | step hc _ ih =>
    obtain ⟨h1, -, h2⟩ := hs.fair.spread.inside hc
    obtain ⟨h3, h4⟩ := ih (hs.child hc)
    exact ⟨Nat.le_trans h1 h3, Nat.le_trans h4 h2⟩

/-- A node has its price if a node below it has. -/
theorem price (h : node.Within inner) (hs : node.Sound) (herr : inner.hasError = true) :
    node.hasError = true := by
  induction h with
  | refl => exact herr
  | step hc _ ih => exact hs.fair.price _ hc (ih (hs.child hc) herr)

end Within

/-- The property holds of a node and of all nodes below it. -/
def Everywhere (P : Node → Prop) (node : Node) : Prop := ∀ inner, node.Within inner → P inner

namespace Everywhere

variable {P : Node → Prop} {node inner : Node}

theorem mk (h : P node) (hc : ∀ child ∈ node.children, child.Everywhere P) : node.Everywhere P := by
  intro inner hin
  cases hin with
  | refl => exact h
  | step hchild hin => exact hc _ hchild inner hin

theorem self (h : node.Everywhere P) : P node := h node (.refl node)

theorem child (h : node.Everywhere P) (hc : inner ∈ node.children) : inner.Everywhere P :=
  fun other ho => h other (.step hc ho)

theorem significant (h : node.Everywhere P) (hc : inner ∈ node.significant) : inner.Everywhere P :=
  h.child (List.mem_of_mem_filter (List.mem_of_mem_filter hc))

theorem firstToken (h : node.Everywhere P) (hc : node.firstToken = some inner) : inner.Everywhere P :=
  h.child (List.mem_of_find?_eq_some hc)

theorem child? (h : node.Everywhere P) {field : Field} (hc : node.child? field = some inner) :
    inner.Everywhere P :=
  h.child (List.mem_of_find?_eq_some hc)

end Everywhere

mutual

/-- The node and all nodes below it, in the order of the text. -/
def all : Node → List Node
  | .node label children => .node label children :: allOf children

/-- The nodes of several trees. -/
def allOf : List Node → List Node
  | [] => []
  | first :: rest => all first ++ allOf rest

end

mutual

theorem mem_all : ∀ {node inner : Node}, inner ∈ node.all ↔ node.Within inner
  | .node label children, inner => by
    rw [all, List.mem_cons, mem_allOf]
    constructor
    · rintro (rfl | ⟨child, hc, hw⟩)
      · exact .refl _
      · exact .step hc hw
    · intro h
      cases h with
      | refl => exact .inl rfl
      | step hc hw => exact .inr ⟨_, hc, hw⟩

theorem mem_allOf : ∀ {nodes : List Node} {inner : Node}, inner ∈ allOf nodes ↔
    ∃ node ∈ nodes, node.Within inner
  | [], inner => by simp [allOf]
  | first :: rest, inner => by
    rw [allOf, List.mem_append, mem_all, mem_allOf, List.exists_mem_cons_iff]

end

instance {P : Node → Prop} [DecidablePred P] {node : Node} : Decidable (node.Everywhere P) :=
  decidable_of_iff (∀ inner ∈ node.all, P inner)
    (forall_congr' fun _ => imp_congr_left mem_all)

/-- Of two nodes one ends before the other begins. -/
def Apart (a b : Node) : Prop := a.last ≤ b.first ∨ b.last ≤ a.first

theorem Apart.symm {a b : Node} (h : a.Apart b) : b.Apart a := Or.symm h

/-- What is below nodes that are apart is apart. -/
theorem Apart.within {a b x y : Node} (h : a.Apart b) (hx : a.Within x) (hy : b.Within y)
    (ha : a.Sound) (hb : b.Sound) : x.Apart y := by
  obtain ⟨h1, h2⟩ := hx.inside ha
  obtain ⟨h3, h4⟩ := hy.inside hb
  rcases h with h | h
  · exact .inl (Nat.le_trans h2 (Nat.le_trans h h3))
  · exact .inr (Nat.le_trans h4 (Nat.le_trans h h1))

end Node

theorem Spread.pairwise_apart {low high : Nat} {nodes : List Node} (h : Spread low high nodes) :
    nodes.Pairwise Node.Apart := h.pairwise.imp fun hle => .inl hle

theorem Spread.apart {low high : Nat} {nodes : List Node} (h : Spread low high nodes) {a b : Node}
    (ha : a ∈ nodes) (hb : b ∈ nodes) (hne : a ≠ b) : a.Apart b := by
  have : Std.Symm Node.Apart := ⟨fun _ _ => Node.Apart.symm⟩
  exact h.pairwise_apart.forall ha hb hne

namespace Problem

variable {source : Source}

theorem ofNode?_eq_some {node : Node} {problem : Problem} (h : ofNode? source node = some problem) :
    node.isProblem = true ∧ problem.start = node.label.start ∧ problem.stop = node.label.stop := by
  obtain ⟨message, hm, rfl⟩ := Option.map_eq_some_iff.mp h
  refine ⟨?_, rfl, rfl⟩
  rw [messageFor?] at hm
  rw [Node.isProblem]
  by_cases h1 : node.isMissing = true
  · rw [h1]
    rfl
  · rw [if_neg h1] at hm
    by_cases h2 : node.isError = true
    · rw [h2, Bool.or_true]
    · rw [if_neg h2] at hm
      cases hm

mutual

/-- Each problem of a tree is one of its nodes. -/
theorem exists_node_of_under {problem : Problem} : ∀ (node : Node), problem ∈ under source node →
    ∃ inner, node.Within inner ∧ inner.isProblem = true ∧ problem.start = inner.label.start ∧
      problem.stop = inner.label.stop
  | .node label children, h => by
    rw [under_eq] at h
    split at h
    · split at h
      · rename_i found hfound
        obtain rfl := List.mem_singleton.mp h
        exact ⟨_, .refl _, ofNode?_eq_some hfound⟩
      · obtain ⟨child, hc, inner, hw, hp⟩ := exists_node_of_underAll children h
        exact ⟨inner, .step hc hw, hp⟩
    · cases h

theorem exists_node_of_underAll {problem : Problem} : ∀ (nodes : List Node),
    problem ∈ underAll source nodes → ∃ child ∈ nodes, ∃ inner, child.Within inner ∧
      inner.isProblem = true ∧ problem.start = inner.label.start ∧ problem.stop = inner.label.stop
  | [], h => by cases h
  | node :: rest, h => by
    rw [underAll] at h
    rcases List.mem_append.mp h with h | h
    · exact ⟨node, List.mem_cons_self, exists_node_of_under node h⟩
    · obtain ⟨child, hc, hp⟩ := exists_node_of_underAll rest h
      exact ⟨child, List.mem_cons_of_mem _ hc, hp⟩

end

/-- The problem lies inside the node. -/
def Inside (problem : Problem) (node : Node) : Prop :=
  node.first ≤ problem.start.bytes ∧ problem.stop.bytes ≤ node.last

/-- The problem encloses the node. -/
def Encloses (problem : Problem) (node : Node) : Prop :=
  problem.start.bytes ≤ node.first ∧ node.last ≤ problem.stop.bytes

end Problem

open Problem

/-- The problems of the tree below a node lie inside it. -/
theorem Node.Sound.under_inside {source : Source} {node : Node} (hs : node.Sound) {problem : Problem}
    (hp : problem ∈ under source node) : problem.Inside node := by
  obtain ⟨inner, hw, -, hstart, hstop⟩ := exists_node_of_under node hp
  rw [Problem.Inside, hstart, hstop]
  exact hw.inside hs

/-- A node that holds a repair, outside documentation, has a problem below it. -/
theorem Node.Sound.exists_problem {node : Node} (hs : node.Sound) (hdoc : node.kind ∉ docSymbols)
    (herr : node.hasError = true) : ∃ inner, node.Within inner ∧ inner.isProblem = true := by
  obtain ⟨problem, hp⟩ := List.exists_mem_of_ne_nil _ (hs.fair.reported hdoc herr default)
  obtain ⟨inner, hw, hi, -⟩ := exists_node_of_under node hp
  exact ⟨inner, hw, hi⟩

/-- **Of each node with repairs outside documentation, some problem of the whole tree lies inside the
node or encloses it.** -/
theorem Node.Sound.covered {source : Source} {root node : Node} (hs : root.Sound)
    (hw : root.Within node) (hdoc : node.kind ∉ docSymbols) (herr : node.hasError = true) :
    ∃ problem ∈ under source root, problem.Inside node ∨ problem.Encloses node := by
  induction hw with
  | refl node =>
    obtain ⟨problem, hp⟩ := List.exists_mem_of_ne_nil _ (hs.fair.reported hdoc herr source)
    exact ⟨problem, hp, .inl (hs.under_inside hp)⟩
  | @step root child node hc hw ih =>
    have hbelow : root.Within node := .step hc hw
    rw [under_eq, if_pos (hbelow.price hs herr)]
    -- The walk stops at the root, or goes on to the child.
    cases hof : ofNode? source root with
    | some problem =>
      obtain ⟨-, hstart, hstop⟩ := ofNode?_eq_some hof
      refine ⟨problem, List.mem_singleton_self _, .inr ?_⟩
      rw [Problem.Encloses, hstart, hstop]
      exact hbelow.inside hs
    | none =>
      obtain ⟨problem, hp, hplace⟩ := ih (hs.child hc) hdoc herr
      exact ⟨problem, mem_underAll.mpr ⟨child, hc, hp⟩, hplace⟩

end Cicode.Tree

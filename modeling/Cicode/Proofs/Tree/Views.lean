import Cicode.Tree.Node
import Cicode.Proofs.Parse.Growth

/-!
# The nodes that a tree becomes

A *view* of a tree says how its parent shows it: where its padding begins, and the kind and the
field that the production gives it.  A visible tree becomes one node, above the nodes of its
children; a hidden one becomes the nodes of its children (`View.nodes_eq`).
-/

namespace Cicode.Tree

open Grammar Text Parse

/-- A tree as its parent shows it. -/
structure View where
  /-- Where the padding of the tree begins. -/
  position : Extent
  /-- The kind that the production gives it. -/
  shown : Option Symbol
  /-- The field that refers to it. -/
  field : Option Field
  /-- The tree. -/
  tree : Subtree

/-- The views of the children of a production; `place` is that of the first of them. -/
def views (production place : Nat) (position : Extent) (inherited : Option Field) :
    List Subtree → List View
  | [] => []
  | tree :: rest =>
    (if tree.isExtra then ⟨position, none, none, tree⟩
      else ⟨position, shownKind production place, fieldAt production place <|> inherited, tree⟩) ::
    views production (if tree.isExtra then place else place + 1) (position + tree.totalSize) inherited
      rest

namespace View

/-- The nodes that the tree becomes. -/
def nodes (v : View) : List Node := Node.prepend v.position v.shown v.field [] v.tree

/-- Whether the tree becomes a node itself. -/
def isShown (v : View) : Bool := v.shown.isSome || v.tree.isVisible

/-- What is known of the node that the tree becomes. -/
def label (v : View) : Label :=
  { kind := v.shown.getD v.tree.symbol, field := v.field, isExtra := v.tree.isExtra,
    isMissing := v.tree.facts.missing, hasError := v.tree.errorCost > 0,
    start := v.position + v.tree.facts.padding,
    stop := v.position + v.tree.facts.padding + v.tree.facts.size }

/-- The views of the children.  A hidden tree hands on its field. -/
def inner (v : View) : List View :=
  views v.tree.facts.production 0 v.position (if v.isShown then none else v.field) v.tree.children

end View

mutual

theorem prepend_others (position : Extent) (shown : Option Symbol) (field : Option Field)
    (others : List Node) : ∀ tree : Subtree, Node.prepend position shown field others tree =
      Node.prepend position shown field [] tree ++ others
  | .node facts children => by
    rw [Node.prepend, Node.prepend]
    split
    · rfl
    · exact prependAll_others _ _ _ _ _ children

theorem prependAll_others (production place : Nat) (position : Extent) (inherited : Option Field)
    (others : List Node) : ∀ trees : List Subtree,
    Node.prependAll production place position inherited others trees =
      Node.prependAll production place position inherited [] trees ++ others
  | [] => rfl
  | .node facts children :: rest => by
    rw [Node.prependAll, Node.prependAll]
    split
    · rw [prepend_others _ _ _ _ (.node facts children),
        prependAll_others _ _ _ _ others rest,
        prepend_others _ _ _ (Node.prependAll _ _ _ _ [] rest) (.node facts children)]
      exact (List.append_assoc ..).symm
    · rw [prepend_others _ _ _ _ (.node facts children),
        prependAll_others _ _ _ _ others rest,
        prepend_others _ _ _ (Node.prependAll _ _ _ _ [] rest) (.node facts children)]
      exact (List.append_assoc ..).symm

end

theorem prependAll_eq (production place : Nat) (position : Extent) (inherited : Option Field)
    (trees : List Subtree) : Node.prependAll production place position inherited [] trees =
      (views production place position inherited trees).flatMap View.nodes := by
  induction trees generalizing place position with
  | nil => rfl
  | cons tree rest ih =>
    obtain ⟨facts, children⟩ := tree
    rw [Node.prependAll, views, List.flatMap_cons]
    simp only [← ih]
    by_cases he : facts.extra = true
    · have hx : (Subtree.node facts children).isExtra = true := he
      rw [if_pos he, if_pos he, if_pos hx, if_pos hx, prepend_others]
      rfl
    · have hx : ¬(Subtree.node facts children).isExtra = true := he
      rw [if_neg he, if_neg he, if_neg hx, if_neg hx, prepend_others]
      rfl

namespace View

/-- **A visible tree becomes one node, a hidden one the nodes of its children.** -/
theorem nodes_eq (v : View) : v.nodes =
    if v.isShown then [.node v.label (v.inner.flatMap nodes)] else v.inner.flatMap nodes := by
  obtain ⟨position, shown, field, ⟨facts, children⟩⟩ := v
  rw [nodes, Node.prepend, prependAll_eq, prependAll_eq]
  by_cases h : (shown.isSome || facts.symbol.isVisible) = true
  · have hs : (View.mk position shown field (.node facts children)).isShown = true := h
    rw [if_pos h, if_pos hs, inner, if_pos hs]
    rfl
  · have hs : ¬(View.mk position shown field (.node facts children)).isShown = true := h
    rw [if_neg h, if_neg hs, inner, if_neg hs]
    rfl

end View

/-! ## The views of children -/

theorem mem_views {production place : Nat} {position : Extent} {inherited : Option Field}
    {trees : List Subtree} {v : View} (h : v ∈ views production place position inherited trees) :
    v.tree ∈ trees ∧ (v.shown.isSome = true → v.tree.isExtra = false ∧ ∃ pre post,
      trees = pre ++ v.tree :: post ∧ v.shown = shownKind production (place + (spelling pre).length)) := by
  induction trees generalizing place position with
  | nil => cases h
  | cons tree rest ih =>
    rw [views] at h
    rcases List.mem_cons.mp h with rfl | h
    · by_cases hx : tree.isExtra = true
      · rw [if_pos hx]
        exact ⟨by simp, fun hs => by simp at hs⟩
      · rw [if_neg hx]
        exact ⟨by simp, fun _ => ⟨by simpa using hx, [], rest, rfl, rfl⟩⟩
    · obtain ⟨hmem, hshown⟩ := ih h
      refine ⟨List.mem_cons_of_mem _ hmem, fun hs => ?_⟩
      obtain ⟨he, pre, post, rfl, heq⟩ := hshown hs
      refine ⟨he, tree :: pre, post, rfl, ?_⟩
      rw [heq, spelling_cons]
      by_cases hx : tree.isExtra = true
      · rw [if_pos hx, if_pos hx]
      · rw [if_neg hx, if_neg hx, List.length_cons, Nat.add_assoc, Nat.add_comm 1]

theorem exists_view {trees : List Subtree} {tree : Subtree} (h : tree ∈ trees) (production place : Nat)
    (position : Extent) (inherited : Option Field) :
    ∃ v ∈ views production place position inherited trees, v.tree = tree := by
  induction trees generalizing place position with
  | nil => cases h
  | cons first rest ih =>
    rw [views]
    rcases List.mem_cons.mp h with rfl | h
    · refine ⟨_, List.mem_cons_self, ?_⟩
      split <;> rfl
    · obtain ⟨v, hv, heq⟩ := ih h _ _
      exact ⟨v, List.mem_cons_of_mem _ hv, heq⟩

end Cicode.Tree

import Cicode.Proofs.Parse.Run
import Cicode.Proofs.Tree.Coverage

/-!
# Where the nodes of a syntax tree begin and end

The trees that the parser builds lie in the text, and a node takes up what its tree does.  So every
node of a syntax tree begins and ends between two characters of the text (`allPlaced_parse`).
-/

namespace Cicode.Tree

open Grammar Text Parse

/-- The node begins and ends between characters of the text, and does not end before it begins. -/
structure Node.Placed (chars : List Char) (node : Node) : Prop where
  start : IsPlace chars node.label.start
  stop : IsPlace chars node.label.stop
  le : node.label.start.bytes ≤ node.label.stop.bytes

/-- The trees that views show lie where the views say. -/
theorem lies_views {chars : List Char} {production place : Nat} {position : Extent}
    {inherited : Option Field} {trees : List Subtree} (h : LieAll chars position trees) {v : View}
    (hv : v ∈ views production place position inherited trees) : ∃ pre post,
      trees = pre ++ v.tree :: post ∧ v.position = position + extentOf pre := by
  induction trees generalizing place position with
  | nil => cases hv
  | cons tree rest ih =>
    rw [views] at hv
    rcases List.mem_cons.mp hv with rfl | hv
    · refine ⟨[], rest, ?_, ?_⟩ <;> split <;> simp
    · obtain ⟨pre, post, heq, hpos⟩ := ih (lieAll_cons.mp h).2 hv
      refine ⟨tree :: pre, post, by rw [heq]; rfl, ?_⟩
      rw [hpos, extentOf_cons, Extent.add_assoc]

/-- A node and all that is below it are placed. -/
def Node.AllPlaced (chars : List Char) (node : Node) : Prop :=
  ∀ inner, node.Within inner → inner.Placed chars

theorem Node.AllPlaced.mk {chars : List Char} {node : Node} (h : node.Placed chars)
    (hc : ∀ child ∈ node.children, child.AllPlaced chars) : node.AllPlaced chars := by
  intro inner hin
  cases hin with
  | refl => exact h
  | step hchild hin => exact hc _ hchild inner hin

theorem View.placed_label {chars : List Char} {v : View} (h : Lies chars v.position v.tree)
    (children : List Node) : (Node.node v.label children).Placed chars :=
  ⟨h.start, h.stop, Nat.le_add_right ..⟩

/-- A tree that lies in the text becomes nodes that are placed, if its children do. -/
theorem View.allPlaced {chars : List Char} {v : View} (h : Lies chars v.position v.tree)
    (hin : ∀ w ∈ v.inner, ∀ node ∈ w.nodes, node.AllPlaced chars) :
    ∀ node ∈ v.nodes, node.AllPlaced chars := by
  have hall : ∀ node ∈ v.inner.flatMap View.nodes, node.AllPlaced chars := by
    intro node hnode
    obtain ⟨w, hw, hmem⟩ := List.mem_flatMap.mp hnode
    exact hin w hw node hmem
  rw [View.nodes_eq]
  split
  · intro node hnode
    obtain rfl := List.mem_singleton.mp hnode
    exact .mk (View.placed_label h _) hall
  · exact hall

/-- **The nodes that a tree becomes begin and end between characters**, where the tree lies. -/
theorem allPlaced_nodes {chars : List Char} {position : Extent} {tree : Subtree}
    (h : Lies chars position tree) (v : View) (hpos : v.position = position) (htree : v.tree = tree) :
    ∀ node ∈ v.nodes, node.AllPlaced chars := by
  induction h generalizing v with
  | leaf hplace hstart hstop hname =>
    refine View.allPlaced (hpos ▸ htree ▸ .leaf hplace hstart hstop hname) fun w hw => ?_
    rw [View.inner, htree] at hw
    cases hw
  | node hp hs hall ih =>
    refine View.allPlaced (hpos ▸ htree ▸ .node hp hs hall) fun w hw => ?_
    rw [View.inner, htree, hpos] at hw
    obtain ⟨pre, post, heq, hwpos⟩ := lies_views hall hw
    exact ih pre w.tree post heq w hwpos rfl

theorem allPlaced_ofSubtree {chars : List Char} {tree : Subtree} (h : Lies chars 0 tree) :
    (Node.ofSubtree tree).AllPlaced chars := by
  refine allPlaced_nodes h (rootView tree) rfl rfl _ ?_
  rw [ofSubtree_eq, (rootView tree).nodes_eq, if_pos (isShown_rootView tree)]
  exact List.mem_singleton_self _

/-- **Every node of the syntax tree of a text begins and ends between its characters.** -/
theorem allPlaced_parse (chars : List Char) : (Node.parse chars).AllPlaced chars :=
  allPlaced_ofSubtree (isWhole_parse chars).lies

end Cicode.Tree

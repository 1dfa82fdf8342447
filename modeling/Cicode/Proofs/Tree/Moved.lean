import Cicode.Proofs.Parse.Moved
import Cicode.Proofs.Tree.Views

/-!
# Nodes further on in a text

Trees that have moved become the same nodes, which have moved as far (`Node.moved`).

Main statement (`Moved.prepend`): a tree that has moved becomes the same nodes, moved.
-/

namespace Cicode.Tree

open Text Parse Grammar

namespace Node

mutual

/-- The node further on. -/
def moved (e : Extent) : Node → Node
  | .node label children =>
    .node { label with start := e + label.start, stop := e + label.stop } (movedAll e children)

/-- Each of some nodes further on. -/
def movedAll (e : Extent) : List Node → List Node
  | [] => []
  | first :: rest => moved e first :: movedAll e rest

end

theorem movedAll_eq (e : Extent) (nodes : List Node) : movedAll e nodes = nodes.map (moved e) := by
  induction nodes with
  | nil => rw [movedAll, List.map_nil]
  | cons n nodes ih => rw [movedAll, List.map_cons, ih]

theorem kind_moved (e : Extent) (node : Node) : (node.moved e).kind = node.kind := by
  cases node
  rw [moved]
  rfl

theorem label_moved (e : Extent) (node : Node) : (node.moved e).label =
    { node.label with start := e + node.label.start, stop := e + node.label.stop } := by
  cases node
  rw [moved]
  rfl

theorem children_moved (e : Extent) (node : Node) : (node.moved e).children = node.children.map (moved e) := by
  obtain ⟨label, children⟩ := node
  rw [moved, Node.children, movedAll_eq]
  rfl

/-- Filtering by the kind commutes with moving. -/
theorem filter_moved {e : Extent} (p : Symbol → Bool) (nodes : List Node) :
    (nodes.map (moved e)).filter (p ·.kind) = (nodes.filter (p ·.kind)).map (moved e) := by
  rw [List.filter_map]
  congr 1
  refine List.filter_congr fun node _ => ?_
  show p (node.moved e).kind = _
  rw [kind_moved]

mutual

theorem moved_zero : ∀ node : Node, node.moved 0 = node
  | .node label children => by
    rw [moved, movedAll_zero children, Extent.zero_add, Extent.zero_add]

theorem movedAll_zero : ∀ nodes : List Node, movedAll 0 nodes = nodes
  | [] => by rw [movedAll]
  | first :: rest => by rw [movedAll, moved_zero first, movedAll_zero rest]

end

mutual

/-- A tree that stands further on becomes the same nodes, moved. -/
theorem prepend_moved (e : Extent) : ∀ (t : Subtree) (p : Extent) (shown : Option Symbol) (field : Option Field)
    (others : List Node), prepend (e + p) shown field (movedAll e others) t =
      movedAll e (prepend p shown field others t)
  | .node facts children, p, shown, field, others => by
    rw [prepend, prepend]
    have hinner := prependAll_moved e children facts.production 0 p none []
    rw [movedAll] at hinner
    split
    · rw [movedAll, moved, ← hinner]
      simp only [Extent.add_assoc]
    · exact prependAll_moved e children facts.production 0 p field others

theorem prependAll_moved (e : Extent) : ∀ (ts : List Subtree) (production place : Nat) (p : Extent)
    (inherited : Option Field) (others : List Node),
    prependAll production place (e + p) inherited (movedAll e others) ts =
      movedAll e (prependAll production place p inherited others ts)
  | [], _, _, _, _, _ => by rw [prependAll, prependAll]
  | .node facts children :: rest, production, place, p, inherited, others => by
    have hrest := prependAll_moved e rest production (if facts.extra then place else place + 1)
      (p + (facts.padding + facts.size)) inherited others
    rw [prependAll, prependAll]
    simp only [Extent.add_assoc, hrest]
    split
    · exact prepend_moved e (.node facts children) p none none _
    · exact prepend_moved e (.node facts children) p _ _ _

end

end Node

/-- A tree with another padding becomes the same nodes, moved, if its children do. -/
theorem prepend_padded {e p p' padding : Extent} {facts : Facts} {cs cs' : List Subtree}
    (hp : p' + padding = e + (p + facts.padding))
    (hall : ∀ (inherited : Option Field) (others : List Node),
      Node.prependAll facts.production 0 p' inherited (Node.movedAll e others) cs' =
        Node.movedAll e (Node.prependAll facts.production 0 p inherited others cs))
    (shown : Option Symbol) (field : Option Field) (others : List Node) :
    Node.prepend p' shown field (Node.movedAll e others) (.node { facts with padding } cs') =
      Node.movedAll e (Node.prepend p shown field others (.node facts cs)) := by
  have hinner := hall none []
  rw [Node.movedAll] at hinner
  rw [Node.prepend, Node.prepend]
  split
  · rw [Node.movedAll, Node.moved, ← hinner]
    simp only [hp, ← Extent.add_assoc]
  · exact hall field others

/-- **A tree that has moved becomes the same nodes, moved.** -/
theorem Moved.prepend {e p p' : Extent} {t t' : Subtree} (h : Subtree.Moved e p p' t t') (shown : Option Symbol)
    (field : Option Field) (others : List Node) :
    Node.prepend p' shown field (Node.movedAll e others) t' =
      Node.movedAll e (Node.prepend p shown field others t) := by
  induction h generalizing shown field others with
  | same t => exact Node.prepend_moved e t p shown field others
  | @leaf p' padding facts hp =>
    refine prepend_padded hp (fun _ _ => ?_) shown field others
    rw [Node.prependAll, Node.prependAll]
  | @parent p' symbol production c c' cs hc ih =>
    have hparent : Subtree.Moved e p p' (.ofChildren symbol production (c :: cs))
        (.ofChildren symbol production (c' :: cs)) := .parent hc
    obtain ⟨padding, hpadded, hp⟩ := hparent.exists_padded
    have hfacts := hpadded.facts_eq
    rw [show Subtree.ofChildren symbol production (c' :: cs) =
        .node (Subtree.ofChildren symbol production (c' :: cs)).facts (c' :: cs) from rfl, hfacts]
    rw [show Subtree.ofChildren symbol production (c :: cs) =
        .node (Subtree.ofChildren symbol production (c :: cs)).facts (c :: cs) from rfl]
    generalize (Subtree.ofChildren symbol production (c :: cs)).facts = facts at hp
    have hall : ∀ (production place : Nat) (inherited : Option Field) (others : List Node),
        Node.prependAll production place p' inherited (Node.movedAll e others) (c' :: cs) =
          Node.movedAll e (Node.prependAll production place p inherited others (c :: cs)) := by
      intro production place inherited others
      have hextra := hc.isExtra_eq
      have hstop := hc.stop_eq
      obtain ⟨facts₁, cs₁⟩ := c
      obtain ⟨facts₂, cs₂⟩ := c'
      have hextra : facts₂.extra = facts₁.extra := hextra
      have hstop : p' + (facts₂.padding + facts₂.size) = e + (p + (facts₁.padding + facts₁.size)) := hstop
      rw [Node.prependAll, Node.prependAll]
      simp only [hextra, hstop, Node.prependAll_moved]
      split
      · exact ih none none _
      · exact ih _ _ _
    exact prepend_padded hp (fun inherited others => hall facts.production 0 inherited others) shown field others

end Cicode.Tree

import Cicode.Tree.Node

/-!
# Cursors on a syntax tree

A `Cursor` is a node together with its surroundings inside the tree in which the walk began. It can
be moved to the first child and on to the next node that is not below it, so that a walk over a tree
needs no recursion however deep the tree is.
-/

namespace Cicode.Tree

/-- One step of the way from the cursor up to the node where the walk began. -/
structure Frame where
  /-- The parent. -/
  parent : Node
  /-- The siblings after the node below. -/
  later : List Node
  deriving Inhabited

/-- A node with its surroundings. -/
structure Cursor where
  /-- The node at the cursor. -/
  node : Node
  /-- The way up, the nearest step first. -/
  path : List Frame
  deriving Inhabited

namespace Cursor

/-- The cursor at the node where a walk begins. -/
def ofNode (node : Node) : Cursor := ⟨node, []⟩

/-- How far the cursor is below the node where the walk began. -/
def depth (cursor : Cursor) : Nat := cursor.path.length

/-- The first child. -/
def firstChild? (cursor : Cursor) : Option Cursor :=
  match cursor.node.children with
  | [] => none
  | child :: later => some ⟨child, ⟨cursor.node, later⟩ :: cursor.path⟩

/-- The next node that is not below the cursor, searched along the way up, and the nodes that the
cursor climbed out of. -/
def climb (left : List Node) : List Frame → Option Cursor × List Node
  | [] => (none, left)
  | ⟨parent, sibling :: later⟩ :: path => (some ⟨sibling, ⟨parent, later⟩ :: path⟩, left)
  | ⟨parent, []⟩ :: path => climb (parent :: left) path

/-- Move to the next node in the order of the text that is not below the cursor. Also gives the
nodes that the cursor climbs out of, the outermost first. -/
def advance (cursor : Cursor) : Option Cursor × List Node := climb [] cursor.path

/-- Visit every node of a tree, parents before children. `enter` is called when the cursor comes to
a node and decides whether to go below it, `leave` when all below a node has been visited. -/
def walk {σ : Type} (enter : σ → Cursor → σ × Bool) (leave : σ → Node → σ) : Nat → σ → Cursor → σ
  | 0, state, _ => state
  | fuel + 1, state, cursor =>
    let (state, descend) := enter state cursor
    match (if descend then cursor.firstChild? else none) with
    | some child => walk enter leave fuel state child
    | none =>
      let (next, left) := cursor.advance
      let state := left.reverse.foldl leave (leave state cursor.node)
      match next with
      | some next => walk enter leave fuel state next
      | none => state

end Cursor

end Cicode.Tree

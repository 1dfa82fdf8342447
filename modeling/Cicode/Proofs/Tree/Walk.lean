import Cicode.Proofs.Tree.Problems

/-!
# Walks come to an end

A walk of a cursor takes one *turn* after another: at a node it either goes below it, or on to the next
node that is pending, until nothing is pending.  `Cursor.Turns` says of a walk that it has ended, after
how many turns and with what result; it does not know of a bound on their number.

Main statement (`Cursor.turns_walk`): every walk over a tree ends, whatever is done at its nodes, and it
takes at most one turn for each node of the tree.
-/

namespace Cicode.Tree.Cursor

section

variable {σ : Type} (enter : σ → Cursor → σ × Bool) (leave : σ → Node → σ)

/-- One turn of a walk: what is known after it, and where the cursor stands then. -/
def turn (state : σ) (cursor : Cursor) : σ × Option Cursor :=
  match (if (enter state cursor).2 then cursor.firstChild? else none) with
  | some child => ((enter state cursor).1, some child)
  | none =>
    (cursor.advance.2.reverse.foldl leave (leave (enter state cursor).1 cursor.node),
      cursor.advance.1)

/-- The walk ends with the result after a number of turns. -/
inductive Turns : Nat → σ → Cursor → σ → Prop
  /-- Nothing is left to visit. -/
  | stop {state result : σ} {cursor : Cursor} :
    turn enter leave state cursor = (result, none) → Turns 1 state cursor result
  /-- The walk goes on at another node. -/
  | go {count : Nat} {state between result : σ} {cursor next : Cursor} :
    turn enter leave state cursor = (between, some next) → Turns count between next result →
    Turns (count + 1) state cursor result

/-- The nodes that a cursor has to visit, itself included. -/
def unvisited (cursor : Cursor) : Nat := Node.sizeAll (cursor.node :: pending cursor.path)

variable {enter leave}

theorem walk_turn (fuel : Nat) (state : σ) (cursor : Cursor) :
    walk enter leave (fuel + 1) state cursor =
      match turn enter leave state cursor with
      | (result, none) => result
      | (between, some next) => walk enter leave fuel between next := by
  rw [walk, turn]
  obtain ⟨entered, descend⟩ := enter state cursor
  dsimp only
  cases (if descend = true then cursor.firstChild? else none) with
  | some child => rfl
  | none =>
    obtain ⟨next, left⟩ := cursor.advance
    cases next <;> rfl

/-- A turn leaves one node less to visit. -/
theorem unvisited_turn {state between : σ} {cursor next : Cursor}
    (h : turn enter leave state cursor = (between, some next)) :
    next.unvisited < cursor.unvisited := by
  have hsize : cursor.unvisited =
      Node.sizeAll cursor.node.children + 1 + Node.sizeAll (pending cursor.path) := by
    rw [unvisited, Node.sizeAll, Node.size_eq]
  rw [turn] at h
  split at h
  · rename_i child hchild
    cases h
    -- The cursor goes below the node.
    have hfirst : cursor.firstChild? = some next := by
      split at hchild
      · exact hchild
      · cases hchild
    rw [firstChild?] at hfirst
    split at hfirst
    · cases hfirst
    · rename_i child later hchildren
      cases hfirst
      rw [hsize, hchildren]
      simp only [unvisited, pending, Node.sizeAll, Node.sizeAll_append]
      omega
  · have hnext : cursor.advance.1 = some next := congrArg Prod.snd h
    have hclimb := climb_spec [] cursor.path
    rw [advance] at hnext
    rw [hnext] at hclimb
    rw [hsize, hclimb, unvisited]
    omega

/-- **Every walk ends**, after at most as many turns as there are nodes to visit. -/
theorem turns_walk (fuel : Nat) (state : σ) (cursor : Cursor) (h : cursor.unvisited ≤ fuel) :
    ∃ count ≤ cursor.unvisited,
      Turns enter leave count state cursor (walk enter leave fuel state cursor) := by
  induction fuel generalizing state cursor with
  | zero =>
    rw [unvisited, Node.sizeAll, Node.size_eq] at h
    omega
  | succ fuel ih =>
    rw [walk_turn]
    cases hturn : turn enter leave state cursor with
    | mk between next =>
      cases next with
      | none =>
        refine ⟨1, ?_, .stop hturn⟩
        rw [unvisited, Node.sizeAll, Node.size_eq]
        omega
      | some next =>
        have hless := unvisited_turn hturn
        obtain ⟨count, hcount, hturns⟩ := ih between next (by omega)
        exact ⟨count + 1, by omega, .go hturn hturns⟩

end

/-- A walk that begins at a node has all nodes of its tree to visit. -/
theorem unvisited_ofNode (node : Node) : (ofNode node).unvisited = node.size := by
  simp [unvisited, ofNode, pending, Node.sizeAll]

end Cicode.Tree.Cursor

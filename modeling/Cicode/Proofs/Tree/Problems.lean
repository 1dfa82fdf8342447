import Mathlib
import Cicode.Tree.Problem

/-!
# The list of problems as a recursion

Problems are listed by a walk of a cursor.  What the walk yields is said here by recursion on the
tree (`Problem.under`): nothing below a node without repairs, the node itself if it is a problem,
else the problems below its children.  The cursor has still to visit what lies after it on the way
up (`Cursor.pending`), and each step of the walk either goes below the node or on to the first of
these.

Main statement (`Problem.list_eq`): the list of problems is that of the recursion.
-/

namespace Cicode.Tree

open Text Cicode.Lex

namespace Problem

mutual

/-- The outermost problems of a tree. -/
def under (source : Source) : Node → List Problem
  | .node label children =>
    if label.hasError then
      match ofNode? source (.node label children) with
      | some problem => [problem]
      | none => underAll source children
    else []

/-- The outermost problems of several trees. -/
def underAll (source : Source) : List Node → List Problem
  | [] => []
  | node :: rest => under source node ++ underAll source rest

end

theorem under_eq (source : Source) (node : Node) : under source node =
    if node.hasError then
      match ofNode? source node with
      | some problem => [problem]
      | none => underAll source node.children
    else [] := by
  cases node
  rw [under]
  rfl

theorem mem_underAll {source : Source} {nodes : List Node} {problem : Problem} :
    problem ∈ underAll source nodes ↔ ∃ node ∈ nodes, problem ∈ under source node := by
  induction nodes with
  | nil => simp [underAll]
  | cons node rest ih => simp [underAll, ih]

theorem underAll_append (source : Source) (a b : List Node) :
    underAll source (a ++ b) = underAll source a ++ underAll source b := by
  induction a with
  | nil => rfl
  | cons node rest ih => simp [underAll, ih]

end Problem

/-! ## What a cursor has still to visit -/

namespace Cursor

/-- The nodes after the cursor, along the way up. -/
def pending : List Frame → List Node
  | [] => []
  | frame :: path => frame.later ++ pending path

/-- The next node that is not below the cursor is the first of those that are pending. -/
theorem climb_spec (left : List Node) (path : List Frame) :
    match (climb left path).1 with
    | none => pending path = []
    | some next => pending path = next.node :: pending next.path := by
  induction path generalizing left with
  | nil => rfl
  | cons frame path ih =>
    obtain ⟨parent, later⟩ := frame
    cases later with
    | nil => exact ih (parent :: left)
    | cons sibling later => rfl

end Cursor

theorem Node.sizeAll_append (a b : List Node) :
    Node.sizeAll (a ++ b) = Node.sizeAll a + Node.sizeAll b := by
  induction a with
  | nil => simp [Node.sizeAll]
  | cons node rest ih => simp only [List.cons_append, Node.sizeAll, ih, Nat.add_assoc]

theorem Node.size_eq (node : Node) : node.size = Node.sizeAll node.children + 1 := by
  cases node
  rw [Node.size, Node.children]

namespace Problem

/-- What the walk does at a node. -/
def enter (source : Source) (problems : List Problem) (cursor : Cursor) : List Problem × Bool :=
  if cursor.node.hasError then
    match ofNode? source cursor.node with
    | some problem => (problem :: problems, false)
    | none => (problems, true)
  else (problems, false)

theorem walk_eq (source : Source) (fuel : Nat) (problems : List Problem) (cursor : Cursor)
    (h : Node.sizeAll (cursor.node :: Cursor.pending cursor.path) ≤ fuel) :
    Cursor.walk (enter source) (fun problems _ => problems) fuel problems cursor =
      (underAll source (cursor.node :: Cursor.pending cursor.path)).reverse ++ problems := by
  induction fuel generalizing problems cursor with
  | zero =>
    rw [Node.sizeAll, Node.size_eq] at h
    omega
  | succ fuel ih =>
    rw [Node.sizeAll, Node.size_eq] at h
    have hleave : ∀ (left : List Node) (found : List Problem),
        left.foldl (fun problems _ => problems) found = found := by
      intro left found
      induction left with
      | nil => rfl
      | cons _ _ ih => exact ih
    -- Once nothing below the node is to be visited, the walk goes on with what is pending.
    have hnext : ∀ found, (cursor.advance.1.elim found fun next =>
        Cursor.walk (enter source) (fun problems _ => problems) fuel found next) =
        (underAll source (Cursor.pending cursor.path)).reverse ++ found := by
      intro found
      have hclimb := Cursor.climb_spec [] cursor.path
      rw [Cursor.advance]
      split at hclimb
      · rename_i hnone
        rw [hnone, hclimb]
        rfl
      · rename_i next hsome
        rw [hsome, hclimb]
        refine ih found next ?_
        rw [← hclimb]
        omega
    rw [Cursor.walk]
    simp only [hleave]
    rw [underAll, under_eq, enter]
    by_cases herr : cursor.node.hasError = true
    · rw [if_pos herr, if_pos herr]
      cases hof : ofNode? source cursor.node with
      | some problem =>
        simp only [Bool.false_eq_true, ↓reduceIte]
        refine Eq.trans ?_ ((hnext (problem :: problems)).trans (by simp))
        cases cursor.advance.1 <;> rfl
      | none =>
        simp only [↓reduceIte]
        cases hc : cursor.node.children with
        | nil =>
          simp only [Cursor.firstChild?, hc]
          refine Eq.trans ?_ ((hnext problems).trans (by simp [underAll]))
          cases cursor.advance.1 <;> rfl
        | cons child later =>
          simp only [Cursor.firstChild?, hc]
          rw [hc, Node.sizeAll] at h
          rw [ih _ _ (by simp only [Cursor.pending, Node.sizeAll, Node.sizeAll_append]; omega)]
          simp [Cursor.pending, underAll, underAll_append]
    · rw [if_neg herr, if_neg herr]
      simp only [Bool.false_eq_true, ↓reduceIte, List.nil_append]
      refine Eq.trans ?_ (hnext problems)
      cases cursor.advance.1 <;> rfl

/-- **The list of problems is that of the recursion.** -/
theorem list_eq (source : Source) (node : Node) : list source node = under source node := by
  have hwalk := walk_eq source node.size [] (Cursor.ofNode node)
    (by simp [Cursor.ofNode, Cursor.pending, Node.sizeAll])
  have hlist : list source node =
      (Cursor.walk (enter source) (fun problems _ => problems) node.size [] (Cursor.ofNode node)).reverse :=
    rfl
  rw [hlist, hwalk]
  simp [Cursor.ofNode, Cursor.pending, underAll]

end Problem

end Cicode.Tree

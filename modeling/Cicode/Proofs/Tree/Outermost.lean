import Cicode.Proofs.Program.Listing
import Cicode.Proofs.Tree.Coverage
import Cicode.Proofs.Tree.Walk

/-!
# The outermost problems of a tree

A node stands in a tree at an address, the row of numbers that lead from the top down to it; addresses
in the order of words in a dictionary are the order in which a tree is written, parents before children.
A problem is *outermost* if no node above it is a problem (`OutermostAt`).

The walk that lists problems leaves out what lies below a node that is not marked as holding one, so
the nodes above a problem must be marked (`Node.Marks`).

Main statement (`lists_outermost`): from wherever it begins, the walk ends, and its list holds each
outermost problem once and nothing else, in the order of the addresses.  None of them is above another,
and they begin one after the other.
-/

namespace Cicode.Tree

open Text Cicode.Lex Program

namespace Node

/-- At an address in a tree there is a node: the tree itself, or one below it. -/
inductive Holds : Node → Address → Node → Prop
  | self {node : Node} : node.Holds [] node
  | step {node child inner : Node} {path : Address} {pre post : List Node} :
    node.children = pre ++ child :: post → child.Holds path inner →
    node.Holds (pre.length :: path) inner

theorem Holds.within {node inner : Node} {path : Address} (h : node.Holds path inner) :
    node.Within inner := by
  induction h with
  | self => exact .refl _
  | step hc _ ih => exact .step (by rw [hc]; simp) ih

/-- A node that holds a problem is marked. -/
def Marks (node : Node) : Prop :=
  ∀ inner, node.Within inner → inner.isProblem = true → node.hasError = true

/-- The children of a node lie inside it, one after the other. -/
def Nests (node : Node) : Prop := Spread node.first node.last node.children

theorem everywhere_node {P : Node → Prop} {label : Label} {children : List Node} :
    (Node.node label children).Everywhere P ↔
      P (.node label children) ∧ ∀ child ∈ children, child.Everywhere P :=
  ⟨fun h => ⟨h.self, fun _ hc => h.child hc⟩, fun h => .mk h.1 h.2⟩

theorem Everywhere.within {P : Node → Prop} {node inner : Node} (h : node.Everywhere P)
    (hw : node.Within inner) : inner.Everywhere P :=
  fun other ho => h other (hw.trans ho)

end Node

namespace Problem

variable {source : Source}

/-- At an address there is a problem, and no node above it is one. -/
def OutermostAt (source : Source) (node : Node) (path : Address) (problem : Problem) : Prop :=
  ∃ inner, node.Holds path inner ∧ ofNode? source inner = some problem ∧
    ∀ above outer, above <+: path → above ≠ path → node.Holds above outer → outer.isProblem = false

/-- **No outermost problem is above another one.** -/
theorem OutermostAt.not_above {node : Node} {p q : Address} {a b : Problem}
    (ha : OutermostAt source node p a) (hb : OutermostAt source node q b) (hpq : p <+: q) : p = q := by
  obtain ⟨inner, hholds, hof, -⟩ := ha
  obtain ⟨-, -, -, habove⟩ := hb
  by_contra hne
  have hfree := habove p inner hpq hne hholds
  rw [(ofNode?_eq_some hof).1] at hfree
  cases hfree

theorem ofNode?_eq_none_iff {node : Node} : ofNode? source node = none ↔ node.isProblem = false := by
  rw [ofNode?_eq_none, Node.isProblem, Bool.or_eq_false_iff]

/-- The outermost problem of a node that is one itself is the node. -/
theorem outermostAt_of_some {node : Node} {problem : Problem} (h : ofNode? source node = some problem)
    {p : Address} {a : Problem} : OutermostAt source node p a ↔ p = [] ∧ a = problem := by
  constructor
  · rintro ⟨inner, hholds, hof, habove⟩
    have hp : p = [] := by
      by_contra hne
      have hfree := habove [] node List.nil_prefix (Ne.symm hne) .self
      rw [(ofNode?_eq_some h).1] at hfree
      cases hfree
    subst hp
    cases hholds with
    | self => exact ⟨rfl, Option.some.inj (hof.symm.trans h)⟩
  · rintro ⟨rfl, rfl⟩
    refine ⟨node, .self, h, fun above outer hpre hne => ?_⟩
    exact absurd (List.prefix_nil.mp hpre) hne

/-- The outermost problems of a node that is none itself are those of its children. -/
theorem outermostAt_of_none {node : Node} (h : ofNode? source node = none) {p : Address} {a : Problem} :
    OutermostAt source node p a ↔ AtMember (fun _ => OutermostAt source) node.children p a := by
  constructor
  · rintro ⟨inner, hholds, hof, habove⟩
    cases hholds with
    | self =>
      rw [h] at hof
      cases hof
    | @step _ child _ path pre post hc hin =>
      refine ⟨pre, child, post, path, hc, rfl, inner, hin, hof, fun above outer hpre hne hout => ?_⟩
      refine habove (pre.length :: above) outer (List.cons_prefix_cons.mpr ⟨rfl, hpre⟩) ?_ (.step hc hout)
      exact fun heq => hne (List.cons.inj heq).2
  · rintro ⟨pre, child, post, path, hc, rfl, inner, hin, hof, habove⟩
    refine ⟨inner, .step hc hin, hof, fun above outer hpre hne hout => ?_⟩
    cases hout with
    | self => exact ofNode?_eq_none_iff.mp h
    | @step _ other _ rest front back hc' hin' =>
      obtain ⟨hlength, hinside⟩ := List.cons_prefix_cons.mp hpre
      -- Both ways begin with the same child.
      obtain ⟨rfl, heq⟩ := List.append_inj (hc.symm.trans hc') hlength.symm
      obtain ⟨rfl, -⟩ := List.cons.inj heq
      exact habove rest outer hinside (fun heq => hne (congrArg _ heq)) hin'

mutual

/-- Below a marked node the walk lists the outermost problems. -/
theorem tells_under : ∀ node : Node, node.Everywhere Node.Marks →
    Tells (OutermostAt source node) (under source node)
  | .node label children, h => by
    rw [under_eq]
    by_cases herr : (Node.node label children).hasError = true
    · rw [if_pos herr]
      cases hof : ofNode? source (.node label children) with
      | some problem => exact (Tells.one problem).congr fun p a => (outermostAt_of_some hof).symm
      | none =>
        refine (tells_underAll children fun child hc => h.child hc).congr fun p a => ?_
        exact (outermostAt_of_none hof).symm
    · rw [if_neg herr]
      refine .nil fun p a ⟨inner, hholds, hof, _⟩ => herr ?_
      exact h.self inner hholds.within (ofNode?_eq_some hof).1

theorem tells_underAll : ∀ nodes : List Node, (∀ node ∈ nodes, node.Everywhere Node.Marks) →
    Tells (AtMember (fun _ => OutermostAt source) nodes) (underAll source nodes)
  | [], _ => .nil fun _ _ => atMember_nil
  | node :: rest, h =>
    .member_cons (tells_under node (h node List.mem_cons_self))
      (tells_underAll rest fun other ho => h other (List.mem_cons_of_mem _ ho))

end

theorem inside_of_under {node : Node} (h : node.Everywhere Node.Nests) (hle : node.first ≤ node.last)
    {problem : Problem} (hp : problem ∈ under source node) :
    node.first ≤ problem.start.bytes ∧ problem.start.bytes ≤ node.last := by
  obtain ⟨inner, hw, -, hstart, -⟩ := exists_node_of_under node hp
  rw [hstart]
  show node.first ≤ inner.first ∧ inner.first ≤ node.last
  clear hp hstart
  induction hw with
  | refl => exact ⟨Nat.le_refl _, hle⟩
  | step hc _ ih =>
    obtain ⟨h1, h2, h3⟩ := h.self.inside hc
    obtain ⟨h4, h5⟩ := ih (h.child hc) h2
    exact ⟨Nat.le_trans h1 h4, Nat.le_trans h5 h3⟩

mutual

/-- The problems below a node whose children are in order are in order. -/
theorem pairwise_under : ∀ node : Node, node.Everywhere Node.Nests →
    (under source node).Pairwise fun a b => a.start.bytes ≤ b.start.bytes
  | .node label children, h => by
    rw [under_eq]
    split
    · split
      · exact List.pairwise_singleton ..
      · exact pairwise_underAll children h.self fun child hc => h.child hc
    · exact .nil

theorem pairwise_underAll {low high : Nat} : ∀ nodes : List Node, Spread low high nodes →
    (∀ node ∈ nodes, node.Everywhere Node.Nests) →
    (underAll source nodes).Pairwise fun a b => a.start.bytes ≤ b.start.bytes
  | [], _, _ => .nil
  | node :: rest, hspread, h => by
    have hrest := fun other (ho : other ∈ rest) => h other (List.mem_cons_of_mem _ ho)
    rw [underAll, List.pairwise_append]
    refine ⟨pairwise_under node (h node List.mem_cons_self),
      pairwise_underAll rest hspread.2.2 hrest, fun a ha b hb => ?_⟩
    obtain ⟨other, ho, hb⟩ := mem_underAll.mp hb
    obtain ⟨hafter, hle, -⟩ := hspread.2.2.inside ho
    calc a.start.bytes
      _ ≤ node.last := (inside_of_under (h node List.mem_cons_self) hspread.2.1 ha).2
      _ ≤ other.first := hafter
      _ ≤ b.start.bytes := (inside_of_under (hrest other ho) hle hb).1

end

/-- **The walk lists the outermost problems.**  In a tree whose nodes are marked and nested, from any
node the walk ends after at most one turn for each node below.  Its list tells the outermost problems:
it holds what stands at their addresses, in the order of the tree, once each and nothing else.  No
outermost problem is above another, and the problems begin in the order of the list. -/
theorem lists_outermost {root start : Node} (hmarks : root.Everywhere Node.Marks)
    (hnests : root.Everywhere Node.Nests) (hstart : root.Within start) :
    (∃ turns ≤ start.size, ∃ found,
      Cursor.Turns (enter source) (fun problems _ => problems) turns [] (.ofNode start) found ∧
        list source start = found.reverse) ∧
    Tells (OutermostAt source start) (list source start) ∧
    (∀ p q a b, OutermostAt source start p a → OutermostAt source start q b → p <+: q → p = q) ∧
    (list source start).Pairwise fun a b => a.start.bytes ≤ b.start.bytes := by
  refine ⟨?_, ?_, fun p q a b ha hb => ha.not_above hb, ?_⟩
  · obtain ⟨turns, hturns, hwalk⟩ : ∃ count ≤ (Cursor.ofNode start).unvisited,
        Cursor.Turns (enter source) (fun problems _ => problems) count [] (.ofNode start) _ :=
      Cursor.turns_walk start.size [] (.ofNode start)
      (Nat.le_of_eq (Cursor.unvisited_ofNode start))
    exact ⟨turns, Nat.le_trans hturns (Nat.le_of_eq (Cursor.unvisited_ofNode start)), _, hwalk, rfl⟩
  · rw [list_eq]
    exact tells_under start (hmarks.within hstart)
  · rw [list_eq]
    exact pairwise_under start (hnests.within hstart)

/-- A tree with skipped text, in which a piece stands that begins no token, a comment, and a semicolon
that the text does not hold. -/
def repaired : Node :=
  .node ⟨.sourceFile, none, false, false, true, 0, ⟨9, 0, 9⟩⟩
    [.node ⟨.error, none, false, false, true, 0, ⟨4, 0, 4⟩⟩
      [.node ⟨.error, none, false, false, true, ⟨2, 0, 2⟩, ⟨4, 0, 4⟩⟩ []],
    .node ⟨.comment, none, true, false, false, ⟨5, 0, 5⟩, ⟨9, 0, 9⟩⟩ [],
    .node ⟨.semicolon, none, false, true, true, ⟨9, 0, 9⟩, ⟨9, 0, 9⟩⟩ []]

theorem everywhere_marks_repaired : repaired.Everywhere Node.Marks := by
  have hmarked : ∀ label children, label.hasError = true → (Node.node label children).Marks :=
    fun label children herr _ _ _ => herr
  rw [repaired]
  simp only [Node.everywhere_node, List.forall_mem_cons, List.not_mem_nil,
    IsEmpty.forall_iff, implies_true, and_true]
  refine ⟨hmarked _ _ rfl, ⟨hmarked _ _ rfl, hmarked _ _ rfl⟩, fun inner hw hp => ?_, hmarked _ _ rfl⟩
  cases hw with
  | refl => cases hp
  | step hc => cases hc

theorem everywhere_nests_repaired : repaired.Everywhere Node.Nests := by
  rw [repaired]
  simp only [Node.everywhere_node, List.forall_mem_cons, List.not_mem_nil,
    IsEmpty.forall_iff, implies_true, and_true, Node.Nests,
    Node.children, Spread, Node.first, Node.last, Node.label]
  decide

theorem lists_outermost_repaired : repaired.Everywhere Node.Marks ∧ repaired.Everywhere Node.Nests ∧
    Tells (OutermostAt default repaired) (list default repaired) ∧
    (list default repaired).map (·.start.bytes) = [0, 9] := by
  have h : _ ∧ Tells (OutermostAt default repaired) (list default repaired) ∧ _ :=
    lists_outermost everywhere_marks_repaired everywhere_nests_repaired (.refl repaired)
  exact ⟨everywhere_marks_repaired, everywhere_nests_repaired, h.2.1, by decide⟩

end Problem

end Cicode.Tree

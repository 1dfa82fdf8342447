import Cicode.Proofs.Tree.Names

/-!
# The names of functions

The header of a function is built from parts that all are nodes of their own, so that the field of a name
in it is the one that its production gives: the node that it refers to is shown as the name of a function
(`headed_parse`).
-/

namespace Cicode.Tree

open Grammar Text Parse Cicode.Lex

/-- The name in a header is the name of a function. -/
def Node.Headed (node : Node) : Prop :=
  node.kind = .functionDefinition → ∀ child ∈ node.children, child.label.field = some .name →
    child.kind = .functionName

/-- Nothing else is shown as a header. -/
theorem shownKind_ne_header (production place : Nat) :
    shownKind production place ≠ some .functionDefinition := by
  have hall : ∀ p ∈ productions.toList, ∀ k ∈ p.kinds, k.2 ≠ .functionDefinition := by decide
  intro h
  rw [shownKind] at h
  obtain ⟨p, hp, h⟩ := Option.bind_eq_some_iff.mp h
  obtain ⟨k, hk, hkind⟩ := Option.map_eq_some_iff.mp h
  exact hall p (Array.mem_toList_iff.mpr (Array.mem_of_getElem? hp)) k (List.mem_of_find?_eq_some hk) hkind

/-- The parts of a header are nodes of their own, and the one with the field of a name is shown as the name
of a function. -/
theorem header_parts : ∀ rhs ∈ rightSides .functionDefinition, ∀ q ∈ rhs.zipIdx,
    ((shownKind (productionNumber .functionDefinition rhs) q.2).isSome || q.1.isVisible) = true ∧
    (fieldAt (productionNumber .functionDefinition rhs) q.2 = some .name →
      shownKind (productionNumber .functionDefinition rhs) q.2 = some .functionName) := by
  decide

theorem children_of_endOfInput {t : Subtree} (h : Grown t) (hs : t.symbol = .endOfInput) :
    t.children = [] := by
  cases h with
  | token | invented | unreadable => rfl
  | production hp =>
    rw [Subtree.symbol_ofChildren] at hs
    subst hs
    cases hp.rhs
  | skipped | skipping => simp [Subtree.skipped] at hs

/-- What stands in a header is a node of its own or has no children. -/
theorem views_header {p : Nat} {cs : List Subtree} (hp : IsProduction .functionDefinition p cs)
    (hg : ∀ c ∈ cs, Grown c) {position : Extent} {w : View} (hw : w ∈ views p 0 position none cs) :
    (w.isShown = true ∨ w.tree.children = []) ∧ (w.field = some .name → w.shown = some .functionName) := by
  rcases field_eq_of_views hw with ⟨hx, hf, hs⟩ | ⟨hx, pre, post, heq, hf, hs⟩
  · refine ⟨?_, by simp [hf]⟩
    have hgrown := hg _ (mem_views hw).1
    rw [View.isShown, Subtree.isVisible]
    rcases hgrown.cases_extra hx with hsymbol | hsymbol | ⟨hsymbol, -⟩
    · exact .inl (by rw [hsymbol, hs]; rfl)
    · exact .inr (children_of_endOfInput hgrown hsymbol)
    · exact .inl (by rw [hsymbol, hs]; rfl)
  · have hplace : (spelling cs)[(spelling pre).length]? = some w.tree.symbol := by
      rw [heq, spelling_append, spelling_cons, if_neg (by simp [hx])]
      simp
    have htest := header_parts (spelling cs) hp.rhs (w.tree.symbol, (spelling pre).length)
      (List.mem_zipIdx_iff_getElem?.mpr hplace)
    rw [← hp.number] at htest
    rw [Nat.zero_add] at hf hs
    refine ⟨.inl ?_, fun hfield => ?_⟩
    · rw [View.isShown, hs]
      exact htest.1
    · rw [hs]
      exact htest.2 (by simpa using hf.symm.trans hfield)

namespace View

/-- The children of a tree that is shown. -/
theorem headed_node {v : View} (hg : Grown v.tree) (hv : v.shown ≠ some .functionDefinition)
    (hs : v.isShown = true) : (Node.node v.label (v.inner.flatMap nodes)).Headed := by
  intro hkind child hchild hfield
  have hkind : v.shown.getD v.tree.symbol = .functionDefinition := hkind
  have hsymbol : v.tree.symbol = .functionDefinition := by
    cases hshown : v.shown with
    | none => rwa [hshown] at hkind
    | some kind =>
      rw [hshown] at hkind hv
      exact absurd (congrArg some hkind) hv
  obtain ⟨w, hw, hmem⟩ := List.mem_flatMap.mp hchild
  rw [inner, if_pos hs] at hw
  have hparts : (w.isShown = true ∨ w.tree.children = []) ∧
      (w.field = some .name → w.shown = some .functionName) := by
    generalize v.tree = t at hg hsymbol hw
    cases hg with
    | token | invented | unreadable => cases hw
    | production hp hgrown =>
      rw [Subtree.symbol_ofChildren] at hsymbol
      subst hsymbol
      rw [Subtree.production_ofChildren, Subtree.children_ofChildren] at hw
      exact views_header hp hgrown hw
    | skipped | skipping => simp [Subtree.skipped] at hsymbol
  rw [w.nodes_eq] at hmem
  by_cases hshown : w.isShown = true
  · rw [if_pos hshown, List.mem_singleton] at hmem
    subst hmem
    show w.shown.getD w.tree.symbol = .functionName
    rw [hparts.2 hfield]
    rfl
  · rw [if_neg hshown, inner, hparts.1.resolve_left hshown] at hmem
    cases hmem

/-- What productions show is no header. -/
theorem shown_inner {v w : View} (hw : w ∈ v.inner) : w.shown ≠ some .functionDefinition := by
  intro hshown
  obtain ⟨-, pre, post, -, heq⟩ := (mem_views hw).2 (by rw [hshown]; rfl)
  exact shownKind_ne_header _ _ (heq.symm.trans hshown)

/-- **The nodes that a tree becomes name their functions.** -/
theorem headed_nodes (v : View) (hg : Grown v.tree) (hv : v.shown ≠ some .functionDefinition) :
    ∀ node ∈ v.nodes, node.Everywhere Node.Headed := by
  have hall : ∀ node ∈ v.inner.flatMap nodes, node.Everywhere Node.Headed := by
    intro node hnode
    obtain ⟨w, hw, hmem⟩ := List.mem_flatMap.mp hnode
    have hchild := (mem_views hw).1
    exact headed_nodes w (hg.children _ hchild) (shown_inner hw) node hmem
  rw [v.nodes_eq]
  split
  · rename_i hs
    intro node hnode
    obtain rfl := List.mem_singleton.mp hnode
    exact .mk (headed_node hg hv hs) hall
  · exact hall
termination_by sizeOf v.tree
decreasing_by
  obtain ⟨position, shown, field, ⟨facts, children⟩⟩ := v
  have hlt : sizeOf w.tree < sizeOf children := List.sizeOf_lt_of_mem hchild
  simp only [Subtree.node.sizeOf_spec]
  omega

end View

/-- **The headers in the syntax tree of a text name their functions.** -/
theorem headed_parse (chars : List Char) : (Node.parse chars).Everywhere Node.Headed := by
  have hroot := isRoot_parse chars
  rw [Node.parse]
  generalize Parse.parse chars = root at hroot
  rw [ofSubtree_eq]
  refine .mk (fun hkind => ?_) fun node hnode => ?_
  · have hkind : root.symbol = .functionDefinition := hkind
    cases hroot <;> simp at hkind
  · obtain ⟨w, hw, hmem⟩ := List.mem_flatMap.mp hnode
    exact w.headed_nodes (hroot.children.1 _ (mem_views hw).1) (View.shown_inner hw) node hmem

end Cicode.Tree

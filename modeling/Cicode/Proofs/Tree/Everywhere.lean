import Cicode.Proofs.Tree.Coverage
import Cicode.Proofs.Tree.Depiction

/-!
# What holds of every node of a syntax tree

A view is *known* if its tree is shown as it is, without a field, or as a production of some symbol shows
it.  The views of the children of a grown tree are known, so that what holds of each node that a known
view becomes holds of every node of every syntax tree.

Main statement (`everywhere_root`): this is the principle of induction over syntax trees.
-/

namespace Cicode.Tree

open Grammar Text Parse Cicode.Lex

/-- The tree is shown as it is, or as a production of a symbol shows it. -/
def View.Known (v : View) : Prop :=
  v.shown = none ∧ v.field = none ∨ v.tree.isExtra = false ∧ ∃ symbol, v.Shows symbol v.tree.symbol

namespace View

variable {v : View}

/-- A hidden tree that is known has no field to hand on. -/
theorem Known.inner_eq (h : v.Known) :
    v.inner = views v.tree.facts.production 0 v.position none v.tree.children := by
  rw [inner]
  split
  · rfl
  · rename_i hhidden
    rcases h with ⟨-, hfield⟩ | ⟨-, symbol, hshows⟩
    · rw [hfield]
    · rw [hshows.field, hshows.bare]
      rwa [isShown, hshows.kind, Subtree.isVisible, Bool.not_eq_true] at hhidden

/-- The kind of the node is that of the tree, or the one that a symbol gives to it. -/
theorem Known.kind_eq (h : v.Known) : v.label.kind = v.tree.symbol ∨
    ∃ parent, shownAs parent v.tree.symbol = some v.label.kind := by
  rcases h with ⟨hshown, -⟩ | ⟨-, symbol, hshows⟩
  · exact .inl (by rw [label, hshown]; rfl)
  · have hkind := hshows.kind
    cases hs : shownAs (ownerOf symbol) v.tree.symbol with
    | none => exact .inl (by rw [label, hkind, hs]; rfl)
    | some kind => exact .inr ⟨ownerOf symbol, by rw [hs, label, hkind, hs]; rfl⟩

end View

theorem known_of_unlabelled {production place : Nat} {position : Extent} {cs : List Subtree} {v : View}
    (hkind : ∀ place, shownKind production place = none)
    (hfield : ∀ place, fieldAt production place = none)
    (h : v ∈ views production place position none cs) : v.Known := by
  induction cs generalizing place position with
  | nil => cases h
  | cons c cs ih =>
    rw [views] at h
    rcases List.mem_cons.mp h with rfl | h
    · refine .inl ?_
      split
      · exact ⟨rfl, rfl⟩
      · exact ⟨hkind place, by rw [hfield place]; rfl⟩
    · exact ih h

/-- The views of the children of a production. -/
theorem known_of_rightSide {symbol : Symbol} {rhs : List Symbol} (before : List Symbol)
    (position : Extent) {cs : List Subtree} (hrhs : rhs ∈ rightSides symbol) (heq : rhs = before ++ spelling cs) :
    ∀ v ∈ views (productionNumber symbol rhs) before.length position none cs,
      v.Known ∧ (v.tree.isExtra = false → v.Shows symbol v.tree.symbol) := by
  induction cs generalizing before position with
  | nil => exact fun v hv => nomatch hv
  | cons c cs ih =>
    intro v hv
    rw [views] at hv
    rw [spelling_cons] at heq
    by_cases hx : c.isExtra = true
    · rw [if_pos hx, if_pos hx] at hv
      rw [if_pos hx] at heq
      rcases List.mem_cons.mp hv with rfl | hv
      · exact ⟨.inl ⟨rfl, rfl⟩, fun he => absurd hx (by simpa using he)⟩
      · exact ih before _ heq v hv
    · rw [if_neg hx, if_neg hx] at hv
      rw [if_neg hx] at heq
      have hsplit : rhs = (before ++ [c.symbol]) ++ spelling cs := by simp [heq]
      rcases List.mem_cons.mp hv with rfl | hv
      · have hat : ShowsAt symbol _ before.length c.symbol := showsAt_of_rightSide hrhs (by simp [heq])
        have hshows : View.Shows ⟨position, shownKind (productionNumber symbol rhs) before.length,
            fieldAt (productionNumber symbol rhs) before.length <|> none, c⟩ symbol c.symbol := by
          refine ⟨hat.kind, ?_, hat.bare, hat.round⟩
          rw [← hat.field]
          simp
        exact ⟨.inr ⟨by simpa using hx, symbol, hshows⟩, fun _ => hshows⟩
      · exact ih (before ++ [c.symbol]) _ hsplit v (by simpa using hv)

theorem known_of_production {s : Symbol} {p : Nat} {cs : List Subtree} (hp : IsProduction s p cs)
    (position : Extent) : ∀ v ∈ views p 0 position none cs,
      v.Known ∧ (v.tree.isExtra = false → v.Shows s v.tree.symbol) := by
  rw [hp.number]
  exact known_of_rightSide [] position hp.rhs rfl

/-- The views of the children of a grown tree are known. -/
theorem View.Known.inner {v : View} (h : v.Known) (hg : Grown v.tree) :
    ∀ w ∈ v.inner, Grown w.tree ∧ w.Known := by
  intro w hw
  refine ⟨hg.children _ (mem_views hw).1, ?_⟩
  rw [h.inner_eq] at hw
  generalize v.tree = t at hg hw
  cases hg with
  | token | invented | unreadable => cases hw
  | production hp _ =>
    rw [Subtree.production_ofChildren, Subtree.children_ofChildren] at hw
    exact (known_of_production hp _ w hw).1
  | @skipped cs extra =>
    have hprod : (Subtree.skipped cs extra).facts.production = 0 := Subtree.production_ofChildren ..
    rw [hprod] at hw
    exact known_of_unlabelled (fun _ => rfl) (fun _ => rfl) hw
  | skipping =>
    rw [Subtree.production_ofChildren] at hw
    exact known_of_unlabelled (fun _ => rfl) (fun _ => rfl) hw

section

variable {P : Node → Prop}

/-- What holds of each node that a known view becomes holds of all nodes below it. -/
theorem everywhere_nodes (hP : ∀ v : View, Grown v.tree → v.Known → v.isShown = true →
      P (.node v.label (v.inner.flatMap View.nodes))) {t : Subtree} (hg : Grown t) (v : View)
    (ht : v.tree = t) (hk : v.Known) : ∀ node ∈ v.nodes, node.Everywhere P := by
  -- The children of the tree are known, so that the property holds below them.
  have hstep : ∀ v : View, Grown v.tree → v.Known →
      (∀ c ∈ v.tree.children, ∀ w : View, w.tree = c → w.Known → ∀ node ∈ w.nodes, node.Everywhere P) →
      ∀ node ∈ v.nodes, node.Everywhere P := by
    intro v hg hk ih node hnode
    have hinner : ∀ inner ∈ v.inner.flatMap View.nodes, inner.Everywhere P := by
      intro inner hmem
      obtain ⟨w, hw, hn⟩ := List.mem_flatMap.mp hmem
      exact ih w.tree (mem_views hw).1 w rfl (hk.inner hg w hw).2 inner hn
    rw [View.nodes_eq] at hnode
    by_cases hs : v.isShown = true
    · rw [if_pos hs, List.mem_singleton] at hnode
      rw [hnode]
      exact .mk (hP v hg hk hs) hinner
    · rw [if_neg hs] at hnode
      exact hinner node hnode
  have hgrown := hg
  induction hg generalizing v with
  | token | invented | unreadable =>
    exact hstep v (ht ▸ hgrown) hk (by rw [ht]; exact fun c hc => nomatch hc)
  | production _ hcs ih | skipping hcs ih =>
    refine hstep v (ht ▸ hgrown) hk ?_
    rw [ht, Subtree.children_ofChildren]
    exact fun c hc w hw hkw => ih c hc w hw hkw (hcs c hc)
  | skipped extra hcs _ ih =>
    refine hstep v (ht ▸ hgrown) hk ?_
    rw [ht, Subtree.skipped, Subtree.children_withExtra, Subtree.children_ofChildren]
    exact fun c hc w hw hkw => ih c hc w hw hkw (hcs c hc)

/-- What holds of each node that a known view becomes holds of all nodes below a root. -/
theorem everywhere_below (hP : ∀ v : View, Grown v.tree → v.Known → v.isShown = true →
      P (.node v.label (v.inner.flatMap View.nodes))) {root : Subtree} (h : IsRoot root) :
    ∀ child ∈ (Node.ofSubtree root).children, child.Everywhere P := by
  obtain ⟨hgrown, hprod⟩ := h.children
  intro child hchild
  rw [ofSubtree_eq] at hchild
  obtain ⟨w, hw, hmem⟩ := List.mem_flatMap.mp hchild
  have hw' : w ∈ views 0 0 0 none root.children := by
    rw [View.inner, if_pos (isShown_rootView _)] at hw
    exact hprod ▸ hw
  have hknown : w.Known := known_of_unlabelled (fun _ => rfl) (fun _ => rfl) hw'
  exact everywhere_nodes hP (hgrown _ (mem_views hw').1) w rfl hknown child hmem

/-- **What holds of the root and of each node that a known view becomes holds of every node of a
syntax tree.** -/
theorem everywhere_root (hP : ∀ v : View, Grown v.tree → v.Known → v.isShown = true →
      P (.node v.label (v.inner.flatMap View.nodes))) {root : Subtree} (h : IsRoot root)
    (hroot : P (Node.ofSubtree root)) : (Node.ofSubtree root).Everywhere P :=
  Node.Everywhere.mk hroot (everywhere_below hP h)

end

end Cicode.Tree

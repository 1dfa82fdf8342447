import Cicode.Proofs.Parse.Cutting
import Cicode.Proofs.Tree.Portrait

/-!
# Trees that are held and nodes

A visible tree that the tree of a text holds is shown as a node of the syntax tree, in the same place
(`exists_shown`).  So what is known of the nodes around a place is known of the tokens that the parser
reads there: a place is *free* if it lies inside of no token and inside of no documentation, and behind no
comment that ends with its line (`Node.Free`).

Main statement (`parted_of_free`): at a free place no token is crossed.
-/

namespace Cicode.Tree

open Grammar Text Parse Cicode.Lex

/-- The node shows the tree whose padding begins at a position. -/
structure Node.Shows (node : Node) (position : Extent) (tree : Subtree) : Prop where
  start : node.label.start = position + tree.facts.padding
  stop : node.label.stop = position + tree.totalSize
  leaf : tree.children = [] → node.children = []
  kind : node.kind = tree.symbol ∨ ∃ parent, shownAs parent tree.symbol = some node.kind

section

variable {p q position : Extent} {t u : Subtree} {a b trees : List Subtree}

/-- The view of a tree among others stands behind those before it. -/
theorem exists_view_at (heq : trees = a ++ t :: b) (production place : Nat) (position : Extent)
    (inherited : Option Field) : ∃ v ∈ views production place position inherited trees,
      v.tree = t ∧ v.position = position + extentOf a := by
  subst heq
  induction a generalizing place position with
  | nil =>
    rw [List.nil_append, views]
    refine ⟨_, List.mem_cons_self, ?_⟩
    rw [extentOf_nil, Extent.add_zero]
    split <;> exact ⟨rfl, rfl⟩
  | cons c a ih =>
    rw [List.cons_append, views]
    obtain ⟨v, hv, htree, hposition⟩ := ih (if c.isExtra then place else place + 1) (position + c.totalSize)
    exact ⟨v, List.mem_cons_of_mem _ hv, htree, by rw [hposition, extentOf_cons, Extent.add_assoc]⟩

/-- A visible tree is shown by the node it becomes. -/
theorem View.shows {v : View} (hk : v.Known) :
    (Node.node v.label (v.inner.flatMap View.nodes)).Shows v.position v.tree := by
  refine ⟨rfl, Extent.add_assoc .., fun hnil => ?_, hk.kind_eq⟩
  show v.inner.flatMap View.nodes = []
  rw [View.inner, hnil]
  rfl

/-- **A visible tree that another one holds is shown below it.** -/
theorem exists_shown_of_holds (h : Holds p t q u) (hg : Grown t) (hu : u.isVisible = true) (v : View)
    (hp : v.position = p) (ht : v.tree = t) (hk : v.Known) :
    ∃ node ∈ v.nodes, ∃ inner, node.Within inner ∧ inner.Shows q u := by
  induction h generalizing v with
  | @self p t =>
    have hs : v.isShown = true := by
      rw [View.isShown, ht, hu, Bool.or_true]
    refine ⟨_, by rw [View.nodes_eq, if_pos hs]; exact List.mem_singleton_self _, _, .refl _, ?_⟩
    rw [← hp, ← ht]
    exact View.shows hk
  | @child p q t u c a b heq _ ih =>
    obtain ⟨w, hw, htree, hposition⟩ := exists_view_at heq v.tree.facts.production 0 v.position
      (if v.isShown then none else v.field)
    have hin : w ∈ v.inner := by
      rw [View.inner, ht]
      rwa [ht] at hw
    obtain ⟨hgw, hkw⟩ := hk.inner (ht ▸ hg) w hin
    obtain ⟨node, hnode, inner, hinner, hshows⟩ := ih (htree ▸ hgw) hu w (by rw [hposition, hp]) htree hkw
    have hmem : node ∈ v.inner.flatMap View.nodes := List.mem_flatMap.mpr ⟨w, hin, hnode⟩
    rw [View.nodes_eq]
    split
    · exact ⟨_, List.mem_singleton_self _, inner, .step hmem hinner, hshows⟩
    · exact ⟨node, hmem, inner, hinner, hshows⟩

/-- A visible tree that a root holds is shown in its syntax tree. -/
theorem exists_shown_of_root {root : Subtree} (hroot : IsRoot root) (hu : u.isVisible = true)
    (h : HoldAll 0 root.children q u) : ∃ node, (Node.ofSubtree root).Within node ∧ node.Shows q u := by
  obtain ⟨a, t, b, heq, ht⟩ := h
  obtain ⟨hgrown, hproduction⟩ := hroot.children
  obtain ⟨w, hw, htree, hposition⟩ := exists_view_at heq 0 0 0 none
  have hin : w ∈ (rootView root).inner := by
    rw [View.inner, if_pos (isShown_rootView root)]
    show w ∈ views root.facts.production 0 0 none root.children
    rwa [hproduction]
  have hknown : w.Known := known_of_unlabelled (fun _ => rfl) (fun _ => rfl) hw
  have hg : Grown t := hgrown t (by rw [heq]; simp)
  obtain ⟨node, hnode, inner, hinner, hshows⟩ :=
    exists_shown_of_holds ht (htree ▸ hg) hu w hposition htree hknown
  refine ⟨inner, ?_, hshows⟩
  rw [ofSubtree_eq]
  exact .step (List.mem_flatMap.mpr ⟨w, hin, hnode⟩) hinner

/-- **A visible tree that the tree of a text holds is shown in its syntax tree.** -/
theorem exists_shown (chars : List Char) (hu : u.isVisible = true)
    (h : HoldAll 0 (Parse.parse chars).children q u) :
    ∃ node, (Node.parse chars).Within node ∧ node.Shows q u := by
  rw [Node.parse]
  exact exists_shown_of_root (isRoot_parse chars) hu h

end

/-! ## Free places -/

/-- The place lies inside of no token and inside of no documentation, and behind no comment that ends with
its line. -/
structure Node.Free (source : Source) (root : Node) (place : Nat) : Prop where
  outside : ∀ node, root.Within node → node.children = [] ∨ node.kind ∈ docKinds →
    ¬ (node.first < place ∧ place < node.last)
  line : ∀ node, root.Within node → node.kind = .comment →
    IsLine (source.slice node.label.start node.label.stop) → node.last ≠ place

/-- The tokens that are not shown are those of documentation, and the end of the text. -/
theorem hidden_tokens : ∀ symbol : Symbol, symbol.isTerminal = true → symbol.isVisible = false →
    symbol = .endOfInput ∨ symbol ∈ docTokens := by
  intro symbol
  cases symbol <;> decide

/-- Documentation comments are shown under their own names. -/
theorem docKinds_shown : ∀ symbol ∈ docKinds, symbol.isVisible = true := by
  decide

theorem shownAs_docKinds (parent : Symbol) : ∀ symbol ∈ .comment :: docKinds, shownAs parent symbol = none := by
  intro symbol hs
  rw [shownAs.eq_def]
  split
  all_goals first
    | rfl
    | exact absurd hs (by decide)

theorem Node.Shows.kind_eq {node : Node} {q : Extent} {u : Subtree} (h : node.Shows q u)
    (hs : u.symbol ∈ .comment :: docKinds) : node.kind = u.symbol := by
  rcases h.kind with hk | ⟨parent, hk⟩
  · exact hk
  · rw [shownAs_docKinds parent _ hs] at hk
    cases hk

/-- A visible tree that is held is not crossed at a free place, if it is a token or documentation. -/
theorem Node.Free.holds {chars : List Char} {place : Nat}
    (hfree : (Node.parse chars).Free (.ofList chars) place) {q : Extent} {u : Subtree}
    (hu : HoldAll 0 (Parse.parse chars).children q u) (hv : u.isVisible = true)
    (hk : u.children = [] ∨ u.symbol ∈ docKinds) :
    place ≤ (q + u.facts.padding).bytes ∨ (q + u.totalSize).bytes ≤ place := by
  obtain ⟨node, hin, hshows⟩ := exists_shown chars hv hu
  have hcrossed := hfree.outside node hin (hk.imp hshows.leaf fun hs => by
    rw [hshows.kind_eq (List.mem_cons_of_mem _ hs)]
    exact hs)
  rw [Node.first, Node.last, hshows.start, hshows.stop] at hcrossed
  omega

/-- A token that is read stands in the tree of the text. -/
theorem exists_token {chars : List Char} {floors floors' last : List Floor} {p : Piece}
    (h : Floor.Step chars last floors floors' p) : ∃ u : Subtree,
      HoldAll 0 (parse chars).children (Floor.reach floors) u ∧ u.symbol = p.token.symbol ∧
        u.facts.padding = Extent.of p.blank ∧ Floor.reach floors + u.totalSize = Floor.reach floors' ∧
        u.children = [] := by
  obtain ⟨extra, hu⟩ := h.completes.holds_token h.arrives h.reads
  rw [Floor.next_piece h.piece] at hu
  refine ⟨_, hu, Subtree.symbol_withExtra .., rfl, ?_, rfl⟩
  rw [h.reach_eq, ← Floor.totalSize_ofToken_piece]
  rfl

/-- **At a free place no token is crossed**, and no documentation. -/
theorem parted_of_free {chars : List Char} {before last : List Floor} (h : Floor.Ends chars before last)
    {place : Nat} (hfree : (Node.parse chars).Free (.ofList chars) place) (c : Char) :
    Floor.Parted chars last place c := by
  obtain ⟨cs, hparse, hclean, -, hrhs, -⟩ := h.exists_root
  have hchildren : (parse chars).children = cs := by rw [hparse, Subtree.children_ofChildren]
  -- The documentation around a token of its own is shown.
  have hdoc : ∀ {q : Extent} {u : Subtree}, HoldAll 0 (parse chars).children q u → u.symbol ∈ docTokens →
      (place ≤ (q + u.facts.padding).bytes ∨ (q + u.totalSize).bytes ≤ place) ∧
        (u.symbol ∈ docInner → place < q.bytes ∨ (q + u.totalSize).bytes ≤ place) := by
    intro q u hu hs
    rw [hchildren] at hu
    obtain ⟨r, v, hv, hkind, hstart, hstop, hinner⟩ := hu.exists_doc hclean hrhs hs
    rw [← hchildren] at hv
    have hcrossed := hfree.holds hv (docKinds_shown _ hkind) (.inr hkind)
    refine ⟨by omega, fun hin => ?_⟩
    have hlt := hinner hin
    omega
  refine ⟨fun {floors floors' p} hstep => ?_, fun {floors floors' p} hstep hin => ?_,
    fun _ {floors floors' p} hstep hcomment hline => ?_⟩
  · obtain ⟨u, hu, hsymbol, hpadding, htotal, hleaf⟩ := exists_token hstep
    have hcrossed : place ≤ (Floor.reach floors + u.facts.padding).bytes ∨
        (Floor.reach floors + u.totalSize).bytes ≤ place := by
      cases hv : u.isVisible with
      | true => exact hfree.holds hu hv (.inl hleaf)
      | false =>
        obtain ⟨action, haction⟩ := Option.ne_none_iff_exists'.mp hstep.alive
        have hterm : u.symbol.isTerminal = true := hsymbol ▸ isTerminal_of_chosen haction
        rcases hidden_tokens _ hterm hv with hend | hs
        · obtain ⟨hword, -⟩ := hstep.arrives.end_of_piece hstep.piece (hsymbol ▸ hend)
          exact absurd hword hstep.word_ne_nil
        · exact (hdoc hu hs).1
    rw [htotal, hpadding, Extent.bytes_add, Extent.bytes_of] at hcrossed
    exact hcrossed.symm
  · obtain ⟨u, hu, hsymbol, -, htotal, -⟩ := exists_token hstep
    have hs : u.symbol ∈ docInner := hsymbol ▸ hin
    have hcrossed := (hdoc hu (List.mem_append_right _ hs)).2 hs
    rw [htotal] at hcrossed
    exact hcrossed.symm
  · obtain ⟨u, hu, hsymbol, hpadding, htotal, -⟩ := exists_token hstep
    have hs : u.symbol = .comment := hsymbol.trans hcomment
    obtain ⟨node, hnode, hshows⟩ := exists_shown chars (by rw [Subtree.isVisible, hs]; rfl) hu
    have hkind : node.kind = .comment := by rw [hshows.kind_eq (by rw [hs]; exact List.mem_cons_self), hs]
    have htext : (Source.ofList chars).slice node.label.start node.label.stop = p.word := by
      obtain ⟨read, hread, hreach⟩ := hstep.arrives.exists_before
      have hrest := hstep.restOf_eq
      rw [hread, hrest, Piece.text, List.append_assoc, ← List.append_assoc]
      refine slice_of_bytes ?_ ?_
      · rw [hshows.start, hreach, hpadding, Extent.bytes_add, Extent.bytes_of, Extent.bytes_of, byteLength_append]
      · rw [hshows.stop, htotal, hstep.reach_eq, hreach, Extent.bytes_add, Extent.bytes_of, Extent.bytes_of,
          Piece.text, byteLength_append, byteLength_append]
        omega
    have hne := hfree.line node hnode hkind (htext.symm ▸ hline)
    rwa [Node.last, hshows.stop, htotal] at hne

end Cicode.Tree

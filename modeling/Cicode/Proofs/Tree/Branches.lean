import Cicode.Proofs.Tree.Comments
import Cicode.Proofs.Tree.Headers

/-!
# The conditions of IF statements

Whatever was repaired in an IF statement, its condition stands where its production has it: before the
condition there are only the keyword, comments and skipped text (`conditioned_parse`).  Hence the
statements of both branches come after the condition.
-/

namespace Cicode.Tree

open Grammar Text Parse Cicode.Lex

/-- What can stand before the condition of an IF statement. -/
def openingKinds : List Symbol := [.kwIf, .comment, .error]

/-- The condition of an IF statement comes after its keyword. -/
def Node.Conditioned (node : Node) : Prop :=
  node.kind = .ifStatement → ∃ before condition after, node.children = before ++ condition :: after ∧
    condition.kind = .conditionalStatement ∧ ∀ other ∈ before, other.kind ∈ openingKinds

theorem map_tree_views (production place : Nat) (position : Extent) (inherited : Option Field)
    (trees : List Subtree) : (views production place position inherited trees).map View.tree = trees := by
  induction trees generalizing place position with
  | nil => rfl
  | cons tree rest ih =>
    rw [views, List.map_cons, ih]
    congr 1
    split <;> rfl

/-- Of trees that spell two symbols and more, the second symbol comes after the first and extras. -/
theorem exists_second {cs : List Subtree} {x y : Symbol} {rest : List Symbol}
    (h : spelling cs = x :: y :: rest) : ∃ pre c post, cs = pre ++ c :: post ∧ c.isExtra = false ∧
      c.symbol = y ∧ ∀ t ∈ pre, t.isExtra = true ∨ t.symbol = x := by
  -- The first tree that is no extra spells the first symbol.
  have hnext : ∀ {cs : List Subtree} {x : Symbol} {rest : List Symbol}, spelling cs = x :: rest →
      ∃ pre c post, cs = pre ++ c :: post ∧ c.isExtra = false ∧ c.symbol = x ∧
        (∀ t ∈ pre, t.isExtra = true) ∧ spelling post = rest := by
    intro cs x rest h
    induction cs with
    | nil => cases h
    | cons c cs ih =>
      rw [spelling_cons] at h
      by_cases hx : c.isExtra = true
      · rw [if_pos hx] at h
        obtain ⟨pre, d, post, rfl, hd, hsymbol, hpre, hpost⟩ := ih h
        refine ⟨c :: pre, d, post, rfl, hd, hsymbol, ?_, hpost⟩
        exact List.forall_mem_cons.mpr ⟨hx, hpre⟩
      · rw [if_neg hx, List.cons.injEq] at h
        exact ⟨[], c, cs, rfl, by simpa using hx, h.1, fun t ht => (nomatch ht), h.2⟩
  obtain ⟨pre, c, post, rfl, -, hx, hpre, hpost⟩ := hnext h
  obtain ⟨pre', d, post', rfl, hd, hy, hpre', -⟩ := hnext hpost
  refine ⟨pre ++ c :: pre', d, post', by simp, hd, hy, ?_⟩
  intro t ht
  rcases List.mem_append.mp ht with ht | ht
  · exact .inl (hpre t ht)
  · rcases List.mem_cons.mp ht with rfl | ht
    · exact .inr hx
    · exact .inl (hpre' t ht)

theorem ifStatement_rightSide : ∀ rhs ∈ rightSides .ifStatement,
    rhs.take 2 = [.kwIf, .conditionalStatement] := by
  decide

/-- Nothing else is shown as an IF statement. -/
theorem shownAs_ne_ifStatement (parent symbol : Symbol) : shownAs parent symbol ≠ some .ifStatement := by
  intro h
  rw [shownAs.eq_def] at h
  split at h <;> cases h

/-- Neither the keyword nor the condition of an IF statement is shown as something else. -/
theorem shownAs_ifStatement : shownAs (ownerOf .ifStatement) .kwIf = none ∧
    shownAs (ownerOf .ifStatement) .conditionalStatement = none := by
  decide

namespace View

variable {v : View}

/-- A visible tree with its own kind becomes one node of that kind. -/
theorem nodes_of_symbol {symbol : Symbol} (hs : v.tree.symbol = symbol) (hshown : v.shown = none)
    (hvisible : symbol.isVisible = true) : ∃ node, v.nodes = [node] ∧ node.kind = symbol := by
  have hisShown : v.isShown = true := by
    rw [isShown, Subtree.isVisible, hs, hvisible, Bool.or_true]
  refine ⟨_, by rw [v.nodes_eq, if_pos hisShown], ?_⟩
  show v.shown.getD v.tree.symbol = symbol
  rw [hshown, hs]
  rfl

/-- An extra becomes a comment, skipped text or nothing. -/
theorem kind_of_extra (hg : Grown v.tree) (hk : v.Known) (hx : v.tree.isExtra = true) :
    ∀ node ∈ v.nodes, node.kind = .comment ∨ node.kind = .error := by
  have hshown : v.shown = none := by
    rcases hk with ⟨hnone, -⟩ | ⟨hextra, -⟩
    · exact hnone
    · rw [hx] at hextra
      cases hextra
  intro node hnode
  rcases hg.cases_extra hx with hs | hs | ⟨hs, -⟩
  · obtain ⟨found, heq, hkind⟩ := nodes_of_symbol hs hshown rfl
    rw [heq, List.mem_singleton] at hnode
    exact .inl (hnode ▸ hkind)
  · -- The end of the text is hidden, and nothing is below it.
    have hhidden : v.isShown = false := by
      rw [isShown, hshown, Subtree.isVisible, hs]
      rfl
    rw [v.nodes_eq, hhidden, inner, children_of_endOfInput hg hs] at hnode
    cases hnode
  · obtain ⟨found, heq, hkind⟩ := nodes_of_symbol hs hshown rfl
    rw [heq, List.mem_singleton] at hnode
    exact .inr (hnode ▸ hkind)

/-- The node of an IF statement has its condition where its production has it. -/
theorem conditioned_node (hg : Grown v.tree) (hk : v.Known) :
    (Node.node v.label (v.inner.flatMap nodes)).Conditioned := by
  intro hkind
  have hsymbol : v.tree.symbol = .ifStatement := by
    rcases hk.kind_eq with heq | ⟨parent, heq⟩
    · rw [← heq]
      exact hkind
    · exact absurd (heq.trans (congrArg some hkind)) (shownAs_ne_ifStatement _ _)
  obtain ⟨p, cs, hp, hgrown, ht⟩ : ∃ p cs, IsProduction .ifStatement p cs ∧ (∀ c ∈ cs, Grown c) ∧
      v.tree = .ofChildren .ifStatement p cs := by
    generalize v.tree = t at hg hsymbol
    cases hg with
    | token htoken =>
      have hterminal : (Subtree.node _ []).symbol.isTerminal = true := htoken.terminal
      rw [hsymbol] at hterminal
      cases hterminal
    | invented hi =>
      exact absurd ((congrArg (· ∈ inventable) hsymbol).mp hi) (by decide)
    | production hp hc =>
      rw [Subtree.symbol_ofChildren] at hsymbol
      subst hsymbol
      exact ⟨_, _, hp, hc, rfl⟩
    | skipped | skipping => simp [Subtree.skipped] at hsymbol
    | unreadable hu => cases hsymbol.symm.trans hu.symbol_eq
  have hinner : v.inner = views p 0 v.position none cs := by
    rw [hk.inner_eq, ht, Subtree.production_ofChildren, Subtree.children_ofChildren]
  obtain ⟨rest, hspelling⟩ : ∃ rest, spelling cs = .kwIf :: .conditionalStatement :: rest := by
    have htake := ifStatement_rightSide _ hp.rhs
    exact ⟨(spelling cs).drop 2, by rw [← List.take_append_drop 2 (spelling cs), htake]; rfl⟩
  obtain ⟨pre, c, post, hcs, hc, hcondition, hpre⟩ := exists_second hspelling
  -- The views of the children are divided as the children are.
  have hmap := map_tree_views p 0 v.position none cs
  rw [hcs] at hmap
  obtain ⟨before, more, hsplit, hbefore, hmore⟩ := List.map_eq_append_iff.mp hmap
  obtain ⟨w, after, rfl, hw, -⟩ := List.map_eq_cons_iff.mp hmore
  rw [← hcs] at hsplit
  have hknown := known_of_production hp v.position
  rw [hsplit] at hknown
  have hgrownAll : ∀ u ∈ before ++ w :: after, Grown u.tree := by
    intro u hu
    rw [← hsplit] at hu
    exact hgrown _ (mem_views hu).1
  have hwmem : w ∈ before ++ w :: after := List.mem_append_right _ List.mem_cons_self
  obtain ⟨node, hnode, hnodeKind⟩ : ∃ node, w.nodes = [node] ∧ node.kind = .conditionalStatement := by
    have hshows := (hknown w hwmem).2 (by rw [hw]; exact hc)
    rw [hw] at hshows
    exact nodes_of_symbol (by rw [hw, hcondition])
      (by rw [hshows.kind, hcondition]; exact shownAs_ifStatement.2) rfl
  refine ⟨before.flatMap nodes, node, after.flatMap nodes, ?_, hnodeKind, ?_⟩
  · show v.inner.flatMap nodes = _
    rw [hinner, hsplit, List.flatMap_append, List.flatMap_cons, hnode]
    rfl
  · intro other hother
    obtain ⟨u, hu, hmem⟩ := List.mem_flatMap.mp hother
    have huall : u ∈ before ++ w :: after := List.mem_append_left _ hu
    have htree : u.tree ∈ pre := by
      rw [← hbefore]
      exact List.mem_map_of_mem hu
    by_cases hx : u.tree.isExtra = true
    · rcases kind_of_extra (hgrownAll u huall) (hknown u huall).1 hx other hmem with h | h
      · rw [h]
        decide
      · rw [h]
        decide
    · have hkw : u.tree.symbol = .kwIf := (hpre _ htree).resolve_left hx
      have hshows := (hknown u huall).2 (by simpa using hx)
      obtain ⟨found, heq, hfound⟩ := nodes_of_symbol hkw
        (by rw [hshows.kind, hkw]; exact shownAs_ifStatement.1) rfl
      rw [heq, List.mem_singleton] at hmem
      rw [hmem, hfound]
      decide

end View

/-- **The IF statements in the syntax tree of a text have their conditions first.** -/
theorem conditioned_parse (chars : List Char) : (Node.parse chars).Everywhere Node.Conditioned := by
  have hroot := isRoot_parse chars
  rw [Node.parse]
  generalize Parse.parse chars = root at hroot
  refine everywhere_root (fun v hg hk _ => View.conditioned_node hg hk) hroot fun hkind => ?_
  rw [ofSubtree_eq] at hkind
  have hkind : root.symbol = .ifStatement := hkind
  cases hroot <;> simp at hkind

end Cicode.Tree

import Cicode.Proofs.Parse.Derived
import Cicode.Proofs.Tree.Comments

/-!
# What a tree without repairs depicts

A node *portrays* a part of a derivation if it depicts it once its comments are taken out.  Its kind, its field
and its text are those of the part then, and its children portray what is below, wherever comments stand.

Main statement (`exists_portrayed`): in the syntax tree of any text, every node without repairs portrays a
derivation that follows the rules.  The root is left aside, since comments at both ends of the text are
among its children.
-/

namespace Cicode.Tree

open Grammar Text Parse Cicode.Lex

/-- The node depicts the part if its comments are taken out. -/
structure Portrays (source : Source) (part : Part) (node : Node) : Prop where
  depicts : Depicts source part node.uncommented
  tidy : node.Everywhere Node.Tidy

section Queries

variable {source : Source} {part : Part} {node : Node}

theorem portrays_all {parts : List Part} {nodes : List Node}
    (h : DepictAll source parts (nodes.map Node.uncommented))
    (ht : ∀ node ∈ nodes, node.Everywhere Node.Tidy) : List.Forall₂ (Portrays source) parts nodes := by
  rw [DepictAll, List.forall₂_map_right_iff] at h
  induction h with
  | nil => exact .nil
  | cons hd _ ih =>
    obtain ⟨hfirst, hrest⟩ := List.forall_mem_cons.mp ht
    exact .cons ⟨hd, hfirst⟩ (ih hrest)

namespace Portrays

theorem kind_eq (h : Portrays source part node) : node.kind = part.kind := by
  rw [← Node.kind_uncommented, h.depicts.kind_eq]

theorem field_eq (h : Portrays source part node) : node.label.field = part.field := by
  rw [← Node.label_uncommented, h.depicts.label_depicts.field_eq]

theorem present (h : Portrays source part node) : node.isMissing = false := by
  rw [← Node.isMissing_uncommented, h.depicts.present]

theorem sound (h : Portrays source part node) : node.hasError = false := by
  rw [← Node.hasError_uncommented, h.depicts.sound]

/-- A leaf has the text of its word. -/
theorem text {kind symbol : Symbol} {field : Option Field} {word : List Char}
    (h : Portrays source ⟨kind, field, .leaf symbol word⟩ node) :
    source.slice node.label.start node.label.stop = word := by
  rw [← Node.label_uncommented, h.depicts.text]

/-- The nodes below, without comments. -/
theorem children (h : Portrays source part node) :
    List.Forall₂ (Portrays source) part.below (node.children.filter (!·.isComment)) := by
  refine portrays_all ?_ fun child hchild => h.tidy.child (List.mem_of_mem_filter hchild)
  rw [← Node.children_uncommented]
  exact h.depicts.children

end Portrays

end Queries

/-! ## Trees without repairs -/

section Existence

variable (source : Source)

/-- The nodes of the tree, as a production of a symbol shows it, depict its derivation. -/
def HasDerivation (t : Subtree) : Prop := ∀ (v : View) (symbol : Symbol), v.tree = t →
  t.symbol ≠ .comment → v.Shows symbol t.symbol →
  (t.derivation source v.position).FollowsTable ∧
    DepictAll source (partsAll (ownerOf symbol) (t.derivation source v.position).dissolve)
      (Node.uncommentedAll v.nodes)

variable {source}

/-- A tree that costs nothing, without the size that a row of words would give it. -/
theorem isClean_of_grown {t : Subtree} (h : Grown t) (hfree : t.errorCost = 0) (hx : t.isExtra = false)
    (hs : t.symbol.isSkipped = false) : t.IsClean t.symbol t.totalSize.bytes := by
  refine ⟨rfl, hx, ?_, hfree, rfl⟩
  cases h with
  | token ht => exact ht.present
  | invented => cases hfree
  | production | skipping => exact Subtree.missing_ofChildren ..
  | skipped => simp [Subtree.skipped, Symbol.isSkipped] at hs
  | unreadable hu => exact hu.present

/-- The end of the text becomes no node. -/
theorem nodes_of_end {v : View} (h : Grown v.tree) (hs : v.tree.symbol = .endOfInput)
    (hbare : v.shown = none) : v.nodes = [] := by
  have hshown : ¬v.isShown = true := by
    rw [View.isShown, Subtree.isVisible, hs, hbare]
    exact Bool.false_ne_true
  have hnone : v.tree.children = [] := by
    generalize v.tree = t at h hs
    cases h with
    | token | invented | unreadable => rfl
    | @production symbol _ _ hp =>
      obtain rfl : symbol = .endOfInput := (Subtree.symbol_ofChildren ..).symm.trans hs
      exact absurd hp.rhs List.not_mem_nil
    | skipped => simp [Subtree.skipped] at hs
    | skipping => simp at hs
  rw [View.nodes_eq, if_neg hshown, View.inner, hnone]
  rfl

/-- An extra that costs nothing is a comment, or the end of the text, which becomes no node. -/
theorem uncommented_of_extra {t : Subtree} (h : Grown t) (hfree : t.errorCost = 0)
    (hx : t.isExtra = true) (position : Extent) :
    Node.uncommentedAll (View.mk position none none t).nodes = [] := by
  rw [View.nodes_eq]
  rcases h.cases_extra hx with hs | hs | ⟨-, hcost⟩
  · have hshown : (View.mk position none none t).isShown = true := by
      rw [View.isShown, Subtree.isVisible, hs]
      rfl
    have hcomment : (Node.node (View.mk position none none t).label
        ((View.mk position none none t).inner.flatMap View.nodes)).isComment = true := by
      show (t.symbol == .comment) = true
      rw [hs]
      rfl
    rw [if_pos hshown, Node.uncommentedAll, if_pos hcomment, Node.uncommentedAll]
  · rw [← View.nodes_eq, nodes_of_end h hs rfl]
    rfl
  · omega

/-- The children of a production that costs nothing. -/
theorem depictAll_derivations {symbol : Symbol} {rhs : List Symbol} (before : List Symbol)
    (position : Extent) {cs : List Subtree} (hrhs : rhs ∈ rightSides symbol) (heq : rhs = before ++ spelling cs)
    (hcs : ∀ c ∈ cs, Grown c ∧ c.errorCost = 0 ∧ (c.isExtra = false → HasDerivation source c)) :
    Derivation.AllFollowTable (Subtree.derivations source position cs) ∧
      DepictAll source
        (partsAll (ownerOf symbol) (Derivation.dissolveAll (Subtree.derivations source position cs)))
        (Node.uncommentedAll ((views (productionNumber symbol rhs) before.length position none cs).flatMap
          View.nodes)) := by
  induction cs generalizing before position with
  | nil =>
    rw [Subtree.derivations]
    exact ⟨trivial, .nil⟩
  | cons c cs ih =>
    obtain ⟨⟨hgrown, hfree, hderivation⟩, hcs⟩ := List.forall_mem_cons.mp hcs
    have hknown := known_of_rightSide before position hrhs heq
    rw [spelling_cons] at heq
    rw [views] at hknown ⊢
    rw [List.flatMap_cons, Node.uncommentedAll_append, Subtree.derivations]
    by_cases hx : c.isExtra = true
    · rw [if_pos hx] at heq
      rw [if_pos hx, if_pos hx, if_pos hx, uncommented_of_extra hgrown hfree hx, List.nil_append]
      exact ih before _ heq hcs
    · rw [if_neg hx] at heq hknown
      rw [if_neg hx, if_neg hx, if_neg hx]
      have hsplit : rhs = (before ++ [c.symbol]) ++ spelling cs := by simp [heq]
      have hshows := (hknown _ List.mem_cons_self).2 (by simpa using hx)
      have hcomment : c.symbol ≠ .comment := (mem_rightSide hrhs _ (by simp [heq])).2.1
      obtain ⟨hfollows, hdepict⟩ := hderivation (by simpa using hx) _ symbol rfl hcomment hshows
      obtain ⟨hall, hrest⟩ := ih (before ++ [c.symbol]) (position + c.totalSize) hsplit hcs
      rw [List.length_append, List.length_singleton] at hrest
      refine ⟨⟨hfollows, hall⟩, ?_⟩
      rw [Derivation.dissolveAll, partsAll_append]
      exact List.rel_append hdepict hrest

/-- A production that costs nothing has children that cost nothing. -/
theorem free_of_production {s : Symbol} {p : Nat} {cs : List Subtree} (hp : IsProduction s p cs)
    (hg : ∀ c ∈ cs, Grown c) (hfree : (Subtree.ofChildren s p cs).errorCost = 0) :
    ∀ c ∈ cs, c.errorCost = 0 ∧ c.symbol.isSkipped = false := by
  intro c hc
  have hcost : c.errorCost = 0 := by
    by_contra hne
    have hpos := (hp.price hg).mpr ⟨c, hc, Nat.pos_of_ne_zero hne⟩
    omega
  refine ⟨hcost, ?_⟩
  by_contra hs
  have := (hp.skipped hg c hc (by simpa using hs)).2
  omega

/-- The nodes below a production that costs nothing depict the derivations of its children. -/
theorem depicts_inner {s : Symbol} {p : Nat} {cs : List Subtree} (hrhs : spelling cs ∈ rightSides s)
    (hnumber : p = productionNumber s (spelling cs)) {v : View}
    (hinner : v.inner = views v.tree.facts.production 0 v.position none v.tree.children)
    (ht : v.tree = .ofChildren s p cs)
    (hcs : ∀ c ∈ cs, Grown c ∧ c.errorCost = 0 ∧ (c.isExtra = false → HasDerivation source c)) :
    (Derivation.node s (Subtree.derivations source v.position cs)).FollowsTable ∧ DepictAll source
      (partsAll (ownerOf s) (Derivation.dissolveAll (Subtree.derivations source v.position cs)))
      (Node.uncommentedAll (v.inner.flatMap View.nodes)) := by
  obtain ⟨hall, hdepict⟩ := depictAll_derivations [] v.position hrhs rfl hcs
  rw [← hnumber] at hdepict
  rw [hinner, ht, Subtree.production_ofChildren, Subtree.children_ofChildren]
  refine ⟨⟨?_, hall⟩, hdepict⟩
  rw [Subtree.symbols_derivations]
  exact hrhs

/-- The nodes of a tree that is shown, or of a hidden one, without comments. -/
theorem uncommentedAll_nodes {v : View} (hk : v.isShown = true → v.label.kind ≠ .comment) :
    Node.uncommentedAll v.nodes =
      if v.isShown then [.node v.label (Node.uncommentedAll (v.inner.flatMap View.nodes))]
      else Node.uncommentedAll (v.inner.flatMap View.nodes) := by
  rw [View.nodes_eq]
  by_cases hs : v.isShown = true
  · have hcomment : ¬(Node.node v.label (v.inner.flatMap View.nodes)).isComment = true :=
      fun hc => hk hs (beq_iff_eq.mp hc)
    rw [if_pos hs, if_pos hs, Node.uncommentedAll, if_neg hcomment, Node.uncommentedAll, Node.uncommented]
  · rw [if_neg hs, if_neg hs]

/-- **A tree without repairs has a derivation.** -/
theorem hasDerivation_of_grown {t : Subtree} (h : Grown t) (hfree : t.errorCost = 0)
    (hx : t.isExtra = false) (hs : t.symbol.isSkipped = false) : HasDerivation source t := by
  have hclean := isClean_of_grown h hfree hx hs
  induction h with
  | @token facts hf =>
    intro v symbol ht hcomment hshows
    rw [← ht] at hclean hshows
    have hlabel := hshows.label_depicts hclean
    have hkind : v.label.kind ≠ .comment := by
      rw [hlabel.kind_eq, ht]
      cases hs : shownAs (ownerOf symbol) (Subtree.node facts []).symbol with
      | none => exact hcomment
      | some kind => exact fun heq => shownAs_ne_comment _ _ (hs.trans (congrArg some heq))
    have hleaf : (Subtree.node facts []).derivation source v.position =
        .leaf facts.symbol (source.slice v.label.start v.label.stop) := by
      rw [Subtree.derivation, if_pos hf.terminal, View.label, ht]
      rfl
    rw [hleaf]
    refine ⟨hf.terminal, ?_⟩
    rw [uncommentedAll_nodes fun _ => hkind, hshows.isShown_eq hclean, hshows.inner_eq hclean, ht,
      Derivation.dissolve, partsAll, partsAll, List.append_nil, parts]
    rw [ht] at hlabel
    show DepictAll source _ (if showsIn (ownerOf symbol) facts.symbol = true then _ else _)
    by_cases hs : showsIn (ownerOf symbol) facts.symbol = true
    · rw [if_pos hs, if_pos hs]
      exact .cons (.leaf hlabel rfl) .nil
    · rw [if_neg hs, if_neg hs]
      exact .nil
  | invented => cases hfree
  | @production s p cs hp hg ih =>
    intro v symbol ht hcomment hshows
    rw [← ht] at hclean hshows
    have hcs : ∀ c ∈ cs, Grown c ∧ c.errorCost = 0 ∧ (c.isExtra = false → HasDerivation source c) := by
      intro c hc
      obtain ⟨hcost, hskip⟩ := free_of_production hp hg hfree c hc
      exact ⟨hg c hc, hcost, fun hextra =>
        ih c hc hcost hextra hskip (isClean_of_grown (hg c hc) hcost hextra hskip)⟩
    obtain ⟨hfollows, hinner⟩ := depicts_inner hp.rhs hp.number (hshows.inner_eq hclean) ht hcs
    have hlabel := hshows.label_depicts hclean
    have hsymbol : v.tree.symbol = s := by rw [ht, Subtree.symbol_ofChildren]
    rw [hsymbol] at hshows hlabel
    have hshown : v.isShown = showsIn (ownerOf symbol) s := by
      rw [View.isShown, hshows.kind, Subtree.isVisible, hsymbol, showsIn]
    have hkind : v.label.kind ≠ .comment := by
      rw [hlabel.kind_eq]
      cases hs : shownAs (ownerOf symbol) s with
      | none => rwa [Subtree.symbol_ofChildren] at hcomment
      | some kind => exact fun heq => shownAs_ne_comment _ _ (hs.trans (congrArg some heq))
    rw [Subtree.derivation_ofChildren (not_terminal_of_rightSide hp.rhs)]
    refine ⟨hfollows, ?_⟩
    rw [uncommentedAll_nodes fun _ => hkind, hshown, Derivation.dissolve]
    by_cases hr : (repeated s).isSome = true
    · obtain ⟨howner, hhidden⟩ := hshows.round hr
      rw [if_pos hr, if_neg (by rw [hhidden]; exact Bool.false_ne_true), ← howner]
      exact hinner
    · rw [ownerOf_of_not_repeated (Option.not_isSome_iff_eq_none.mp hr)] at hinner
      rw [if_neg hr, partsAll, partsAll, List.append_nil, parts]
      by_cases hs : showsIn (ownerOf symbol) s = true
      · rw [if_pos hs, if_pos hs]
        exact .cons (.node hlabel hinner) .nil
      · rw [if_neg hs, if_neg hs]
        exact hinner
  | skipped => simp [Subtree.skipped, Symbol.isSkipped] at hs
  | skipping => simp [Symbol.isSkipped] at hs
  | unreadable hu =>
    rw [show (Subtree.node _ []).symbol = .error from hu.symbol_eq] at hs
    cases hs

end Existence

/-! ## Nodes without repairs -/

/-- The node portrays a derivation that follows the rules. -/
def Portrayed (source : Source) (node : Node) : Prop :=
  ∃ d : Derivation (List Char), d.FollowsRules ∧
    (node.kind = d.symbol ∨ ∃ parent, shownAs parent d.symbol = some node.kind) ∧
    Portrays source ⟨node.kind, node.label.field, d⟩ node

/-- Skipped text is not shown as anything else. -/
theorem shownAs_skipped (parent : Symbol) {symbol : Symbol} (h : symbol.isSkipped = true) :
    shownAs parent symbol = none := by
  rw [shownAs.eq_def]
  split <;> first | rfl | cases h

/-- The tree of a node that is no skipped text is none either. -/
theorem isSkipped_of_isShown {v : View} (hk : v.Known) (hs : v.isShown = true)
    (herror : v.label.kind ≠ .error) : v.tree.symbol.isSkipped = false := by
  by_contra hskip
  rw [Bool.not_eq_false] at hskip
  have hsymbol : v.tree.symbol ≠ .error := by
    intro heq
    rcases hk.kind_eq with hkind | ⟨parent, hkind⟩
    · exact herror (hkind.trans heq)
    · rw [shownAs_skipped parent hskip] at hkind
      cases hkind
  have hround : v.tree.symbol = .errorRepeat := by
    simpa [Symbol.isSkipped, hsymbol] using hskip
  have hshown : v.shown = none := by
    rcases hk with ⟨hshown, -⟩ | ⟨-, symbol, hshows⟩
    · exact hshown
    · rw [hshows.kind, shownAs_skipped _ hskip]
  rw [View.isShown, hshown, Subtree.isVisible, hround] at hs
  cases hs

/-- A hidden symbol of a repetition is not shown. -/
theorem repeated_of_isShown {v : View} (hk : v.Known) (hs : v.isShown = true) :
    repeated v.tree.symbol = none := by
  rw [← Option.not_isSome_iff_eq_none]
  intro hr
  rcases hk with ⟨hshown, -⟩ | ⟨-, symbol, hshows⟩
  · rw [View.isShown, hshown, Subtree.isVisible] at hs
    revert hr hs
    generalize v.tree.symbol = s
    cases s <;> decide
  · obtain ⟨-, hhidden⟩ := hshows.round hr
    rw [View.isShown, hshows.kind, Subtree.isVisible] at hs
    exact absurd hs (by rw [Bool.not_eq_true]; exact hhidden)

/-- A shown tree without repairs is a token of the text or a production. -/
theorem exists_depicted (source : Source) {v : View} (hg : Grown v.tree) (hk : v.Known)
    (hs : v.isShown = true) (hfree : v.tree.errorCost = 0) (hnone : v.tree.symbol.isSkipped = false) :
    ∃ d : Derivation (List Char), d.FollowsRules ∧ d.symbol = v.tree.symbol ∧
      Depicts source ⟨v.label.kind, v.label.field, d⟩
        (Node.node v.label (v.inner.flatMap View.nodes)).uncommented := by
  have hrepeated := repeated_of_isShown hk hs
  have hinner := hk.inner_eq
  have hlabel : v.tree.facts.missing = false → v.label.Depicts v.label.kind v.label.field :=
    fun hm => ⟨rfl, rfl, hm, by rw [View.label, hfree]; rfl⟩
  rw [Node.uncommented]
  generalize ht : v.tree = t at hg hfree hrepeated hlabel
  cases hg with
  | @token facts hf =>
    refine ⟨.leaf facts.symbol (source.slice v.label.start v.label.stop), hf.terminal, rfl, ?_⟩
    rw [hinner, ht]
    exact .leaf (hlabel hf.present) rfl
  | invented => cases hfree
  | @production s p cs hp hcs =>
    have hderivations : ∀ c ∈ cs, Grown c ∧ c.errorCost = 0 ∧
        (c.isExtra = false → HasDerivation source c) := by
      intro c hc
      obtain ⟨hcost, hskip⟩ := free_of_production hp hcs hfree c hc
      exact ⟨hcs c hc, hcost, fun hx => hasDerivation_of_grown (hcs c hc) hcost hx hskip⟩
    obtain ⟨hfollows, hdepict⟩ := depicts_inner hp.rhs hp.number hinner ht hderivations
    generalize Subtree.derivations source v.position cs = ds at hfollows hdepict
    rw [Subtree.symbol_ofChildren] at hrepeated
    have hdissolve : (Derivation.node s ds).dissolve = [.node s (Derivation.dissolveAll ds)] := by
      rw [Derivation.dissolve, hrepeated]
      rfl
    obtain ⟨hrules, -⟩ := (Derivation.node s ds).followsRules_dissolve hfollows
    rw [hdissolve] at hrules
    rw [ownerOf_of_not_repeated hrepeated] at hdepict
    exact ⟨.node s (Derivation.dissolveAll ds), hrules.1, (Subtree.symbol_ofChildren ..).symm,
      .node (hlabel (Subtree.missing_ofChildren ..)) hdepict⟩
  | skipped => simp [ht, Subtree.skipped, Symbol.isSkipped] at hnone
  | skipping => simp [ht, Symbol.isSkipped] at hnone
  | unreadable hu =>
    rw [ht, show (Subtree.node _ []).symbol = .error from hu.symbol_eq] at hnone
    cases hnone

/-- A shown tree without repairs portrays a derivation. -/
theorem portrayed_of_known {source : Source} {v : View} (hg : Grown v.tree) (hk : v.Known)
    (hs : v.isShown = true) (hsound : v.label.hasError = false) (herror : v.label.kind ≠ .error)
    (ht : (Node.node v.label (v.inner.flatMap View.nodes)).Everywhere Node.Tidy) :
    Portrayed source (.node v.label (v.inner.flatMap View.nodes)) := by
  have hfree : v.tree.errorCost = 0 := by
    simpa [View.label] using hsound
  have hnone := isSkipped_of_isShown hk hs herror
  obtain ⟨d, hfollows, hsymbol, hdepicts⟩ := exists_depicted source hg hk hs hfree hnone
  exact ⟨d, hfollows, hsymbol ▸ hk.kind_eq, hdepicts, ht⟩

theorem everywhere_portrayed {source : Source} {root : Subtree} (h : IsRoot root)
    (htidy : (Node.ofSubtree root).Everywhere Node.Tidy) :
    ∀ child ∈ (Node.ofSubtree root).children, child.Everywhere fun node =>
      node.hasError = false → node.kind ≠ .error → Portrayed source node := by
  intro child hchild
  have hall := everywhere_below (P := fun node => node.Everywhere Node.Tidy → node.hasError = false →
      node.kind ≠ .error → Portrayed source node)
    (fun v hg hk hs ht hsound herror => portrayed_of_known hg hk hs hsound herror ht) h child hchild
  exact fun inner hin => hall inner hin fun other hother => htidy.child hchild other (hin.trans hother)

/-- **Every node without repairs portrays a derivation**, unless it is the root. -/
theorem exists_portrayed (source : Source) (chars : List Char) :
    ∀ child ∈ (Node.parse chars).children, child.Everywhere fun node =>
      node.hasError = false → node.kind ≠ .error → Portrayed source node :=
  everywhere_portrayed (isRoot_parse chars) (tidy_parse chars)

theorem portrayed_of_within (source : Source) {chars : List Char} {node : Node}
    (h : (Node.parse chars).Within node) (hroot : node.kind ≠ .sourceFile) (herror : node.kind ≠ .error)
    (hsound : node.hasError = false) : Portrayed source node := by
  have hkind := (root_covers_text chars).1
  have hall := exists_portrayed source chars
  generalize Node.parse chars = root at h hkind hall
  cases h with
  | refl =>
    rcases hkind with hk | ⟨hk, -⟩
    · exact absurd hk hroot
    · exact absurd hk herror
  | step hchild hwithin => exact hall _ hchild node hwithin hsound herror

/-! ## The root -/

/-- What the root of an accepted text depicts once its comments are taken out. -/
theorem depicts_root {chars : List Char} {cs : List Subtree} (hparse : parse chars = .ofChildren .sourceFile 0 cs)
    (hclean : ∀ c ∈ cs, Floor.Clean c) (hrhs : spelling cs ∈ rightSides .sourceFile) :
    (Derivation.node .sourceFile (Subtree.derivations (.ofList chars) 0 cs)).FollowsTable ∧
      Depicts (.ofList chars) ⟨.sourceFile, none, .node .sourceFile
        (Derivation.dissolveAll (Subtree.derivations (.ofList chars) 0 cs))⟩ (Node.parse chars).uncommented := by
  have hcs : ∀ c ∈ cs, Grown c ∧ c.errorCost = 0 ∧
      (c.isExtra = false → HasDerivation (.ofList chars) c) := by
    intro c hc
    obtain ⟨hgrown, hfree⟩ := hclean c hc
    refine ⟨hgrown, hfree, fun hx => hasDerivation_of_grown hgrown hfree hx ?_⟩
    exact (mem_rightSide hrhs _ (mem_spelling hc hx)).1
  have hfree : (Subtree.ofChildren .sourceFile 0 cs).errorCost = 0 := by
    rw [Subtree.errorCost_ofChildren_eq_zero rfl]
    exact fun c hc => .inr (hclean c hc).free
  have hinner : (rootView (.ofChildren .sourceFile 0 cs)).inner =
      views (Subtree.ofChildren .sourceFile 0 cs).facts.production 0 0 none
        (Subtree.ofChildren .sourceFile 0 cs).children := by
    rw [View.inner, if_pos (isShown_rootView _)]
    rfl
  obtain ⟨hfollows, hdepict⟩ := depicts_inner hrhs rfl hinner rfl hcs
  refine ⟨hfollows, ?_⟩
  rw [Node.parse, hparse, ofSubtree_eq, Node.uncommented]
  refine .node ⟨Subtree.symbol_ofChildren .., rfl, Subtree.missing_ofChildren .., ?_⟩ hdepict
  rw [View.label, rootView, hfree]
  rfl

end Cicode.Tree

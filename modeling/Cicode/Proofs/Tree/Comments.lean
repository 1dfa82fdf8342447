import Cicode.Proofs.Tree.Everywhere
import Cicode.Proofs.Tree.Root

/-!
# Syntax trees without their comments

Comments may stand anywhere in a syntax tree.  A tree *without comments* (`Node.uncommented`) has the
same nodes with the same labels otherwise.

So that comments make no difference to what is asked of a node, the node has to be *tidy* (`Node.Tidy`): no
field refers to a comment, and an operator does not begin with one.  Main statement (`tidy_parse`): every
node of every syntax tree is tidy.
-/

namespace Cicode.Tree

open Grammar Text Parse Cicode.Lex

namespace Node

mutual

/-- The tree without the comments in it. -/
def uncommented : Node → Node
  | .node label children => .node label (uncommentedAll children)

/-- The trees that are no comments, without the comments in them. -/
def uncommentedAll : List Node → List Node
  | [] => []
  | first :: rest =>
    if first.isComment then uncommentedAll rest else uncommented first :: uncommentedAll rest

end

theorem uncommentedAll_eq (nodes : List Node) :
    uncommentedAll nodes = (nodes.filter (!·.isComment)).map uncommented := by
  induction nodes with
  | nil => rfl
  | cons node rest ih =>
    rw [uncommentedAll, ih, List.filter_cons]
    cases node.isComment <;> rfl

theorem uncommentedAll_append (a b : List Node) :
    uncommentedAll (a ++ b) = uncommentedAll a ++ uncommentedAll b := by
  simp only [uncommentedAll_eq, List.filter_append, List.map_append]

section

variable (node : Node)

@[simp] theorem label_uncommented : node.uncommented.label = node.label := by
  cases node
  rfl

@[simp] theorem kind_uncommented : node.uncommented.kind = node.kind := by
  rw [kind, label_uncommented, kind]

@[simp] theorem isMissing_uncommented : node.uncommented.isMissing = node.isMissing := by
  rw [isMissing, label_uncommented, isMissing]

@[simp] theorem hasError_uncommented : node.uncommented.hasError = node.hasError := by
  rw [hasError, label_uncommented, hasError]

theorem children_uncommented :
    node.uncommented.children = (node.children.filter (!·.isComment)).map uncommented := by
  cases node
  exact uncommentedAll_eq _

end

/-! ## Tidy trees -/

/-- The kinds of nodes that hold an operator. -/
def operatorKinds : List Symbol := [.operatorsUsedInStatements, .operatorsUsedInConditionals]

/-- No field refers to a comment, and an operator does not begin with one. -/
structure Tidy (node : Node) : Prop where
  field : ∀ child ∈ node.children, child.isComment = true → child.label.field = none
  first : node.kind ∈ operatorKinds → ∀ child, node.children.head? = some child →
    child.isNamed = true ∧ child.isComment = false

end Node

/-! ## Every syntax tree is tidy -/

/-- The symbols that are shown as operators. -/
def operatorSymbols : List Symbol :=
  [.bitOperator, .additiveOperator, .multiplicativeOperator, .orOperator, .andOperator,
    .relationalOperator]

theorem mem_operatorSymbols {parent symbol kind : Symbol} (h : shownAs parent symbol = some kind)
    (hk : kind ∈ Node.operatorKinds) : symbol ∈ operatorSymbols := by
  rw [shownAs.eq_def] at h
  split at h <;> cases h <;> revert hk <;> decide

theorem childNames_not_operator : ∀ kind ∈ Node.operatorKinds,
    kind.isTerminal = false ∧ kind ∉ inventable ∧ rightSides kind = [] := by
  decide

/-- An operator consists of one symbol, which becomes a node with a rule of its own. -/
theorem operator_rightSide : ∀ symbol ∈ operatorSymbols, symbol.isTerminal = false ∧
    symbol ∉ inventable ∧ symbol.isSkipped = false ∧ ownerOf symbol = symbol ∧
    ∀ rhs ∈ rightSides symbol, ∀ x ∈ rhs, showsIn symbol x = true ∧
      ((shownAs symbol x).getD x).isNamed = true ∧ (shownAs symbol x).getD x ≠ .comment := by
  decide

/-- Nothing is shown as a comment that is none. -/
theorem shownAs_ne_comment (parent symbol : Symbol) : shownAs parent symbol ≠ some .comment := by
  intro h
  rw [shownAs.eq_def] at h
  split at h <;> cases h

namespace View

variable {v : View}

/-- No field refers to a comment. -/
theorem Known.field_of_comment (h : v.Known) (hk : v.label.kind = .comment) : v.field = none := by
  rcases h with ⟨-, hfield⟩ | ⟨hx, symbol, hshows⟩
  · exact hfield
  · have hsymbol : v.tree.symbol = .comment := by
      rcases View.Known.kind_eq (.inr ⟨hx, symbol, hshows⟩) with heq | ⟨parent, heq⟩
      · rw [← heq, hk]
      · exact absurd (hk ▸ heq) (shownAs_ne_comment parent _)
    rw [hshows.field, hsymbol]
    cases ownerOf symbol <;> rfl

/-- The tree of an operator is a production. -/
theorem Known.operator (h : v.Known) (hg : Grown v.tree) (hk : v.label.kind ∈ Node.operatorKinds) :
    ∃ s p c cs, s ∈ operatorSymbols ∧ IsProduction s p (c :: cs) ∧ v.tree = .ofChildren s p (c :: cs) := by
  have hsymbol : v.tree.symbol ∈ operatorSymbols ∨ v.tree.symbol ∈ Node.operatorKinds := by
    rcases h.kind_eq with heq | ⟨parent, heq⟩
    · exact .inr (heq ▸ hk)
    · exact .inl (mem_operatorSymbols heq hk)
  have hnone : v.tree.symbol.isTerminal = false ∧ v.tree.symbol ∉ inventable ∧
      v.tree.symbol.isSkipped = false := by
    rcases hsymbol with hmem | hmem
    · obtain ⟨h1, h2, h3, -⟩ := operator_rightSide _ hmem
      exact ⟨h1, h2, h3⟩
    · revert hmem
      generalize v.tree.symbol = symbol
      revert symbol
      decide
  generalize v.tree = t at hg hsymbol hnone
  obtain ⟨hterminal, hinvent, hskip⟩ := hnone
  cases hg with
  | token ht => exact absurd ht.terminal (by rw [← Bool.not_eq_true] at hterminal; exact hterminal)
  | invented hi => exact absurd hi hinvent
  | @production s p cs hp _ =>
    rw [Subtree.symbol_ofChildren] at hsymbol
    have hs : s ∈ operatorSymbols := by
      refine hsymbol.resolve_right fun hmem => ?_
      have hrhs := hp.rhs
      rw [(childNames_not_operator s hmem).2.2] at hrhs
      cases hrhs
    cases cs with
    | nil =>
      obtain ⟨x, hx, -⟩ := rightSide_nonempty hp.rhs (by rintro rfl; revert hs; decide)
      cases hx
    | cons c cs => exact ⟨s, p, c, cs, hs, hp, rfl⟩
  | skipped => simp [Subtree.skipped, Symbol.isSkipped] at hskip
  | skipping => simp [Symbol.isSkipped] at hskip
  | unreadable hu =>
    rw [show (Subtree.node _ []).symbol = .error from hu.symbol_eq] at hskip
    cases hskip

/-- An operator begins with a node that has a rule of its own. -/
theorem Known.first_of_operator (h : v.Known) (hg : Grown v.tree)
    (hk : v.label.kind ∈ Node.operatorKinds) (child : Node)
    (hchild : (v.inner.flatMap nodes).head? = some child) :
    child.isNamed = true ∧ child.isComment = false := by
  obtain ⟨s, p, c, cs, hs, hp, ht⟩ := h.operator hg hk
  obtain ⟨-, -, -, howner, hall⟩ := operator_rightSide s hs
  have hextra := hp.first c rfl
  have hmem : c.symbol ∈ spelling (c :: cs) := mem_spelling List.mem_cons_self hextra
  obtain ⟨hshown, hnamed, hcomment⟩ := hall _ hp.rhs _ hmem
  rw [h.inner_eq, ht, Subtree.production_ofChildren, Subtree.children_ofChildren] at hchild
  have hknown := known_of_production hp v.position
  rw [views, List.flatMap_cons] at hchild
  rw [views] at hknown
  generalize hw : (if c.isExtra = true then _ else _ : View) = w at hchild hknown
  have htree : w.tree = c := by
    rw [← hw]
    split <;> rfl
  have hshows := (hknown w List.mem_cons_self).2 (htree ▸ hextra)
  rw [htree] at hshows
  have hkind := hshows.kind
  rw [howner] at hkind
  have hvisible : w.isShown = true := by
    rw [isShown, hkind, Subtree.isVisible, htree]
    exact hshown
  rw [nodes_eq, if_pos hvisible, List.singleton_append, List.head?_cons, Option.some.injEq] at hchild
  have hlabel : child.kind = (shownAs s c.symbol).getD c.symbol := by
    rw [← hchild, ← hkind, ← htree]
    rfl
  rw [Node.isNamed, Node.isComment, hlabel]
  exact ⟨hnamed, beq_eq_false_iff_ne.mpr hcomment⟩

theorem Known.tidy (h : v.Known) (hg : Grown v.tree) :
    (Node.node v.label (v.inner.flatMap nodes)).Tidy := by
  have hfield : ∀ w : View, Grown w.tree → w.Known → w.isShown = true →
      (Node.node w.label (w.inner.flatMap nodes)).isComment = true → w.field = none :=
    fun w _ hk _ hc => hk.field_of_comment (beq_iff_eq.mp hc)
  refine ⟨fun child hchild hcomment => ?_, h.first_of_operator hg⟩
  obtain ⟨w, hw, hmem⟩ := List.mem_flatMap.mp hchild
  obtain ⟨hgw, hkw⟩ := h.inner hg w hw
  have hall := everywhere_nodes (P := fun node => node.isComment = true → node.label.field = none)
    hfield hgw w rfl hkw child hmem
  exact hall.self hcomment

end View

/-- **Every node of every syntax tree is tidy.** -/
theorem tidy_parse (chars : List Char) : (Node.parse chars).Everywhere Node.Tidy := by
  have hroot := isRoot_parse chars
  refine everywhere_root (fun v hg hk _ => hk.tidy hg) hroot ⟨fun child hchild hcomment => ?_, ?_⟩
  · have hfield := (everywhere_root (P := fun node => node.isComment = true → node.label.field = none)
      (fun v _ hk _ hc => hk.field_of_comment (beq_iff_eq.mp hc)) hroot ?_).child hchild
    · exact hfield.self hcomment
    · rw [ofSubtree_eq]
      exact fun _ => rfl
  · intro hk
    rw [kind_ofSubtree] at hk
    rcases symbol_of_isRoot hroot with hs | ⟨hs, -⟩ <;>
    · rw [hs] at hk
      exact absurd hk (by decide)

end Cicode.Tree

import Cicode.Proofs.Tree.Wellformed

/-!
# Nodes of two trees that portray the same

Nodes of the trees of two texts can portray the same part of a derivation: then they have the same kind and
the same field, the words of leaves are the same, and their children portray the same parts as well, once
comments are left out.

Main statement (`samePart_root`): two texts whose accepted floors have the same frames have roots that
portray the same.
-/

namespace Cicode.Tree

open Grammar Text Parse Cicode.Lex

/-- The nodes portray the same part of a derivation. -/
def SamePart (source source' : Source) (node node' : Node) : Prop :=
  ∃ part : Part, part.Follows ∧ Portrays source part node ∧ Portrays source' part node'

/-- What portrays a part that follows the rules. -/
theorem Portrays.portrayed {source : Source} {part : Part} {node : Node} (h : Portrays source part node)
    (hf : part.Follows) : Portrayed source node := by
  have hpart : part = ⟨node.kind, node.label.field, part.tree⟩ := by rw [h.kind_eq, h.field_eq]
  refine ⟨part.tree, hf.1, ?_, hpart ▸ h⟩
  rw [h.kind_eq]
  exact hf.2

/-- The kinds of words stand for terminals only. -/
theorem leaf_of_sources {kind : Symbol} (hk : ∀ symbol ∈ sources kind, symbol.isTerminal = true) {part : Part}
    (hf : part.Follows) (heq : part.kind = kind) : ∃ symbol word, part.tree = .leaf symbol word := by
  have hsymbol : part.tree.symbol.isTerminal = true := by
    rcases hf.2 with hs | ⟨parent, hs⟩
    · refine hk _ (heq ▸ hs ▸ mem_sources_self ?_)
      have hfollows := hf.1
      generalize part.tree = d at hs hfollows
      cases d with
      | leaf symbol word => exact .inl (hs ▸ hfollows)
      | node symbol children =>
        obtain ⟨⟨r, hr, -⟩, -⟩ := hfollows
        exact .inr (by rw [hs, Derivation.symbol, hr]; rfl)
    · exact hk _ (heq ▸ mem_sources hs)
  have hfollows := hf.1
  generalize part.tree = d at hsymbol hfollows
  cases d with
  | leaf symbol word => exact ⟨symbol, word, rfl⟩
  | node symbol children =>
    obtain ⟨⟨r, hr, -⟩, -⟩ := hfollows
    rw [Derivation.symbol] at hsymbol
    rw [rule_of_terminal symbol hsymbol] at hr
    cases hr

namespace SamePart

variable {source source' : Source} {node node' : Node}

theorem portrayed (h : SamePart source source' node node') :
    Portrayed source node ∧ Portrayed source' node' := by
  obtain ⟨part, hf, hp, hp'⟩ := h
  exact ⟨hp.portrayed hf, hp'.portrayed hf⟩

theorem kind_eq (h : SamePart source source' node node') : node.kind = node'.kind := by
  obtain ⟨part, -, hp, hp'⟩ := h
  rw [hp.kind_eq, hp'.kind_eq]

theorem field_eq (h : SamePart source source' node node') : node.label.field = node'.label.field := by
  obtain ⟨part, -, hp, hp'⟩ := h
  rw [hp.field_eq, hp'.field_eq]

/-- The words of leaves are the same. -/
theorem text_eq (h : SamePart source source' node node')
    (hk : ∀ symbol ∈ sources node.kind, symbol.isTerminal = true) :
    source.slice node.label.start node.label.stop = source'.slice node'.label.start node'.label.stop := by
  obtain ⟨⟨kind, field, tree⟩, hf, hp, hp'⟩ := h
  obtain ⟨symbol, word, rfl⟩ : ∃ symbol word, tree = .leaf symbol word :=
    leaf_of_sources hk hf hp.kind_eq.symm
  rw [hp.text, hp'.text]

/-- The children portray the same parts. -/
theorem code (h : SamePart source source' node node') :
    List.Forall₂ (SamePart source source') node.code node'.code := by
  obtain ⟨⟨kind, field, tree⟩, hf, hp, hp'⟩ := h
  have hbelow : ∀ part ∈ (⟨kind, field, tree⟩ : Part).below, part.Follows := by
    intro part hpart
    cases tree with
    | leaf => cases hpart
    | node symbol children => exact follows_of_mem_partsAll hf.1.2 part hpart
  have hchildren := hp.children
  have hchildren' := hp'.children
  rw [Node.code, Node.code]
  generalize (⟨kind, field, tree⟩ : Part).below = parts at hbelow hchildren hchildren'
  generalize node.children.filter (!·.isComment) = nodes at hchildren
  generalize node'.children.filter (!·.isComment) = nodes' at hchildren'
  induction hchildren generalizing nodes' with
  | nil =>
    rw [List.forall₂_nil_left_iff.mp hchildren']
    exact .nil
  | @cons part child parts nodes hc _ ih =>
    obtain ⟨child', rest, hc', hrest, rfl⟩ := List.forall₂_cons_left_iff.mp hchildren'
    obtain ⟨hfirst, hfollows⟩ := List.forall_mem_cons.mp hbelow
    exact .cons ⟨part, hfirst, hc, hc'⟩ (ih hfollows rest hrest)

end SamePart

theorem children_of_frames {state : StateId} {symbol : Symbol} {ds ds' : List (Derivation (List Char))}
    (h : [ShiftReduce.Frame.mk state (.node symbol ds)] = [⟨state, .node symbol ds'⟩]) : ds = ds' := by
  cases h
  rfl

/-- **Accepted texts with the same frames have trees that portray the same.** -/
theorem samePart_root {chars chars' : List Char} {before before' last last' : List Floor}
    (h : Floor.Ends chars before last) (h' : Floor.Ends chars' before' last')
    (hframes : Floor.framesIn (.ofList chars) last = Floor.framesIn (.ofList chars') last') :
    SamePart (.ofList chars) (.ofList chars') (Node.parse chars) (Node.parse chars') := by
  obtain ⟨cs, hparse, hclean, -, hrhs, hlast⟩ := h.exists_root
  obtain ⟨cs', hparse', hclean', -, hrhs', hlast'⟩ := h'.exists_root
  have hderivations : Subtree.derivations (.ofList chars) 0 cs = Subtree.derivations (.ofList chars') 0 cs' := by
    rw [hlast, hlast'] at hframes
    exact children_of_frames hframes
  obtain ⟨hfollows, hdepicts⟩ := depicts_root hparse hclean hrhs
  obtain ⟨-, hdepicts'⟩ := depicts_root hparse' hclean' hrhs'
  obtain ⟨hrules, -⟩ := Derivation.followsRules_dissolve _ hfollows
  rw [← hderivations] at hdepicts'
  exact ⟨_, ⟨hrules.1, .inl rfl⟩, ⟨hdepicts, tidy_parse chars⟩, ⟨hdepicts', tidy_parse chars'⟩⟩

end Cicode.Tree

import Cicode.Proofs.Parse.Sequence
import Cicode.Proofs.Tree.Portrait

/-!
# Trees without comments

A tree without extras becomes nodes none of which is a comment, so that taking comments out changes
nothing.

Main statement (`depicts_row`): if a text reads as a row of words, its syntax tree depicts the resolved
derivation of the words.
-/

namespace Cicode.Tree

open Grammar Text Parse Cicode.Lex

theorem uncommentedAll_flatMap {α : Type} {nodes : α → List Node} {as : List α}
    (h : ∀ a ∈ as, Node.uncommentedAll (nodes a) = nodes a) :
    Node.uncommentedAll (as.flatMap nodes) = as.flatMap nodes := by
  induction as with
  | nil => rfl
  | cons a as ih =>
    obtain ⟨ha, has⟩ := List.forall_mem_cons.mp h
    rw [List.flatMap_cons, Node.uncommentedAll_append, ha, ih has]

/-- What a known view of a tree that is no comment becomes is no comment. -/
theorem View.Known.kind_ne {v : View} (hk : v.Known) (h : v.tree.symbol ≠ .comment) :
    v.label.kind ≠ .comment := by
  rcases hk.kind_eq with heq | ⟨parent, heq⟩
  · rwa [heq]
  · exact fun hcomment => shownAs_ne_comment _ _ (heq.trans (congrArg some hcomment))

/-- The nodes of a tree without extras are no comments. -/
theorem uncommentedAll_of_plain {t : Subtree} (h : Plain t) (hg : Grown t) {v : View} (ht : v.tree = t)
    (hk : v.Known) : Node.uncommentedAll v.nodes = v.nodes := by
  induction h generalizing v with
  | @mk facts children _ hsymbol _ ih =>
    have hkind : v.label.kind ≠ .comment := hk.kind_ne (by rw [ht]; exact hsymbol)
    have hinner : Node.uncommentedAll (v.inner.flatMap View.nodes) = v.inner.flatMap View.nodes := by
      refine uncommentedAll_flatMap fun w hw => ?_
      obtain ⟨hgrown, hknown⟩ := hk.inner (ht ▸ hg) w hw
      exact ih w.tree (by rw [View.inner, ht] at hw; exact (mem_views hw).1) hgrown rfl hknown
    rw [uncommentedAll_nodes fun _ => hkind, hinner, View.nodes_eq]

/-- **The syntax tree of a row of words depicts their resolved derivation.** -/
theorem depicts_row {chars : List Char} {words : List (Symbol × List Char)} (hrow : ReadsRow none chars words)
    {d : Derivation (List Char)} (h : d.Derives .sourceFile words) (hr : d.Resolved) :
    Depicts (.ofList chars) ⟨.sourceFile, none, d⟩ (Node.parse chars) := by
  obtain ⟨cs, hparse, hclean, hplain, hrhs, hdissolve⟩ := parse_row hrow h hr
  obtain ⟨-, hdepicts⟩ := depicts_root hparse hclean hrhs
  rw [Derivation.dissolve, if_neg (by decide)] at hdissolve
  rw [(List.cons.inj hdissolve).1] at hdepicts
  have hplainNode : (Node.parse chars).uncommented = Node.parse chars := by
    rw [Node.parse, hparse, ofSubtree_eq, Node.uncommented]
    refine congrArg (Node.node _) (uncommentedAll_flatMap fun w hw => ?_)
    rw [View.inner, if_pos (isShown_rootView _)] at hw
    have hw' : w ∈ views 0 0 0 none cs := by
      rwa [rootView, Subtree.production_ofChildren, Subtree.children_ofChildren] at hw
    have hknown : w.Known := known_of_unlabelled (fun _ => rfl) (fun _ => rfl) hw'
    obtain ⟨hmem, hshown⟩ := mem_views hw'
    rcases hplain _ hmem with hw | ⟨hx, hend⟩
    · exact uncommentedAll_of_plain hw (hclean _ hmem).grown rfl hknown
    · have hbare : w.shown = none := by
        by_contra hne
        have hnot := (hshown (Option.isSome_iff_ne_none.mpr hne)).1
        rw [hx] at hnot
        cases hnot
      rw [nodes_of_end (hclean _ hmem).grown hend hbare]
      rfl
  rwa [hplainNode] at hdepicts

end Cicode.Tree

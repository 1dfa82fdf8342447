import Cicode.Proofs.Parse.Run
import Cicode.Proofs.Tree.Layout

/-!
# The root of a syntax tree

Whatever the text, its tree takes it up to the end, and the root is a source file or skipped text.
A text without repairs is a source file (`root_covers_text`).  The root is skipped text if the best
version of the parse has not come back from its last error when the text ends; such a text is
`givenUp`.
-/

namespace Cicode.Tree

open Grammar Text Parse

theorem kind_ofSubtree (tree : Subtree) : (Node.ofSubtree tree).kind = tree.symbol := by
  rw [ofSubtree_eq]
  rfl

theorem stop_ofSubtree (tree : Subtree) : (Node.ofSubtree tree).label.stop = tree.totalSize := by
  rw [ofSubtree_eq]
  show 0 + tree.facts.padding + tree.facts.size = _
  rw [Extent.zero_add]
  rfl

theorem symbol_of_isRoot {tree : Subtree} (h : IsRoot tree) :
    tree.symbol = .sourceFile ∨ tree.symbol = .error ∧ 0 < tree.errorCost := by
  cases h with
  | whole => exact .inl (Subtree.symbol_ofChildren ..)
  | gaveUp => exact .inr ⟨Subtree.symbol_ofChildren .., Subtree.errorCost_skipped_pos rfl ..⟩

/-- **The root of every text is a source file or skipped text, and ends where the text ends.**  It is
skipped text only in a text with repairs. -/
theorem root_covers_text (chars : List Char) :
    ((Node.parse chars).kind = .sourceFile ∨
      (Node.parse chars).kind = .error ∧ (Node.parse chars).hasError = true) ∧
    (Node.parse chars).label.stop = Extent.of chars ∧
    (Node.parse chars).label.stop.bytes = byteLength chars := by
  obtain ⟨hroot, -, htotal⟩ := isWhole_parse chars
  have hstop : (Node.parse chars).label.stop = Extent.of chars := by
    rw [Node.parse, stop_ofSubtree, htotal]
  refine ⟨?_, hstop, by rw [hstop, Extent.bytes_of]⟩
  rw [Node.parse, kind_ofSubtree, hasError_ofSubtree]
  exact (symbol_of_isRoot hroot).imp_right fun ⟨hs, hcost⟩ => ⟨hs, decide_eq_true hcost⟩

/-- A text that ends while an error is being repaired. -/
def givenUp : String := ";INT INT,a"

/-- The root of the text is skipped text. -/
theorem givenUp_root : (Node.parse givenUp.toList).kind = .error := by decide +kernel

end Cicode.Tree

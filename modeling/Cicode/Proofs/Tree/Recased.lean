import Cicode.Proofs.Parse.Source
import Cicode.Proofs.Lex.Case
import Cicode.Tree.Node

/-!
# Syntax trees and the case of keywords

In texts that differ in the case of keywords only, the same tokens can be read everywhere, and a parse
depends on the tokens that can be read.  So the texts have the same syntax tree (`parse_recased`),
whatever had to be repaired in it.  Closing tags are excepted: the bodies of documentation tags end at
them, and `PARAM` closes none.
-/

namespace Cicode.Tree

open Grammar Text Cicode.Lex

/-- **The case of keywords makes no difference to the syntax tree of a text.** -/
theorem parse_recased {a b : List Char} (h : Recased false a b) (htext : NoClosing a) :
    Node.parse a = Node.parse b := by
  have hletters : List.Forall₂ SameLetter a b := (RecasedTail.between h).sameLetters
  rw [Node.parse, Node.parse,
    Parse.parse_congr (extent_of_sameLetters hletters) (nextToken_recased h htext)]

/-- A function without statements in two cases. -/
theorem parse_recased_function :
    Node.parse ("function".toList ++ [' ', 'f', '(', ')', ' '] ++ "End".toList) =
      Node.parse ("FUNCTION".toList ++ [' ', 'f', '(', ')', ' '] ++ "end".toList) := by
  have hend : Recased false ("End".toList ++ []) ("end".toList ++ []) :=
    .keyword (by decide : Symbol.kwEnd ∈ reservedWords) (by decide) (by decide) (by simp) .nil
  have hfunction : Recased false ("function".toList ++ ([' ', 'f', '(', ')', ' '] ++ "End".toList))
      ("FUNCTION".toList ++ ([' ', 'f', '(', ')', ' '] ++ "end".toList)) :=
    .keyword (by decide : Symbol.kwFunction ∈ reservedWords) (by decide) (by decide)
      (by rintro _ ⟨⟩; decide) (.same (.same (.same (.same (.same hend)))))
  simp only [List.append_assoc]
  exact parse_recased hfunction (by decide)

end Cicode.Tree

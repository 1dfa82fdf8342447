import Cicode.Proofs.Parse.Extents

/-!
# Trees further on in a text

The trees of a text are found again where the text stands further on in another one: everything has moved by
the extent of what comes before, and only the padding of the first token differs, since other blanks come
before it there (`Subtree.Moved`).

Main statement (`Subtree.Moved.exists_padded`): the facts of a tree that has moved are the same, but for its
padding.
-/

namespace Cicode.Parse

open Text Grammar

variable {e p p' : Extent} {t t' : Subtree}

namespace Subtree

/-- The second tree is the first one moved on: the same but for the padding of its first token. -/
inductive Moved (e p : Extent) : Extent → Subtree → Subtree → Prop
  | same (t : Subtree) : Moved e p (e + p) t t
  | leaf {p' padding : Extent} {facts : Facts} : p' + padding = e + (p + facts.padding) →
      Moved e p p' (.node facts []) (.node { facts with padding } [])
  | parent {p' : Extent} {symbol : Symbol} {production : Nat} {c c' : Subtree} {cs : List Subtree} :
      Moved e p p' c c' →
      Moved e p p' (.ofChildren symbol production (c :: cs)) (.ofChildren symbol production (c' :: cs))

/-- The same tree with another padding, as far as its facts go. -/
structure Padded (padding : Extent) (t t' : Subtree) : Prop where
  facts_eq : t'.facts = { t.facts with padding }
  empty_eq : t'.children.isEmpty = t.children.isEmpty

theorem addChild_padded (facts : Facts) (place : Nat) (padding : Extent) (child : Subtree) :
    addChild { facts with padding } place false child = { addChild facts place false child with padding } := rfl

theorem addChildren_padded (facts : Facts) (place : Nat) (padding : Extent) (cs : List Subtree) :
    addChildren { facts with padding } place false cs = { addChildren facts place false cs with padding } := by
  induction cs generalizing facts place with
  | nil => rfl
  | cons c cs ih => rw [addChildren, addChildren, addChild_padded, ih]

theorem Padded.addChild {padding : Extent} {c c' : Subtree} (h : Padded padding c c') (facts : Facts) (place : Nat) :
    Subtree.addChild facts place true c' = { Subtree.addChild facts place true c with padding } := by
  obtain ⟨facts₁, cs⟩ := c
  obtain ⟨facts₂, cs'⟩ := c'
  obtain ⟨hfacts, hempty⟩ := h
  obtain rfl : facts₂ = { facts₁ with padding } := hfacts
  have hsame : cs'.isEmpty = cs.isEmpty := hempty
  simp only [Subtree.addChild, skipCost, isExtra, symbol, isVisible, errorCost, children, Subtree.facts, hsame,
    if_true]
  rfl

/-- A parent is padded like its first child. -/
theorem Padded.parent {padding : Extent} {c c' : Subtree} (h : Padded padding c c') (symbol : Symbol)
    (production : Nat) (cs : List Subtree) :
    Padded padding (ofChildren symbol production (c :: cs)) (ofChildren symbol production (c' :: cs)) := by
  have hextra : c'.isExtra = c.isExtra := by rw [isExtra, h.facts_eq, isExtra]
  refine ⟨?_, rfl⟩
  simp only [ofChildren, Subtree.facts, addChildren, hextra, h.addChild, addChildren_padded]
  rfl

/-- The first token begins where that of the other tree does, further on. -/
theorem Moved.exists_padded (h : Moved e p p' t t') : ∃ padding, Padded padding t t' ∧
    p' + padding = e + (p + t.facts.padding) := by
  induction h with
  | same t => exact ⟨t.facts.padding, ⟨rfl, rfl⟩, Extent.add_assoc ..⟩
  | @leaf p' padding facts hp => exact ⟨padding, ⟨rfl, rfl⟩, hp⟩
  | @parent p' symbol production c c' cs _ ih =>
    obtain ⟨padding, hpadded, hp⟩ := ih
    refine ⟨padding, hpadded.parent symbol production cs, ?_⟩
    rw [hp]
    have hfirst : ∀ (facts : Facts) (place : Nat), (addChildren facts place false cs).padding = facts.padding := by
      induction cs with
      | nil => exact fun _ _ => rfl
      | cons d cs ih => exact fun facts place => by rw [addChildren, ih]; rfl
    show _ = e + (p + (addChildren _ 0 true (c :: cs)).padding)
    rw [addChildren, hfirst]
    rfl

theorem Moved.isExtra_eq (h : Moved e p p' t t') : t'.isExtra = t.isExtra := by
  obtain ⟨padding, hpadded, -⟩ := h.exists_padded
  rw [isExtra, hpadded.facts_eq, isExtra]

/-- What has moved ends further on as well. -/
theorem Moved.stop_eq (h : Moved e p p' t t') : p' + t'.totalSize = e + (p + t.totalSize) := by
  obtain ⟨padding, hpadded, hp⟩ := h.exists_padded
  rw [totalSize, totalSize, hpadded.facts_eq, ← Extent.add_assoc, hp, Extent.add_assoc, Extent.add_assoc]

end Subtree

end Cicode.Parse

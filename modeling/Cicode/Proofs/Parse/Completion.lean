import Cicode.Proofs.Lex.Pieces
import Cicode.Proofs.Parse.Unrepaired

/-!
# Reading on

Where the parser has come without an error, the rest of the text decides how it goes on.  A text is read
from floors up to its end (`Floor.Completes`) by reading one token after another; so each token that comes
next has a use (`Floor.Completes.alive`), and it is the token of a piece of the rest
(`Floor.Completes.exists_piece`).

Main statement (`Floor.Ends.completes`, `Floor.Completes.exists_ends`): a text is read up to its end if and
only if it is from all floors on that it arrives at.
-/

namespace Cicode.Parse

open Grammar Text Cicode.Lex Grammar.ShiftReduce

/-- Only terminals have actions. -/
theorem isTerminal_of_chosen {state : StateId} {symbol : Symbol} {action : Action}
    (h : chosen (actionsAt state symbol) = some action) : symbol.isTerminal = true := by
  by_contra hterm
  rw [actionsAt_not_terminal state (by simpa using hterm)] at h
  cases h

namespace Floor

/-- From the floors the text is read up to its end and accepted with the floors `last`. -/
inductive Completes (chars : List Char) (last : List Floor) : List Floor → Prop
  | done {floors : List Floor} : Reductions (next chars floors).symbol floors last →
      chosen (actionsAt (top last) (next chars floors).symbol) = some .accept → Completes chars last floors
  | read {floors floors' : List Floor} : Reads chars floors floors' → Completes chars last floors' →
      Completes chars last floors

/-- What is left of the text behind the floors. -/
def restOf (chars : List Char) (floors : List Floor) : List Char :=
  ((Source.ofList chars).cursorAt (reach floors)).rest

variable {chars : List Char} {floors floors' last before : List Floor}

/-! ## To the end -/

theorem Arrives.completes (h : Arrives chars floors) (hc : Completes chars last floors) :
    Completes chars last [] := by
  induction h with
  | start => exact hc
  | read _ hr ih => exact ih (.read hr hc)

theorem Ends.completes (h : Ends chars before last) : Completes chars last [] :=
  h.arrives.completes (.done h.reductions h.accept)

theorem Completes.exists_ends (h : Completes chars last floors) (ha : Arrives chars floors) :
    ∃ before, Ends chars before last := by
  induction h with
  | done hr hc => exact ⟨_, ha, hr, hc⟩
  | read hr _ ih => exact ih (ha.read hr)

theorem exists_chosen_of_reductions {symbol : Symbol} (h : Reductions symbol floors last)
    (hc : chosen (actionsAt (top last) symbol) ≠ none) : chosen (actionsAt (top floors) symbol) ≠ none := by
  cases h with
  | done => exact hc
  | step hstep => simp [hstep]

theorem Shifts.chosen_ne_none {token : Subtree} (h : Shifts token floors floors') :
    chosen (actionsAt (top floors) token.symbol) ≠ none := by
  cases h with
  | tree hs | extra hs => simp [hs]

/-- **The next token has a use.** -/
theorem Completes.alive (h : Completes chars last floors) :
    chosen (actionsAt (top floors) (next chars floors).symbol) ≠ none := by
  cases h with
  | done hr hc => exact exists_chosen_of_reductions hr (by simp [hc])
  | read hr =>
    obtain ⟨mid, hred, hs⟩ := hr
    exact exists_chosen_of_reductions hred hs.chosen_ne_none

/-! ## Pieces of the rest -/

theorem Arrives.exists_before (h : Arrives chars floors) :
    ∃ read, chars = read ++ restOf chars floors ∧ reach floors = Extent.of read :=
  at_cursorAt h.isPlace

/-- What is left behind floors that reach as far as a part of the text. -/
theorem restOf_append {read rest : List Char} (h : reach floors = Extent.of read) :
    restOf (read ++ rest) floors = rest := by
  rw [restOf, rest_cursorAt read rest (by rw [h, Extent.bytes_of])]

theorem next_piece {p : Piece} (h : pieceAt (top floors) (restOf chars floors) = some p) :
    next chars floors = .ofToken p.token := by
  rw [next, (nextToken_piece (.ofList chars) (top floors) (reach floors)).1 p h]

/-- **The next token is that of a piece.** -/
theorem Completes.exists_piece (h : Completes chars last floors) :
    ∃ p, pieceAt (top floors) (restOf chars floors) = some p ∧ next chars floors = .ofToken p.token := by
  cases hp : pieceAt (top floors) (restOf chars floors) with
  | some p => exact ⟨p, rfl, next_piece hp⟩
  | none =>
    have herror : (next chars floors).symbol = .error :=
      (nextToken_piece (.ofList chars) (top floors) (reach floors)).2 hp
    obtain ⟨action, haction⟩ := Option.ne_none_iff_exists'.mp h.alive
    have hterm := isTerminal_of_chosen haction
    rw [herror] at hterm
    cases hterm

theorem totalSize_ofToken_piece (p : Piece) : (Subtree.ofToken p.token).totalSize = Extent.of p.text := by
  rw [Piece.text, Extent.of_append]
  rfl

variable {p : Piece}

/-- A token that is read takes up its piece. -/
theorem Reads.reach_piece (hl : Linked floors) (h : Reads chars floors floors')
    (hp : pieceAt (top floors) (restOf chars floors) = some p) :
    reach floors' = reach floors + Extent.of p.text := by
  obtain ⟨mid, hred, hs⟩ := h
  rw [hs.reach_eq, hred.reach_eq hl, next_piece hp, totalSize_ofToken_piece]

/-- The piece of the next token is taken from the rest. -/
theorem Reads.restOf_piece (ha : Arrives chars floors) (h : Reads chars floors floors')
    (hp : pieceAt (top floors) (restOf chars floors) = some p) :
    restOf chars floors = p.text ++ restOf chars floors' := by
  obtain ⟨read, hchars, hreach⟩ := ha.exists_before
  obtain ⟨post, hpost⟩ := exists_post_of_pieceAt hp
  have hreach' := h.reach_piece ha.linked hp
  have hsplit : chars = (read ++ p.text) ++ post := by
    rw [List.append_assoc, Piece.text, List.append_assoc, ← hpost, ← hchars]
  have hrest : restOf chars floors' = post := by
    rw [hsplit]
    exact restOf_append (by rw [hreach', hreach, Extent.of_append])
  rw [hrest, hpost, Piece.text, List.append_assoc]

/-- A token that is read has a text. -/
theorem Reads.word_ne_nil (h : Reads chars floors floors')
    (hp : pieceAt (top floors) (restOf chars floors) = some p) : p.word ≠ [] := by
  obtain ⟨mid, hred, hs⟩ := h
  obtain ⟨hterm, hend⟩ := hs.symbol_spec
  rw [next_piece hp] at hterm hend
  refine word_of_pieceAt hp hend fun herror => ?_
  have hsymbol : (Subtree.ofToken p.token).symbol = .error := herror
  rw [hsymbol] at hterm
  cases hterm

/-- The derivation of the next token is a leaf with its word. -/
theorem derivation_next (ha : Arrives chars floors) (hp : pieceAt (top floors) (restOf chars floors) = some p)
    (hterm : p.token.symbol.isTerminal = true) :
    (next chars floors).derivation (.ofList chars) (reach floors) = .leaf p.token.symbol p.word := by
  obtain ⟨read, hchars, hreach⟩ := ha.exists_before
  obtain ⟨post, hpost⟩ := exists_post_of_pieceAt hp
  have hsplit : chars = (read ++ p.blank) ++ (p.word ++ post) := by
    rw [List.append_assoc, ← hpost, ← hchars]
  rw [next_piece hp, Subtree.derivation_ofToken hterm, p.padding_token, p.size_token, hreach, hsplit,
    ← Extent.of_append]
  congr 1
  refine slice_of_bytes (Extent.bytes_of _) ?_
  rw [Extent.bytes_add, Extent.bytes_of, Extent.bytes_of]

end Floor

end Cicode.Parse

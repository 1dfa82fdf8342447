import Cicode.Proofs.Parse.Completion

/-!
# Two texts side by side

The floors of two texts are *beside* each other if their frames are the same: then the parser is in the same
state on both, and has found the same words (`Floor.Beside`).  What comes next decides how it goes on, so
that it stays beside itself as long as the same words come next, whatever comes between them.

Main statement (`Floor.Beside.completes`): if the same word comes next in both texts and the same rest behind
it, and the first text is read up to its end, the second one is, too, with the same frames.
-/

namespace Cicode.Parse

open Grammar Text Cicode.Lex Grammar.ShiftReduce

namespace Floor

variable {chars chars' : List Char} {floors floors' next last : List Floor} {p q : Piece}

/-- The frames of the floors are the same in both texts. -/
structure Beside (chars chars' : List Char) (floors floors' : List Floor) : Prop where
  linked : Linked floors
  linked' : Linked floors'
  frames_eq : framesIn (.ofList chars) floors = framesIn (.ofList chars') floors'

theorem Beside.top_eq (h : Beside chars chars' floors floors') : top floors' = top floors := by
  calc top floors' = ShiftReduce.stateOf (framesIn (.ofList chars') floors') := h.linked'.stateOf_framesIn.symm
    _ = ShiftReduce.stateOf (framesIn (.ofList chars) floors) := congrArg _ h.frames_eq.symm
    _ = top floors := h.linked.stateOf_framesIn

theorem beside_start (chars chars' : List Char) : Beside chars chars' [] [] := ⟨.bottom, .bottom, rfl⟩

/-- A comment on one side changes nothing. -/
theorem Beside.extra (h : Beside chars chars' floors floors') {tree : Subtree} (hx : tree.isExtra = true) :
    Beside chars chars' floors (⟨top floors', tree⟩ :: floors') :=
  ⟨h.linked, .extra hx rfl h.linked', by rw [framesIn_cons_extra hx, h.frames_eq]⟩

/-- The same reductions can be made on both sides. -/
theorem Beside.reductions {terminal : Symbol} (h : Beside chars chars' floors floors')
    (hr : Reductions terminal floors last) :
    ∃ last', Reductions terminal floors' last' ∧ Beside chars chars' last last' := by
  induction hr generalizing floors' with
  | done => exact ⟨floors', .done, h⟩
  | @step floors next last symbol count production hc hr _ ih =>
    have hreduces : Reduces (top floors) symbol count production := .of_mem (mem_of_chosen hc)
    obtain ⟨next', hnext, hreduced⟩ := exists_reduce h.linked hreduces
    cases hr.symm.trans hnext
    obtain ⟨other, hother, hreduced'⟩ := exists_reduce h.linked' (h.top_eq ▸ hreduces)
    have hframes : framesIn (.ofList chars) next = framesIn (.ofList chars') other := by
      rw [framesIn_reduce h.linked hreduces hnext, framesIn_reduce h.linked' (h.top_eq ▸ hreduces) hother,
        h.frames_eq]
    obtain ⟨last', hlast, hbeside⟩ := ih ⟨hreduced.linked, hreduced'.linked, hframes⟩
    exact ⟨last', .step (h.top_eq.symm ▸ hc) hother hlast, hbeside⟩

theorem Reads.unique {a b : List Floor} (h : Reads chars floors a) (h' : Reads chars floors b) : a = b := by
  obtain ⟨mid, hr, hs⟩ := h
  obtain ⟨mid', hr', hs'⟩ := h'
  obtain rfl := hr.unique hr' hs.settled hs'.settled
  exact hs.unique hs'

/-- The same word is read on both sides. -/
theorem Beside.reads (h : Beside chars chars' floors floors') (ha : Arrives chars floors)
    (ha' : Arrives chars' floors') (hr : Reads chars floors next)
    (hp : pieceAt (top floors) (restOf chars floors) = some p)
    (hq : pieceAt (top floors') (restOf chars' floors') = some q) (hsymbol : q.token.symbol = p.token.symbol)
    (hword : q.word = p.word) : ∃ next', Reads chars' floors' next' ∧ Beside chars chars' next next' := by
  obtain ⟨mid, hred, hs⟩ := hr
  obtain ⟨mid', hred', hmid⟩ := h.reductions hred
  have hterm := hs.symbol_spec.1
  have hreach := hred.reach_eq ha.linked
  have hreach' := hred'.reach_eq ha'.linked
  have hsame : (Floor.next chars' floors').symbol = (Floor.next chars floors).symbol := by
    rw [next_piece hp, next_piece hq]
    exact hsymbol
  rw [← hsame] at hred'
  have hleaf : (Floor.next chars floors).derivation (.ofList chars) (reach mid) =
      (Floor.next chars' floors').derivation (.ofList chars') (reach mid') := by
    rw [next_piece hp] at hterm
    rw [hreach, hreach', derivation_next ha hp hterm, derivation_next ha' hq (hsymbol ▸ hterm), hsymbol, hword]
  have hlinked := hmid.linked.shifts hs
  cases hs with
  | @tree target hc =>
    have hc' : Shifts (Floor.next chars' floors') mid' _ := .tree (by rw [hsame, hmid.top_eq]; exact hc)
    refine ⟨_, ⟨mid', hred', hc'⟩, hlinked, hmid.linked'.shifts hc', ?_⟩
    rw [framesIn_cons_tree (by simp), framesIn_cons_tree (by simp), Subtree.derivation_withExtra,
      Subtree.derivation_withExtra, hmid.frames_eq, hleaf]
  | extra hc =>
    have hc' : Shifts (Floor.next chars' floors') mid' _ := .extra (by rw [hsame, hmid.top_eq]; exact hc)
    refine ⟨_, ⟨mid', hred', hc'⟩, hlinked, hmid.linked'.shifts hc', ?_⟩
    rw [framesIn_cons_extra (by simp), framesIn_cons_extra (by simp), hmid.frames_eq]

/-- The same word comes next in both texts, and the same rest behind it. -/
structure SameWord (chars chars' : List Char) (floors floors' : List Floor) (p q : Piece) : Prop where
  piece : pieceAt (top floors) (restOf chars floors) = some p
  piece' : pieceAt (top floors') (restOf chars' floors') = some q
  symbol_eq : q.symbol = p.symbol
  word_eq : q.word = p.word
  rest_eq : ∀ rest, restOf chars floors = p.text ++ rest → restOf chars' floors' = q.text ++ rest

theorem SameWord.symbol_token (h : SameWord chars chars' floors floors' p q) :
    q.token.symbol = p.token.symbol := by
  rw [Piece.token, Piece.token, h.symbol_eq, h.word_eq]

/-- **Beside a text that is read up to its end** another one is read up to its end, if the same words come. -/
theorem Beside.completes (h : Completes chars last floors) (ha : Arrives chars floors)
    (ha' : Arrives chars' floors') (hb : Beside chars chars' floors floors')
    (hsame : ∃ p q, SameWord chars chars' floors floors' p q) :
    ∃ last', Completes chars' last' floors' ∧ Beside chars chars' last last' := by
  induction h generalizing floors' with
  | @done floors hr hc =>
    obtain ⟨p, q, hpq⟩ := hsame
    have hsymbol : (Floor.next chars' floors').symbol = (Floor.next chars floors).symbol := by
      rw [next_piece hpq.piece, next_piece hpq.piece']
      exact hpq.symbol_token
    obtain ⟨last', hr', hlast⟩ := hb.reductions hr
    rw [← hsymbol] at hr' hc
    exact ⟨last', .done hr' (hlast.top_eq.symm ▸ hc), hlast⟩
  | @read floors next hr hc ih =>
    obtain ⟨p, q, hpq⟩ := hsame
    obtain ⟨next', hr', hnext⟩ := hb.reads ha ha' hr hpq.piece hpq.piece' hpq.symbol_token hpq.word_eq
    have hrest : restOf chars' next' = restOf chars next := by
      have hwhole := hpq.rest_eq _ (hr.restOf_piece ha hpq.piece)
      rw [hr'.restOf_piece ha' hpq.piece'] at hwhole
      exact List.append_cancel_left hwhole
    obtain ⟨r, hr2, -⟩ := hc.exists_piece
    have hr2' : pieceAt (top next') (restOf chars' next') = some r := by
      rw [hnext.top_eq, hrest]
      exact hr2
    have hagain : SameWord chars chars' next next' r r :=
      ⟨hr2, hr2', rfl, rfl, fun rest heq => by rw [hrest, heq]⟩
    obtain ⟨last', hlast, hbeside⟩ := ih (ha.read hr) (ha'.read hr') hnext ⟨r, r, hagain⟩
    exact ⟨last', .read hr' hlast, hbeside⟩

end Floor

end Cicode.Parse

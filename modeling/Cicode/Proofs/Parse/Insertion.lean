import Cicode.Proofs.Parse.Cutting

/-!
# A comment put between two tokens

A comment in asterisks is put into a text where no token crosses, with blanks on both sides.  Up to there
the parser reads both texts alike; there it reads the comment, which leaves the state as it is; and then the
same words come again.

Main statement (`Floor.Ends.insert`): the text with the comment is read up to its end, too, and its floors
have the same frames.
-/

namespace Cicode.Parse

open Grammar Text Cicode.Lex Grammar.ShiftReduce

/-- The text with a comment between its two parts. -/
def withComment (pre inside post : List Char) : List Char :=
  pre ++ [' ', '/', '*', ' '] ++ inside ++ [' ', '*', '/', ' '] ++ post

/-- Blanks around a text do not end a comment. -/
theorem not_ends_between_blanks {inside : List Char} (h : ¬ ['*', '/'] <:+: inside) :
    ¬ ['*', '/'] <:+: ' ' :: (inside ++ [' ']) := by
  intro hin
  rcases List.infix_cons_iff.mp hin with hpre | hin
  · exact absurd (List.cons_prefix_cons.mp hpre).1 (by decide)
  · obtain ⟨a, b, heq⟩ := hin
    cases b using List.reverseRecOn with
    | nil =>
      have hlast := congrArg List.getLast? heq
      simp at hlast
    | append_singleton b d =>
      rw [← List.append_assoc] at heq
      exact h ⟨a, b, (List.append_inj' heq rfl).1⟩

namespace Floor

variable {chars chars' pre inside post w body : List Char} {floors last before : List Floor} {p : Piece}

/-- At the cut no body of a documentation tag may come. -/
theorem Completes.no_body {c : Char} (h : Completes (pre ++ post) last floors) (ha : Arrives (pre ++ post) floors)
    (hparted : Parted (pre ++ post) last (byteLength pre) c) (hle : (reach floors).bytes ≤ byteLength pre)
    (hp : pieceAt (top floors) (restOf (pre ++ post) floors) = some p)
    (hcut : byteLength pre ≤ (reach floors).bytes + byteLength p.blank) : docBodyAt (top floors) = none := by
  cases htag : docBodyAt (top floors) with
  | none => rfl
  | some tag =>
    have hmem := symbol_of_docBody htag (h.alive_piece hp)
    obtain ⟨floors', hstep⟩ := h.exists_step ha hp fun heq => absurd (heq ▸ hmem) (by cases tag <;> decide)
    have hinner : p.token.symbol ∈ docInner ∧ p.blank = [] := by
      rcases hstep.opened htag with rfl | ⟨hbody, -⟩
      · refine ⟨?_, rfl⟩
        rw [symbol_token_closing]
        exact (docInner_of_tag tag).2
      · obtain ⟨body, rest, -, -, -, rfl⟩ := bodyPiece_eq_some_iff.mp hbody
        refine ⟨?_, rfl⟩
        rw [symbol_token_body]
        exact (docInner_of_tag tag).1
    have hlt := hstep.reads.reach_lt ha.linked
    rw [hinner.2, byteLength_nil] at hcut
    rcases hparted.doc hstep hinner.1 with hend | hbegin
    · omega
    · omega

/-- **A comment is read where only blanks are left before the cut**, and the words behind it are the same. -/
theorem Beside.past_comment (hb : Beside chars chars' floors floors) (h : Completes chars last floors)
    (ha : Arrives chars floors) (ha' : Arrives chars' floors) (hdoc : docBodyAt (top floors) = none)
    (hw : ∀ c ∈ w, skips lexStates (lexStartAt (top floors)) c = true) (hnul : '\x00' ∉ body)
    (hbody : ¬ ['*', '/'] <:+: body) (hrest : restOf chars floors = w ++ post)
    (hrest' : restOf chars' floors = w ++ ' ' :: ('/' :: '*' :: (body ++ '*' :: '/' :: ' ' :: post))) :
    ∃ last', Completes chars' last' floors ∧ Beside chars chars' last last' := by
  have hspace := skips_space (lexStartAt_mem (top floors))
  have hcomment : pieceAt (top floors) (restOf chars' floors) =
      some ⟨.comment, w ++ [' '], '/' :: '*' :: (body ++ ['*', '/'])⟩ := by
    have hblank : ∀ c ∈ w ++ [' '], skips lexStates (lexStartAt (top floors)) c = true :=
      List.forall_mem_append.mpr ⟨hw, List.forall_mem_singleton.mpr hspace⟩
    rw [hrest', ← List.singleton_append, ← List.append_assoc, pieceAt_after hdoc hblank,
      pieceAt_comment hdoc hnul hbody]
    exact congrArg some (congrArg (Piece.mk _ · _) (List.append_nil _))
  -- The comment leaves the state as it is.
  obtain ⟨row, hrow⟩ := exists_row_of_chosen h.alive
  have hextra : chosen (actionsAt (top floors) (next chars' floors).symbol) = some .shiftExtra := by
    rw [next_piece hcomment]
    exact chosen_comment hrow
  have hreads : Reads chars' floors _ := ⟨floors, .done, .extra hextra⟩
  have hbeside := hb.extra (Subtree.isExtra_withExtra true (next chars' floors))
  -- The word behind it comes after one blank, and not after those before the cut.
  obtain ⟨p, hp, -⟩ := h.exists_piece
  obtain ⟨q, hq, rfl⟩ : ∃ q, pieceAt (top floors) post = some q ∧ q.after w = p := by
    rw [hrest, pieceAt_after hdoc hw] at hp
    exact Option.map_eq_some_iff.mp hp
  have hbehind : restOf chars' (⟨top floors, (next chars' floors).withExtra true⟩ :: floors) = ' ' :: post := by
    have hwhole : w ++ ' ' :: ('/' :: '*' :: (body ++ '*' :: '/' :: ' ' :: post)) =
        w ++ [' '] ++ ('/' :: '*' :: (body ++ ['*', '/'])) ++ ' ' :: post := by simp
    have hsplit := hreads.restOf_piece ha' hcomment
    rw [hrest', hwhole] at hsplit
    exact (List.append_cancel_left hsplit).symm
  have hsame : SameWord chars chars' floors (⟨top floors, (next chars' floors).withExtra true⟩ :: floors)
      (q.after w) (q.after [' ']) := by
    refine ⟨hp, ?_, rfl, rfl, fun rest heq => ?_⟩
    · rw [hbehind]
      show pieceAt (top floors) ([' '] ++ post) = _
      rw [pieceAt_after hdoc (List.forall_mem_singleton.mpr hspace), hq, Option.map_some]
    · rw [hrest, Piece.text_after, List.append_assoc] at heq
      rw [hbehind, Piece.text_after, List.append_assoc, ← List.append_cancel_left heq]
      rfl
  obtain ⟨last', hlast, hbeside'⟩ := hbeside.completes h ha (ha'.read hreads) ⟨_, _, hsame⟩
  exact ⟨last', .read hreads hlast, hbeside'⟩

/-- **A comment between two tokens is read as such**, and the same frames are found. -/
theorem Ends.insert (h : Ends (pre ++ post) before last)
    (hparted : Parted (pre ++ post) last (byteLength pre) ' ') (hnul : '\x00' ∉ inside)
    (hinside : ¬ ['*', '/'] <:+: inside) :
    ∃ before' last', Ends (withComment pre inside post) before' last' ∧
      Beside (pre ++ post) (withComment pre inside post) last last' := by
  have htext : withComment pre inside post =
      pre ++ ' ' :: ('/' :: '*' :: ((' ' :: (inside ++ [' '])) ++ '*' :: '/' :: ' ' :: post)) := by
    simp [withComment]
  rw [htext]
  obtain ⟨floors, hcompletes, ha, ha', hbeside, hle, hcut⟩ := h.completes.until_cut
    (Z := '/' :: '*' :: ((' ' :: (inside ++ [' '])) ++ '*' :: '/' :: ' ' :: post)) .start .start
    (beside_start _ _) hparted (by simp) (Nat.zero_le _)
  obtain ⟨p, hp, -⟩ := hcompletes.exists_piece
  have hdoc := hcompletes.no_body ha hparted hle hp (hcut p hp)
  obtain ⟨read, hread, hreach⟩ := ha.exists_before
  obtain ⟨w, rfl⟩ := prefix_of_byteLength_le hread.symm (by rw [← Extent.bytes_of, ← hreach]; exact hle)
  have hrest : ∀ rest, restOf (read ++ w ++ rest) floors = w ++ rest := by
    intro rest
    rw [List.append_assoc]
    exact restOf_append hreach
  have hbytes := hcut p hp
  rw [hrest] at hp
  -- What is left of the first part is passed over.
  have hw : w <+: p.blank := by
    obtain ⟨behind, hbehind⟩ := exists_post_of_pieceAt hp
    refine prefix_of_byteLength_le hbehind ?_
    rw [byteLength_append, hreach, Extent.bytes_of] at hbytes
    omega
  obtain ⟨last', hlast, hbeside'⟩ := hbeside.past_comment hcompletes ha ha' hdoc
    (fun c hc => skips_of_pieceAt hdoc hp c (hw.subset hc)) (by simpa using hnul)
    (not_ends_between_blanks hinside) (hrest _) (hrest _)
  obtain ⟨before', hends⟩ := hlast.exists_ends ha'
  exact ⟨before', last', hends, hbeside'⟩

end Floor

end Cicode.Parse

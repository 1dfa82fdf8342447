import Cicode.Proofs.Lex.Closing
import Cicode.Proofs.Parse.Beside
import Cicode.Proofs.Parse.Holding

/-!
# Reading up to a cut

Two texts begin alike up to a cut, and the second one goes on there with a blank or a line feed.  As long as
the tokens of the first text end before the cut, the parser reads the same ones in the second text
(`Floor.Completes.until_cut`).  Only if a token could go on behind the cut the texts might differ before it:
a comment that ends with its line, a slash before an asterisk, and the body of a documentation tag whose
closing tag comes behind the cut.  The first and the last are excluded (`Floor.Parted`), and a slash before
an asterisk has no use.

Main statement (`Floor.Completes.closes`): where the body of a documentation tag may come, there is one, or
the closing tag comes at once.
-/

namespace Cicode.Parse

open Grammar Text Cicode.Lex Grammar.ShiftReduce

/-! ## What the table says -/

/-- What is tested of a row: comments are extras; after an opening documentation tag nothing but the body,
the closing tag and comments have a use; after the body the closing tag is read; and an asterisk has no use
after a slash. -/
def cuttingTested (row : Row) : Bool :=
  row.actionsOn .comment == [.shiftExtra] &&
  (row.docBody.all fun tag => readsClosing row.lexStart tag && row.actions.all fun group =>
    group.2.all [bodySymbol tag, closingSymbol tag, .comment].contains) &&
  row.arrows.all fun arrow => match rowAt arrow.2 with
    | none => true
    | some target =>
      (arrow.1 != .slash || target.docBody.isNone &&
        ((stateOf lexStates target.lexStart).edgeOn '*').isNone && target.actionsOn .star == []) &&
      (!docOpeners.contains arrow.1 || target.docBody.isSome) &&
      [DocTag.summary, .param, .returns].all fun tag =>
        arrow.1 != bodySymbol tag || target.docBody.isNone && readsClosing target.lexStart tag

theorem cuttingTested_rows : (rowList.zipIdx.all fun q => cuttingTested q.1) = true := by
  decide +kernel

section

variable {state target : StateId} {symbol : Symbol} {row : Row}

theorem exists_row_of_chosen (h : chosen (actionsAt state symbol) ≠ none) : ∃ row, rowAt state = some row := by
  obtain ⟨action, haction⟩ := Option.ne_none_iff_exists'.mp h
  have hmem := mem_of_chosen haction
  rw [actionsAt_terminal state (isTerminal_of_chosen haction)] at hmem
  split at hmem
  · rename_i row hrow
    exact ⟨row, hrow⟩
  · cases hmem

theorem lexStartAt_of_row (h : rowAt state = some row) : lexStartAt state = row.lexStart := by
  rw [lexStartAt, rows_getElem?, h]
  rfl

theorem docBodyAt_of_row (h : rowAt state = some row) : docBodyAt state = row.docBody := by
  rw [docBodyAt, rows_getElem?, h]
  rfl

/-- **Comments are extras in every state.** -/
theorem chosen_comment (h : rowAt state = some row) :
    chosen (actionsAt state .comment) = some .shiftExtra := by
  have htest : cuttingTested row = true := of_all_rows cuttingTested_rows h
  simp only [cuttingTested, Bool.and_eq_true, beq_iff_eq] at htest
  rw [actionsAt_terminal state rfl, h]
  simp only [htest.1.1]
  rfl

/-- What has a use after an opening documentation tag. -/
theorem symbol_of_docBody {tag : DocTag} (htag : docBodyAt state = some tag)
    (h : chosen (actionsAt state symbol) ≠ none) :
    symbol ∈ [bodySymbol tag, closingSymbol tag, .comment] := by
  obtain ⟨row, hrow⟩ := exists_row_of_chosen h
  obtain ⟨action, haction⟩ := Option.ne_none_iff_exists'.mp h
  have hmem := mem_of_chosen haction
  rw [actionsAt_terminal state (isTerminal_of_chosen haction), hrow] at hmem
  rw [docBodyAt_of_row hrow] at htag
  have htest : cuttingTested row = true := of_all_rows cuttingTested_rows hrow
  simp only [cuttingTested, Bool.and_eq_true, htag, Option.all_some, List.all_eq_true] at htest
  obtain ⟨group, hg, hin, -⟩ := mem_group_of_actionsOn hmem
  exact List.contains_iff_mem.mp (htest.1.2.2 group hg symbol hin)

theorem readsClosing_of_docBody {tag : DocTag} (h : rowAt state = some row) (htag : docBodyAt state = some tag) :
    readsClosing (lexStartAt state) tag = true := by
  rw [docBodyAt_of_row h] at htag
  have htest : cuttingTested row = true := of_all_rows cuttingTested_rows h
  simp only [cuttingTested, Bool.and_eq_true, htag, Option.all_some] at htest
  rw [lexStartAt_of_row h]
  exact htest.1.2.1

/-- What is tested of the state that a symbol leads to. -/
theorem tested_of_arrow (h : Arrow state symbol target) (hrow : rowAt target = some row) :
    (symbol = .slash → row.docBody = none ∧ (stateOf lexStates row.lexStart).edgeOn '*' = none ∧
      row.actionsOn .star = []) ∧
    (symbol ∈ docOpeners → row.docBody ≠ none) ∧
    ∀ tag, symbol = bodySymbol tag → row.docBody = none ∧ readsClosing row.lexStart tag = true := by
  obtain ⟨source, hsource, hmem⟩ := h
  have htest : cuttingTested source = true := of_all_rows cuttingTested_rows hsource
  simp only [cuttingTested, Bool.and_eq_true, List.all_eq_true] at htest
  have harrow := htest.2 _ hmem
  simp only [hrow, Bool.and_eq_true, Bool.or_eq_true, bne_iff_ne, Bool.not_eq_true', beq_iff_eq,
    Option.isNone_iff_eq_none, List.all_eq_true] at harrow
  obtain ⟨⟨hslash, hopen⟩, hbody⟩ := harrow
  refine ⟨fun hs => ?_, fun hs => ?_, fun tag hs => ?_⟩
  · obtain ⟨⟨h1, h2⟩, h3⟩ := hslash.resolve_left fun hne => hne hs
    exact ⟨h1, h2, h3⟩
  · rw [List.contains_iff_mem.mpr hs] at hopen
    simpa [Option.isSome_iff_ne_none] using hopen
  · exact (hbody tag (by cases tag <;> decide)).resolve_left fun hne => hne hs

end

namespace Floor

variable {chars chars' pre post Z : List Char} {floors floors' last : List Floor} {p : Piece} {c : Char}

/-! ## After an opening documentation tag -/

theorem Completes.alive_piece (h : Completes chars last floors)
    (hp : pieceAt (top floors) (restOf chars floors) = some p) :
    chosen (actionsAt (top floors) p.token.symbol) ≠ none := by
  have halive := h.alive
  rw [next_piece hp] at halive
  exact halive

/-- A comment is put on top without a change of state. -/
theorem shifts_comment (halive : chosen (actionsAt (top floors) p.token.symbol) ≠ none)
    (hp : pieceAt (top floors) (restOf chars floors) = some p) (hs : p.token.symbol = .comment) :
    Shifts (next chars floors) floors (⟨top floors, (next chars floors).withExtra true⟩ :: floors) := by
  obtain ⟨row, hrow⟩ := exists_row_of_chosen halive
  refine .extra ?_
  rw [next_piece hp, show (Subtree.ofToken p.token).symbol = .comment from hs]
  exact chosen_comment hrow

/-- The symbols that come after an opening documentation tag are no words. -/
theorem docSymbols_not_words (tag : DocTag) : bodySymbol tag ∉ .identifier :: reservedWords ∧
    closingSymbol tag ∉ .identifier :: reservedWords ∧ Symbol.comment ∉ .identifier :: reservedWords ∧
    closingSymbol tag ≠ .endOfInput ∧ closingSymbol tag ≠ .error ∧ bodySymbol tag ≠ .endOfInput ∧
    bodySymbol tag ≠ .comment ∧ closingSymbol tag ≠ .comment ∧ bodySymbol tag ≠ closingSymbol tag := by
  cases tag <;> decide

/-- **Where the body of a documentation tag may come, there is one, or the closing tag comes at once.** -/
theorem Completes.closes (h : Completes chars last floors) (ha : Arrives chars floors) {tag : DocTag}
    (htag : docBodyAt (top floors) = some tag) : Closes tag (restOf chars floors) := by
  induction h with
  | @done floors hr hc =>
    have hend := (accept_of_chosen hc).2
    have halive : chosen (actionsAt (top floors) (next chars floors).symbol) ≠ none :=
      exists_chosen_of_reductions hr (by simp [hc])
    have hmem := symbol_of_docBody htag halive
    rw [hend] at hmem
    exact absurd hmem (by cases tag <;> decide)
  | @read floors floors' hr hc ih =>
    have hwhole : Completes chars last floors := .read hr hc
    obtain ⟨p, hp, -⟩ := hwhole.exists_piece
    cases hbody : bodyPiece tag (restOf chars floors) with
    | some q => exact .inl ⟨q, hbody⟩
    | none =>
      obtain ⟨number, hn, hpiece⟩ := exists_start_of_pieceAt hp (by rw [htag, Option.bind_some, hbody])
      have halive := hwhole.alive_piece hp
      have hne := hr.word_ne_nil hp
      obtain ⟨post, htext⟩ := exists_post hpiece
      obtain ⟨last', hwalk⟩ := exists_walk (isFresh_of_mem hn) hpiece hne htext
      obtain ⟨hb, hcl, hco, -⟩ := docSymbols_not_words tag
      have hmem := symbol_of_docBody htag halive
      simp only [List.mem_cons, List.not_mem_nil, or_false] at hmem
      rcases hmem with hs | hs | hs
      · exact absurd (Piece.symbol_eq hs hb) (not_body_of_accepts hwalk.accepts)
      · exact closes_of_closing hn hpiece (Piece.symbol_eq hs hcl) hne
      · -- The comment leads back to where it came.
        have hshift := shifts_comment halive hp hs
        obtain ⟨mid, hred, hs'⟩ := hr
        obtain rfl := Reductions.unique .done hred hshift.settled hs'.settled
        obtain rfl := hshift.unique hs'
        have hrest := Reads.restOf_piece ha ⟨_, .done, hshift⟩ hp
        rw [Piece.text, List.append_assoc] at hrest
        exact closes_of_comment (isFresh_of_mem hn) hpiece (Piece.symbol_eq hs hco) hne hrest
          (ih (ha.read ⟨_, .done, hshift⟩) htag)

/-! ## Tokens on the way -/

/-- A token that is read on the way to the end of the text, with the piece it is made of. -/
structure Step (chars : List Char) (last floors floors' : List Floor) (p : Piece) : Prop where
  arrives : Arrives chars floors
  reads : Reads chars floors floors'
  completes : Completes chars last floors'
  piece : pieceAt (top floors) (restOf chars floors) = some p

theorem Step.whole (h : Step chars last floors floors' p) : Completes chars last floors :=
  .read h.reads h.completes

theorem Step.alive (h : Step chars last floors floors' p) :
    chosen (actionsAt (top floors) p.token.symbol) ≠ none :=
  h.whole.alive_piece h.piece

theorem Step.word_ne_nil (h : Step chars last floors floors' p) : p.word ≠ [] := h.reads.word_ne_nil h.piece

theorem Step.reach_eq (h : Step chars last floors floors' p) :
    reach floors' = reach floors + Extent.of p.text :=
  h.reads.reach_piece h.arrives.linked h.piece

theorem Step.restOf_eq (h : Step chars last floors floors' p) :
    restOf chars floors = p.text ++ restOf chars floors' :=
  h.reads.restOf_piece h.arrives h.piece

theorem Step.arrives_next (h : Step chars last floors floors' p) : Arrives chars floors' :=
  h.arrives.read h.reads

/-- How the word was read. -/
theorem Step.exists_walk (h : Step chars last floors floors' p) (hbody : ∀ tag, p.symbol ≠ bodySymbol tag) :
    ∃ number, Walk p (restOf chars floors') number := by
  refine exists_walk_of_pieceAt h.piece hbody h.word_ne_nil ?_
  rw [h.restOf_eq, Piece.text, List.append_assoc]

/-- Where the text does not end, a token is read. -/
theorem Completes.exists_step (h : Completes chars last floors) (ha : Arrives chars floors)
    (hp : pieceAt (top floors) (restOf chars floors) = some p) (hend : p.token.symbol ≠ .endOfInput) :
    ∃ floors', Step chars last floors floors' p := by
  cases h with
  | done hr hc =>
    have heof := (accept_of_chosen hc).2
    rw [next_piece hp] at heof
    exact absurd heof hend
  | read hr hc => exact ⟨_, ha, hr, hc, hp⟩

/-- A token that is no comment is put on top along an arrow. -/
theorem Step.shifted (h : Step chars last floors floors' p) (hs : p.token.symbol ≠ .comment) :
    ∃ source, Arrow source p.token.symbol (top floors') := by
  obtain ⟨mid, -, hshift⟩ := h.reads
  have hsymbol : (next chars floors).symbol = p.token.symbol := by
    rw [next_piece h.piece]
    rfl
  cases hshift with
  | tree hc => exact ⟨top mid, arrow_of_chosen (hsymbol ▸ hc)⟩
  | extra hc => exact absurd (comment_of_shiftExtra (mem_of_chosen (hsymbol ▸ hc))) hs

/-- **The documentation that a state reads ends with its closing tag**, which comes at once or behind the
body. -/
theorem Step.opened (h : Step chars last floors floors' p) {tag : DocTag}
    (htag : docBodyAt (top floors) = some tag) :
    p = ⟨closingSymbol tag, [], wholeTag tag⟩ ∨ bodyPiece tag (restOf chars floors) = some p ∧
      ∃ floors'', Step chars last floors' floors'' ⟨closingSymbol tag, [], wholeTag tag⟩ := by
  obtain ⟨hbodyWord, hclosingWord, -, hend, -, hbodyEnd, hbodyComment, -⟩ := docSymbols_not_words tag
  rcases h.whole.closes h.arrives htag with ⟨q, hq⟩ | ⟨rest, hrest⟩
  · obtain ⟨body, rest, htext, -, -, rfl⟩ := bodyPiece_eq_some_iff.mp hq
    obtain rfl : (⟨bodySymbol tag, [], body⟩ : Piece) = p := by
      have hpiece := h.piece
      rw [pieceAt, htag, Option.bind_some, hq, Option.some_or, Option.some_or] at hpiece
      exact Option.some.inj hpiece
    refine .inr ⟨hq, ?_⟩
    have htoken : (⟨bodySymbol tag, [], body⟩ : Piece).token.symbol = bodySymbol tag :=
      Piece.symbol_token fun heq => hbodyWord (heq ▸ List.mem_cons_self)
    obtain ⟨source, harrow⟩ := h.shifted (by rw [htoken]; exact hbodyComment)
    obtain ⟨row, hrow⟩ := exists_row_of_chosen h.completes.alive
    obtain ⟨hnone, hreads⟩ := (tested_of_arrow harrow hrow).2.2 tag htoken
    have hbehind : restOf chars floors' = wholeTag tag ++ rest := by
      have hsplit := h.restOf_eq
      rw [htext, List.append_assoc] at hsplit
      exact (List.append_cancel_left hsplit).symm
    have hpiece : pieceAt (top floors') (restOf chars floors') = some ⟨closingSymbol tag, [], wholeTag tag⟩ := by
      rw [hbehind]
      refine pieceAt_closing (lexStartAt_of_row hrow ▸ hreads) (fun t ht => ?_) rest
      rw [docBodyAt_of_row hrow, hnone] at ht
      cases ht
    refine h.completes.exists_step h.arrives_next hpiece ?_
    rw [Piece.symbol_token fun heq => hclosingWord (heq ▸ List.mem_cons_self)]
    exact hend
  · obtain ⟨row, hrow⟩ := exists_row_of_chosen h.alive
    have hpiece := h.piece
    rw [← hrest, pieceAt_closing (readsClosing_of_docBody hrow htag) (fun t ht => by
      rw [htag] at ht
      exact (Option.some.inj ht).symm) rest] at hpiece
    exact .inl (Option.some.inj hpiece).symm

theorem docInner_of_tag (tag : DocTag) : bodySymbol tag ∈ docInner ∧ closingSymbol tag ∈ docInner := by
  cases tag <;> decide

theorem symbol_token_body (tag : DocTag) (blank word : List Char) :
    (⟨bodySymbol tag, blank, word⟩ : Piece).token.symbol = bodySymbol tag :=
  Piece.symbol_token fun heq => (docSymbols_not_words tag).1 (heq ▸ List.mem_cons_self)

theorem symbol_token_closing (tag : DocTag) (blank word : List Char) :
    (⟨closingSymbol tag, blank, word⟩ : Piece).token.symbol = closingSymbol tag :=
  Piece.symbol_token fun heq => (docSymbols_not_words tag).2.1 (heq ▸ List.mem_cons_self)

/-- Behind an opening documentation tag the inside of the documentation is read next. -/
theorem Step.inner (h : Step chars last floors floors' p) (hs : p.token.symbol ∈ docOpeners) :
    ∃ floors'' q, Step chars last floors' floors'' q ∧ q.token.symbol ∈ docInner := by
  obtain ⟨source, harrow⟩ := h.shifted fun heq => absurd (heq ▸ hs) (by decide)
  obtain ⟨row, hrow⟩ := exists_row_of_chosen h.completes.alive
  obtain ⟨tag, htag⟩ := Option.ne_none_iff_exists'.mp ((tested_of_arrow harrow hrow).2.1 hs)
  rw [← docBodyAt_of_row hrow] at htag
  obtain ⟨q, hq, -⟩ := h.completes.exists_piece
  have hmem := symbol_of_docBody htag (h.completes.alive_piece hq)
  obtain ⟨floors'', hnext⟩ := h.completes.exists_step h.arrives_next hq fun heq =>
    absurd (heq ▸ hmem) (by cases tag <;> decide)
  refine ⟨floors'', q, hnext, ?_⟩
  rcases hnext.opened htag with rfl | ⟨hbody, -⟩
  · rw [symbol_token_closing]
    exact (docInner_of_tag tag).2
  · obtain ⟨body, rest, -, -, -, rfl⟩ := bodyPiece_eq_some_iff.mp hbody
    rw [symbol_token_body]
    exact (docInner_of_tag tag).1

/-- **What begins like a line is a comment, or the inside of a documentation tag comes next.** -/
theorem Step.line (h : Step chars last floors floors' p) (hl : IsLine p.word) : p.token.symbol = .comment ∨
    ∃ floors'' q, Step chars last floors' floors'' q ∧ q.token.symbol ∈ docInner := by
  have hopener : (∀ tag, p.symbol ≠ bodySymbol tag) → p.token.symbol = .comment ∨
      ∃ floors'' q, Step chars last floors' floors'' q ∧ q.token.symbol ∈ docInner := by
    intro hbody
    obtain ⟨number, hwalk⟩ := h.exists_walk hbody
    have hmem := hwalk.symbol_of_line hl
    have hname : p.symbol ≠ .identifier := fun heq => absurd (heq ▸ hmem) (by decide)
    rw [← Piece.symbol_token hname] at hmem
    rcases List.mem_cons.mp hmem with heq | hin
    · exact .inl heq
    · exact .inr (h.inner hin)
  cases htag : docBodyAt (top floors) with
  | none =>
    refine hopener fun tag heq => ?_
    have hstart : ∃ number ∈ lexStarts, piece? number (restOf chars floors) = some p := by
      refine exists_start_of_pieceAt h.piece ?_
      rw [htag, Option.bind_none]
    obtain ⟨number, hn, hp⟩ := hstart
    have htext : restOf chars floors = p.blank ++ (p.word ++ restOf chars floors') := by
      rw [h.restOf_eq, Piece.text, List.append_assoc]
    obtain ⟨end', hwalk⟩ := Lex.exists_walk (isFresh_of_mem hn) hp h.word_ne_nil htext
    exact not_body_of_accepts hwalk.accepts heq
  | some tag =>
    rcases h.opened htag with rfl | ⟨hbody, floors'', hnext⟩
    · refine hopener fun other => ?_
      show closingSymbol tag ≠ bodySymbol other
      cases tag <;> cases other <;> decide
    · refine .inr ⟨floors'', _, hnext, ?_⟩
      rw [symbol_token_closing]
      exact (docInner_of_tag tag).2

/-- An asterisk is a token of its own for recovery. -/
theorem star_recovery : (stateOf lexStates 0).edgeOn '*' = some (.go (.one '*') 6) ∧
    stateOf lexStates 6 = { accepts := some .star } := by
  decide +kernel

theorem Step.slash (h : Step chars last floors floors' p) (hs : p.symbol = .slash) (rest : List Char) :
    restOf chars floors' ≠ '*' :: rest := by
  intro hrest
  have hsymbol : p.token.symbol = .slash := by
    rw [Piece.symbol_token (by rw [hs]; decide), hs]
  obtain ⟨source, harrow⟩ := h.shifted (by rw [hsymbol]; decide)
  obtain ⟨row, hrow⟩ := exists_row_of_chosen h.completes.alive
  obtain ⟨hdoc, hedge, hactions⟩ := (tested_of_arrow harrow hrow).1 hsymbol
  obtain ⟨hstar, htarget⟩ := star_recovery
  have hpiece : pieceAt (top floors') (restOf chars floors') = some ⟨.star, [], ['*']⟩ := by
    have hlongest : longest 6 rest = some (.star, []) := by
      rw [longest_of_no_edges (by rw [htarget]), complete, htarget]
      rfl
    rw [pieceAt_outside (docBodyAt_of_row hrow ▸ hdoc), hrest, lexStartAt_of_row hrow, piece?_stop hedge,
      Option.none_or, piece?_go hstar rfl, Edge.go, hlongest]
    rfl
  have halive := h.completes.alive_piece hpiece
  rw [actionsAt_terminal _ rfl, hrow] at halive
  exact halive (by rw [show (⟨.star, [], ['*']⟩ : Piece).token.symbol = .star from rfl]; simp only [hactions]; rfl)

/-! ## Up to the cut -/

/-- No token crosses the cut, none of the inside of a documentation tag begins there, and a comment that
ends with its line does not end there if the character is a blank. -/
structure Parted (chars : List Char) (last : List Floor) (cut : Nat) (c : Char) : Prop where
  outside : ∀ {floors floors' : List Floor} {p : Piece}, Step chars last floors floors' p →
    (reach floors').bytes ≤ cut ∨ cut ≤ (reach floors).bytes + byteLength p.blank
  doc : ∀ {floors floors' : List Floor} {p : Piece}, Step chars last floors floors' p →
    p.token.symbol ∈ docInner → (reach floors').bytes ≤ cut ∨ cut < (reach floors).bytes
  line : c = ' ' → ∀ {floors floors' : List Floor} {p : Piece}, Step chars last floors floors' p →
    p.token.symbol = .comment → IsLine p.word → (reach floors').bytes ≠ cut

/-- **A token that ends before the cut is read in both texts.** -/
theorem Step.pieceAt_cut (h : Step (pre ++ post) last floors floors' p)
    (hparted : Parted (pre ++ post) last (byteLength pre) c) (hc : c ∈ [' ', '\n'])
    (hle : (reach floors').bytes ≤ byteLength pre) :
    pieceAt (top floors) (restOf (pre ++ c :: Z) floors) = some p := by
  obtain ⟨read, hchars, hreach⟩ := h.arrives.exists_before
  have hend : (reach floors').bytes = byteLength read + byteLength p.text := by
    rw [h.reach_eq, hreach, Extent.bytes_add, Extent.bytes_of, Extent.bytes_of]
  obtain ⟨w, rfl⟩ := prefix_of_byteLength_le hchars.symm (by omega)
  rw [byteLength_append] at hle hparted
  have hrest : restOf (read ++ w ++ post) floors = w ++ post := by
    rw [List.append_assoc]
    exact restOf_append hreach
  have hsplit := h.restOf_eq
  rw [hrest] at hsplit
  have hprefix : ∀ {word more : List Char}, w ++ post = word ++ more →
      byteLength read + byteLength word ≤ byteLength read + byteLength w → word <+: w :=
    fun heq hbytes => prefix_of_byteLength_le heq.symm (by omega)
  have htext := hprefix hsplit (by omega)
  have hbefore : EndsBefore w c p := by
    refine ⟨h.word_ne_nil, htext.length_le, fun hs hin => ?_, fun hc htext hline => ?_⟩
    · obtain ⟨number, hwalk⟩ := h.exists_walk fun tag => by rw [hs]; cases tag <;> decide
      obtain ⟨more, rfl⟩ := hin
      rw [Piece.text, hwalk.word_of_slash hs, List.append_assoc, List.append_assoc, List.append_assoc] at hsplit
      exact h.slash hs (more ++ post) (List.cons.inj (List.append_cancel_left hsplit)).2.symm
    · rw [htext] at hend
      rcases h.line hline with hcomment | ⟨floors'', q, hq, hin⟩
      · exact hparted.line hc h hcomment hline hend
      · rcases hparted.doc hq hin with hend' | hcut
        · have hlt := hq.reads.reach_lt hq.arrives.linked
          omega
        · omega
  have hdoc : DocEndsIn (top floors) w post p := by
    intro tag htag
    rcases h.opened htag with rfl | ⟨hbody, floors'', hq⟩
    · exact .inl htext
    · rw [hrest] at hbody
      refine .inr ⟨hbody, ?_⟩
      obtain ⟨body, rest, -, -, -, rfl⟩ := bodyPiece_eq_some_iff.mp hbody
      have hbytes : (reach floors'').bytes =
          byteLength read + byteLength (body ++ wholeTag tag) := by
        rw [hq.reach_eq, Extent.bytes_add, hend, Extent.bytes_of, byteLength_append]
        exact Nat.add_assoc ..
      show body ++ wholeTag tag <+: w
      refine hprefix (by rw [hsplit, hq.restOf_eq, ← List.append_assoc]; rfl) ?_
      rcases hparted.doc hq (by rw [symbol_token_closing]; exact (docInner_of_tag tag).2) with hend' | hcut
      · omega
      · omega
  have hpiece := h.piece
  rw [hrest] at hpiece
  rw [List.append_assoc, restOf_append hreach]
  exact Lex.pieceAt_cut hc hpiece hbefore hdoc

/-- The end of the text has no text, and comes behind all of it. -/
theorem Arrives.end_of_piece (ha : Arrives chars floors)
    (hp : pieceAt (top floors) (restOf chars floors) = some p) (hs : p.token.symbol = .endOfInput) :
    p.word = [] ∧ (reach floors).bytes + byteLength p.blank = byteLength chars := by
  have hsymbol : p.symbol = .endOfInput := Piece.symbol_eq hs (by decide)
  have hword : p.word = [] := by
    by_contra hne
    obtain ⟨post, hpost⟩ := exists_post_of_pieceAt hp
    obtain ⟨number, hwalk⟩ := exists_walk_of_pieceAt hp (fun tag => by rw [hsymbol]; cases tag <;> decide) hne hpost
    exact hwalk.symbol_ne_end hsymbol
  have htoken := (nextToken_piece (.ofList chars) (top floors) (reach floors)).1 p hp
  have hplaced := placed_nextToken (top floors) ha.isPlace
  rw [htoken] at hplaced
  have hlast := congrArg Extent.bytes (hplaced.last hs)
  rw [p.padding_token, p.size_token, hword, Extent.bytes_add, Extent.bytes_add, Extent.bytes_of, Extent.bytes_of,
    Extent.bytes_of, byteLength_nil, Nat.add_zero] at hlast
  exact ⟨hword, hlast⟩

/-- **Up to the cut both texts are read alike**: what comes next in the first text lies behind the cut, but
for its blanks. -/
theorem Completes.until_cut (h : Completes (pre ++ post) last floors) (ha : Arrives (pre ++ post) floors)
    (ha' : Arrives (pre ++ c :: Z) floors) (hb : Beside (pre ++ post) (pre ++ c :: Z) floors floors)
    (hparted : Parted (pre ++ post) last (byteLength pre) c) (hc : c ∈ [' ', '\n'])
    (hle : (reach floors).bytes ≤ byteLength pre) :
    ∃ floors', Completes (pre ++ post) last floors' ∧ Arrives (pre ++ post) floors' ∧
      Arrives (pre ++ c :: Z) floors' ∧ Beside (pre ++ post) (pre ++ c :: Z) floors' floors' ∧
      (reach floors').bytes ≤ byteLength pre ∧
      ∀ p, pieceAt (top floors') (restOf (pre ++ post) floors') = some p →
        byteLength pre ≤ (reach floors').bytes + byteLength p.blank := by
  induction h with
  | @done floors hr hc =>
    refine ⟨floors, .done hr hc, ha, ha', hb, hle, fun p hp => ?_⟩
    have hend := (accept_of_chosen hc).2
    rw [next_piece hp] at hend
    have hbytes := (ha.end_of_piece hp hend).2
    rw [byteLength_append] at hbytes
    omega
  | @read floors floors' hr hcompletes ih =>
    have hwhole : Completes (pre ++ post) last floors := .read hr hcompletes
    obtain ⟨p, hp, hnext⟩ := hwhole.exists_piece
    have hstep : Step (pre ++ post) last floors floors' p := ⟨ha, hr, hcompletes, hp⟩
    rcases hparted.outside hstep with hbefore | hbehind
    · have hp' : pieceAt (top floors) (restOf (pre ++ c :: Z) floors) = some p := hstep.pieceAt_cut hparted hc hbefore
      have hsame : next (pre ++ c :: Z) floors = next (pre ++ post) floors := by rw [next_piece hp', hnext]
      have hr' : Reads (pre ++ c :: Z) floors floors' := by
        obtain ⟨mid, hred, hs⟩ := hr
        exact ⟨mid, hsame ▸ hred, hsame ▸ hs⟩
      obtain ⟨next', hnext', hbeside⟩ := hb.reads ha ha' hr hp hp' rfl rfl
      obtain rfl := hr'.unique hnext'
      exact ih (ha.read hr) (ha'.read hr') hbeside hbefore
    · refine ⟨floors, hwhole, ha, ha', hb, hle, fun q hq => ?_⟩
      cases hp.symm.trans hq
      exact hbehind

end Floor

end Cicode.Parse

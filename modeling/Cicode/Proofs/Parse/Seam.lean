import Cicode.Proofs.Parse.Cutting

/-!
# Where two sources meet

A source file is a row of top-level items.  After the items of one source the parser is in state 3, and goes
on from there as it does from the initial state 1 at the beginning of a text; there are the same actions, and
the same states follow, but for the list of items itself (`same_actions`, `same_gotos`).  Whatever begins an
item ends the one before in the same way as the end of the text does (`ends_items`).  A source file is put
together last (`Floor.Reduced.ne_source`).
-/

namespace Cicode.Parse

open Grammar Text Cicode.Lex Grammar.ShiftReduce

/-! ## What the table says -/

/-- Nothing is done with a comment but to pass over it. -/
theorem action_of_comment {state : StateId} {action : Action} (h : chosen (actionsAt state .comment) = some action) :
    action = .shiftExtra := by
  obtain ⟨row, hrow⟩ := exists_row_of_chosen (by rw [h]; exact Option.some_ne_none _)
  exact Option.some.inj (h.symm.trans (chosen_comment hrow))

/-- What is tested of a symbol: states 1 and 3 act alike on it and lead on alike, but for the end of the text and for
a list of items or all of it; if it has a use in state 3, two lists of items are put together in state 28, comments
apart; and behind a source file nothing is done but to accept it and to pass over comments. -/
def seamTestedOn (symbol : Symbol) : Bool :=
  (symbol == .endOfInput || chosen (actionsAt 3 symbol) == chosen (actionsAt 1 symbol)) &&
  (!Symbol.nonterminals.contains symbol || symbol == .sourceFile || symbol == .topLevelItems ||
    gotoAt 3 symbol == gotoAt 1 symbol) &&
  (symbol == .comment || (chosen (actionsAt 3 symbol)).isNone ||
    chosen (actionsAt 28 symbol) == some (.reduce .topLevelItems 2 0)) &&
  (chosen (actionsAt 2 symbol)).all fun action => action == .accept || action == .shiftExtra

/-- What is tested of a row: if the end of the text ends an item, so does whatever can begin one, and outside
of documentation the next word is read in the same way as at the beginning; and lists of items lead from state
1 to state 3, and from there to state 28. -/
def seamTestedAt (row : Row) (state : StateId) : Bool :=
  (match chosen (row.actionsOn .endOfInput) with
    | some (.reduce symbol count production) =>
      (row.lexStart == 109 && row.docBody.isNone) &&
      (symbol == .sourceFile || Symbol.terminals.all fun terminal =>
        terminal == .comment || (chosen (actionsAt 1 terminal)).isNone ||
          chosen (row.actionsOn terminal) == some (.reduce symbol count production))
    | _ => true) &&
  (row.arrows.all fun arrow => (arrow.2 != 3 || arrow.1 == .topLevelItems) &&
    (arrow.1 != .sourceFile || arrow.2 == 2) &&
    (arrow.1 != .topLevelItems || state == 1 && arrow.2 == 3 || (state == 3 || state == 28) && arrow.2 == 28))

theorem seam_tested : (rowList.zipIdx.all fun q => seamTestedAt q.1 q.2) = true ∧
    (Symbol.withSkipped.all seamTestedOn) = true ∧
    chosen (actionsAt 1 .endOfInput) = some (.reduce .sourceFile 0 0) ∧
    chosen (actionsAt 3 .endOfInput) = some (.reduce .sourceFile 1 0) := by
  decide +kernel

theorem seamTested_on (symbol : Symbol) : seamTestedOn symbol = true :=
  List.all_eq_true.mp seam_tested.2.1 symbol symbol.mem_withSkipped

/-- The end of the text ends a source file in states 1 and 3. -/
theorem ends_source : chosen (actionsAt 1 .endOfInput) = some (.reduce .sourceFile 0 0) ∧
    chosen (actionsAt 3 .endOfInput) = some (.reduce .sourceFile 1 0) :=
  seam_tested.2.2

/-- States 1 and 3 act alike, but for the end of the text. -/
theorem same_actions {terminal : Symbol} (h : terminal ≠ .endOfInput) :
    chosen (actionsAt 3 terminal) = chosen (actionsAt 1 terminal) := by
  have htest := seamTested_on terminal
  simp only [seamTestedOn, Bool.and_eq_true, Bool.or_eq_true, beq_iff_eq] at htest
  exact htest.1.1.1.resolve_left h

/-- The same states follow after states 1 and 3, but after a list of items or all of it. -/
theorem same_gotos {symbol : Symbol} (hn : symbol ∈ Symbol.nonterminals) (hsource : symbol ≠ .sourceFile)
    (hitems : symbol ≠ .topLevelItems) : gotoAt 3 symbol = gotoAt 1 symbol := by
  have htest := seamTested_on symbol
  simp only [seamTestedOn, Bool.and_eq_true, Bool.or_eq_true, beq_iff_eq, Bool.not_eq_true',
    List.contains_eq_mem, decide_eq_false_iff_not] at htest
  rcases htest.1.1.2 with ((hnot | hs) | hs) | hsame
  · exact absurd hn hnot
  · exact absurd hs hsource
  · exact absurd hs hitems
  · exact hsame

/-- Two lists of items are put together at once. -/
theorem merges_items {terminal : Symbol} (hcomment : terminal ≠ .comment)
    (halive : chosen (actionsAt 3 terminal) ≠ none) :
    chosen (actionsAt 28 terminal) = some (.reduce .topLevelItems 2 0) := by
  have htest := seamTested_on terminal
  simp only [seamTestedOn, Bool.and_eq_true, Bool.or_eq_true, beq_iff_eq, Option.isNone_iff_eq_none] at htest
  exact htest.1.2.resolve_left fun hor => hor.elim hcomment halive

/-- Behind a source file nothing is done but to accept it and to pass over comments. -/
theorem chosen_source {terminal : Symbol} {action : Action} (h : chosen (actionsAt 2 terminal) = some action) :
    action = .accept ∨ action = .shiftExtra := by
  have htest := seamTested_on terminal
  rw [seamTestedOn, Bool.and_eq_true, h] at htest
  simpa using htest.2

section

variable {state target : StateId} {symbol terminal : Symbol} {count production : Nat}

/-- What leads to a list of items, and to the state behind it. -/
theorem items_of_arrow (h : Arrow state symbol target) :
    (target = 3 → symbol = .topLevelItems) ∧ (symbol = .sourceFile → target = 2) ∧
    (symbol = .topLevelItems → state = 1 ∧ target = 3 ∨ (state = 3 ∨ state = 28) ∧ target = 28) := by
  obtain ⟨row, hrow, hmem⟩ := h
  have htest : seamTestedAt row state = true := of_all_rows seam_tested.1 hrow
  rw [seamTestedAt, Bool.and_eq_true] at htest
  have hall := List.all_eq_true.mp htest.2 _ hmem
  simp only [Bool.and_eq_true, Bool.or_eq_true, bne_iff_ne, beq_iff_eq] at hall
  refine ⟨fun h3 => hall.1.1.resolve_left (not_not_intro h3),
    fun hs => hall.1.2.resolve_left (not_not_intro hs), fun hs => ?_⟩
  rcases hall.2 with (hne | h1) | h3
  · exact absurd hs hne
  · exact .inl h1
  · exact .inr h3

/-- The first list of items leads to state 3. -/
theorem target_of_items (h : Arrow 1 .topLevelItems target) : target = 3 := by
  rcases (items_of_arrow h).2.2 rfl with ⟨-, h3⟩ | ⟨h1 | h1, -⟩
  · exact h3
  · cases h1
  · cases h1

/-- Behind a list of items another one leads to state 28. -/
theorem target_of_more_items (h : Arrow 3 .topLevelItems target) : target = 28 := by
  rcases (items_of_arrow h).2.2 rfl with ⟨h1, -⟩ | ⟨-, h28⟩
  · cases h1
  · exact h28

/-- What is tested where the end of the text ends something. -/
theorem tested_of_end (h : chosen (actionsAt state .endOfInput) = some (.reduce symbol count production)) :
    ∃ row, rowAt state = some row ∧ (row.lexStart = 109 ∧ row.docBody = none) ∧
      (symbol = .sourceFile ∨ ∀ terminal ∈ Symbol.terminals, (terminal = .comment ∨
        chosen (actionsAt 1 terminal) = none) ∨
          chosen (row.actionsOn terminal) = some (.reduce symbol count production)) := by
  have halive : chosen (actionsAt state .endOfInput) ≠ none := by
    rw [h]
    exact Option.some_ne_none _
  obtain ⟨row, hrow⟩ := exists_row_of_chosen halive
  have htest : seamTestedAt row state = true := of_all_rows seam_tested.1 hrow
  rw [actionsAt_terminal state rfl, hrow] at h
  rw [seamTestedAt, Bool.and_eq_true] at htest
  have hend := htest.1
  simp only [h, Bool.and_eq_true, Bool.or_eq_true, beq_iff_eq, Option.isNone_iff_eq_none, List.all_eq_true] at hend
  exact ⟨row, hrow, hend⟩

/-- **Whatever begins an item ends the one before** as the end of the text does. -/
theorem ends_items (h : chosen (actionsAt state .endOfInput) = some (.reduce symbol count production))
    (hs : symbol ≠ .sourceFile) (halive : chosen (actionsAt 1 terminal) ≠ none) (hcomment : terminal ≠ .comment) :
    chosen (actionsAt state terminal) = some (.reduce symbol count production) := by
  obtain ⟨row, hrow, -, hall⟩ := tested_of_end h
  obtain ⟨action, haction⟩ := Option.ne_none_iff_exists'.mp halive
  have hterm := isTerminal_of_chosen haction
  have hmem : terminal ∈ Symbol.terminals := by
    revert hterm
    cases terminal <;> decide
  rw [actionsAt_terminal state hterm, hrow]
  exact (hall.resolve_left hs terminal hmem).resolve_left fun hor => hor.elim hcomment halive

/-- Where the end of the text may come, the next word is read as at the beginning. -/
theorem lexStart_of_end (h : chosen (actionsAt state .endOfInput) = some (.reduce symbol count production)) :
    lexStartAt state = 109 ∧ docBodyAt state = none := by
  obtain ⟨row, hrow, hlex, -⟩ := tested_of_end h
  rwa [lexStartAt_of_row hrow, docBodyAt_of_row hrow]

end

/-! ## What is put together -/

namespace Floor

variable {floors next last : List Floor} {symbol terminal : Symbol} {count production : Nat}

/-- What a reduction leads to is known from its symbol. -/
theorem Reduced.exists_arrow (h : Reduced symbol count production floors next) :
    ∃ state, Arrow state symbol (top next) := by
  obtain ⟨target, hframes⟩ := h.frames_eq
  have hlinked := h.linked.frames_linked
  have htop := h.linked.stateOf_frames
  rw [hframes] at hlinked htop
  obtain ⟨harrow, -⟩ := hlinked
  have hstate : target = top next := htop
  exact ⟨_, hstate ▸ harrow⟩

theorem Reduced.top_of_source (h : Reduced .sourceFile count production floors next) : top next = 2 := by
  obtain ⟨state, harrow⟩ := h.exists_arrow
  exact (items_of_arrow harrow).2.1 rfl

theorem Reduced.source_of_top (h : Reduced symbol count production floors next) (htop : top next = 2) :
    symbol = .sourceFile := by
  obtain ⟨state, harrow⟩ := h.exists_arrow
  exact ((target_of_arrow harrow).2 htop).2

/-- Nothing is put together behind a source file. -/
theorem Reductions.eq_of_source (h : Reductions terminal floors last) (htop : top floors = 2) : last = floors := by
  cases h with
  | done => rfl
  | step hc =>
    rcases chosen_source (htop ▸ hc) with haccept | hextra
    · cases haccept
    · cases hextra

/-- A source file is put together last. -/
theorem Reduced.ne_source (h : Reduced symbol count production floors next) (hrest : Reductions terminal next last)
    (hlast : top last ≠ 2) : symbol ≠ .sourceFile := by
  rintro rfl
  rw [hrest.eq_of_source h.top_of_source] at hlast
  exact hlast h.top_of_source

theorem Reductions.trans {mid : List Floor} (h : Reductions terminal floors mid) (h' : Reductions terminal mid last) :
    Reductions terminal floors last := by
  induction h with
  | done => exact h'
  | step hc hr _ ih => exact .step hc hr (ih h')

end Floor

end Cicode.Parse

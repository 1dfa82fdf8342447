import Cicode.Proofs.Lex.Blanks

/-!
# Tokens before a cut

A text is cut at a place and goes on differently from there, beginning with a blank or a line feed.  A
token that ends before the cut is the same in both texts (`piece?_cut`), but for two cases: a slash that
an asterisk follows begins a comment if the comment ends behind the cut, and a comment that ends with its
line goes on behind a cut at its end.

The automaton could tell the texts apart only in a state at the cut that has an edge on the blank or the
line feed.  Such states are inside strings, comments and documentation tags.  Where nothing is complete
(`silentStates`) there is no token that ends before the cut, unless it is the slash before the asterisk;
in the others (`isLineState`) the token ends at the cut.
-/

namespace Cicode.Lex

open Grammar Text

/-! ## States -/

/-- The states inside strings and comments in asterisks, in which no token is complete. -/
def silentStates : List Nat := [3, 20, 22, 32, 23, 33, 34, 44, 55, 56]

/-- The states after a slash. -/
def slashStates : List Nat := [10, 111, 115, 137]

/-- A comment is complete in the state, and it may go on. -/
def isLineState (state : LexState) : Bool := state.accepts == some .comment && !state.edges.isEmpty

/-- What is tested of a state: which characters lead to silent states, to those after a slash and to those
of lines; and where a token has begun, only from silent states and those of lines one gets further by a
blank, and only from silent states by a line feed. -/
def cutTested (number : Nat) (state : LexState) : Bool :=
  (isFresh state || ((state.edgeOn '\n').isNone || silentStates.contains number) &&
    ((state.edgeOn ' ').isNone || silentStates.contains number || isLineState state)) &&
  (!silentStates.contains number || state.accepts.isNone) &&
  (!slashStates.contains number || state.accepts.all (· == .slash)) &&
  state.edges.all fun edge =>
    (!silentStates.contains edge.target || silentStates.contains number && !isFresh state ||
      slashStates.contains number && edge.on == .one '*' ||
      isFresh state && edge.on == .one '"' && edge.target == 3) &&
    (!slashStates.contains edge.target || isFresh state && edge.on == .one '/') &&
    (!isLineState (stateOf lexStates edge.target) || isLineState state ||
      slashStates.contains number && edge.on == .one '/' || isFresh state && edge.on == .one '!')

theorem cutTested_lexStates : (lexStates.toList.zipIdx.all fun q => cutTested q.2 q.1) = true := by
  decide +kernel

theorem cutTested_stateOf (number : Nat) : cutTested number (stateOf lexStates number) = true := by
  rw [stateOf]
  cases hs : lexStates[number]? with
  | none => simp [cutTested, LexState.edgeOn]
  | some state =>
    refine List.all_eq_true.mp cutTested_lexStates (state, number) ?_
    rw [List.mem_zipIdx_iff_getElem?, Array.getElem?_toList]
    exact hs

section

variable {number next last : Nat} {c : Char} {w text Y Z : List Char} {symbol : Symbol} {word : List Char}

theorem accepts_of_silent (h : number ∈ silentStates) : (stateOf lexStates number).accepts = none := by
  have htest := cutTested_stateOf number
  simp only [cutTested, Bool.and_eq_true, List.contains_iff_mem.mpr h] at htest
  simpa using htest.1.1.2

theorem symbol_of_slash (h : number ∈ slashStates) {found : Symbol × List Char}
    (hc : complete number = some found) : found = (.slash, []) := by
  have htest := cutTested_stateOf number
  simp only [cutTested, Bool.and_eq_true, List.contains_iff_mem.mpr h] at htest
  obtain ⟨symbol, hsymbol, rfl⟩ := Option.map_eq_some_iff.mp hc
  have hslash := htest.1.2
  rw [hsymbol] at hslash
  simpa using hslash

/-- Where a token has begun, a blank or a line feed belongs to it only in strings, comments and
documentation tags. -/
theorem stops_or_inside (hf : isFresh (stateOf lexStates number) = false) (hc : c ∈ [' ', '\n']) :
    after number c = none ∨ number ∈ silentStates ∨ c = ' ' ∧ isLineState (stateOf lexStates number) = true := by
  have htest := cutTested_stateOf number
  simp only [cutTested, Bool.and_eq_true, Bool.or_eq_true, hf, Bool.false_eq_true, false_or,
    Option.isNone_iff_eq_none, List.contains_iff_mem] at htest
  obtain ⟨⟨⟨⟨hline, hblank⟩, -⟩, -⟩, -⟩ := htest
  have hafter : ∀ {c : Char}, (stateOf lexStates number).edgeOn c = none → after number c = none := by
    intro c h
    rw [after, h, Option.map_none]
  simp only [List.mem_cons, List.not_mem_nil, or_false] at hc
  rcases hc with rfl | rfl
  · rcases hblank with (h | h) | h
    · exact .inl (hafter h)
    · exact .inr (.inl h)
    · exact .inr (.inr ⟨rfl, h⟩)
  · rcases hline with h | h
    · exact .inl (hafter h)
    · exact .inr (.inl h)

/-- How a character leads into strings and comments. -/
structure Led (number : Nat) (c : Char) (next : Nat) : Prop where
  silent : next ∈ silentStates → number ∈ silentStates ∧ isFresh (stateOf lexStates number) = false ∨
    number ∈ slashStates ∧ c = '*' ∨ isFresh (stateOf lexStates number) = true ∧ c = '"' ∧ next = 3
  slash : next ∈ slashStates → isFresh (stateOf lexStates number) = true ∧ c = '/'
  line : isLineState (stateOf lexStates next) = true → isLineState (stateOf lexStates number) = true ∨
    number ∈ slashStates ∧ c = '/' ∨ isFresh (stateOf lexStates number) = true ∧ c = '!'

theorem led_of_edgeOn {edge : Edge} (h : (stateOf lexStates number).edgeOn c = some edge) :
    Led number c edge.target := by
  have htest := cutTested_stateOf number
  simp only [cutTested, Bool.and_eq_true, List.all_eq_true] at htest
  obtain ⟨⟨hsilent, hslash⟩, hline⟩ := htest.2 edge (List.mem_of_find?_eq_some h)
  refine ⟨fun hin => ?_, fun hin => ?_, fun hin => ?_⟩
  · simp only [List.contains_iff_mem.mpr hin, Bool.not_true, Bool.false_or, Bool.or_eq_true, Bool.and_eq_true,
      Bool.not_eq_true', beq_iff_eq, List.contains_iff_mem] at hsilent
    rcases hsilent with (h1 | ⟨h1, hon⟩) | ⟨⟨h1, hon⟩, htarget⟩
    · exact .inl h1
    · exact .inr (.inl ⟨h1, eq_of_edgeOn h hon⟩)
    · exact .inr (.inr ⟨h1, eq_of_edgeOn h hon, htarget⟩)
  · simp only [List.contains_iff_mem.mpr hin, Bool.not_true, Bool.false_or, Bool.and_eq_true, beq_iff_eq]
      at hslash
    exact ⟨hslash.1, eq_of_edgeOn h hslash.2⟩
  · simp only [hin, Bool.not_true, Bool.false_or, Bool.or_eq_true, Bool.and_eq_true, beq_iff_eq,
      List.contains_iff_mem] at hline
    rcases hline with (h1 | ⟨h1, hon⟩) | ⟨h1, hon⟩
    · exact .inl h1
    · exact .inr (.inl ⟨h1, eq_of_edgeOn h hon⟩)
    · exact .inr (.inr ⟨h1, eq_of_edgeOn h hon⟩)

theorem led_of_after (h : after number c = some next) : Led number c next := by
  obtain ⟨edge, hedge, rfl⟩ := Option.map_eq_some_iff.mp h
  exact led_of_edgeOn hedge

theorem not_fresh_after (hf : isFresh (stateOf lexStates number) = false) (h : after number c = some next) :
    isFresh (stateOf lexStates next) = false := by
  obtain ⟨edge, hedge, rfl⟩ := Option.map_eq_some_iff.mp h
  rw [isFresh_target hedge]
  rw [isFresh, List.any_eq_false] at hf
  simpa using hf edge (List.mem_of_find?_eq_some hedge)

/-! ## Along a text -/

/-- The state to which the characters of a text lead. -/
def stateAfter : Nat → List Char → Option Nat
  | number, [] => some number
  | number, c :: rest => (after number c).bind (stateAfter · rest)

/-- A token that is read after a text is the token, with the text in front. -/
theorem longest_along (h : stateAfter number w = some last) (hl : longest last text = some (symbol, word)) :
    longest number (w ++ text) = some (symbol, w ++ word) := by
  induction w generalizing number with
  | nil =>
    cases h
    exact hl
  | cons c w ih =>
    obtain ⟨next, hafter, hnext⟩ := Option.bind_eq_some_iff.mp h
    exact longest_go_some hafter (ih hnext)

theorem complete_of_longest_nil (h : longest number text = some (symbol, [])) :
    complete number = some (symbol, []) := by
  cases text with
  | nil => exact h
  | cons c rest =>
    cases hafter : after number c with
    | none => rwa [longest_stop hafter] at h
    | some next =>
      rw [longest_go hafter, Option.or_eq_some_iff] at h
      rcases h with h | ⟨-, h⟩
      · obtain ⟨found, -, heq⟩ := Option.map_eq_some_iff.mp h
        cases heq
      · exact h

/-- A token with one character more. -/
theorem longest_cons_cases (h : longest number (c :: text) = some (symbol, word)) :
    (∃ next word', after number c = some next ∧ longest next text = some (symbol, word') ∧ word = c :: word') ∨
      complete number = some (symbol, word) ∧ word = [] ∧
        ∀ next, after number c = some next → longest next text = none := by
  have hnil : complete number = some (symbol, word) → word = [] := by
    intro hc
    obtain ⟨_, -, heq⟩ := Option.map_eq_some_iff.mp hc
    cases heq
    rfl
  cases hafter : after number c with
  | none =>
    rw [longest_stop hafter] at h
    exact .inr ⟨h, hnil h, fun next hnext => by cases hnext⟩
  | some next =>
    cases hnext : longest next text with
    | some found =>
      obtain ⟨symbol', word'⟩ := found
      rw [longest_go_some hafter hnext] at h
      cases h
      exact .inl ⟨next, word', rfl, hnext, rfl⟩
    | none =>
      rw [longest_go hafter, hnext, Option.map_none, Option.none_or] at h
      exact .inr ⟨h, hnil h, fun next' hnext' => by cases hnext'; exact hnext⟩

/-- Where a token is complete, there is one. -/
theorem exists_longest {found : Symbol × List Char} (h : complete number = some found) (text : List Char) :
    ∃ found', longest number text = some found' := by
  cases text with
  | nil => exact ⟨_, h⟩
  | cons c rest =>
    cases hafter : after number c with
    | none => exact ⟨_, (longest_stop hafter).trans h⟩
    | some next =>
      rw [longest_go hafter, h]
      cases longest next rest with
      | none => exact ⟨_, rfl⟩
      | some found => exact ⟨_, rfl⟩

/-- A text that leads into strings and comments begins there, or after a slash. -/
theorem silent_of_stateAfter (hf : isFresh (stateOf lexStates number) = false)
    (h : stateAfter number w = some last) (hl : last ∈ silentStates) :
    number ∈ silentStates ∨ number ∈ slashStates ∧ w.head? = some '*' := by
  induction w generalizing number with
  | nil =>
    cases h
    exact .inl hl
  | cons c w ih =>
    obtain ⟨next, hafter, hnext⟩ := Option.bind_eq_some_iff.mp h
    have hled := led_of_after hafter
    rcases ih (not_fresh_after hf hafter) hnext with hin | ⟨hin, -⟩
    · rcases hled.silent hin with ⟨h1, -⟩ | ⟨h1, rfl⟩ | ⟨h1, -⟩
      · exact .inl h1
      · exact .inr ⟨h1, rfl⟩
      · rw [hf] at h1
        cases h1
    · rw [(hled.slash hin).1] at hf
      cases hf

/-- No token ends where a string or a comment has begun and is not complete, but a slash before an
asterisk. -/
theorem slash_of_silent (hf : isFresh (stateOf lexStates number) = false)
    (h : stateAfter number w = some last) (hl : last ∈ silentStates)
    (ht : longest number (w ++ text) = some (symbol, word)) (hle : word.length ≤ w.length) :
    number ∈ slashStates ∧ w.head? = some '*' ∧ symbol = .slash ∧ word = [] := by
  induction w generalizing number word with
  | nil =>
    cases h
    obtain rfl := List.length_eq_zero_iff.mp (Nat.le_zero.mp hle)
    have hcomplete := complete_of_longest_nil ht
    rw [complete, accepts_of_silent hl] at hcomplete
    cases hcomplete
  | cons c w ih =>
    have hstart := silent_of_stateAfter hf h hl
    obtain ⟨next, hafter, hnext⟩ := Option.bind_eq_some_iff.mp h
    rw [List.cons_append] at ht
    rcases longest_cons_cases ht with ⟨next', word', hafter', ht', rfl⟩ | ⟨hcomplete, rfl, -⟩
    · cases hafter.symm.trans hafter'
      obtain ⟨hin, -⟩ := ih (not_fresh_after hf hafter) hnext ht' (Nat.le_of_succ_le_succ hle)
      rw [((led_of_after hafter).slash hin).1] at hf
      cases hf
    · rcases hstart with hin | ⟨hin, hstar⟩
      · rw [complete, accepts_of_silent hin] at hcomplete
        cases hcomplete
      · cases symbol_of_slash hin hcomplete
        exact ⟨hin, hstar, rfl, rfl⟩

/-- A text that leads to the rest of a line begins there, or after a slash. -/
theorem line_of_stateAfter (hf : isFresh (stateOf lexStates number) = false)
    (h : stateAfter number w = some last) (hl : isLineState (stateOf lexStates last) = true) :
    isLineState (stateOf lexStates number) = true ∨ number ∈ slashStates ∧ w.head? = some '/' := by
  induction w generalizing number with
  | nil =>
    cases h
    exact .inl hl
  | cons c w ih =>
    obtain ⟨next, hafter, hnext⟩ := Option.bind_eq_some_iff.mp h
    have hled := led_of_after hafter
    rcases ih (not_fresh_after hf hafter) hnext with hin | ⟨hin, -⟩
    · rcases hled.line hin with h1 | ⟨h1, rfl⟩ | ⟨h1, -⟩
      · exact .inl h1
      · exact .inr ⟨h1, rfl⟩
      · rw [hf] at h1
        cases h1
    · rw [(hled.slash hin).1] at hf
      cases hf

theorem complete_of_line (h : isLineState (stateOf lexStates number) = true) :
    complete number = some (.comment, []) := by
  rw [isLineState, Bool.and_eq_true, beq_iff_eq] at h
  rw [complete, h.1]
  rfl

/-- A token does not end before the rest of its line. -/
theorem word_of_line (h : stateAfter number w = some last) (hl : isLineState (stateOf lexStates last) = true)
    (ht : longest number (w ++ text) = some (symbol, word)) (hle : word.length ≤ w.length) : word = w := by
  have hcomplete := complete_of_line hl
  obtain ⟨⟨symbol', word'⟩, hlast⟩ := exists_longest hcomplete text
  rw [longest_along h hlast] at ht
  cases ht
  rw [List.length_append] at hle
  have hnil : word' = [] := List.length_eq_zero_iff.mp (by omega)
  rw [hnil, List.append_nil]

/-! ## The cut -/

/-- Where nothing is found before the cut and nothing leads over it, nothing is found. -/
theorem longest_cut_none (ht : longest number (w ++ Y) = none)
    (hquiet : ∀ last, stateAfter number w = some last → after last c = none) :
    longest number (w ++ c :: Z) = none := by
  induction w generalizing number with
  | nil =>
    rw [List.nil_append, longest_stop (hquiet number rfl)]
    cases Y with
    | nil => exact ht
    | cons d Y =>
      cases hafter : after number d with
      | none => rwa [List.nil_append, longest_stop hafter] at ht
      | some next =>
        rw [List.nil_append, longest_go hafter, Option.or_eq_none_iff] at ht
        exact ht.2
  | cons d w ih =>
    rw [List.cons_append] at ht ⊢
    cases hafter : after number d with
    | none => rwa [longest_stop hafter] at ht ⊢
    | some next =>
      rw [longest_go hafter, Option.or_eq_none_iff, Option.map_eq_none_iff] at ht
      have hnext : longest next (w ++ c :: Z) = none := by
        refine ih ht.1 fun last hlast => hquiet last ?_
        rw [stateAfter, hafter, Option.bind_some, hlast]
      rw [longest_go hafter, hnext, ht.2]
      rfl

/-- A token that ends before the cut is found if nothing leads over the cut. -/
theorem longest_cut_some (ht : longest number (w ++ Y) = some (symbol, word)) (hle : word.length ≤ w.length)
    (hquiet : ∀ last, stateAfter number w = some last → after last c = none) :
    longest number (w ++ c :: Z) = some (symbol, word) := by
  induction w generalizing number word with
  | nil =>
    obtain rfl := List.length_eq_zero_iff.mp (Nat.le_zero.mp hle)
    rw [List.nil_append, longest_stop (hquiet number rfl)]
    exact complete_of_longest_nil ht
  | cons d w ih =>
    have hrest : ∀ next, after number d = some next → ∀ last, stateAfter next w = some last →
        after last c = none := by
      intro next hafter last hlast
      refine hquiet last ?_
      rw [stateAfter, hafter, Option.bind_some, hlast]
    rw [List.cons_append] at ht ⊢
    rcases longest_cons_cases ht with ⟨next, word', hafter, ht', rfl⟩ | ⟨hcomplete, rfl, hnone⟩
    · exact longest_go_some hafter (ih ht' (Nat.le_of_succ_le_succ hle) (hrest next hafter))
    · cases hafter : after number d with
      | none => rwa [longest_stop hafter]
      | some next =>
        rw [longest_go hafter, longest_cut_none (hnone next hafter) (hrest next hafter), hcomplete]
        rfl

theorem not_fresh_stateAfter (hf : isFresh (stateOf lexStates number) = false)
    (h : stateAfter number w = some last) : isFresh (stateOf lexStates last) = false := by
  induction w generalizing number with
  | nil =>
    cases h
    exact hf
  | cons d w ih =>
    obtain ⟨next, hafter, hnext⟩ := Option.bind_eq_some_iff.mp h
    exact ih (not_fresh_after hf hafter) hnext

end

/-! ## Pieces -/

/-- The text is that of a comment that ends with its line, or of a tag behind the marker of one. -/
def IsLine (word : List Char) : Prop := ['/', '/'] <+: word ∨ ['!'] <+: word

/-- The piece ends in the text before the cut, at which the character is put, and is not one of those that
may go on behind the cut. -/
structure EndsBefore (w : List Char) (c : Char) (p : Piece) : Prop where
  word : p.word ≠ []
  before : p.text.length ≤ w.length
  slash : p.symbol = .slash → ¬ p.blank ++ ['/', '*'] <+: w
  line : c = ' ' → p.text = w → ¬ IsLine p.word

section

variable {number : Nat} {c d : Char} {w Y Z : List Char} {p : Piece}

theorem EndsBefore.tail (h : EndsBefore (d :: w) c (p.after [d])) : EndsBefore w c p := by
  obtain ⟨hword, hbefore, hslash, hline⟩ := h
  refine ⟨hword, ?_, fun hs hin => ?_, fun hc htext => ?_⟩
  · rw [Piece.text_after] at hbefore
    exact Nat.le_of_succ_le_succ hbefore
  · exact hslash hs (List.cons_prefix_cons.mpr ⟨rfl, hin⟩)
  · exact hline hc (by rw [Piece.text_after, htext]; rfl)

theorem EndsBefore.ne_nil (h : EndsBefore w c p) : w ≠ [] := by
  rintro rfl
  have hnil : p.text = [] := List.length_eq_zero_iff.mp (Nat.le_zero.mp h.before)
  exact h.word (List.append_eq_nil_iff.mp hnil).2

/-- The start states are fresh, and no fresh state comes after a slash. -/
theorem fresh_lexStarts : (lexStarts.all fun number => isFresh (stateOf lexStates number)) = true ∧
    (slashStates.all fun number => !isFresh (stateOf lexStates number)) = true := by
  decide +kernel

theorem isFresh_of_mem (hn : number ∈ lexStarts) : isFresh (stateOf lexStates number) = true :=
  List.all_eq_true.mp fresh_lexStarts.1 number hn

theorem not_slash_of_fresh (hf : isFresh (stateOf lexStates number) = true) : number ∉ slashStates := by
  intro hin
  have hnot := List.all_eq_true.mp fresh_lexStarts.2 number hin
  rw [hf] at hnot
  cases hnot

/-- The first character of a comment or a string. -/
structure Opened (number : Nat) (c : Char) (target : Nat) : Prop where
  silent : target ∈ silentStates → c = '"' ∧ target = 3
  slash : target ∈ slashStates → c = '/'
  line : isLineState (stateOf lexStates target) = true → c = '!'

theorem opened_of_edgeOn (hf : isFresh (stateOf lexStates number) = true) {edge : Edge}
    (h : (stateOf lexStates number).edgeOn c = some edge) : Opened number c edge.target := by
  have hled := led_of_edgeOn h
  refine ⟨fun hin => ?_, fun hin => (hled.slash hin).2, fun hin => ?_⟩
  · rcases hled.silent hin with ⟨-, h1⟩ | ⟨h1, -⟩ | ⟨-, h1⟩
    · rw [hf] at h1
      cases h1
    · exact absurd h1 (not_slash_of_fresh hf)
    · exact h1
  · rcases hled.line hin with h1 | ⟨h1, -⟩ | ⟨-, h1⟩
    · rw [isLineState, accepts_of_fresh hf] at h1
      cases h1
    · exact absurd h1 (not_slash_of_fresh hf)
    · exact h1

/-- **A piece that ends before the cut stays the same.** -/
theorem piece?_cut (hf : isFresh (stateOf lexStates number) = true) (hc : c ∈ [' ', '\n'])
    (h : piece? number (w ++ Y) = some p) (hp : EndsBefore w c p) :
    piece? number (w ++ c :: Z) = some p := by
  induction w generalizing number p with
  | nil => exact absurd rfl hp.ne_nil
  | cons d w ih =>
    rw [List.cons_append] at h ⊢
    cases hedge : (stateOf lexStates number).edgeOn d with
    | none =>
      rw [piece?_stop hedge] at h
      cases h
    | some edge =>
      have hnext := isFresh_target hedge
      cases hs : edge.skips with
      | true =>
        rw [piece?_skip hedge hs] at h ⊢
        obtain ⟨q, hq, rfl⟩ := Option.map_eq_some_iff.mp h
        rw [ih (hnext.trans hs) hq hp.tail]
        rfl
      | false =>
        rw [piece?_go hedge hs] at h ⊢
        obtain ⟨⟨symbol, word⟩, hfound, rfl⟩ := Option.map_eq_some_iff.mp h
        have hopened := opened_of_edgeOn hf hedge
        have hle : word.length ≤ w.length := Nat.le_of_succ_le_succ hp.before
        have hquiet : ∀ last, stateAfter edge.target w = some last → after last c = none := by
          intro last hlast
          have hbegun := hnext.trans hs
          rcases stops_or_inside (not_fresh_stateAfter hbegun hlast) hc with hstop | hin | ⟨rfl, hin⟩
          · exact hstop
          · obtain ⟨hslash, hstar, rfl, rfl⟩ := slash_of_silent hbegun hlast hin hfound hle
            obtain rfl := hopened.slash hslash
            obtain ⟨rest, rfl⟩ := List.head?_eq_some_iff.mp hstar
            exact absurd ⟨rest, rfl⟩ (hp.slash rfl)
          · obtain rfl := word_of_line hlast hin hfound hle
            refine absurd ?_ (hp.line rfl rfl)
            rcases line_of_stateAfter hbegun hlast hin with hline | ⟨hslash, hhead⟩
            · obtain rfl := hopened.line hline
              exact .inr ⟨word, rfl⟩
            · obtain rfl := hopened.slash hslash
              obtain ⟨rest, rfl⟩ := List.head?_eq_some_iff.mp hhead
              exact .inl ⟨rest, rfl⟩
        rw [longest_cut_some hfound hle hquiet]
        rfl

/-- **A state that finds no piece finds none after the cut**, if recovery finds one that stays the same. -/
theorem piece?_cut_none (hn : number ∈ lexStarts) (hc : c ∈ [' ', '\n']) (h : piece? number (w ++ Y) = none)
    (h0 : piece? 0 (w ++ Y) = some p) (hp : EndsBefore w c p) : piece? number (w ++ c :: Z) = none := by
  have hzero : 0 ∈ lexStarts := List.contains_iff_mem.mp blanksTested_lexStarts.2.2
  have hf := isFresh_of_mem hn
  induction w generalizing p with
  | nil => exact absurd rfl hp.ne_nil
  | cons d w ih =>
    rw [List.cons_append] at h h0 ⊢
    cases hedge : (stateOf lexStates number).edgeOn d with
    | none => exact piece?_stop hedge
    | some edge =>
      cases hs : edge.skips with
      | true =>
        obtain ⟨hblank, htarget⟩ := skips_of_edgeOn hn hedge hs
        obtain ⟨edge0, hedge0, hs0, htarget0⟩ := exists_edge_of_skips (skips_recovery hblank)
        rw [piece?_skip hedge0 hs0, htarget0] at h0
        obtain ⟨q, hq, rfl⟩ := Option.map_eq_some_iff.mp h0
        rw [piece?_skip hedge hs, htarget, Option.map_eq_none_iff] at h ⊢
        exact ih h hq hp.tail
      | false =>
        rw [piece?_go hedge hs, Option.map_eq_none_iff] at h ⊢
        have hopened := opened_of_edgeOn hf hedge
        have hbegun := (isFresh_target hedge).trans hs
        refine longest_cut_none h fun last hlast => ?_
        rcases stops_or_inside (not_fresh_stateAfter hbegun hlast) hc with hstop | hin | ⟨rfl, hin⟩
        · exact hstop
        · rcases silent_of_stateAfter hbegun hlast hin with hsilent | ⟨hslash, hstar⟩
          · -- A string that does not end is one for recovery, too.
            obtain ⟨rfl, htarget⟩ := hopened.silent hsilent
            rw [htarget] at h
            cases hedge0 : (stateOf lexStates 0).edgeOn '"' with
            | none =>
              rw [piece?_stop hedge0] at h0
              cases h0
            | some edge0 =>
              rw [(starts_of_mem hzero).string edge0 hedge0] at hedge0
              rw [piece?_go hedge0 rfl, Edge.go, h] at h0
              cases h0
          · -- The end of the comment does not come for recovery, either.
            obtain rfl := hopened.slash hslash
            obtain ⟨rest, rfl⟩ := List.head?_eq_some_iff.mp hstar
            obtain ⟨slash, hedge', hstar', -⟩ := (starts_of_mem hn).slash
            obtain ⟨slash0, hedge0, hstar0, hcomplete0, -⟩ := (starts_of_mem hzero).slash
            cases hedge.symm.trans hedge'
            rw [Edge.go, List.cons_append, longest_go hstar', Option.or_eq_none_iff,
              Option.map_eq_none_iff] at h
            rw [piece?_go hedge0 rfl, Edge.go, List.cons_append, longest_go hstar0, h.1, Option.map_none,
              Option.none_or] at h0
            obtain ⟨found, hfound, rfl⟩ := Option.map_eq_some_iff.mp h0
            exact absurd ⟨rest, rfl⟩ (hp.slash (hcomplete0 found hfound))
        · obtain ⟨found, hfound⟩ := exists_longest (complete_of_line hin) Y
          rw [longest_along hlast hfound] at h
          cases h

/-- The body of a documentation tag stays the same if its closing tag comes before the cut. -/
theorem bodyPiece_cut {tag : DocTag} (h : bodyPiece tag (w ++ Y) = some p)
    (hle : p.word ++ wholeTag tag <+: w) (text : List Char) : bodyPiece tag (w ++ text) = some p := by
  obtain ⟨body, rest, -, hbody, hne, rfl⟩ := bodyPiece_eq_some_iff.mp h
  obtain ⟨after, rfl⟩ := hle
  exact bodyPiece_eq_some_iff.mpr ⟨body, after ++ text, by simp, hbody, hne, rfl⟩

/-- A closing tag at once is no body. -/
theorem bodyPiece_of_closed {tag : DocTag} {text : List Char} (h : wholeTag tag <+: text) :
    bodyPiece tag text = none := by
  obtain ⟨rest, rfl⟩ := h
  rw [bodyPiece, scanDocBody, bodyEnd_whole]
  rfl

/-- The documentation that a state reads at the beginning of a text ends in it: its closing tag comes at
once, or right behind its body. -/
def DocEndsIn (state : StateId) (w Y : List Char) (p : Piece) : Prop :=
  ∀ tag ∈ docBodyAt state, wholeTag tag <+: w ∨
    bodyPiece tag (w ++ Y) = some p ∧ p.word ++ wholeTag tag <+: w

/-- **A piece that ends before the cut stays the same**, in every parser state. -/
theorem pieceAt_cut {state : StateId} (hc : c ∈ [' ', '\n']) (h : pieceAt state (w ++ Y) = some p)
    (hp : EndsBefore w c p) (hdoc : DocEndsIn state w Y p) : pieceAt state (w ++ c :: Z) = some p := by
  have houtside : ((piece? (lexStartAt state) (w ++ Y)).or (piece? 0 (w ++ Y))) = some p →
      ((piece? (lexStartAt state) (w ++ c :: Z)).or (piece? 0 (w ++ c :: Z))) = some p := by
    intro h
    rcases Option.or_eq_some_iff.mp h with h | ⟨hnone, h⟩
    · rw [piece?_cut (isFresh_lexStartAt state) hc h hp, Option.some_or]
    · rw [piece?_cut_none (lexStartAt_mem state) hc hnone h hp, piece?_cut isFresh_recovery hc h hp,
        Option.none_or]
  rw [pieceAt, Option.or_assoc] at h ⊢
  cases htag : docBodyAt state with
  | none =>
    rw [htag, Option.bind_none, Option.none_or] at h
    rw [Option.bind_none, Option.none_or]
    exact houtside h
  | some tag =>
    rw [htag, Option.bind_some] at h
    rw [Option.bind_some]
    rcases hdoc tag htag with hclosed | ⟨hbody, hle⟩
    · rw [bodyPiece_of_closed (hclosed.trans (List.prefix_append ..)), Option.none_or] at h ⊢
      exact houtside h
    · rw [bodyPiece_cut hbody hle, Option.some_or]

end

end Cicode.Lex

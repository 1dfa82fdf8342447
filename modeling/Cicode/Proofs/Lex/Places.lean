import Cicode.Proofs.Lex.DocBody
import Cicode.Proofs.Lex.Tokens

/-!
# Places in a text

A *place* is the position between two parts of a text.  Two places with the same number of bytes are
the same one.  The scanner goes from place to place: where the padding before a token ends and where
the token ends are places, and the end of the text is read at its last place only
(`places_nextToken`).
-/

namespace Cicode.Text

/-- The position is that of a place between two parts of the text. -/
def IsPlace (chars : List Char) (position : Extent) : Prop :=
  ∃ pre post, chars = pre ++ post ∧ position = Extent.of pre

namespace IsPlace

variable {chars : List Char} {p q : Extent}

theorem zero (chars : List Char) : IsPlace chars 0 := ⟨[], chars, rfl, rfl⟩

theorem last (chars : List Char) : IsPlace chars (Extent.of chars) := ⟨chars, [], by simp, rfl⟩

/-- A place is known by its bytes. -/
theorem eq_of_bytes (h : IsPlace chars p) (h' : IsPlace chars q) (hb : p.bytes = q.bytes) : p = q := by
  obtain ⟨pre, post, rfl, rfl⟩ := h
  obtain ⟨pre', post', heq, rfl⟩ := h'
  rw [Extent.bytes_of, Extent.bytes_of] at hb
  rw [eq_of_byteLength heq hb]

/-- From a place the text leads on to every later one. -/
theorem add_sub (h : IsPlace chars p) (h' : IsPlace chars q) (hb : p.bytes ≤ q.bytes) :
    p + (q - p) = q := by
  obtain ⟨pre, post, rfl, rfl⟩ := h
  obtain ⟨pre', post', heq, rfl⟩ := h'
  rw [Extent.bytes_of, Extent.bytes_of] at hb
  obtain ⟨mid, rfl⟩ := prefix_of_byteLength_le heq hb
  rw [Extent.of_append, Extent.add_sub_cancel_left]

theorem bytes_le (h : IsPlace chars p) : p.bytes ≤ byteLength chars := by
  obtain ⟨pre, post, rfl, rfl⟩ := h
  rw [Extent.bytes_of, byteLength_append]
  exact Nat.le_add_right ..

end IsPlace

end Cicode.Text

namespace Cicode.Lex

open Grammar Text

/-! ## The suffixes of a text -/

theorem length_suffixesOf (chars : List Char) :
    (Source.suffixesOf chars).length = byteLength chars := by
  induction chars with
  | nil => rfl
  | cons c rest ih => simp [Source.suffixesOf, ih]

/-- The suffix that begins after a part of a text. -/
theorem suffixesOf_append (pre post : List Char) :
    ∃ before, Source.suffixesOf (pre ++ post) = before ++ Source.suffixesOf post ∧
      before.length = byteLength pre := by
  induction pre with
  | nil => exact ⟨[], rfl, rfl⟩
  | cons c pre ih =>
    obtain ⟨before, heq, hlen⟩ := ih
    refine ⟨List.replicate c.utf8Size (c :: (pre ++ post)) ++ before, ?_, by simp [hlen]⟩
    rw [List.cons_append, Source.suffixesOf, heq, List.append_assoc]

/-- What follows a part of a text. -/
theorem rest_cursorAt (pre post : List Char) {position : Extent}
    (h : position.bytes = byteLength pre) :
    ((Source.ofList (pre ++ post)).cursorAt position).rest = post := by
  obtain ⟨before, heq, hlen⟩ := suffixesOf_append pre post
  have hfirst : ((Source.suffixesOf post)[0]?).getD [] = post := by
    cases post with
    | nil => rfl
    | cons c post =>
      obtain ⟨n, hn⟩ := Nat.exists_eq_succ_of_ne_zero (Nat.ne_of_gt (Char.utf8Size_pos c))
      rw [Source.suffixesOf, hn]
      rfl
  rw [Source.cursorAt, Source.ofList]
  simp only [List.getElem?_toArray]
  rw [heq, h, ← hlen, List.getElem?_append_right (Nat.le_refl _), Nat.sub_self]
  exact hfirst

/-! ## Parts of a text -/

theorem takeBytes_append (word rest : List Char) :
    Source.takeBytes (byteLength word) (word ++ rest) = word := by
  induction word with
  | nil => cases rest <;> simp [Source.takeBytes, Nat.not_le.mpr (Char.utf8Size_pos _)]
  | cons c word ih =>
    rw [List.cons_append, Source.takeBytes, byteLength_cons, if_pos (Nat.le_add_right ..),
      Nat.add_sub_cancel_left, ih]

/-- The text of a word between its places. -/
theorem slice_of_bytes {pre word post : List Char} {start stop : Extent}
    (h : start.bytes = byteLength pre) (h' : stop.bytes = byteLength pre + byteLength word) :
    (Source.ofList (pre ++ (word ++ post))).slice start stop = word := by
  rw [Source.slice, rest_cursorAt pre (word ++ post) h, h', h, Nat.add_sub_cancel_left,
    takeBytes_append]

/-! ## Cursors at places -/

/-- The cursor stands at a place of the text. -/
def Cursor.At (chars : List Char) (cursor : Cursor) : Prop :=
  ∃ pre, chars = pre ++ cursor.rest ∧ cursor.position = Extent.of pre

namespace Cursor.At

variable {chars : List Char} {cursor : Cursor}

theorem isPlace (h : cursor.At chars) : IsPlace chars cursor.position := by
  obtain ⟨pre, heq, hpos⟩ := h
  exact ⟨pre, _, heq, hpos⟩

/-- One character further. -/
theorem along {c : Char} {rest : List Char} {position : Extent}
    (h : Cursor.At chars ⟨c :: rest, position⟩) :
    Cursor.At chars ⟨rest, position + Extent.ofChar c⟩ := by
  obtain ⟨pre, heq, hpos⟩ := h
  refine ⟨pre ++ [c], by simpa using heq, ?_⟩
  simp only at hpos
  rw [hpos, Extent.of_append, Extent.of_cons, Extent.of_nil, Extent.add_zero]

theorem next (h : cursor.At chars) : cursor.next.At chars := by
  obtain ⟨rest, position⟩ := cursor
  cases rest with
  | nil => exact h
  | cons c rest => exact h.along

/-- At the end of the text. -/
theorem eq_last {position : Extent} (h : Cursor.At chars ⟨[], position⟩) :
    position = Extent.of chars := by
  obtain ⟨pre, heq, hpos⟩ := h
  rw [heq, List.append_nil]
  exact hpos

end Cursor.At

theorem Cursor.bytes_le_next (cursor : Cursor) :
    cursor.position.bytes ≤ cursor.next.position.bytes := by
  obtain ⟨rest, position⟩ := cursor
  cases rest with
  | nil => exact Nat.le_refl _
  | cons c rest => exact Nat.le_add_right ..

/-- At a place the source knows what follows. -/
theorem at_cursorAt {chars : List Char} {position : Extent} (h : IsPlace chars position) :
    ((Source.ofList chars).cursorAt position).At chars := by
  obtain ⟨pre, post, rfl, rfl⟩ := h
  refine ⟨pre, ?_, rfl⟩
  rw [rest_cursorAt pre post (Extent.bytes_of pre)]

/-! ## Running an automaton from place to place -/

/-- A token ends at a place that is not before the given one, and the end of the text is its last
place. -/
def TokenPlaced (chars : List Char) (start : Extent) (token : Option (Symbol × Extent)) : Prop :=
  ∀ symbol finish, token = some (symbol, finish) → IsPlace chars finish ∧
    start.bytes ≤ finish.bytes ∧ (symbol = .endOfInput → finish = Extent.of chars)

theorem TokenPlaced.none (chars : List Char) (start : Extent) : TokenPlaced chars start Option.none := by
  intro symbol finish heq
  cases heq

/-- The outcome of a run lies at places, one after the other. -/
structure Scan.Placed (chars : List Char) (from_ : Extent) (scan : Scan) : Prop where
  start : scan.start.At chars
  stop : scan.stop.At chars
  from_le : from_.bytes ≤ scan.start.position.bytes
  start_le : scan.start.position.bytes ≤ scan.stop.position.bytes
  token : TokenPlaced chars scan.start.position scan.token

/-- The end of the text is completed only by states that no character leads to. -/
theorem noEnd_tested :
    (lexStates.toList.all fun state => state.edges.all fun edge =>
      (stateOf lexStates edge.target).accepts != some .endOfInput) = true ∧
    (rowList.all fun row => (stateOf lexStates row.lexStart).accepts != some .endOfInput) = true ∧
    (stateOf lexStates 0).accepts ≠ some .endOfInput := by
  decide +kernel

theorem noEnd_lexStates : (lexStates.toList.all fun state => state.edges.all fun edge =>
    (stateOf lexStates edge.target).accepts != some .endOfInput) = true :=
  noEnd_tested.1

theorem noEnd_rows : (rowList.all fun row =>
    (stateOf lexStates row.lexStart).accepts != some .endOfInput) = true :=
  noEnd_tested.2.1

theorem accepts_of_edge {number : Nat} {c : Char} {edge : Edge}
    (h : (stateOf lexStates number).edgeOn c = some edge) :
    (stateOf lexStates edge.target).accepts ≠ some .endOfInput := by
  have hmem := List.mem_of_find?_eq_some h
  rw [stateOf] at hmem
  cases hs : lexStates[number]? with
  | none =>
    rw [hs] at hmem
    cases hmem
  | some state =>
    rw [hs] at hmem
    have hall := List.all_eq_true.mp noEnd_lexStates state
      (Array.mem_toList_iff.mpr (Array.mem_of_getElem? hs))
    simpa using List.all_eq_true.mp hall edge hmem

section

variable {chars : List Char} {from_ : Extent}

theorem TokenPlaced.tokenAt {start position : Extent} {token : Option (Symbol × Extent)}
    (h : TokenPlaced chars start token) (state : LexState) (hp : IsPlace chars position)
    (hle : start.bytes ≤ position.bytes)
    (hend : state.accepts = some .endOfInput → position = Extent.of chars) :
    TokenPlaced chars start (LexState.tokenAt state position token) := by
  unfold LexState.tokenAt
  split
  · rename_i symbol haccepts
    rintro _ _ ⟨⟩
    exact ⟨hp, hle, fun heq => hend (heq ▸ haccepts)⟩
  · exact h

/-- **A run of the lexical automaton goes from place to place.** -/
theorem placed_runAutomaton (rest : List Char) (number : Nat) (start : Cursor)
    (token : Option (Symbol × Extent)) (position : Extent)
    (hread : Reading Symbol.terminals (stateOf lexStates number) start.position position token)
    (hnoEnd : (stateOf lexStates number).accepts ≠ some .endOfInput)
    (hstart : start.At chars) (hhere : Cursor.At chars ⟨rest, position⟩)
    (hfrom : from_.bytes ≤ start.position.bytes) (hle : start.position.bytes ≤ position.bytes)
    (htoken : TokenPlaced chars start.position token) :
    (runAutomaton lexStates number start token position rest).Placed chars from_ := by
  have htested := tested_of_all stateTested_lexStates
  induction rest generalizing number start token position with
  | nil =>
    have hhold := htoken.tokenAt (stateOf lexStates number) hhere.isPlace hle fun h => absurd h hnoEnd
    rw [runAutomaton]
    refine ⟨hstart, hhere, hfrom, hle, ?_⟩
    split
    · exact hhold.tokenAt _ hhere.isPlace hle fun _ => hhere.eq_last
    · exact hhold
  | cons c rest ih =>
    have hhold := htoken.tokenAt (stateOf lexStates number) hhere.isPlace hle fun h => absurd h hnoEnd
    rw [runAutomaton]
    simp only
    split
    · exact ⟨hstart, hhere, hfrom, hle, hhold⟩
    · rename_i edge hedge
      have halong := hread.along htested hedge
      have hle' : position.bytes ≤ (position + Extent.ofChar c).bytes := Nat.le_add_right ..
      cases hskip : edge.skips with
      | false =>
        rw [hskip] at halong
        exact ih edge.target _ _ _ halong (accepts_of_edge hedge) hstart hhere.along hfrom
          (Nat.le_trans hle hle') hhold
      | true =>
        rw [hskip] at halong
        -- Nothing has been completed before a character that is skipped.
        have hfresh : isFresh (stateOf lexStates edge.target) = true := by
          have htest := htested number
          simp only [stateTested, Bool.and_eq_true, List.all_eq_true, beq_iff_eq] at htest
          rw [htest.2 edge (List.mem_of_find?_eq_some hedge), hskip]
        have hnone : LexState.tokenAt ((lexStates[number]?).getD {}) position token = none :=
          (halong.fresh hfresh).2
        rw [hnone]
        rw [show LexState.tokenAt (stateOf lexStates number) position token = none from hnone] at halong
        exact ih edge.target _ _ _ halong (accepts_of_edge hedge) hhere.along hhere.along
          (Nat.le_trans (Nat.le_trans hfrom hle) hle') (Nat.le_refl _) (.none chars _)

theorem placed_scan {state : Nat} (hfresh : isFresh (stateOf lexStates state) = true)
    (hnoEnd : (stateOf lexStates state).accepts ≠ some .endOfInput) {cursor : Cursor}
    (h : cursor.At chars) : (scan lexStates state cursor).Placed chars cursor.position := by
  refine placed_runAutomaton _ _ _ _ _ ⟨fun _ => ⟨rfl, rfl⟩, fun hf => ?_, by simp [TokenHolds]⟩ hnoEnd
    h h (Nat.le_refl _) (Nat.le_refl _) (.none chars _)
  rw [hfresh] at hf
  cases hf

theorem noEnd_recovery : (stateOf lexStates 0).accepts ≠ some .endOfInput := noEnd_tested.2.2

theorem noEnd_lexStartAt (state : StateId) :
    (stateOf lexStates (lexStartAt state)).accepts ≠ some .endOfInput := by
  rw [lexStartAt, rows_getElem?]
  cases hrow : rowAt state with
  | none => exact noEnd_recovery
  | some row =>
    rw [rowAt_eq] at hrow
    simpa using List.all_eq_true.mp noEnd_rows row (List.mem_of_getElem? hrow)

/-! ## Tokens from place to place -/

/-- A token between places: its padding leads to a place and so does the token, which is the end of
the text at the last place only. -/
structure Token.Placed (chars : List Char) (position : Extent) (token : Token) : Prop where
  start : IsPlace chars (position + token.padding)
  finish : IsPlace chars (position + token.padding + token.size)
  last : token.symbol = .endOfInput → position + token.padding + token.size = Extent.of chars

/-- A token from a first to a second place. -/
theorem Token.placed_of_places {position start finish : Extent} {symbol : Symbol} {keyword : Bool}
    (hp : IsPlace chars position) (hs : IsPlace chars start) (hf : IsPlace chars finish)
    (h1 : position.bytes ≤ start.bytes) (h2 : start.bytes ≤ finish.bytes)
    (hend : symbol = .endOfInput → finish = Extent.of chars) :
    (⟨symbol, start - position, finish - start, keyword⟩ : Token).Placed chars position := by
  have hstart := hp.add_sub hs h1
  have hfinish := hs.add_sub hf h2
  exact ⟨by rwa [hstart], by rwa [hstart, hfinish], fun h => by rw [hstart, hfinish, hend h]⟩

theorem placed_ofScan (state : StateId) {position : Extent} {scan : Scan} {symbol : Symbol}
    {finish : Extent} (hp : IsPlace chars position) (h : scan.Placed chars position)
    (htoken : scan.token = some (symbol, finish)) :
    (Token.ofScan state position scan.start symbol finish).Placed chars position := by
  obtain ⟨hf, hle, hend⟩ := h.token symbol finish htoken
  rw [Token.ofScan]
  by_cases hid : symbol = .identifier
  · simp only [hid, beq_self_eq_true, ↓reduceIte]
    refine Token.placed_of_places hp h.start.isPlace hf h.from_le hle fun hs => ?_
    exact absurd hs (word_terminal _ (wordSymbol_spec state scan.start finish)).2
  · simp only [beq_iff_eq, hid, ↓reduceIte]
    exact Token.placed_of_places hp h.start.isPlace hf h.from_le hle hend

/-- Unreadable text ends at a place. -/
theorem placed_unreadableEnd (fuel : Nat) (start reached : Extent) (cursor : Cursor)
    (hcursor : cursor.At chars) (hreached : IsPlace chars reached) (hle : start.bytes ≤ reached.bytes)
    (hstop : start.bytes ≤ (scan lexStates 0 cursor).stop.position.bytes) :
    IsPlace chars (unreadableEnd fuel reached cursor) ∧
      start.bytes ≤ (unreadableEnd fuel reached cursor).bytes := by
  induction fuel generalizing reached cursor with
  | zero => exact ⟨hreached, hle⟩
  | succ fuel ih =>
    have hscan := placed_scan isFresh_recovery noEnd_recovery hcursor
    have hlater : ∀ next : Cursor, next.At chars → start.bytes ≤ next.position.bytes →
        IsPlace chars (unreadableEnd fuel next.position next) ∧
          start.bytes ≤ (unreadableEnd fuel next.position next).bytes := by
      intro next hnext hb
      have h := placed_scan isFresh_recovery noEnd_recovery hnext
      exact ih next.position next hnext hnext.isPlace hb
        (Nat.le_trans hb (Nat.le_trans h.from_le h.start_le))
    rw [unreadableEnd]
    split
    · exact ⟨hreached, hle⟩
    · split
      · split
        · exact ⟨hreached, hle⟩
        · exact hlater _ hscan.stop.next (Nat.le_trans hstop (Cursor.bytes_le_next _))
      · exact hlater _ hscan.stop hstop

theorem placed_recoveryToken (state : StateId) {cursor : Cursor} (h : cursor.At chars) :
    (recoveryToken state cursor).Placed chars cursor.position := by
  have hscan := placed_scan isFresh_recovery noEnd_recovery h
  rw [recoveryToken]
  simp only
  split
  · rename_i symbol finish heq
    exact placed_ofScan state h.isPlace hscan heq
  · obtain ⟨hf, hle⟩ := placed_unreadableEnd (2 * cursor.rest.length + 2) _ _ cursor h
      hscan.start.isPlace (Nat.le_refl _) hscan.start_le
    exact Token.placed_of_places h.isPlace hscan.start.isPlace hf hscan.from_le hle fun hend => by cases hend

/-- **Tokens lead from place to place**, and the end of the text is read at its last place. -/
theorem placed_nextToken (state : StateId) {position : Extent} (h : IsPlace chars position) :
    (nextToken (Source.ofList chars) state position).Placed chars position := by
  have hcursor := at_cursorAt h
  have hscan := placed_scan (isFresh_lexStartAt state) (noEnd_lexStartAt state) hcursor
  rw [nextToken]
  simp only
  split
  · rename_i symbol finish heq
    obtain ⟨tag, -, hbody⟩ := Option.bind_eq_some_iff.mp heq
    obtain ⟨hsymbol, body, rest, hrest, -, -, hfinish⟩ := scanDocBody_eq_some_iff.mp hbody
    have hpos : ((Source.ofList chars).cursorAt position).position = position := rfl
    rw [hpos] at hfinish
    obtain ⟨pre, hchars, hpre⟩ := hcursor
    rw [hpos] at hpre
    have hplace : IsPlace chars finish := by
      refine ⟨pre ++ body, wholeTag tag ++ rest, ?_, ?_⟩
      · rw [hchars, hrest]
        simp
      · rw [hfinish, hpre, Extent.of_append]
    refine ⟨by rwa [Extent.add_zero], ?_, fun hend => ?_⟩
    · simp only [Extent.add_zero]
      rwa [hfinish, Extent.add_sub_cancel_left, ← hfinish]
    · simp only at hend
      rw [hsymbol] at hend
      cases tag <;> cases hend
  · split
    · rename_i symbol finish heq
      exact placed_ofScan state h hscan heq
    · exact placed_recoveryToken state hcursor

end

end Cicode.Lex

import Cicode.Lex.Token
import Cicode.Proofs.Grammar.Transitions

/-!
# What the scanner reads

Every token that is read takes up some text, but for the end of the text and for a piece at which
no token begins, and its symbol is a terminal unless it is such a piece (`wellRead_nextToken`).

The automaton is in one of two modes.  In a *fresh* state nothing but blanks has been read: such a
state completes no token, and its skipping edges lead to fresh states again.  All other edges lead
out of the fresh states for good.
-/

namespace Cicode.Lex

open Grammar Text

theorem bytes_ofChar_pos (c : Char) : 0 < (Extent.ofChar c).bytes := by
  unfold Extent.ofChar
  split
  · decide
  · exact Char.utf8Size_pos c

/-! ## The states of the automata -/

/-- The state of a number; beyond the last one nothing is read. -/
def stateOf (states : Array LexState) (number : Nat) : LexState := (states[number]?).getD {}

/-- A state in which only blanks have been read. -/
def isFresh (state : LexState) : Bool := state.edges.any (·.skips)

/-- What is tested of a state: it completes known symbols only, and a fresh one nothing but the end
of the text; skipping edges lead to fresh states, the others do not. -/
def stateTested (known : List Symbol) (states : Array LexState) (state : LexState) : Bool :=
  state.accepts.all known.contains && (!isFresh state || state.accepts.isNone) &&
    state.atEnd.all (fun target => (stateOf states target).accepts.all fun symbol =>
      known.contains symbol && (!isFresh state || symbol == .endOfInput)) &&
    state.edges.all fun edge => isFresh (stateOf states edge.target) == edge.skips

/-- Both automata pass the test, and their start states are fresh. -/
theorem automata_tested :
    (lexStates.toList.all (stateTested Symbol.terminals lexStates)) = true ∧
    (keywordAutomaton.toList.all (stateTested reservedWords keywordAutomaton)) = true ∧
    (rowList.all fun row => isFresh (stateOf lexStates row.lexStart)) = true ∧
    isFresh (stateOf lexStates 0) = true ∧ isFresh (stateOf keywordAutomaton 0) = true := by
  decide +kernel

theorem stateTested_lexStates :
    (lexStates.toList.all (stateTested Symbol.terminals lexStates)) = true :=
  automata_tested.1

theorem stateTested_keywords :
    (keywordAutomaton.toList.all (stateTested reservedWords keywordAutomaton)) = true :=
  automata_tested.2.1

theorem isFresh_rows : (rowList.all fun row => isFresh (stateOf lexStates row.lexStart)) = true :=
  automata_tested.2.2.1

theorem isFresh_recovery : isFresh (stateOf lexStates 0) = true := automata_tested.2.2.2.1

theorem isFresh_keywords : isFresh (stateOf keywordAutomaton 0) = true := automata_tested.2.2.2.2

/-- The states of an automaton have been tested. -/
def Tested (known : List Symbol) (states : Array LexState) : Prop :=
  ∀ number, stateTested known states (stateOf states number) = true

theorem tested_of_all {known : List Symbol} {states : Array LexState}
    (h : (states.toList.all (stateTested known states)) = true) : Tested known states := by
  intro number
  rw [stateOf]
  cases hs : states[number]? with
  | none => rfl
  | some state =>
    exact List.all_eq_true.mp h state (Array.mem_toList_iff.mpr (Array.mem_of_getElem? hs))

/-! ## Running an automaton -/

/-- What is known of the token met so far. -/
def TokenHolds (known : List Symbol) (start : Extent) (token : Option (Symbol × Extent)) : Prop :=
  ∀ symbol finish, token = some (symbol, finish) →
    symbol ∈ known ∧ (symbol ≠ .endOfInput → start.bytes < finish.bytes)

/-- An automaton at work: the token has begun exactly if the state is not fresh. -/
structure Reading (known : List Symbol) (state : LexState) (start position : Extent)
    (token : Option (Symbol × Extent)) : Prop where
  fresh : isFresh state = true → start = position ∧ token = none
  begun : isFresh state = false → start.bytes < position.bytes
  token : TokenHolds known start token

variable {known : List Symbol} {states : Array LexState} {number : Nat} {start position : Extent}
  {token : Option (Symbol × Extent)}

theorem Reading.tokenAt (h : Reading known (stateOf states number) start position token)
    (ht : Tested known states) : TokenHolds known start (LexState.tokenAt (stateOf states number) position token) := by
  have htest := ht number
  simp only [stateTested, Bool.and_eq_true, Bool.or_eq_true, Bool.not_eq_true'] at htest
  obtain ⟨⟨⟨hterm, hfresh⟩, -⟩, -⟩ := htest
  unfold LexState.tokenAt
  split
  · rename_i symbol haccepts
    rw [haccepts] at hterm hfresh
    rintro _ _ ⟨⟩
    exact ⟨by simpa using hterm, fun _ => h.begun (hfresh.resolve_right (by simp))⟩
  · exact h.token

/-- The token at the end of the text. -/
theorem Reading.tokenAtEnd (h : Reading known (stateOf states number) start position token)
    (ht : Tested known states) {target : Nat} (hend : (stateOf states number).atEnd = some target) :
    TokenHolds known start (LexState.tokenAt (stateOf states target) position
      (LexState.tokenAt (stateOf states number) position token)) := by
  have htest := ht number
  simp only [stateTested, Bool.and_eq_true, hend, Option.all_some] at htest
  rw [LexState.tokenAt]
  split
  · rename_i symbol haccepts
    have hsymbol := htest.1.2
    simp only [haccepts, Option.all_some, Bool.and_eq_true, Bool.or_eq_true, Bool.not_eq_true',
      beq_iff_eq] at hsymbol
    rintro _ _ ⟨⟩
    exact ⟨by simpa using hsymbol.1, fun hne => h.begun (hsymbol.2.resolve_right hne)⟩
  · exact h.tokenAt ht

/-- Following an edge. -/
theorem Reading.along (h : Reading known (stateOf states number) start position token) (ht : Tested known states)
    {c : Char} {edge : Edge} (he : (stateOf states number).edgeOn c = some edge) :
    Reading known (stateOf states edge.target) (if edge.skips then position + Extent.ofChar c else start)
      (position + Extent.ofChar c) (LexState.tokenAt (stateOf states number) position token) := by
  have hmem : edge ∈ (stateOf states number).edges := List.mem_of_find?_eq_some he
  have htest := ht number
  simp only [stateTested, Bool.and_eq_true, Bool.or_eq_true, Bool.not_eq_true', List.all_eq_true,
    beq_iff_eq] at htest
  have htarget := htest.2 edge hmem
  have hpos := bytes_ofChar_pos c
  cases hs : edge.skips with
  | true =>
    have hfresh : isFresh (stateOf states number) = true := List.any_eq_true.mpr ⟨edge, hmem, hs⟩
    have hnone : (stateOf states number).accepts = none := by
      simpa using htest.1.1.2.resolve_left (by simp [hfresh])
    have htoken : LexState.tokenAt (stateOf states number) position token = none := by
      rw [LexState.tokenAt, hnone]
      exact (h.fresh hfresh).2
    rw [hs] at htarget
    rw [htoken]
    refine ⟨fun _ => ⟨by simp, rfl⟩, fun hf => ?_, by simp [TokenHolds]⟩
    rw [htarget] at hf
    cases hf
  | false =>
    rw [hs] at htarget
    refine ⟨fun hf => ?_, fun _ => ?_, h.tokenAt ht⟩
    · rw [htarget] at hf
      cases hf
    · simp only [Bool.false_eq_true, ↓reduceIte, Extent.bytes_add]
      cases hf : isFresh (stateOf states number) with
      | true =>
        rw [(h.fresh hf).1]
        omega
      | false =>
        have := h.begun hf
        omega

/-- **The token that an automaton finds is wide.** -/
theorem runAutomaton_spec (ht : Tested known states) (rest : List Char) (number : Nat) (start : Cursor)
    (token : Option (Symbol × Extent)) (position : Extent)
    (h : Reading known (stateOf states number) start.position position token) :
    TokenHolds known (runAutomaton states number start token position rest).start.position
      (runAutomaton states number start token position rest).token := by
  induction rest generalizing number start token position with
  | nil =>
    rw [runAutomaton]
    simp only
    split
    · rename_i target hend
      exact h.tokenAtEnd ht hend
    · exact h.tokenAt ht
  | cons c rest ih =>
    rw [runAutomaton]
    simp only
    split
    · exact h.tokenAt ht
    · rename_i edge he
      have halong := h.along ht he
      refine ih edge.target _ _ _ ?_
      rw [apply_ite Cursor.position]
      exact halong

theorem scan_spec (ht : Tested known states) (hf : isFresh (stateOf states number) = true) (cursor : Cursor) :
    TokenHolds known (scan states number cursor).start.position (scan states number cursor).token := by
  refine runAutomaton_spec ht _ _ _ _ _ ⟨fun _ => ⟨rfl, rfl⟩, fun h => ?_, by simp [TokenHolds]⟩
  rw [hf] at h
  cases h

/-! ## Bodies of documentation tags -/

/-- An end of the body, once it is known, lies after the beginning of the body. -/
theorem bodyEnd_spec (tag : List Char) (begin : Extent) (rest : List Char) (progress : TagProgress)
    (read : Bool) (position : Extent) (hpos : begin.bytes ≤ position.bytes)
    (hread : read = true → begin.bytes < position.bytes)
    (hmark : ∀ mark missing, progress = .opened mark ∨ progress = .closing mark missing →
      read = true → begin.bytes < mark.bytes)
    {finish : Extent} (h : bodyEnd tag progress read position rest = some finish) :
    begin.bytes < finish.bytes := by
  induction rest generalizing progress read position with
  | nil =>
    rw [bodyEnd.eq_def] at h
    simp only at h
    split at h
    · rename_i mark
      split at h <;> cases h
      exact hmark _ [] (.inr rfl) ‹_›
    · cases h
  | cons c rest ih =>
    have hafter : begin.bytes < (position + Extent.ofChar c).bytes := by
      have := bytes_ofChar_pos c
      simp only [Extent.bytes_add]
      omega
    -- Whatever does not belong to the closing tag belongs to the body.
    have hbody : bodyEnd tag .none true (position + Extent.ofChar c) rest = some finish →
        begin.bytes < finish.bytes := by
      exact ih .none true _ (Nat.le_of_lt hafter) (fun _ => hafter) (by simp)
    rw [bodyEnd.eq_def] at h
    cases progress with
    | none =>
      simp only at h
      split at h
      · refine ih _ _ _ (Nat.le_of_lt hafter) (fun _ => hafter) ?_ h
        rintro mark missing (⟨⟨⟩⟩ | ⟨⟨⟩⟩) hr
        exact hread hr
      · exact hbody h
    | opened mark =>
      simp only at h
      split at h
      · refine ih _ _ _ (Nat.le_of_lt hafter) (fun _ => hafter) ?_ h
        rintro mark' missing (⟨⟨⟩⟩ | ⟨⟨⟩⟩) hr
        exact hmark mark [] (.inl rfl) hr
      · exact hbody h
    | closing mark missing =>
      cases missing with
      | nil =>
        simp only at h
        split at h <;> cases h
        exact hmark _ [] (.inr rfl) ‹_›
      | cons d missing =>
        simp only at h
        split at h
        · refine ih _ _ _ (Nat.le_of_lt hafter) (fun _ => hafter) ?_ h
          rintro mark' missing' (⟨⟨⟩⟩ | ⟨⟨⟩⟩) hr
          exact hmark mark (d :: missing) (.inr rfl) hr
        · exact hbody h

/-! ## The next token -/

/-- A token as it is read: a terminal that takes up some text, unless it is the end of the text, or
a piece of text at which no token begins. -/
structure Token.WellRead (t : Token) : Prop where
  terminal : t.symbol ≠ .error → t.symbol.isTerminal = true
  wide : t.symbol ≠ .error → t.symbol ≠ .endOfInput → 0 < t.size.bytes
  keyword : t.keyword = true → 0 < t.size.bytes ∧ t.symbol ∈ .identifier :: reservedWords

theorem terminals_terminal : ∀ symbol ∈ Symbol.terminals, symbol.isTerminal = true := by
  decide

theorem word_terminal : ∀ symbol ∈ Symbol.identifier :: reservedWords,
    symbol.isTerminal = true ∧ symbol ≠ .endOfInput := by
  decide

theorem wordSymbol_spec (state : StateId) (start : Cursor) (finish : Extent) :
    (wordSymbol state start finish).1 ∈ .identifier :: reservedWords := by
  have hscan := scan_spec (tested_of_all stateTested_keywords) isFresh_keywords start
  rw [wordSymbol]
  split
  · exact List.mem_cons_self
  · rename_i keyword keywordEnd heq
    split
    · exact List.mem_cons_of_mem _ (hscan keyword keywordEnd heq).1
    · exact List.mem_cons_self

theorem wellRead_ofScan (state : StateId) (position : Extent) {start : Cursor} {symbol : Symbol}
    {finish : Extent} (h : TokenHolds Symbol.terminals start.position (some (symbol, finish))) :
    (Token.ofScan state position start symbol finish).WellRead := by
  obtain ⟨hterm, hwide⟩ := h symbol finish rfl
  have hsize : start.position.bytes < finish.bytes → 0 < (finish - start.position).bytes :=
    fun hlt => Nat.sub_pos_of_lt hlt
  by_cases hid : symbol = .identifier
  · subst hid
    have hlt := hsize (hwide (by decide))
    have hword := wordSymbol_spec state start finish
    simp only [Token.ofScan, beq_self_eq_true, ↓reduceIte]
    exact ⟨fun _ => (word_terminal _ hword).1, fun _ _ => hlt, fun _ => ⟨hlt, hword⟩⟩
  · simp only [Token.ofScan, beq_iff_eq, hid, ↓reduceIte]
    exact ⟨fun _ => terminals_terminal _ hterm, fun _ hne => hsize (hwide hne), fun hk => nomatch hk⟩

theorem wellRead_recoveryToken (state : StateId) (cursor : Cursor) :
    (recoveryToken state cursor).WellRead := by
  have hscan := scan_spec (tested_of_all stateTested_lexStates) isFresh_recovery cursor
  rw [recoveryToken]
  simp only
  split
  · rename_i symbol finish heq
    exact wellRead_ofScan _ _ (heq ▸ hscan)
  · exact ⟨fun h => absurd rfl h, fun h => absurd rfl h, fun hk => nomatch hk⟩

theorem isFresh_lexStartAt (state : StateId) : isFresh (stateOf lexStates (lexStartAt state)) = true := by
  rw [lexStartAt, rows_getElem?]
  cases hrow : rowAt state with
  | none => exact isFresh_recovery
  | some row =>
    rw [rowAt_eq] at hrow
    exact List.all_eq_true.mp isFresh_rows row (List.mem_of_getElem? hrow)

/-- **Whatever is read is a terminal that takes up some text, the end of the text, or a piece at
which no token begins.** -/
theorem wellRead_nextToken (source : Source) (state : StateId) (position : Extent) :
    (nextToken source state position).WellRead := by
  have hscan := scan_spec (tested_of_all stateTested_lexStates) (isFresh_lexStartAt state)
    (source.cursorAt position)
  rw [nextToken]
  simp only
  split
  · rename_i symbol finish heq
    obtain ⟨tag, -, hbody⟩ := Option.bind_eq_some_iff.mp heq
    obtain ⟨finish', hend, hpair⟩ := Option.map_eq_some_iff.mp hbody
    obtain ⟨rfl, rfl⟩ := Prod.mk.inj hpair
    have hlt : position.bytes < finish'.bytes :=
      bodyEnd_spec _ position _ _ _ _ (Nat.le_refl _) (by simp) (by simp) hend
    refine ⟨fun _ => ?_, fun _ _ => Nat.sub_pos_of_lt hlt, fun hk => nomatch hk⟩
    cases tag <;> rfl
  · split
    · rename_i symbol finish heq
      exact wellRead_ofScan _ _ (heq ▸ hscan)
    · exact wellRead_recoveryToken ..

end Cicode.Lex

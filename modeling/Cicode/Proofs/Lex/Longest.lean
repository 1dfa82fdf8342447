import Cicode.Proofs.Lex.Words

/-!
# The longest token

Where nothing is skipped, the outcome of the lexical automaton depends on the state and on the text
alone: it is the word up to the last accepting state that is passed (`longest`).  A run gives the token
of `longest`, or the one met before if there is none (`runAutomaton_longest`), so that a scan that
begins with a character of its token ends where `longest` says (`scan_longest`).

To follow an automaton over an unknown character, only the characters matter that its classes name:
every other one takes the edge of the class that excludes them (`after_of_leaves`).
-/

namespace Cicode.Lex

open Grammar Text

/-! ## Edges -/

/-- The characters of some ranges. -/
def membersOf (ranges : List (Char × Char)) : List Char :=
  ranges.flatMap fun range =>
    (List.range' range.1.toNat (range.2.toNat + 1 - range.1.toNat)).map Char.ofNat

theorem mem_membersOf {ranges : List (Char × Char)} {c : Char} (h : CharClass.inRanges ranges c = true) :
    c ∈ membersOf ranges := by
  obtain ⟨range, hr, hle⟩ := List.any_eq_true.mp h
  rw [Bool.and_eq_true, decide_eq_true_iff, decide_eq_true_iff] at hle
  have hlow : range.1.toNat ≤ c.toNat := hle.1
  have hhigh : c.toNat ≤ range.2.toNat := hle.2
  refine List.mem_flatMap.mpr ⟨range, hr, List.mem_map.mpr ⟨c.toNat, ?_, Char.ofNat_toNat c⟩⟩
  rw [List.mem_range'_1]
  omega

/-- The state after a character. -/
def after (number : Nat) (c : Char) : Option Nat :=
  ((stateOf lexStates number).edgeOn c).map (·.target)

/-- Every character but some leads from a state to another. -/
def leaves (number : Nat) (but : List Char) (target : Nat) : Bool :=
  match (stateOf lexStates number).edges with
  | ⟨.outside ranges, next, _⟩ :: _ => next == target && (membersOf ranges).all but.contains
  | _ => false

theorem after_of_leaves {number target : Nat} {but : List Char} (h : leaves number but target = true)
    {c : Char} (hc : c ∉ but) : after number c = some target := by
  rw [leaves] at h
  split at h
  · rename_i ranges next skips edges hedges
    rw [Bool.and_eq_true, beq_iff_eq, List.all_eq_true] at h
    obtain ⟨rfl, hmembers⟩ := h
    have hout : (CharClass.outside ranges).contains c = true := by
      rw [CharClass.contains, Bool.not_eq_true', ← Bool.not_eq_true]
      exact fun hin => hc (List.contains_iff_mem.mp (hmembers c (mem_membersOf hin)))
    rw [after, LexState.edgeOn, hedges, List.find?_cons, hout]
    rfl
  · cases h

/-! ## Runs -/

/-- The token that is complete in a state, with nothing read. -/
def complete (number : Nat) : Option (Symbol × List Char) :=
  (stateOf lexStates number).accepts.map (·, [])

/-- The token of a run from a state, with its word: that of the last accepting state. -/
def longest : Nat → List Char → Option (Symbol × List Char)
  | number, [] => complete number
  | number, c :: rest =>
    match after number c with
    | none => complete number
    | some next => ((longest next rest).map fun found => (found.1, c :: found.2)).or (complete number)

section Longest

variable {number next : Nat} {c : Char} {rest : List Char}

theorem longest_stop (h : after number c = none) : longest number (c :: rest) = complete number := by
  rw [longest, h]

theorem longest_go (h : after number c = some next) : longest number (c :: rest) =
    ((longest next rest).map fun found => (found.1, c :: found.2)).or (complete number) := by
  rw [longest, h]

/-- A token further on is the token. -/
theorem longest_go_some (h : after number c = some next) {symbol : Symbol} {word : List Char}
    (hnext : longest next rest = some (symbol, word)) :
    longest number (c :: rest) = some (symbol, c :: word) := by
  rw [longest_go h, hnext]
  rfl

/-- A token from a state that accepts nothing is found further on. -/
theorem longest_eq_some (hnone : (stateOf lexStates number).accepts = none) {symbol : Symbol}
    {word : List Char} (h : longest number (c :: rest) = some (symbol, word)) :
    ∃ next word', after number c = some next ∧ longest next rest = some (symbol, word') ∧
      word = c :: word' := by
  have hcomplete : complete number = none := by rw [complete, hnone]; rfl
  cases hafter : after number c with
  | none =>
    rw [longest_stop hafter, hcomplete] at h
    cases h
  | some next =>
    rw [longest_go hafter, hcomplete, Option.or_none] at h
    obtain ⟨⟨symbol', word'⟩, hnext, heq⟩ := Option.map_eq_some_iff.mp h
    cases heq
    exact ⟨next, word', rfl, hnext, rfl⟩

/-- From a state without edges nothing is read. -/
theorem longest_of_no_edges (h : (stateOf lexStates number).edges = []) (rest : List Char) :
    longest number rest = complete number := by
  cases rest with
  | nil => rw [longest]
  | cons c rest => exact longest_stop (by rw [after, LexState.edgeOn, h]; rfl)

/-- The end of the text is special only where a token begins. -/
theorem atEnd_lexStates :
    (lexStates.toList.all fun state => isFresh state || state.atEnd.isNone) = true := by
  decide +kernel

theorem atEnd_of_not_fresh (h : isFresh (stateOf lexStates number) = false) :
    (stateOf lexStates number).atEnd = none := by
  rw [stateOf] at h ⊢
  cases hs : lexStates[number]? with
  | none => rfl
  | some state =>
    have hmem := Array.mem_toList_iff.mpr (Array.mem_of_getElem? hs)
    have htest := List.all_eq_true.mp atEnd_lexStates state hmem
    rw [hs, Option.getD_some] at h
    rw [h, Bool.false_or, Option.isNone_iff_eq_none] at htest
    exact htest

/-- In each state the token that is complete there replaces the one met before. -/
theorem tokenAt_complete (number : Nat) (position : Extent) (token : Option (Symbol × Extent)) :
    LexState.tokenAt (stateOf lexStates number) position token =
      ((complete number).map fun found => (found.1, position + Extent.of found.2)).or token := by
  rw [LexState.tokenAt, complete]
  cases (stateOf lexStates number).accepts <;> simp

/-- **A run gives the longest token**, and the token begins where it did before. -/
theorem runAutomaton_longest (rest : List Char) {number : Nat}
    (hf : isFresh (stateOf lexStates number) = false) (start : Cursor) (token : Option (Symbol × Extent))
    (position : Extent) :
    (runAutomaton lexStates number start token position rest).start = start ∧
      (runAutomaton lexStates number start token position rest).token =
        ((longest number rest).map fun found => (found.1, position + Extent.of found.2)).or token := by
  induction rest generalizing number token position with
  | nil =>
    have hend := atEnd_of_not_fresh hf
    rw [runAutomaton, longest, ← tokenAt_complete]
    rw [stateOf] at hend ⊢
    simp only [hend, and_self]
  | cons c rest ih =>
    have hcomplete := tokenAt_complete number position token
    rw [runAutomaton]
    cases hedge : (stateOf lexStates number).edgeOn c with
    | none =>
      have hafter : after number c = none := by rw [after, hedge]; rfl
      rw [longest_stop hafter, ← hcomplete]
      rw [stateOf] at hedge ⊢
      simp only [hedge, and_self]
    | some edge =>
      have hafter : after number c = some edge.target := by rw [after, hedge]; rfl
      have hmem := List.mem_of_find?_eq_some hedge
      have htest := tested_of_all stateTested_lexStates number
      rw [stateTested, hf, Bool.and_eq_true, List.all_eq_true] at htest
      rw [isFresh, List.any_eq_false] at hf
      have hskips : edge.skips = false := Bool.not_eq_true _ ▸ hf edge hmem
      have hnext : isFresh (stateOf lexStates edge.target) = false := by
        rw [beq_iff_eq.mp (htest.2 edge hmem), hskips]
      obtain ⟨hstart, hfound⟩ := ih hnext
        (LexState.tokenAt (stateOf lexStates number) position token) (position + Extent.ofChar c)
      rw [longest_go hafter]
      rw [stateOf] at hedge hcomplete hstart hfound
      simp only [hedge, hskips, Bool.false_eq_true, ↓reduceIte]
      refine ⟨hstart, ?_⟩
      rw [hfound, hcomplete]
      cases longest edge.target rest with
      | none => rfl
      | some found => simp [Extent.of_cons, Extent.add_assoc]

/-- **A scan that begins with a character of its token** ends where the longest token does. -/
theorem scan_longest {target : Nat} (hnone : (stateOf lexStates number).accepts = none)
    (hedge : ∃ on, (stateOf lexStates number).edgeOn c = some (.go on target)) (position : Extent) :
    (scan lexStates number ⟨c :: rest, position⟩).start = ⟨c :: rest, position⟩ ∧
      (scan lexStates number ⟨c :: rest, position⟩).token =
        (longest target rest).map fun found => (found.1, position + Extent.of (c :: found.2)) := by
  obtain ⟨on, hedge⟩ := hedge
  have htest := tested_of_all stateTested_lexStates number
  rw [stateTested, Bool.and_eq_true, List.all_eq_true] at htest
  have hnext : isFresh (stateOf lexStates target) = false :=
    beq_iff_eq.mp (htest.2 _ (List.mem_of_find?_eq_some hedge))
  obtain ⟨hstart, hfound⟩ := runAutomaton_longest rest hnext ⟨c :: rest, position⟩ none
    (position + Extent.ofChar c)
  rw [stateOf] at hnone hedge
  rw [scan, runAutomaton]
  simp only [hedge, LexState.tokenAt, hnone, Edge.go, Bool.false_eq_true, ↓reduceIte]
  refine ⟨hstart, ?_⟩
  rw [hfound, Option.or_none]
  simp only [Extent.of_cons, Extent.add_assoc]

end Longest

end Cicode.Lex

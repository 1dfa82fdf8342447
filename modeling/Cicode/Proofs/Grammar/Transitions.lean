import Cicode.Grammar.Table
import Cicode.Proofs.Grammar.Places

/-!
# Transitions of the parsing table

The look-ups of the parser, read off the rows.  A row has an *arrow* to each state that may follow
its own once a symbol has been recognised.  A stack of the parser follows arrows from the bottom to
the top, so what lies on it above any place is the row of symbols of a *descent*.

Main statement (`Descent.reduction`): wherever the table asks for a reduction, every descent of the
required length from that state spells a right-hand side of the symbol that is reduced to, under
the number of that right-hand side, and ends in a state that the symbol leads on from; a shorter
one has not come to the bottom.  The table is finite, and this is decided by following all arrows
backwards.
-/

namespace Cicode.Symbol

/-- All symbols, those for skipped text included. -/
def withSkipped : List Symbol := all ++ [.error, .errorRepeat]

theorem mem_withSkipped (s : Symbol) : s ∈ withSkipped := by
  cases s <;> decide

end Cicode.Symbol

namespace Cicode.Grammar

/-! ## Looking up rows -/

/-- The row of a state. -/
def rowAt (state : Nat) : Option Row :=
  if state < 105 then
    if state < 60 then rowsHeader[state]? else rowsBody[state - 60]?
  else if state < 150 then rowsExpression[state - 105]? else rowsCondition[state - 150]?

theorem rowAt_eq (state : Nat) : rowAt state = rowList[state]? := by
  have hh : rowsHeader.length = 60 := rfl
  have hb : rowsBody.length = 45 := rfl
  have he : rowsExpression.length = 45 := rfl
  unfold rowAt rowList
  split
  · rw [List.append_assoc, List.append_assoc]
    split
    · rw [List.getElem?_append_left (by omega)]
    · rw [List.getElem?_append_right (by omega), List.getElem?_append_left (by omega), hh]
  · split
    · rw [List.getElem?_append_left (by simp; omega), List.getElem?_append_right (by simp; omega)]
      simp [hh, hb]
    · rw [List.getElem?_append_right (by simp; omega)]
      simp [hh, hb, he]

theorem rows_getElem? (state : StateId) : rows[state]? = rowAt state := by
  rw [rowAt_eq, rows, List.getElem?_toArray]

theorem index_terminal : ∀ s : Symbol, s.isTerminal = true →
    Symbol.terminals[s.index]? = some s := by
  intro s
  cases s <;> decide

theorem index_nonterminal : ∀ s ∈ Symbol.nonterminals,
    Symbol.nonterminals[s.index - Symbol.terminalCount]? = some s := by
  decide

/-- The actions of a state on a terminal stand in its row. -/
theorem actionsAt_terminal (state : StateId) {s : Symbol} (hs : s.isTerminal = true) :
    actionsAt state s = match rowAt state with
      | some row => row.actionsOn s
      | none => [] := by
  rw [actionsAt, actionTable, List.getElem?_toArray, List.getElem?_map, ← rowAt_eq]
  cases rowAt state with
  | none => rfl
  | some row => simp [index_terminal s hs]

theorem actionsAt_not_terminal (state : StateId) {s : Symbol} (hs : s.isTerminal = false) :
    actionsAt state s = [] := by
  have hlen : Symbol.terminals.length ≤ s.index := by
    revert hs
    cases s <;> decide
  rw [actionsAt, actionTable, List.getElem?_toArray, List.getElem?_map]
  cases rowList[state]? with
  | none => rfl
  | some row => simp [List.getElem?_eq_none hlen]

/-- The state after a nonterminal stands in the row. -/
theorem gotoAt_nonterminal (state : StateId) {s : Symbol} (hs : s ∈ Symbol.nonterminals) :
    gotoAt state s = match rowAt state with
      | some row => row.gotoOn s
      | none => 0 := by
  rw [gotoAt, gotoTable, List.getElem?_toArray, List.getElem?_map, ← rowAt_eq]
  cases rowAt state with
  | none => rfl
  | some row => simp [index_nonterminal s hs]

theorem mem_group_of_actionsOn {row : Row} {s : Symbol} {a : Action} (h : a ∈ row.actionsOn s) :
    ∃ group ∈ row.actions, s ∈ group.2 ∧ group.1 = row.actionsOn s := by
  unfold Row.actionsOn at h ⊢
  split at h
  · rename_i group hfind
    exact ⟨group, List.mem_of_find?_eq_some hfind, by simpa using List.find?_some hfind, rfl⟩
  · cases h

theorem mem_group_of_gotoOn {row : Row} {s : Symbol} (h : row.gotoOn s ≠ 0) :
    ∃ group ∈ row.gotos, s ∈ group.2 ∧ group.1 = row.gotoOn s := by
  unfold Row.gotoOn at h ⊢
  split at h
  · rename_i group hfind
    exact ⟨group, List.mem_of_find?_eq_some hfind, by simpa using List.find?_some hfind, rfl⟩
  · exact absurd rfl h

theorem rowAt_mem {state : StateId} {row : Row} (h : rowAt state = some row) :
    (row, state) ∈ rowList.zipIdx := by
  rw [rowAt_eq] at h
  exact List.mem_zipIdx_iff_getElem?.mpr (by simpa using h)

/-- A property of all rows that has been tested holds of the row of each state. -/
theorem of_all_rows {p : Row × StateId → Bool} (h : rowList.zipIdx.all p = true)
    {state : StateId} {row : Row} (hrow : rowAt state = some row) : p (row, state) = true :=
  List.all_eq_true.mp h (row, state) (rowAt_mem hrow)

/-! ## Arrows -/

namespace Row

/-- The symbols that lead on from a row, with the state they lead to. -/
def arrows (row : Row) : List (Symbol × StateId) :=
  (row.actions.flatMap fun group => match group.1.getLast? with
    | some (.shift target) | some (.shiftRepeat target) => group.2.map (·, target)
    | _ => []) ++
  row.gotos.flatMap fun group => group.2.map (·, group.1)

/-- The reductions that a row asks for: symbol, number of children, number of the production. -/
def reductions (row : Row) : List (Symbol × Nat × Nat) :=
  row.actions.flatMap fun group => group.1.filterMap fun
    | .reduce symbol count production => some (symbol, count, production)
    | _ => none

end Row

/-- The symbol leads from a state to another one. -/
def Arrow (source : StateId) (symbol : Symbol) (target : StateId) : Prop :=
  ∃ row, rowAt source = some row ∧ (symbol, target) ∈ row.arrows

/-- The state asks for the reduction on some terminal. -/
def Reduces (state : StateId) (symbol : Symbol) (count production : Nat) : Prop :=
  ∃ row, rowAt state = some row ∧ (symbol, count, production) ∈ row.reductions

theorem Reduces.of_mem {state : StateId} {terminal symbol : Symbol} {count production : Nat}
    (h : Action.reduce symbol count production ∈ actionsAt state terminal) :
    Reduces state symbol count production := by
  cases ht : terminal.isTerminal with
  | false =>
    rw [actionsAt_not_terminal state ht] at h
    cases h
  | true =>
    rw [actionsAt_terminal state ht] at h
    split at h
    · rename_i row hrow
      obtain ⟨group, hg, -, heq⟩ := mem_group_of_actionsOn h
      have hmem : Action.reduce symbol count production ∈ group.1 := by rw [heq]; exact h
      exact ⟨row, hrow, List.mem_flatMap.mpr ⟨group, hg, List.mem_filterMap.mpr ⟨_, hmem, rfl⟩⟩⟩
    · cases h

/-- The last action on a terminal gives an arrow if it is a shift. -/
theorem Arrow.of_last {state target : StateId} {terminal : Symbol}
    (h : (actionsAt state terminal).getLast? = some (.shift target) ∨
      (actionsAt state terminal).getLast? = some (.shiftRepeat target)) :
    Arrow state terminal target := by
  have hmem : ∃ a, a ∈ actionsAt state terminal := by
    rcases h with h | h <;> exact ⟨_, List.mem_of_getLast? h⟩
  obtain ⟨a, ha⟩ := hmem
  cases ht : terminal.isTerminal with
  | false =>
    rw [actionsAt_not_terminal state ht] at ha
    cases ha
  | true =>
    rw [actionsAt_terminal state ht] at ha h
    split at ha
    · rename_i row hrow
      rw [hrow] at h
      obtain ⟨group, hg, hs, heq⟩ := mem_group_of_actionsOn ha
      refine ⟨row, hrow, List.mem_append_left _ (List.mem_flatMap.mpr ⟨group, hg, ?_⟩)⟩
      rw [heq]
      rcases h with h | h
      · simpa [h] using hs
      · simpa [h] using hs
    · cases ha

theorem Arrow.of_goto {state : StateId} {symbol : Symbol} (hs : symbol ∈ Symbol.nonterminals)
    (h : gotoAt state symbol ≠ 0) : Arrow state symbol (gotoAt state symbol) := by
  rw [gotoAt_nonterminal state hs] at h ⊢
  split at h
  · rename_i row hrow
    obtain ⟨group, hg, hs, heq⟩ := mem_group_of_gotoOn h
    refine ⟨row, hrow, List.mem_append_right _ (List.mem_flatMap.mpr ⟨group, hg, ?_⟩)⟩
    simpa [heq] using hs
  · exact absurd rfl h

/-! ## Following arrows backwards

The sources of all arrows are kept in one number, a block of bits for each target, because the
test below asks for them again and again. -/

/-- The numbers of the bits that are set, the highest first; `fuel` bounds the highest. -/
def setBits : Nat → Nat → List Nat
  | 0, _ => []
  | fuel + 1, n => if n = 0 then [] else n.log2 :: setBits fuel (n ^^^ 1 <<< n.log2)

theorem mem_setBits {fuel n i : Nat} (hn : n < 2 ^ fuel) (hi : n.testBit i = true) :
    i ∈ setBits fuel n := by
  induction fuel generalizing n with
  | zero =>
    obtain rfl : n = 0 := by simpa using hn
    simp at hi
  | succ fuel ih =>
    have h0 : n ≠ 0 := by rintro rfl; simp at hi
    rw [setBits, if_neg h0]
    by_cases heq : i = n.log2
    · exact heq ▸ List.mem_cons_self ..
    · refine List.mem_cons_of_mem _ (ih ?_ ?_)
      · apply Nat.lt_pow_two_of_testBit
        intro j hj
        have hlog : n.log2 ≤ fuel := by
          have := (Nat.log2_lt h0).mpr hn
          omega
        by_cases hj' : j = n.log2
        · subst hj'
          simp [Nat.testBit_xor, Nat.one_shiftLeft, Nat.testBit_log2 h0]
        · have hlt : n.log2 < j := by omega
          have : n < 2 ^ j := (Nat.log2_lt h0).mp hlt
          simp [Nat.testBit_xor, Nat.one_shiftLeft, Nat.testBit_lt_two_pow this,
            Ne.symm hj']
      · simp [Nat.testBit_xor, Nat.one_shiftLeft, hi, Ne.symm heq]

/-- The width of the block of bits of a target; more than there are states. -/
def blockWidth : Nat := 256

/-- The arrows, as bits. -/
def arrowBits : Nat :=
  rowList.zipIdx.foldl (fun bits q => q.1.arrows.foldl
    (fun bits arrow => bits ||| 1 <<< (blockWidth * arrow.2 + q.2)) bits) 0

/-- The states from which arrows lead to a state. -/
def sourcesOf (target : StateId) : List StateId :=
  setBits blockWidth ((arrowBits >>> (blockWidth * target)) % 2 ^ blockWidth)

theorem testBit_foldl_or {β : Type} (f : β → Nat) (xs : List β) (start i : Nat) :
    (xs.foldl (fun bits x => bits ||| 1 <<< f x) start).testBit i =
      (start.testBit i || xs.any (f · == i)) := by
  induction xs generalizing start with
  | nil => simp
  | cons x xs ih =>
    rw [List.foldl_cons, ih]
    rw [Nat.testBit_or, Nat.one_shiftLeft, Nat.testBit_two_pow, List.any_cons, Bool.or_assoc]
    rfl

theorem testBit_foldl_mono {β : Type} (g : Nat → β → Nat) (xs : List β) (i : Nat)
    (hg : ∀ n x, n.testBit i = true → (g n x).testBit i = true) (start : Nat)
    (h : start.testBit i = true) : (xs.foldl g start).testBit i = true := by
  induction xs generalizing start with
  | nil => exact h
  | cons x xs ih => exact ih _ (hg _ _ h)

theorem testBit_foldl_of_mem {β : Type} (g : Nat → β → Nat) (xs : List β) (i : Nat)
    (hg : ∀ n x, n.testBit i = true → (g n x).testBit i = true) {x : β} (hx : x ∈ xs)
    (hset : ∀ n, (g n x).testBit i = true) (start : Nat) : (xs.foldl g start).testBit i = true := by
  induction xs generalizing start with
  | nil => cases hx
  | cons y xs ih =>
    rcases List.mem_cons.mp hx with rfl | hx
    · exact testBit_foldl_mono g xs i hg _ (hset start)
    · exact ih hx _

theorem rowAt_lt {state : Nat} {row : Row} (h : rowAt state = some row) : state < 210 := by
  have hlen : rowList.length = 210 := by decide +kernel
  rw [rowAt_eq] at h
  exact hlen ▸ (List.getElem?_eq_some_iff.mp h).1

theorem Arrow.mem_sourcesOf {source target : StateId} {symbol : Symbol}
    (h : Arrow source symbol target) : source ∈ sourcesOf target := by
  obtain ⟨row, hrow, hmem⟩ := h
  have hlt : source < blockWidth := Nat.lt_trans (rowAt_lt hrow) (by decide)
  have hbit : arrowBits.testBit (blockWidth * target + source) = true := by
    refine testBit_foldl_of_mem _ _ _ (fun n q hn => ?_) (rowAt_mem hrow) (fun n => ?_) 0
    · rw [testBit_foldl_or]
      simp [hn]
    · rw [testBit_foldl_or, Bool.or_eq_true]
      exact .inr (List.any_eq_true.mpr ⟨_, hmem, by simp⟩)
  refine mem_setBits (Nat.mod_lt _ (Nat.two_pow_pos _)) ?_
  rw [Nat.testBit_mod_two_pow, Nat.testBit_shiftRight, hbit]
  simp [hlt]

/-! ## Reductions along descents -/

/-- The number under which a right-hand side of a symbol stands in the table. -/
def productionNumber (symbol : Symbol) (rhs : List Symbol) : Nat :=
  let has := rhs.contains
  match symbol with
  | .functionDefinition =>
    (if has .functionScope then if has .functionTypes then 1 else 3
      else if has .functionTypes then 5 else 7) + if has .functionParameters then 0 else 1
  | .functionParameter => if has .defaultValue then 9 else 10
  | .furtherVariables =>
    if has .assignToValue then 11 else if has .identifier then 12 else 0
  | .assignToValue => if has .identifier then 12 else 0
  | .variableDeclaration =>
    if has .assignToValue then if has .furtherVariables then 13 else 14
    else if has .furtherVariables then 14 else 15
  | .variableAssignment => 16
  | .expression => if has .expressionAtom then 0 else 17
  | .additiveOperator | .multiplicativeOperator => 18
  | .expressionAtom | .conditionalAtom => if has .identifier then 19 else 0
  | .functionCall => if has .furtherArguments then 20 else if has .expression then 21 else 22
  | .conditionalStatement =>
    if has .conditionalGroup then 23 else if has .expression then 0 else 24
  | .orOperator | .andOperator => 25
  | _ => 0

/-- From the first state one comes down to the second along arrows, past the given symbols, the
lowest of them first. -/
inductive Descent (top : StateId) : List Symbol → StateId → Prop
  | nil : Descent top [] top
  | cons {x : Symbol} {xs : List Symbol} {source target : StateId} :
      Arrow source x target → Descent top xs target → Descent top (x :: xs) source

/-- Tests all descents of `count` more symbols from a state; `rhs` lies above it. -/
def descentsReduce (symbol : Symbol) (production : Nat) : Nat → StateId → List Symbol → Bool
  | 0, state, rhs =>
    (rightSides symbol).contains rhs && production == productionNumber symbol rhs &&
      match rowAt state with
      | some row => row.gotoOn symbol != 0
      | none => false
  | count + 1, state, rhs =>
    Nat.blt 1 state && (sourcesOf state).all fun source => match rowAt source with
      | some row => row.arrows.all fun arrow =>
        arrow.2 != state || descentsReduce symbol production count source (arrow.1 :: rhs)
      | none => true

theorem descentsReduce_rows : (rowList.zipIdx.all fun q => q.1.reductions.all fun r =>
    Symbol.nonterminals.contains r.1 && descentsReduce r.1 r.2.2 r.2.1 q.2 []) = true := by
  decide +kernel

theorem Reduces.nonterminal {state : StateId} {symbol : Symbol} {count production : Nat}
    (h : Reduces state symbol count production) : symbol ∈ Symbol.nonterminals := by
  obtain ⟨row, hrow, hmem⟩ := h
  have hall := List.all_eq_true.mp (of_all_rows descentsReduce_rows hrow) _ hmem
  simp only [Bool.and_eq_true, List.contains_iff_mem] at hall
  exact hall.1

theorem Descent.descentsReduce {top state : StateId} {xs : List Symbol} (hd : Descent top xs state)
    {symbol : Symbol} {production : Nat} {count : Nat} (hle : xs.length ≤ count)
    (h : descentsReduce symbol production count top [] = true) :
    descentsReduce symbol production (count - xs.length) state xs = true := by
  induction hd with
  | nil => exact h
  | @cons x xs source target ha _ ih =>
    have hrest := ih (by simp at hle; omega)
    obtain ⟨k, hk⟩ : ∃ k, count - xs.length = k + 1 := ⟨count - xs.length - 1, by simp at hle; omega⟩
    rw [hk, Grammar.descentsReduce, Bool.and_eq_true, List.all_eq_true] at hrest
    have hsource := hrest.2 source ha.mem_sourcesOf
    obtain ⟨row, hrow, hmem⟩ := ha
    rw [hrow] at hsource
    have harrow := List.all_eq_true.mp hsource _ hmem
    have hlen : count - (x :: xs).length = k := by simp; omega
    rw [hlen]
    simpa using harrow

/-- **Reductions are met on the right-hand sides they are for.**  The descent from a state that
asks for a reduction is not at the bottom while it is too short, and when it is long enough it
spells a right-hand side and ends in a state that the symbol leads on from. -/
theorem Descent.reduction {top state : StateId} {xs : List Symbol} {symbol : Symbol}
    {count production : Nat} (hd : Descent top xs state)
    (hr : Reduces top symbol count production) :
    (xs.length < count → 1 < state) ∧
    (xs.length = count → xs ∈ rightSides symbol ∧ production = productionNumber symbol xs ∧
      symbol ∈ Symbol.nonterminals ∧ gotoAt state symbol ≠ 0) := by
  obtain ⟨row, hrow, hmem⟩ := hr
  have hall := List.all_eq_true.mp (of_all_rows descentsReduce_rows hrow) _ hmem
  simp only [Bool.and_eq_true, List.contains_iff_mem] at hall
  obtain ⟨hnon, htest⟩ := hall
  constructor
  · intro hlt
    have h := hd.descentsReduce (Nat.le_of_lt hlt) htest
    obtain ⟨k, hk⟩ : ∃ k, count - xs.length = k + 1 := ⟨count - xs.length - 1, by omega⟩
    rw [hk, Grammar.descentsReduce, Bool.and_eq_true] at h
    exact Nat.le_of_ble_eq_true h.1
  · intro heq
    have h := hd.descentsReduce (Nat.le_of_eq heq) htest
    rw [heq, Nat.sub_self, Grammar.descentsReduce] at h
    simp only [Bool.and_eq_true, List.contains_iff_mem, beq_iff_eq] at h
    refine ⟨h.1.1, h.1.2, hnon, ?_⟩
    rw [gotoAt_nonterminal state hnon]
    have hgoto := h.2
    split at hgoto
    · simpa using hgoto
    · cases hgoto

end Cicode.Grammar

import Cicode.Proofs.Grammar.ShiftReduce

/-!
# What may follow a symbol

A symbol that begins in some state of the table may be followed by certain terminals (`follow`):
those that the state after it has a use for, except operators that would bind more strongly than
the place allows.  Sets of terminals are numbers, one bit for each terminal.

The table is right about these sets (`productions_run`): wherever a symbol may begin, each of its
right-hand sides can be run through, each part being followed by what the next one starts with, and
at the end the table asks for the reduction on every terminal that may follow the symbol.  Hence
**the automaton recognises every tree that fits its place** (`reaches_of_fits`), by induction on
the tree.
-/

namespace Cicode.Grammar

/-! ## Sets of terminals -/

/-- A set of terminals. -/
def maskOf (terminals : List Symbol) : Nat :=
  terminals.foldl (fun bits s => bits ||| 1 <<< s.index) 0

theorem index_inj {s t : Symbol} (h : s.index = t.index) : s = t := by
  rw [← Symbol.ofNat_ctorIdx s, ← Symbol.ofNat_ctorIdx t]
  exact congrArg Symbol.ofNat h

theorem testBit_maskOf (terminals : List Symbol) (s : Symbol) :
    (maskOf terminals).testBit s.index = terminals.contains s := by
  rw [maskOf, testBit_foldl_or, Nat.zero_testBit, Bool.false_or, List.contains_eq_any_beq]
  congr 1
  funext t
  rw [Bool.eq_iff_iff]
  simp only [beq_iff_eq]
  exact ⟨fun h => (index_inj h).symm, fun h => h ▸ rfl⟩

/-- One set lies in another one. -/
def isWithin (a b : Nat) : Bool := a &&& b == a

theorem testBit_of_isWithin {a b i : Nat} (h : isWithin a b = true) (hi : a.testBit i = true) :
    b.testBit i = true := by
  rw [isWithin, beq_iff_eq] at h
  rw [← h, Nat.testBit_and, Bool.and_eq_true] at hi
  exact hi.2

/-- One set without the members of another one. -/
def without (a b : Nat) : Nat := a ^^^ (a &&& b)

theorem testBit_without (a b i : Nat) :
    (without a b).testBit i = (a.testBit i && !b.testBit i) := by
  rw [without, Nat.testBit_xor, Nat.testBit_and]
  cases a.testBit i <;> cases b.testBit i <;> rfl

namespace Row

/-- The terminals on which the actions of a row are of some kind. -/
def maskWhere (row : Row) (p : List Action → Bool) : Nat :=
  row.actions.foldr (fun group bits =>
    if p group.1 then bits ||| maskOf group.2 else without bits (maskOf group.2)) 0

theorem testBit_maskWhere (row : Row) {p : List Action → Bool} (hp : p [] = false) (s : Symbol) :
    (row.maskWhere p).testBit s.index = p (row.actionsOn s) := by
  unfold maskWhere actionsOn
  induction row.actions with
  | nil => simp [hp]
  | cons group groups ih =>
    rw [List.foldr_cons, List.find?_cons]
    by_cases hpg : p group.1 = true
    · rw [if_pos hpg, Nat.testBit_or, testBit_maskOf, ih]
      cases hc : group.2.contains s with
      | true => simp [hpg]
      | false => simp
    · rw [if_neg hpg, testBit_without, testBit_maskOf, ih]
      cases hc : group.2.contains s with
      | true => simpa using hpg
      | false => simp

/-- The terminals that a row shifts. -/
def shifted (row : Row) : Nat :=
  row.maskWhere fun
    | .shift _ :: _ => true
    | _ => false

/-- The terminals that a row has a use for. -/
def used (row : Row) : Nat :=
  row.maskWhere fun
    | .shift _ :: _ | .reduce .. :: _ | .accept :: _ => true
    | _ => false

/-- The terminals on which a row asks for a reduction. -/
def reducedOn (row : Row) (symbol : Symbol) (count production : Nat) : Nat :=
  row.maskWhere fun
    | .reduce s c p :: _ => s == symbol && c == count && p == production
    | _ => false

end Row

/-! ## Terminals at the beginning and after -/

/-- The keywords of types. -/
def typeKeywords : List Symbol :=
  [.kwInt, .kwString, .kwReal, .kwQuality, .kwTimestamp, .kwBool, .kwObject, .kwLong]

/-- The terminals with which an expression begins. -/
def expressionStarts : List Symbol := [.identifier, .string, .number, .lparen, .minus]

/-- The terminals with which a symbol may begin. -/
def starts : Symbol → List Symbol
  | .sourceFile | .topLevelItems =>
    [.summaryStart, .paramTag, .returnsStart, .kwFunction, .kwPublic, .kwPrivate, .kwVoid] ++
      typeKeywords
  | .docComment => [.summaryStart, .paramTag, .returnsStart]
  | .docSummary => [.summaryStart]
  | .docParam => [.paramTag]
  | .docReturns => [.returnsStart]
  | .function | .functionDefinition =>
    [.kwFunction, .kwPublic, .kwPrivate, .kwVoid] ++ typeKeywords
  | .functionScope => [.kwPublic, .kwPrivate]
  | .functionTypes => .kwVoid :: typeKeywords
  | .type | .parameterType | .variableType | .functionParameters | .functionParameter
  | .variableDeclaration | .declarations => typeKeywords
  | .defaultValue | .assignToValue => [.equal]
  | .bodyStatement | .bodyStatements | .branchStatements => [.identifier, .kwIf, .kwReturn]
  | .statementOrExpression => [.identifier, .kwIf]
  | .variableAssignment | .functionCall => [.identifier]
  | .ifStatement => [.kwIf]
  | .returnStatement => [.kwReturn]
  | .expression | .expressionAtom | .expressionVariableAssignments => expressionStarts
  | .bitOperator | .bitOperators => [.kwBitand, .kwBitor, .kwBitxor]
  | .additiveOperator | .additiveSymbol => [.plus, .minus]
  | .multiplicativeOperator | .multiplicativeSymbol => [.star, .slash, .kwMod]
  | .conditionalStatement => .kwNot :: expressionStarts
  | .orOperator | .orKeyword => [.kwOr]
  | .andOperator | .andKeyword => [.kwAnd]
  | .relationalOperator | .relationalOperators =>
    [.equal, .notEqual, .less, .greater, .lessEqual, .greaterEqual]
  | .conditionalGroup => [.lparen, .kwNot]
  | .conditionalAtom => [.identifier, .lparen, .kwNot]
  | .furtherParameters | .furtherVariables | .furtherArguments => [.comma]
  | terminal => [terminal]

/-- The terminals with which an operation of some strength goes on after its left operand. -/
def continuations : Symbol → Nat → List Symbol
  | .expression, 1 => starts .bitOperator
  | .expression, 2 => starts .additiveOperator
  | .expression, 3 => starts .multiplicativeOperator
  | .conditionalStatement, 1 => starts .orOperator
  | .conditionalStatement, 2 => starts .andOperator
  | .conditionalStatement, 3 => starts .relationalOperator
  | symbol, 1 => if (repeated symbol).isSome then starts symbol else []
  | _, _ => []

namespace Place

/-- The terminals with which an operation at the place goes on. -/
def goesOn (place : Place) : Nat := maskOf (continuations place.symbol place.level)

/-- The terminals that would draw what stands at the place into an operation of its own. -/
def drawn (place : Place) : Nat :=
  maskOf (((List.range atomStrength).filter (place.level < ·)).flatMap
    (continuations place.symbol))

end Place

/-- The terminals that may follow what begins in a state at a place.  There are none unless the
state shifts all terminals with which it may begin, and the state after it all with which it may
go on. -/
def follow (state : StateId) (place : Place) : Nat :=
  match rowAt state with
  | none => 0
  | some row =>
    match rowAt (row.gotoOn place.symbol) with
    | none => 0
    | some after =>
      if row.gotoOn place.symbol != 0 && isWithin (maskOf (starts place.symbol)) row.shifted &&
          isWithin place.goesOn after.shifted then
        let terminals := without after.used place.drawn
        if place.symbol == .conditionalStatement && !place.compound then
          -- A condition may also be an expression, which has to be recognised as a condition.
          match rowAt (row.gotoOn .expression) with
          | none => 0
          | some expression => terminals &&& expression.reducedOn .conditionalStatement 1 0
        else terminals
      else 0

/-! ## Running through right-hand sides -/

/-- The places at which a symbol may stand. -/
def placesFor : Symbol → List Place
  | .expression => [1, 2, 3, 4].map fun l => { symbol := .expression, level := l }
  | .conditionalStatement =>
    { symbol := .conditionalStatement, compound := true } ::
      [1, 2, 3, 4].map fun l => { symbol := .conditionalStatement, level := l }
  | symbol => { symbol } :: if (repeated symbol).isSome then [{ symbol, level := 2 }] else []

/-- The parts of a right-hand side can be run through from a state, each followed by what the next
one starts with and the last one by the terminals `final`, on which the reduction is then asked
for. -/
def runsThrough (final : Nat) (symbol : Symbol) (count production : Nat) :
    StateId → List Place → Bool
  | state, [] =>
    match rowAt state with
    | some row => isWithin final (row.reducedOn symbol count production)
    | none => false
  | state, place :: rest =>
    match rowAt state with
    | some row =>
      if place.symbol.isTerminal then
        match row.actionsOn place.symbol with
        | [.shift target] => runsThrough final symbol count production target rest
        | _ => false
      else
        isWithin (match rest with
          | [] => final
          | next :: _ => maskOf (starts next.symbol)) (follow state place) &&
        runsThrough final symbol count production (row.gotoOn place.symbol) rest
    | none => false

/-- The right-hand sides that a place allows can be run through wherever it may begin. -/
def productionsRun (state : StateId) (place : Place) : Bool :=
  follow state place == 0 || (rightSides place.symbol).all fun rhs => !place.allows rhs ||
    runsThrough (follow state place) place.symbol rhs.length (productionNumber place.symbol rhs)
      state (placesOf place.symbol rhs)

theorem productionsRun_rows : (rowList.zipIdx.all fun q => q.1.gotos.all fun group =>
    group.2.all fun symbol => (placesFor symbol).all (productionsRun q.2)) = true := by
  decide +kernel

theorem mem_nonterminals {s : Symbol} {rhs : List Symbol} (h : rhs ∈ rightSides s) :
    s ∈ Symbol.nonterminals ∧ s.isTerminal = false := by
  have hall : (rightSides s).isEmpty = true ∨ s ∈ Symbol.nonterminals ∧ s.isTerminal = false := by
    cases s <;> decide
  refine hall.resolve_left fun hempty => ?_
  rw [List.isEmpty_iff.mp hempty] at h
  cases h

/-- The places of a right-hand side are among those at which their symbols may stand, and the whole
text is part of nothing. -/
theorem placesOf_known {s : Symbol} {rhs : List Symbol} (h : rhs ∈ rightSides s) :
    ∀ place ∈ placesOf s rhs, place.symbol ≠ .sourceFile ∧
      (place.symbol.isTerminal = true ∨ place ∈ placesFor place.symbol) := by
  have hall : ∀ rhs ∈ rightSides s, ∀ place ∈ placesOf s rhs, place.symbol ≠ .sourceFile ∧
      (place.symbol.isTerminal = true ∨ place ∈ placesFor place.symbol) := by
    cases s <;> decide
  exact hall rhs h

/-- A right-hand side begins with what its symbol begins with; only the whole text may be empty. -/
theorem starts_rightSide {s : Symbol} {rhs : List Symbol} (h : rhs ∈ rightSides s) :
    rhs = [] ∧ s = .sourceFile ∨ ∃ x xs, rhs = x :: xs ∧ x ≠ .sourceFile ∧ starts x ⊆ starts s := by
  have hall : (rightSides s).all (fun rhs => match rhs with
      | [] => s == .sourceFile
      | x :: _ => x != .sourceFile && (starts x).all (starts s).contains) = true := by
    cases s <;> decide
  have hrhs := List.all_eq_true.mp hall rhs h
  cases rhs with
  | nil => exact .inl ⟨rfl, by simpa using hrhs⟩
  | cons x xs =>
    simp only [Bool.and_eq_true, bne_iff_ne, List.all_eq_true, List.contains_iff_mem] at hrhs
    exact .inr ⟨x, xs, rfl, hrhs.1, hrhs.2⟩

theorem starts_terminal {s : Symbol} (h : s.isTerminal = true) : starts s = [s] := by
  revert h
  cases s <;> decide

namespace Derivation

variable {α : Type}

/-- A tree that fits begins with one of the terminals with which its symbol may begin. -/
theorem yield_of_fits : ∀ (tree : Derivation α) (place : Place), tree.Fits place →
    place.symbol ≠ .sourceFile →
    ∃ x a rest, tree.yield = (x, a) :: rest ∧ x ∈ starts place.symbol ∧ x.isTerminal = true
  | .leaf s a, place, h, _ => by
    obtain ⟨hs, ht⟩ := h
    exact ⟨s, a, [], rfl, by rw [← hs, starts_terminal ht]; simp, ht⟩
  | .node s [], place, h, hne => by
    obtain ⟨hs, hrhs, -⟩ := h
    rcases starts_rightSide hrhs with ⟨-, hsrc⟩ | ⟨x, xs, hx, -⟩
    · exact absurd (hs ▸ hsrc) hne
    · cases hx
  | .node s (first :: others), place, h, _ => by
    obtain ⟨hs, hrhs, -, hall⟩ := h
    rcases starts_rightSide hrhs with ⟨hnil, -⟩ | ⟨x, xs, hx, hsrc, hsub⟩
    · cases hnil
    · cases hp : placesOf s ((first :: others).map Derivation.symbol) with
      | nil =>
        rw [hp] at hall
        exact absurd hall (by simp [FitAll])
      | cons place' places =>
        rw [hp] at hall
        have hsym : place'.symbol = x := by
          rw [← symbol_of_fits hall.1]
          simpa using (List.cons.inj hx).1
        obtain ⟨y, a, rest, hy, hmem, ht⟩ := yield_of_fits first place' hall.1 (hsym ▸ hsrc)
        refine ⟨y, a, rest ++ yieldAll others, by simp [yield, yieldAll, hy], ?_, ht⟩
        rw [← hs]
        exact hsub (hsym ▸ hmem)
  termination_by tree => sizeOf tree

end Derivation

namespace ShiftReduce

variable {α : Type}

/-- The automaton comes from one configuration to another one. -/
def Reaches (c c' : Config α) : Prop := ∃ steps, run steps c = .next c'

theorem Reaches.refl (c : Config α) : Reaches c c := ⟨0, rfl⟩

theorem Reaches.trans {c c' c'' : Config α} (h : Reaches c c') (h' : Reaches c' c'') :
    Reaches c c'' := by
  obtain ⟨m, hm⟩ := h
  obtain ⟨n, hn⟩ := h'
  exact ⟨m + n, by rw [run_add, hm]; exact hn⟩

theorem Reaches.step {c c' : Config α} (h : step c = .next c') : Reaches c c' :=
  ⟨1, by rw [run, h]; rfl⟩

/-- What a state with terminals that may follow a place knows of it. -/
theorem of_follow {state : StateId} {place : Place} {i : Nat} (hp : place ∈ placesFor place.symbol)
    (hb : (follow state place).testBit i = true) {rhs : List Symbol}
    (hrhs : rhs ∈ rightSides place.symbol) (ha : place.allows rhs = true) :
    gotoAt state place.symbol ≠ 0 ∧
      runsThrough (follow state place) place.symbol rhs.length
        (productionNumber place.symbol rhs) state (placesOf place.symbol rhs) = true := by
  have hne : follow state place ≠ 0 := by
    intro h0
    rw [h0, Nat.zero_testBit] at hb
    cases hb
  obtain ⟨row, hrow, hgoto⟩ : ∃ row, rowAt state = some row ∧ row.gotoOn place.symbol ≠ 0 := by
    unfold follow at hne
    split at hne
    · exact absurd rfl hne
    · rename_i row hrow
      refine ⟨row, hrow, fun h0 => hne ?_⟩
      rw [h0]
      split <;> rfl
  obtain ⟨group, hg, hs, -⟩ := mem_group_of_gotoOn hgoto
  have hrows := List.all_eq_true.mp (List.all_eq_true.mp (List.all_eq_true.mp
    (of_all_rows productionsRun_rows hrow) group hg) _ hs) place hp
  simp only [productionsRun, Bool.or_eq_true, beq_iff_eq, hne, false_or, List.all_eq_true,
    Bool.not_eq_true'] at hrows
  refine ⟨?_, (hrows rhs hrhs).resolve_left (by simp [ha])⟩
  rw [gotoAt_nonterminal state (mem_nonterminals hrhs).1, hrow]
  exact hgoto

theorem chosen_of_reducedOn {row : Row} {state : StateId} {symbol terminal : Symbol}
    {count production : Nat} (hrow : rowAt state = some row) (ht : terminal.isTerminal = true)
    (h : (row.reducedOn symbol count production).testBit terminal.index = true) :
    chosen (actionsAt state terminal) = some (.reduce symbol count production) := by
  rw [Row.reducedOn, Row.testBit_maskWhere _ rfl] at h
  rw [actionsAt_terminal state ht, hrow]
  revert h
  split
  · simp_all [chosen]
  · simp

mutual

/-- **The automaton recognises what fits.**  Over a stack in whose state the place may begin, with
a terminal ahead that may follow, the leaves of a tree that fits are read and the tree is put on the
stack. -/
theorem reaches_of_fits : ∀ (tree : Derivation α) {place : Place} {stack : List (Frame α)}
    {input : List (Symbol × α)}, tree.Fits place → place.symbol.isTerminal = false →
    place ∈ placesFor place.symbol → (lookahead input).isTerminal = true →
    (follow (stateOf stack) place).testBit (lookahead input).index = true →
    Reaches ⟨stack, tree.yield ++ input⟩
      ⟨⟨gotoAt (stateOf stack) place.symbol, tree⟩ :: stack, input⟩
  | .leaf s a, place, stack, input, hf, hn, _, _, _ => by
    rw [← hf.1, hf.2] at hn
    cases hn
  | .node s children, place, stack, input, hf, hn, hp, ht, hb => by
    obtain ⟨rfl, hrhs, hallow, hall⟩ := hf
    obtain ⟨hgoto, hruns⟩ := of_follow hp hb hrhs hallow
    obtain ⟨frames, htrees, hreach, hchosen⟩ := reaches_of_fitAll children hall
      (placesOf_known hrhs) hruns ht hb
    refine hreach.trans (.step ?_)
    have hlen : (children.map Derivation.symbol).length = frames.length := by
      simp [← htrees]
    rw [step, hchosen]
    simp only [hlen, List.drop_left, List.take_left, hgoto, or_false]
    rw [if_neg (by simp), htrees]

theorem reaches_of_fitAll : ∀ (trees : List (Derivation α)) {places : List Place}
    {stack : List (Frame α)} {input : List (Symbol × α)} {final : Nat} {symbol : Symbol}
    {count production : Nat}, Derivation.FitAll places trees →
    (∀ place ∈ places, place.symbol ≠ .sourceFile ∧
      (place.symbol.isTerminal = true ∨ place ∈ placesFor place.symbol)) →
    runsThrough final symbol count production (stateOf stack) places = true →
    (lookahead input).isTerminal = true → final.testBit (lookahead input).index = true →
    ∃ frames : List (Frame α), frames.reverse.map Frame.tree = trees ∧
      Reaches ⟨stack, Derivation.yieldAll trees ++ input⟩ ⟨frames ++ stack, input⟩ ∧
      chosen (actionsAt (stateOf (frames ++ stack)) (lookahead input)) =
        some (.reduce symbol count production)
  | [], places, stack, input, final, symbol, count, production, hall, _, hruns, ht, hb => by
    obtain rfl : places = [] := by
      cases places with
      | nil => rfl
      | cons place places => cases hall
    refine ⟨[], rfl, .refl _, ?_⟩
    rw [runsThrough] at hruns
    split at hruns
    · exact chosen_of_reducedOn ‹_› ht (testBit_of_isWithin hruns hb)
    · cases hruns
  | tree :: trees, places, stack, input, final, symbol, count, production, hall, hknown, hruns, ht,
      hb => by
    obtain ⟨place, places, rfl, hfit, hfits⟩ : ∃ place places', places = place :: places' ∧
        tree.Fits place ∧ Derivation.FitAll places' trees := by
      cases places with
      | nil => cases hall
      | cons place places' => exact ⟨place, places', rfl, hall⟩
    obtain ⟨-, hplace⟩ := hknown place (by simp)
    have hknown' := fun p hp => hknown p (List.mem_cons_of_mem _ hp)
    unfold runsThrough at hruns
    split at hruns
    · rename_i row hrow
      -- The first tree: a terminal is shifted, any other tree is recognised by induction.
      have hfirst : ∃ state, Reaches ⟨stack, tree.yield ++ (Derivation.yieldAll trees ++ input)⟩
          ⟨⟨state, tree⟩ :: stack, Derivation.yieldAll trees ++ input⟩ ∧
          runsThrough final symbol count production state places = true := by
        split at hruns
        · rename_i hterm
          split at hruns
          · rename_i target hactions
            refine ⟨target, .step ?_, hruns⟩
            match tree, hfit with
            | .leaf s a, hfit =>
              obtain ⟨rfl, hs⟩ := hfit
              rw [step]
              simp only [Derivation.yield, List.cons_append, List.nil_append, lookahead]
              rw [actionsAt_terminal _ hs, hrow]
              simp only [hactions, chosen, List.find?_cons]
            | .node s children, hfit =>
              obtain ⟨rfl, hrhs, -⟩ := hfit
              rw [(mem_nonterminals hrhs).2] at hterm
              cases hterm
          · cases hruns
        · rename_i hterm
          rw [Bool.and_eq_true] at hruns
          have hp := hplace.resolve_left hterm
          obtain ⟨hla, hbit⟩ : (lookahead (Derivation.yieldAll trees ++ input)).isTerminal = true ∧
              (follow (stateOf stack) place).testBit
                (lookahead (Derivation.yieldAll trees ++ input)).index = true := by
            match trees, places, hfits, hknown', hruns.1 with
            | [], [], _, _, hwithin => exact ⟨ht, testBit_of_isWithin hwithin hb⟩
            | next :: _, place' :: _, hfits, hknown', hwithin =>
              obtain ⟨x, a, rest, hy, hmem, hx⟩ :=
                next.yield_of_fits place' hfits.1 (hknown' place' (by simp)).1
              simp only [Derivation.yieldAll, hy, List.cons_append, lookahead]
              refine ⟨hx, testBit_of_isWithin hwithin ?_⟩
              rw [testBit_maskOf]
              simpa using hmem
          have hreach := reaches_of_fits tree hfit (by simpa using hterm) hp hla hbit
          refine ⟨_, hreach, ?_⟩
          have hnon : place.symbol ∈ Symbol.nonterminals := by
            match tree, hfit with
            | .leaf s a, hfit => rw [← hfit.1, hfit.2] at hterm; exact absurd rfl hterm
            | .node s children, hfit => rw [← hfit.1]; exact (mem_nonterminals hfit.2.1).1
          rw [gotoAt_nonterminal _ hnon, hrow]
          exact hruns.2
      obtain ⟨state, hreach, hruns'⟩ := hfirst
      have hrest : stateOf (⟨state, tree⟩ :: stack) = state := rfl
      obtain ⟨frames, htrees, hreach', hchosen⟩ := reaches_of_fitAll trees hfits hknown'
        (hrest ▸ hruns') ht hb
      refine ⟨frames ++ [⟨state, tree⟩], by simp [← htrees], ?_, ?_⟩
      · rw [Derivation.yieldAll, List.append_assoc, List.append_assoc]
        exact hreach.trans hreach'
      · rw [List.append_assoc]
        exact hchosen
    · cases hruns

end

end ShiftReduce

end Cicode.Grammar

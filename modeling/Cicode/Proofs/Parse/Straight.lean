import Cicode.Proofs.Grammar.ShiftReduce
import Cicode.Proofs.Parse.Run
import Cicode.Proofs.Parse.Tower

/-!
# Parsing without errors

As long as the table has an action for every token, the parser follows a single version, which
stands on a tower of floors: for each token it makes the reductions that the table asks for
(`Floor.Reductions`) and then shifts the token (`Floor.Shifts`).  This is said here of floors alone,
without the graph of the stack.

The number of reductions before a token is bounded because each of them lowers the *height* of the
floors: it takes floors off, or climbs a chain of single symbols (`rank`).

Main statements: one step of the parser on a tower either reads a token as the floors say, or accepts
the text, or waits (`Parser.consume_single`); and if the floors read a text up to its end, the parser
finds their tree (`parse_of_accepts`).
-/

namespace Cicode.Parse

open Grammar Text Cicode.Lex Grammar.ShiftReduce

/-! ## Floors that follow the table -/

namespace Floor

/-- The states of floors follow the table: a tree leads along an arrow, and an extra nowhere. -/
inductive Linked : List Floor → Prop
  | bottom : Linked []
  | tree {floor : Floor} {below : List Floor} : floor.tree.isExtra = false →
      Arrow (top below) floor.tree.symbol floor.state → Linked below → Linked (floor :: below)
  | extra {floor : Floor} {below : List Floor} : floor.tree.isExtra = true →
      floor.state = top below → Linked below → Linked (floor :: below)

/-- The floors without extras, as frames of the shift-reduce automaton. -/
def frames (floors : List Floor) : List (Frame Unit) :=
  (floors.filter (!·.tree.isExtra)).map fun floor => ⟨floor.state, .leaf floor.tree.symbol ()⟩

theorem frames_cons_tree {floor : Floor} {below : List Floor} (h : floor.tree.isExtra = false) :
    frames (floor :: below) = ⟨floor.state, .leaf floor.tree.symbol ()⟩ :: frames below := by
  simp [frames, h]

theorem frames_cons_extra {floor : Floor} {below : List Floor} (h : floor.tree.isExtra = true) :
    frames (floor :: below) = frames below := by
  simp [frames, h]

namespace Linked

variable {floors : List Floor}

theorem stateOf_frames (h : Linked floors) : stateOf (frames floors) = top floors := by
  induction h with
  | bottom => rfl
  | tree hx => rw [frames_cons_tree hx]; rfl
  | extra hx hs _ ih => rw [frames_cons_extra hx, ih]; exact hs.symm

theorem frames_linked (h : Linked floors) : ShiftReduce.Linked (frames floors) := by
  induction h with
  | bottom => trivial
  | @tree floor below hx ha hbelow ih =>
    rw [frames_cons_tree hx]
    refine ⟨?_, ih⟩
    rw [hbelow.stateOf_frames]
    exact ha
  | extra hx _ _ ih => rwa [frames_cons_extra hx]

theorem top_ne_zero (h : Linked floors) : top floors ≠ 0 := by
  induction h with
  | bottom => exact Nat.one_ne_zero
  | tree _ ha => exact Nat.ne_of_gt (Nat.lt_of_succ_lt (target_of_arrow ha).1)
  | extra _ hs _ ih =>
    rw [top, hs]
    exact ih

/-- Extras may be put on top without a change of state. -/
theorem putAll (h : Linked floors) {trees : List Subtree} (ht : ∀ t ∈ trees, t.isExtra = true) :
    Linked (Floor.putAll (top floors) trees floors) ∧ top (Floor.putAll (top floors) trees floors) = top floors := by
  have key : ∀ (trees : List Subtree) (state : StateId) (floors : List Floor), Linked floors →
      state = top floors → (∀ t ∈ trees, t.isExtra = true) →
      Linked (Floor.putAll state trees floors) ∧ top (Floor.putAll state trees floors) = state := by
    intro trees
    induction trees with
    | nil => exact fun state floors h heq _ => ⟨h, heq.symm⟩
    | cons tree trees ih =>
      intro state floors h heq ht
      obtain ⟨hfirst, hrest⟩ := List.forall_mem_cons.mp ht
      exact ih state (⟨state, tree⟩ :: floors) (.extra hfirst heq h) rfl hrest
  exact key trees _ floors h rfl ht

end Linked

/-- What is taken off. -/
structure Taken (count : Nat) (floors : List Floor) (taken : List Subtree × List Floor) : Prop where
  trees_eq : trees floors = trees taken.2 ++ taken.1
  frames_eq : frames taken.2 = (frames floors).drop count
  symbols_eq : spelling taken.1 =
    ((frames floors).take count).reverse.map fun frame => frame.tree.symbol
  linked : Linked taken.2
  /-- The lowest tree that is taken off is no extra. -/
  first : ∀ t ∈ taken.1.head?, t.isExtra = false

/-- As many floors as there are trees can be taken off. -/
theorem exists_takeOff {floors : List Floor} (h : Linked floors) {count : Nat}
    (hc : count ≤ (frames floors).length) :
    ∃ taken, takeOff count floors = some taken ∧ Taken count floors taken := by
  induction h generalizing count with
  | bottom =>
    obtain rfl : count = 0 := Nat.le_zero.mp hc
    exact ⟨([], []), rfl, rfl, rfl, rfl, .bottom, by simp⟩
  | @tree floor below hx ha hbelow ih =>
    cases count with
    | zero => exact ⟨([], _), rfl, by simp, rfl, rfl, .tree hx ha hbelow, by simp⟩
    | succ count =>
      rw [frames_cons_tree hx, List.length_cons] at hc
      obtain ⟨taken, htaken, ht⟩ := ih (Nat.le_of_succ_le_succ hc)
      refine ⟨(taken.1 ++ [floor.tree], taken.2), by simp [takeOff, hx, htaken], ?_, ?_, ?_, ht.linked, ?_⟩
      · have := ht.trees_eq
        simp only [trees, List.map_cons, List.reverse_cons] at this ⊢
        rw [this, List.append_assoc]
      · rw [frames_cons_tree hx, List.drop_succ_cons]
        exact ht.frames_eq
      · rw [spelling_append, ht.symbols_eq, frames_cons_tree hx]
        simp [spelling, hx, Derivation.symbol]
      · intro t hmem
        cases hl : taken.1 with
        | nil =>
          rw [hl] at hmem
          obtain rfl : floor.tree = t := by simpa using hmem
          exact hx
        | cons u us =>
          rw [hl] at hmem
          exact ht.first t (by rw [hl]; exact hmem)
  | @extra floor below hx hs hbelow ih =>
    cases count with
    | zero => exact ⟨([], _), rfl, by simp, rfl, rfl, .extra hx hs hbelow, by simp⟩
    | succ count =>
      rw [frames_cons_extra hx] at hc
      obtain ⟨taken, htaken, ht⟩ := ih hc
      refine ⟨(taken.1 ++ [floor.tree], taken.2), by simp [takeOff, hx, htaken], ?_, ?_, ?_, ht.linked, ?_⟩
      · have := ht.trees_eq
        simp only [trees, List.map_cons, List.reverse_cons] at this ⊢
        rw [this, List.append_assoc]
      · rw [frames_cons_extra hx]
        exact ht.frames_eq
      · rw [spelling_append, ht.symbols_eq, frames_cons_extra hx]
        simp [spelling, hx]
      · intro t hmem
        cases hl : taken.1 with
        | nil =>
          -- Nothing but an extra cannot be taken off.
          have hlength := congrArg List.length ht.symbols_eq
          rw [hl] at hlength
          simp [spelling] at hlength
          omega
        | cons u us =>
          rw [hl] at hmem
          exact ht.first t (by rw [hl]; exact hmem)

/-- What a reduction that the table asks for does to floors. -/
structure Reduced (symbol : Symbol) (count production : Nat) (floors floors' : List Floor) : Prop where
  linked : Linked floors'
  frames_eq : ∃ target, frames floors' = ⟨target, .leaf symbol ()⟩ :: (frames floors).drop count
  /-- The trees that are taken off are those of the right-hand side, extras apart; the extras at the
  end stay behind the parent. -/
  parent : ∃ below children extras target, Linked below ∧
    floors' = Floor.putAll target extras (⟨target, .ofChildren symbol production children⟩ :: below) ∧
    trees floors = trees below ++ children ++ extras ∧ (∀ t ∈ extras, t.isExtra = true) ∧
    spelling children ∈ rightSides symbol ∧ production = productionNumber symbol (spelling children) ∧
    (∀ t ∈ children.head?, t.isExtra = false) ∧ ∀ t ∈ children.getLast?, t.isExtra = false

theorem frames_putAll {trees : List Subtree} (ht : ∀ t ∈ trees, t.isExtra = true) (state : StateId)
    (floors : List Floor) : frames (putAll state trees floors) = frames floors := by
  induction trees generalizing floors with
  | nil => rfl
  | cons tree trees ih =>
    obtain ⟨hfirst, hrest⟩ := List.forall_mem_cons.mp ht
    rw [putAll, List.foldl_cons, ← putAll, ih hrest, frames_cons_extra hfirst]

/-- **A reduction that the table asks for can be made.** -/
theorem exists_reduce {floors : List Floor} (h : Linked floors) {symbol : Symbol}
    {count production : Nat} (hr : Reduces (top floors) symbol count production) :
    ∃ floors', reduce symbol count production floors = some floors' ∧
      Reduced symbol count production floors floors' := by
  rw [← h.stateOf_frames] at hr
  obtain ⟨hle, hrhs, hp, hnon, hgoto⟩ := h.frames_linked.reduction hr
  obtain ⟨⟨trees', below⟩, htaken, ht⟩ := exists_takeOff h hle
  obtain ⟨htrees, hframes, hsymbols, hbelow, hfirst⟩ := ht
  obtain ⟨hparts, hextras⟩ := splitTrailingExtras_spec trees'
  have hlast := last_splitTrailingExtras trees'
  refine ⟨putParent symbol production trees' below, by rw [reduce, htaken]; rfl, ?_⟩
  rw [putParent]
  generalize Subtree.splitTrailingExtras trees' = parts at hparts hextras hlast
  obtain ⟨children, extras⟩ := parts
  simp only at hparts hextras hlast ⊢
  have hspelling : spelling children = spelling trees' := by
    rw [hparts, spelling_append, spelling_of_extras hextras, List.append_nil]
  rw [← hsymbols, ← hspelling] at hrhs hp
  rw [Stack.nextState_nonterminal hnon]
  have hstate : stateOf ((frames floors).drop count) = top below := by
    rw [← hframes, hbelow.stateOf_frames]
  rw [hstate] at hgoto
  have hparent : Linked (⟨gotoAt (top below) symbol, .ofChildren symbol production children⟩ :: below) := by
    refine .tree (Subtree.isExtra_ofChildren ..) ?_ hbelow
    rw [Subtree.symbol_ofChildren]
    exact .of_goto hnon hgoto
  refine ⟨(hparent.putAll hextras).1, ⟨gotoAt (top below) symbol, ?_⟩, below, children, extras, _, hbelow,
    rfl, ?_, hextras, hrhs, hp, ?_, hlast⟩
  · rw [frames_putAll hextras, frames_cons_tree (Subtree.isExtra_ofChildren ..),
      Subtree.symbol_ofChildren, ← hframes]
  · rw [htrees, hparts, List.append_assoc]
  · intro t hmem
    refine hfirst t ?_
    cases children with
    | nil => cases hmem
    | cons c cs => rw [hparts]; exact hmem

/-! ## How many reductions come before a token -/

/-- How far a symbol can climb by reductions of single symbols. -/
def rank : Symbol → Nat
  | .topLevelItems | .type | .functionParameter | .variableDeclaration | .bodyStatement
  | .expression | .conditionalGroup | .bitOperators | .additiveSymbol | .multiplicativeSymbol
  | .orKeyword | .andKeyword | .relationalOperators => 1
  | .function | .docComment | .statementOrExpression | .returnStatement | .expressionAtom => 2
  | .docSummary | .docParam | .docReturns | .variableAssignment | .ifStatement | .functionCall => 3
  | symbol => if symbol.isTerminal then 4 else 0

theorem rank_le (symbol : Symbol) : rank symbol ≤ 4 := by
  cases symbol <;> decide

/-- What the right-hand sides have to do with the ranks. -/
def ranksRight (symbol : Symbol) : List Symbol → Bool
  | [] => symbol == .sourceFile
  | [x] => decide (rank symbol < rank x)
  | _ => true

theorem ranksRight_of_mem {symbol : Symbol} {rhs : List Symbol} (h : rhs ∈ rightSides symbol) :
    ranksRight symbol rhs = true ∧ .sourceFile ∉ rhs := by
  have hall : ((rightSides symbol).all fun rhs =>
      ranksRight symbol rhs && !rhs.contains .sourceFile) = true := by
    cases symbol <;> decide
  have := List.all_eq_true.mp hall rhs h
  simpa using this

theorem sourceFile_rows : (rowList.zipIdx.all fun q => q.1.arrows.all fun arrow =>
    arrow.1 != .sourceFile || q.2 == 1) = true := by
  decide +kernel

/-- Only at the bottom of the stack a whole program can be put. -/
theorem source_of_sourceFile {source target : StateId} (h : Arrow source .sourceFile target) :
    source = 1 := by
  obtain ⟨row, hrow, hmem⟩ := h
  simpa using List.all_eq_true.mp (of_all_rows sourceFile_rows hrow) _ hmem

/-- A bound on the reductions that frames allow. -/
def height : List (Frame Unit) → Nat
  | [] => 1
  | frame :: below =>
    if frame.tree.symbol = .sourceFile then 0 else 5 * (below.length + 1) + rank frame.tree.symbol

theorem height_le (frames : List (Frame Unit)) : height frames ≤ 5 * frames.length + 4 := by
  cases frames with
  | nil => decide
  | cons frame below =>
    have := rank_le frame.tree.symbol
    rw [height, List.length_cons]
    split
    · omega
    · omega

/-- Every reduction lowers the height. -/
theorem height_reduced {frames : List (Frame Unit)} (h : ShiftReduce.Linked frames) {symbol : Symbol}
    {count production : Nat} (hr : Reduces (ShiftReduce.stateOf frames) symbol count production)
    (target : StateId) : height (⟨target, .leaf symbol ()⟩ :: frames.drop count) < height frames := by
  obtain ⟨hle, hrhs, -, hnon, hgoto⟩ := h.reduction hr
  obtain ⟨hranks, hfile⟩ := ranksRight_of_mem hrhs
  have hrank := rank_le symbol
  cases frames with
  | nil =>
    obtain rfl : count = 0 := Nat.le_zero.mp hle
    have hs : symbol = .sourceFile := by simpa [ranksRight] using hranks
    simp [height, Derivation.symbol, hs]
  | cons frame below =>
    cases count with
    | zero =>
      have hs : symbol = .sourceFile := by simpa [ranksRight] using hranks
      subst hs
      have hone := source_of_sourceFile (.of_goto hnon hgoto)
      exact absurd hone (Nat.ne_of_gt (target_of_arrow h.1).1)
    | succ count =>
      have htop : frame.tree.symbol ≠ .sourceFile := by
        rintro heq
        refine hfile ?_
        rw [← heq]
        simp
      rw [height, height, if_neg htop]
      split
      · omega
      · rename_i hs
        rw [List.drop_succ_cons, List.length_drop]
        cases count with
        | zero =>
          have : rank symbol < rank frame.tree.symbol := by simpa [ranksRight] using hranks
          show 5 * (below.length - 0 + 1) + rank symbol < _
          omega
        | succ count =>
          have : count + 1 ≤ below.length := Nat.le_of_succ_le_succ hle
          show 5 * (below.length - (count + 1) + 1) + rank symbol < _
          omega

/-! ## Reading a text -/

/-- The reductions that the table asks for on a terminal. -/
inductive Reductions (terminal : Symbol) : List Floor → List Floor → Prop
  | done {floors : List Floor} : Reductions terminal floors floors
  | step {floors next last : List Floor} {symbol : Symbol} {count production : Nat} :
      chosen (actionsAt (top floors) terminal) = some (.reduce symbol count production) →
      reduce symbol count production floors = some next → Reductions terminal next last →
      Reductions terminal floors last

/-- The token is put on top, as an extra or not. -/
inductive Shifts (token : Subtree) : List Floor → List Floor → Prop
  | tree {floors : List Floor} {target : StateId} :
      chosen (actionsAt (top floors) token.symbol) = some (.shift target) →
      Shifts token floors (⟨target, token.withExtra false⟩ :: floors)
  | extra {floors : List Floor} : chosen (actionsAt (top floors) token.symbol) = some .shiftExtra →
      Shifts token floors (⟨top floors, token.withExtra true⟩ :: floors)

/-- The token that comes after the floors. -/
def next (chars : List Char) (floors : List Floor) : Subtree :=
  .ofToken (nextToken (.ofList chars) (top floors) (reach floors))

/-- The next token is read: reductions are made, and it is shifted. -/
def Reads (chars : List Char) (floors floors' : List Floor) : Prop :=
  ∃ mid, Reductions (next chars floors).symbol floors mid ∧ Shifts (next chars floors) mid floors'

/-- The floors are those of the first tokens of the text. -/
inductive Arrives (chars : List Char) : List Floor → Prop
  | start : Arrives chars []
  | read {floors floors' : List Floor} : Arrives chars floors → Reads chars floors floors' →
      Arrives chars floors'

/-- The text is read up to its end, and this is its tree. -/
def Accepts (chars : List Char) (root : Subtree) : Prop :=
  ∃ floors last, Arrives chars floors ∧ Reductions (next chars floors).symbol floors last ∧
    chosen (actionsAt (top last) (next chars floors).symbol) = some .accept ∧
    Parser.rootOf (trees last ++ [next chars floors]) = some root

theorem Linked.reduced {floors next : List Floor} (h : Linked floors) {symbol terminal : Symbol}
    {count production : Nat}
    (hc : chosen (actionsAt (top floors) terminal) = some (.reduce symbol count production))
    (hr : reduce symbol count production floors = some next) : Reduced symbol count production floors next := by
  obtain ⟨next', hnext, hreduced⟩ := exists_reduce h (.of_mem (mem_of_chosen hc))
  cases hr.symm.trans hnext
  exact hreduced

theorem Linked.reductions {floors last : List Floor} (h : Linked floors) {terminal : Symbol}
    (hr : Reductions terminal floors last) : Linked last := by
  induction hr with
  | done => exact h
  | step hc hred _ ih =>
    exact ih (h.reduced hc hred).linked

theorem Linked.shifts {floors floors' : List Floor} (h : Linked floors) {token : Subtree}
    (hs : Shifts token floors floors') : Linked floors' := by
  cases hs with
  | tree hc =>
    refine .tree (by simp) ?_ h
    rw [Subtree.symbol_withExtra]
    exact arrow_of_chosen hc
  | extra => exact .extra (by simp) rfl h

theorem Arrives.linked {chars : List Char} {floors : List Floor} (h : Arrives chars floors) :
    Linked floors := by
  induction h with
  | start => exact .bottom
  | read _ hr ih =>
    obtain ⟨mid, hred, hs⟩ := hr
    exact (ih.reductions hred).shifts hs

end Floor

/-! ## The parser on a tower -/

/-- A cell holds the action that is chosen, and at most a continuation of a repetition beside it. -/
theorem cell_of_chosen {state : StateId} {terminal : Symbol} {action : Action}
    (h : chosen (actionsAt state terminal) = some action) :
    actionsAt state terminal = [action] ∨
      ∃ target, actionsAt state terminal = [action, .shiftRepeat target] := by
  obtain ⟨terminals, -, hcell⟩ := cell_of_mem (mem_of_chosen h)
  generalize actionsAt state terminal = actions at h hcell
  revert h hcell
  unfold isCell
  split <;> simp +contextual [chosen]

/-- A cell where nothing is chosen is empty. -/
theorem cell_of_not_chosen {state : StateId} {terminal : Symbol}
    (h : chosen (actionsAt state terminal) = none) : actionsAt state terminal = [] := by
  by_contra hne
  obtain ⟨action, hmem⟩ := List.exists_mem_of_ne_nil _ hne
  obtain ⟨terminals, -, hcell⟩ := cell_of_mem hmem
  generalize actionsAt state terminal = actions at h hcell
  revert h hcell
  unfold isCell
  split <;> simp +contextual [chosen]

theorem state_of_recover {state : StateId} {terminal : Symbol}
    (h : chosen (actionsAt state terminal) = some .recover) : state = 0 := by
  obtain ⟨terminals, -, hcell⟩ := cell_of_mem (mem_of_chosen h)
  revert h hcell
  unfold isCell
  split <;> simp_all [chosen]

namespace Parser

theorem act_reduce {state : StateId} {lookahead : Subtree} {symbol : Symbol} {count production : Nat}
    (h : chosen (actionsAt state lookahead.symbol) = some (.reduce symbol count production))
    {parser : Parser} {stack : Stack} {made : Version}
    (hr : parser.stack.reduce 0 symbol count production = (stack, some made)) :
    act 0 lookahead (actionsAt state lookahead.symbol) false none parser =
      .reduced { parser with stack } (some made) := by
  rcases cell_of_chosen h with heq | ⟨target, heq⟩
  · rw [heq, act]
    simp only [hr]
    rfl
  · rw [heq, act]
    simp only [hr]
    rfl

/-- What the parser does with a token for which no reduction is chosen. -/
def use (parser : Parser) (lookahead : Subtree) : Option Action → Parser
  | some (.shift target) =>
    { parser with stack := parser.stack.push 0 (some (lookahead.withExtra false)) target }
  | some .shiftExtra =>
    { parser with
      stack := parser.stack.push 0 (some (lookahead.withExtra true)) (parser.stack.state 0) }
  | some .accept => parser.accept 0 lookahead
  | _ => { parser with stack := parser.stack.pause 0 lookahead }

theorem consume_use {parser : Parser} {lookahead : Subtree}
    (hstate : parser.stack.state 0 ≠ 0)
    (hkeyword : lookahead.facts.keyword = true → lookahead.symbol ∈ .identifier :: reservedWords)
    (hno : ∀ symbol count production, chosen (actionsAt (parser.stack.state 0) lookahead.symbol) ≠
      some (.reduce symbol count production)) (fuel : Nat) :
    consume 0 (fuel + 1) lookahead parser =
      parser.use lookahead (chosen (actionsAt (parser.stack.state 0) lookahead.symbol)) := by
  rw [consume]
  cases hc : chosen (actionsAt (parser.stack.state 0) lookahead.symbol) with
  | none =>
    rw [cell_of_not_chosen hc]
    simp only [act]
    rw [if_neg]
    · rfl
    · -- A keyword is reserved, so that it is no word.
      intro hcond
      simp only [Bool.and_eq_true, bne_iff_ne, Bool.not_eq_true'] at hcond
      obtain ⟨⟨⟨hk, hne⟩, hreserves⟩, -⟩ := hcond
      have hmem := (List.mem_cons.mp (hkeyword hk)).resolve_left hne
      rw [reserves] at hreserves
      simp [hstate, hmem] at hreserves
  | some action =>
    cases action with
    | reduce symbol count production => exact absurd hc (hno symbol count production)
    | recover => exact absurd (state_of_recover hc) hstate
    | shiftRepeat target =>
      have hfound := List.find?_some hc
      cases hfound
    | shift | shiftExtra | accept =>
      rcases cell_of_chosen hc with heq | ⟨target, heq⟩
      · rw [heq]
        rfl
      · rw [heq]
        rfl

/-- **One token on a tower.**  The parser makes the reductions that the table asks for, and then does
what it chooses for the token. -/
theorem consume_single {chars : List Char} {lookahead : Subtree}
    (hkeyword : lookahead.facts.keyword = true → lookahead.symbol ∈ .identifier :: reservedWords)
    (fuel : Nat) {parser : Parser} {floors : List Floor} (hs : parser.stack.Single floors)
    (hsound : parser.stack.Sound chars True) (hl : Floor.Linked floors)
    (hf : Floor.height (Floor.frames floors) < fuel) :
    ∃ stack last, Floor.Reductions lookahead.symbol floors last ∧ stack.Single last ∧
      stack.Sound chars True ∧
      (∀ symbol count production, chosen (actionsAt (Floor.top last) lookahead.symbol) ≠
        some (.reduce symbol count production)) ∧
      consume 0 fuel lookahead parser = use { parser with stack } lookahead
        (chosen (actionsAt (Floor.top last) lookahead.symbol)) := by
  induction fuel generalizing parser floors with
  | zero => cases hf
  | succ fuel ih =>
    by_cases hr : ∃ symbol count production,
        chosen (actionsAt (Floor.top floors) lookahead.symbol) = some (.reduce symbol count production)
    · obtain ⟨symbol, count, production, hr⟩ := hr
      have hreduces : Reduces (Floor.top floors) symbol count production := .of_mem (mem_of_chosen hr)
      obtain ⟨next, hnext, hreduced⟩ := Floor.exists_reduce hl hreduces
      obtain ⟨stack', hreduce, hsingle⟩ := hs.reduce hnext
      have hlower : Floor.height (Floor.frames next) < Floor.height (Floor.frames floors) := by
        obtain ⟨target, hframes⟩ := hreduced.frames_eq
        rw [hframes]
        exact Floor.height_reduced hl.frames_linked (hl.stateOf_frames.symm ▸ hreduces) target
      have hmade := (hsound.reduce (v := 0) (hs.state_eq.symm ▸ hreduces)).sound
      simp only [hreduce] at hmade
      have hrenumbered : (stack'.renumber 1 0).Sound chars True := hmade.renumber
      let parser' : Parser := { parser with stack := stack'.renumber 1 0 }
      have hsingle' : parser'.stack.Single next := hsingle
      have hsound' : parser'.stack.Sound chars True := hrenumbered
      obtain ⟨stack, last, hreductions, hlast, hstack, hno, hconsume⟩ :=
        ih hsingle' hsound' hreduced.linked (by omega)
      refine ⟨stack, last, .step hr hnext hreductions, hlast, hstack, hno, ?_⟩
      rw [consume, hs.state_eq]
      simp only [act_reduce hr hreduce]
      exact hconsume
    · have hno : ∀ symbol count production, chosen (actionsAt (Floor.top floors) lookahead.symbol) ≠
          some (.reduce symbol count production) :=
        fun symbol count production heq => hr ⟨symbol, count, production, heq⟩
      refine ⟨parser.stack, floors, .done, hs, hsound, hno, ?_⟩
      rw [← hs.state_eq] at hno ⊢
      exact consume_use (hs.state_eq ▸ hl.top_ne_zero) hkeyword hno fuel

end Parser

namespace Floor

/-! ## One course only -/

/-- No reduction is chosen on the terminal. -/
def Settled (terminal : Symbol) (floors : List Floor) : Prop :=
  ∀ symbol count production, chosen (actionsAt (top floors) terminal) ≠
    some (.reduce symbol count production)

theorem Reductions.unique {terminal : Symbol} {floors last last' : List Floor}
    (h : Reductions terminal floors last) (h' : Reductions terminal floors last')
    (hs : Settled terminal last) (hs' : Settled terminal last') : last = last' := by
  induction h with
  | done =>
    cases h' with
    | done => rfl
    | step hc => exact absurd hc (hs _ _ _)
  | step hc hr _ ih =>
    cases h' with
    | done => exact absurd hc (hs' _ _ _)
    | step hc' hr' h' =>
      cases hc.symm.trans hc'
      cases hr.symm.trans hr'
      exact ih h' hs

theorem Shifts.settled {token : Subtree} {floors floors' : List Floor} (h : Shifts token floors floors') :
    Settled token.symbol floors := by
  intro symbol count production hc
  cases h with
  | tree hs | extra hs => cases hs.symm.trans hc

theorem Shifts.unique {token : Subtree} {floors a b : List Floor} (h : Shifts token floors a)
    (h' : Shifts token floors b) : a = b := by
  cases h with
  | tree hs =>
    cases h' with
    | tree hs' =>
      cases hs.symm.trans hs'
      rfl
    | extra hs' => cases hs.symm.trans hs'
  | extra hs =>
    cases h' with
    | tree hs' => cases hs.symm.trans hs'
    | extra => rfl

/-! ## How far floors reach -/

theorem trees_nil : trees [] = [] := rfl

theorem trees_cons (floor : Floor) (below : List Floor) : trees (floor :: below) = trees below ++ [floor.tree] := by
  simp [trees]

theorem trees_append (upper below : List Floor) : trees (upper ++ below) = trees below ++ trees upper := by
  simp [trees]

theorem reach_eq (floors : List Floor) : reach floors = extentOf (trees floors) := by
  induction floors with
  | nil => rfl
  | cons floor below ih =>
    rw [reach, ih, trees_cons, extentOf_append, extentOf_cons, extentOf_nil, Extent.add_zero]

theorem trees_putAll (state : StateId) (ts : List Subtree) (floors : List Floor) :
    trees (putAll state ts floors) = trees floors ++ ts := by
  induction ts generalizing floors with
  | nil => simp [putAll]
  | cons t ts ih =>
    rw [putAll, List.foldl_cons, ← putAll, ih]
    simp [trees]

theorem Reductions.reach_eq {terminal : Symbol} {floors last : List Floor}
    (h : Reductions terminal floors last) (hl : Linked floors) : reach last = reach floors := by
  induction h with
  | done => rfl
  | step hc hr _ ih =>
    have hreduced := hl.reduced hc hr
    rw [ih hreduced.linked, Floor.reach_eq, Floor.reach_eq]
    obtain ⟨below, children, extras, target, -, rfl, htrees, -⟩ := hreduced.parent
    rw [htrees, trees_putAll]
    simp [trees, Subtree.totalSize_ofChildren, extentOf_append, extentOf_cons]

theorem Shifts.reach_eq {token : Subtree} {floors floors' : List Floor} (h : Shifts token floors floors') :
    reach floors' = reach floors + token.totalSize := by
  cases h with
  | tree | extra =>
    obtain ⟨facts, children⟩ := token
    rfl

/-- The action puts a token on the stack. -/
def isShift : Action → Bool
  | .shift _ | .shiftExtra => true
  | _ => false

theorem ends_rows : (rowList.zipIdx.all fun q => q.1.actions.all fun group =>
    !group.2.contains .endOfInput || group.1.all (!isShift ·)) = true := by
  decide +kernel

theorem symbol_of_isShift {state : StateId} {terminal : Symbol} {action : Action}
    (ha : action ∈ actionsAt state terminal) (hs : isShift action = true) :
    terminal.isTerminal = true ∧ terminal ≠ .endOfInput := by
  cases ht : terminal.isTerminal with
  | false =>
    rw [actionsAt_not_terminal state ht] at ha
    cases ha
  | true =>
    refine ⟨rfl, ?_⟩
    rintro rfl
    rw [actionsAt_terminal state ht] at ha
    split at ha
    · rename_i row hrow
      obtain ⟨group, hg, hmem, heq⟩ := mem_group_of_actionsOn ha
      have hall := List.all_eq_true.mp (of_all_rows ends_rows hrow) group hg
      rw [heq] at hall
      simp only [Bool.or_eq_true, Bool.not_eq_true', List.contains_eq_mem, decide_eq_false_iff_not,
        List.all_eq_true] at hall
      have hno := hall.resolve_left (not_not_intro hmem) action ha
      rw [hs] at hno
      cases hno
    · cases ha

/-- The end of the text is not shifted. -/
theorem Shifts.symbol_spec {token : Subtree} {floors floors' : List Floor} (h : Shifts token floors floors') :
    token.symbol.isTerminal = true ∧ token.symbol ≠ .endOfInput := by
  cases h with
  | tree hs | extra hs => exact symbol_of_isShift (mem_of_chosen hs) rfl

/-- A token that is shifted takes up some text. -/
theorem Reads.reach_lt {chars : List Char} {floors floors' : List Floor} (hl : Linked floors)
    (h : Reads chars floors floors') : (reach floors).bytes < (reach floors').bytes := by
  obtain ⟨mid, hr, hs⟩ := h
  obtain ⟨hterm, hne⟩ := hs.symbol_spec
  have hwide := (wellRead_nextToken (.ofList chars) (top floors) (reach floors)).wide
    (fun herror => by
      have hsym : (next chars floors).symbol = .error := herror
      rw [hsym] at hterm
      cases hterm) hne
  rw [hs.reach_eq, hr.reach_eq hl, Extent.bytes_add]
  have hsize : 0 < (next chars floors).totalSize.bytes := by
    show 0 < (_ + _ : Extent).bytes
    rw [Extent.bytes_add]
    exact Nat.lt_of_lt_of_le hwide (Nat.le_add_left ..)
  omega

theorem Arrives.isPlace {chars : List Char} {floors : List Floor} (h : Arrives chars floors) :
    IsPlace chars (reach floors) := by
  induction h with
  | start => exact .zero chars
  | @read floors floors' ha hr ih =>
    obtain ⟨mid, hred, hs⟩ := hr
    rw [hs.reach_eq, hred.reach_eq ha.linked]
    have hfinish := (placed_nextToken (top floors) ih).finish
    rw [Extent.add_assoc] at hfinish
    exact hfinish

end Floor

/-! ## Rounds -/

namespace Parser

/-- The parser has read the first tokens of a text without an error. -/
structure Straight (chars : List Char) (parser : Parser) (floors : List Floor) : Prop where
  source_eq : parser.source = .ofList chars
  unfinished : parser.finished = none
  single : parser.stack.Single floors
  sound : parser.stack.Sound chars True
  arrives : Floor.Arrives chars floors

variable {chars : List Char} {parser : Parser} {floors : List Floor}

/-- What becomes of a version that stands on a tower, by the next token: the token is read, or the
text is accepted, or the version waits because the table has no action. -/
inductive Advanced (chars : List Char) (parser : Parser) (floors : List Floor) : Prop
  | read {floors' : List Floor} : Floor.Reads chars floors floors' →
      Straight chars (parser.advance 0) floors' → Advanced chars parser floors
  | accepted {stack : Stack} {last : List Floor} :
      Floor.Reductions (Floor.next chars floors).symbol floors last → stack.Single last →
      chosen (actionsAt (Floor.top last) (Floor.next chars floors).symbol) = some .accept →
      parser.advance 0 = accept { parser with stack } 0 (Floor.next chars floors) →
      Advanced chars parser floors
  | stuck {stack : Stack} {last : List Floor} :
      Floor.Reductions (Floor.next chars floors).symbol floors last → stack.Single last →
      stack.Sound chars True → actionsAt (Floor.top last) (Floor.next chars floors).symbol = [] →
      parser.advance 0 = { parser with stack := stack.pause 0 (Floor.next chars floors) } →
      Advanced chars parser floors

theorem Straight.advanced (h : Straight chars parser floors) : Advanced chars parser floors := by
  have hlinked := h.arrives.linked
  have hheight : Floor.height (Floor.frames floors) < parser.reductionBound := by
    have h1 := Floor.height_le (Floor.frames floors)
    have h2 : (Floor.frames floors).length ≤ floors.length := by
      rw [Floor.frames, List.length_map]
      exact List.length_filter_le ..
    have h3 := h.single.length_lt
    rw [reductionBound]
    omega
  have hwell := wellRead_nextToken (.ofList chars) (Floor.top floors) (Floor.reach floors)
  have hkeyword : (Floor.next chars floors).facts.keyword = true →
      (Floor.next chars floors).symbol ∈ .identifier :: reservedWords := fun hk => (hwell.keyword hk).2
  obtain ⟨stack, last, hred, hsingle, hsound, hno, hconsume⟩ :=
    consume_single hkeyword parser.reductionBound h.single h.sound hlinked hheight
  have hadvance : parser.advance 0 = use { parser with stack } (Floor.next chars floors)
      (chosen (actionsAt (Floor.top last) (Floor.next chars floors).symbol)) := by
    rw [← hconsume, advance, h.source_eq, h.single.state_eq, h.single.position_eq]
    rfl
  have hread : ∀ (floors' : List Floor) (stack' : Stack), Floor.Shifts (Floor.next chars floors) last floors' →
      parser.advance 0 = { parser with stack := stack' } → stack'.Single floors' →
      stack'.Sound chars True → Advanced chars parser floors := by
    intro floors' stack' hshift heq hs hsound'
    have hreads : Floor.Reads chars floors floors' := ⟨last, hred, hshift⟩
    refine .read hreads ?_
    rw [heq]
    exact ⟨h.source_eq, h.unfinished, hs, hsound', .read h.arrives hreads⟩
  have hplace : (stack.spot 0).position = Floor.reach floors :=
    hsingle.position_eq.trans (hred.reach_eq hlinked)
  have hstate : (stack.spot 0).state = Floor.top last := hsingle.state_eq
  -- The token lies where the floors reach, so that it may be put on a strict stack.
  have hpush : ∀ {extra : Bool} {n : StateId}, (extra = true → (Floor.next chars floors).symbol = .comment) →
      Joins (Floor.top last) ((Floor.next chars floors).withExtra extra) n →
      (extra = true → Floor.top last = n) →
      (stack.push 0 (some ((Floor.next chars floors).withExtra extra)) n).Sound chars True := by
    intro extra n hcomment hjoins hkept
    have hlookahead := isLookahead_ofToken hwell
    have hlies := (hlookahead.lies (isReadAt_ofToken h.arrives.isPlace _)).withExtra extra
    refine hsound.push ⟨hlookahead.grown_withExtra hcomment, hstate ▸ hjoins, hplace ▸ hlies, fun _ hx => ?_⟩
      fun hpaused => ?_
    · have hsame : Floor.top last = n := hkept (by simpa using hx)
      refine ⟨hstate.trans hsame, ?_⟩
      rw [← hsame]
      exact (hlinked.reductions hred).top_ne_zero
    · rw [hsingle.awake] at hpaused
      cases hpaused
  cases hc : chosen (actionsAt (Floor.top last) (Floor.next chars floors).symbol) with
  | none =>
    rw [hc] at hadvance
    exact .stuck hred hsingle hsound (cell_of_not_chosen hc) hadvance
  | some action =>
    rw [hc] at hadvance
    cases action with
    | shift target =>
      refine hread _ _ (.tree hc) hadvance (hsingle.push _ target) (hpush (fun h => by cases h) ?_ (fun h => by cases h))
      refine .arrow ?_ (by simp) fun hmissing => ?_
      · rw [Subtree.symbol_withExtra]
        exact arrow_of_chosen hc
      · rw [show ((Floor.next chars floors).withExtra false).facts.missing = false from rfl] at hmissing
        cases hmissing
    | shiftExtra =>
      refine hread _ _ (.extra hc) hadvance ?_ ?_
      · simp only [hsingle.state_eq]
        exact hsingle.push _ _
      · simp only [hsingle.state_eq]
        exact hpush (fun _ => comment_of_shiftExtra (mem_of_chosen hc)) (.stray (by simp)) fun _ => rfl
    | accept => exact .accepted hred hsingle hc hadvance
    | reduce symbol count production => exact absurd hc (hno symbol count production)
    | recover => exact absurd (state_of_recover hc) (hlinked.reductions hred).top_ne_zero
    | shiftRepeat target =>
      have hfound := List.find?_some hc
      cases hfound

/-- The text is accepted on a tower: its tree is the root of all trees on it. -/
theorem accept_single (parser : Parser) {stack : Stack} (h : stack.Single floors)
    (hfin : parser.finished = none) (lookahead : Subtree) :
    (accept { parser with stack } 0 lookahead).finished =
        rootOf (Floor.trees floors ++ [lookahead]) ∧
      ∃ head, (accept { parser with stack } 0 lookahead).stack.heads = #[head] ∧
        head.status = .halted := by
  obtain ⟨forked, hpop, head, second, hheads, -, -⟩ := (h.push lookahead 1).popAll
  rw [accept]
  simp only [hpop]
  rw [Floor.trees_cons]
  simp only [List.foldl_cons, List.foldl_nil]
  cases hroot : rootOf (Floor.trees floors ++ [lookahead]) with
  | none =>
    refine ⟨hfin, { head with status := .halted }, ?_, rfl⟩
    simp [Stack.halt, Stack.modifyHead, Stack.remove, hheads, Array.eraseIdxIfInBounds, Array.modify,
      Array.modifyM]
  | some root =>
    refine ⟨?_, { head with status := .halted }, ?_, rfl⟩
    · simp [finish, hfin]
    · simp [finish, Stack.halt, Stack.modifyHead, Stack.remove, hheads, Array.eraseIdxIfInBounds,
        Array.modify, Array.modifyM]

theorem advanceAll_beyond {fuel steps version reached : Nat} {p : Parser}
    (h : p.stack.versionCount ≤ version) :
    advanceAll fuel steps version reached p = (reached, p) := by
  cases fuel with
  | zero => rfl
  | succ fuel => rw [advanceAll, if_neg (Nat.not_lt.mpr h)]

/-- In a round the only version advances, once unless it comes to a stop where it was before. -/
theorem advanceAll_single (h : parser.stack.Single floors) (fuel steps reached : Nat)
    (hcount : (parser.advance 0).stack.versionCount = 1)
    (hstop : (parser.advance 0).stack.isActive 0 = false ∨
      reached < ((parser.advance 0).stack.position 0).bytes) :
    (advanceAll (fuel + 1) (steps + 1) 0 reached parser).2 = parser.advance 0 ∧
      (reached < ((parser.advance 0).stack.position 0).bytes →
        (advanceAll (fuel + 1) (steps + 1) 0 reached parser).1 =
          ((parser.advance 0).stack.position 0).bytes) := by
  have hpast : (advancePast 0 (steps + 1) reached parser).2 = parser.advance 0 ∧
      (reached < ((parser.advance 0).stack.position 0).bytes →
        (advancePast 0 (steps + 1) reached parser).1 = ((parser.advance 0).stack.position 0).bytes) := by
    rw [advancePast, if_pos h.isActive]
    by_cases hlt : reached < ((parser.advance 0).stack.position 0).bytes
    · simp [hlt]
    · have hinactive := hstop.resolve_right hlt
      have hagain : advancePast 0 steps reached (parser.advance 0) = (reached, parser.advance 0) := by
        cases steps with
        | zero => rfl
        | succ steps => rw [advancePast, if_neg (by simp [hinactive])]
      simp [hlt, hagain]
  rw [advanceAll, if_pos (by rw [h.versionCount_eq]; exact Nat.zero_lt_one)]
  generalize advancePast 0 (steps + 1) reached parser = past at hpast
  obtain ⟨r, p⟩ := past
  simp only at hpast ⊢
  obtain ⟨rfl, hr⟩ := hpast
  rw [advanceAll_beyond (Nat.le_of_eq hcount)]
  exact ⟨rfl, hr⟩

/-- A stack that has one version is sorted already. -/
theorem sort_one {stack : Stack} (hcount : stack.versionCount = 1) (hhalted : stack.isHalted 0 = false)
    (hsettle : stack.settle 0 = stack) : ∃ least, stack.sort 2 0 none = (stack, least) := by
  rw [Stack.sort, hcount, if_pos Nat.zero_lt_one, hhalted, hsettle]
  simp only [Bool.false_eq_true, if_false, Stack.sortIn, Nat.lt_irrefl, Stack.sort, hcount]
  exact ⟨_, rfl⟩

/-- A stack with one version that takes part is not changed between rounds. -/
theorem condense_single (h : parser.stack.Single floors) :
    ∃ least, parser.condense = (parser, least) := by
  have hcount := h.versionCount_eq
  obtain ⟨head, hheads, hactive, hzero, -⟩ := h.single
  have hhead : parser.stack.head 0 = head := by rw [Stack.head, hheads]; rfl
  have hsettle : parser.stack.settle 0 = parser.stack := by
    rw [Stack.settle, hhead, hzero]
    rfl
  have hhalted : parser.stack.isHalted 0 = false := by
    rw [Stack.isHalted, hhead, hactive]
    rfl
  obtain ⟨least, hsort⟩ := sort_one hcount hhalted hsettle
  have htake : parser.stack.heads.take maxVersions = parser.stack.heads := by
    rw [hheads]
    rfl
  refine ⟨least, ?_⟩
  rw [condense, hcount, hsort]
  simp only [htake, hcount]
  rw [resumePaused, if_pos Nat.zero_lt_one, hhead, hactive]
  simp [resumePaused]

/-- A stack whose only version has been given up is empty after a round. -/
theorem condense_halted {p : Parser} {head : Head} (hheads : p.stack.heads = #[head])
    (hhalted : head.status = .halted) :
    (p.condense).1.finished = p.finished ∧ (p.condense).2 = none ∧
      (p.condense).1.stack.versionCount = 0 := by
  have hcount : p.stack.versionCount = 1 := by rw [Stack.versionCount, hheads]; rfl
  have hhead : p.stack.head 0 = head := by rw [Stack.head, hheads]; rfl
  have his : p.stack.isHalted 0 = true := by rw [Stack.isHalted, hhead, hhalted]; rfl
  have hremove : (p.stack.remove 0).heads = #[] := by
    simp [Stack.remove, hheads, Array.eraseIdxIfInBounds]
  have hnone : (p.stack.remove 0).versionCount = 0 := by rw [Stack.versionCount, hremove]; rfl
  have hsort : p.stack.sort 2 0 none = (p.stack.remove 0, none) := by
    rw [Stack.sort, hcount, if_pos Nat.zero_lt_one, his, if_pos rfl, Stack.sort, hnone]
    rfl
  rw [condense, hcount, hsort]
  have htake : (p.stack.remove 0).heads.take maxVersions = #[] := by rw [hremove]; rfl
  simp only [htake]
  exact ⟨rfl, rfl, rfl⟩

/-- Without versions the parser stops. -/
theorem finished_run_empty {fuel reached : Nat} {p : Parser} (h : p.stack.versionCount = 0) :
    (run fuel reached p).finished = p.finished := by
  cases fuel with
  | zero => rfl
  | succ fuel =>
    have hheads : p.stack.heads = #[] := Array.size_eq_zero_iff.mp h
    rw [run, advanceAll_beyond (Nat.le_of_eq h)]
    have hcondense : p.condense.1.finished = p.finished := by
      rw [condense, h]
      simp only [Stack.sort, h, Nat.lt_irrefl, if_false]
      have htake : p.stack.heads.take maxVersions = #[] := by rw [hheads]; rfl
      simp only [htake]
      rfl
    simp only [h, beq_self_eq_true, Bool.or_true, if_true]
    exact hcondense

/-- What the run of the parser finds from floors on. -/
theorem Straight.run_accepted (h : Straight chars parser floors) {stack : Stack} {last : List Floor}
    (hs : stack.Single last)
    (hadvance : parser.advance 0 = accept { parser with stack } 0 (Floor.next chars floors))
    (fuel reached : Nat) : (run (fuel + 1) reached parser).finished =
      rootOf (Floor.trees last ++ [Floor.next chars floors]) := by
  obtain ⟨hfin, head, hheads, hhalted⟩ :=
    accept_single parser hs h.unfinished (Floor.next chars floors)
  rw [← hadvance] at hfin hheads
  have hcount : (parser.advance 0).stack.versionCount = 1 := by
    rw [Stack.versionCount, hheads]
    rfl
  have hinactive : (parser.advance 0).stack.isActive 0 = false := by
    rw [Stack.isActive, Stack.head, hheads]
    simp [hhalted, Status.isActive]
  obtain ⟨hround, -⟩ := advanceAll_single h.single fuel fuel reached hcount (.inl hinactive)
  obtain ⟨hfinished, -, hempty⟩ := condense_halted hheads hhalted
  rw [run]
  generalize advanceAll (fuel + 1) (fuel + 1) 0 reached parser = round at hround
  obtain ⟨reached', p⟩ := round
  simp only at hround ⊢
  subst hround
  split
  · rw [hfinished, hfin]
  · rw [finished_run_empty hempty, hfinished, hfin]

/-- A round in which a token is read. -/
theorem Straight.run_read (h : Straight chars parser floors) {floors' : List Floor}
    (hreads : Floor.Reads chars floors floors') (h' : Straight chars (parser.advance 0) floors')
    (fuel : Nat) : run (fuel + 1) (Floor.reach floors).bytes parser =
      run fuel (Floor.reach floors').bytes (parser.advance 0) := by
  have hlt := hreads.reach_lt h.arrives.linked
  rw [← h'.single.position_eq] at hlt
  obtain ⟨hround, hreached⟩ := advanceAll_single h.single fuel fuel (Floor.reach floors).bytes
    h'.single.versionCount_eq (.inr hlt)
  obtain ⟨least, hcondense⟩ := condense_single h'.single
  rw [run]
  generalize advanceAll (fuel + 1) (fuel + 1) 0 (Floor.reach floors).bytes parser = round
    at hround hreached
  obtain ⟨reached', p⟩ := round
  simp only at hround hreached ⊢
  subst hround
  rw [hreached hlt, h'.single.position_eq, hcondense, h'.single.versionCount_eq]
  simp [isSettled, h'.unfinished]

/-- **The tree of a text that is read up to its end** is found, if there are rounds enough. -/
theorem Straight.finished_run (h : Straight chars parser floors) {floors' last : List Floor}
    (hcourse : Relation.ReflTransGen (Floor.Reads chars) floors floors')
    (hred : Floor.Reductions (Floor.next chars floors').symbol floors' last)
    (hc : chosen (actionsAt (Floor.top last) (Floor.next chars floors').symbol) = some .accept)
    (fuel : Nat) (hf : byteLength chars < fuel + (Floor.reach floors).bytes) :
    (run fuel (Floor.reach floors).bytes parser).finished =
      rootOf (Floor.trees last ++ [Floor.next chars floors']) := by
  have hsettled : Floor.Settled (Floor.next chars floors').symbol last := by
    intro symbol count production heq
    cases hc.symm.trans heq
  induction fuel generalizing parser floors with
  | zero =>
    have := h.arrives.isPlace.bytes_le
    omega
  | succ fuel ih =>
    rcases Relation.ReflTransGen.cases_head hcourse with rfl | ⟨mid, hreads, hcourse⟩
    · cases h.advanced with
      | read hreads h' =>
        obtain ⟨mid, hred', hshift⟩ := hreads
        obtain rfl := hred.unique hred' hsettled hshift.settled
        cases hshift with
        | tree hs | extra hs => cases hs.symm.trans hc
      | @accepted stack last' hred' hsingle hc' hadvance =>
        obtain rfl := hred.unique hred' hsettled fun _ _ _ heq => by cases hc'.symm.trans heq
        exact h.run_accepted hsingle hadvance fuel _
      | @stuck stack last' hred' hsingle _ hc' hadvance =>
        obtain rfl := hred.unique hred' hsettled fun _ _ _ heq => by rw [hc'] at heq; cases heq
        rw [hc'] at hc
        cases hc
    · have hlt := hreads.reach_lt h.arrives.linked
      cases h.advanced with
      | @read floors'' hreads' h' =>
        obtain ⟨a, hra, hsa⟩ := hreads
        obtain ⟨b, hrb, hsb⟩ := hreads'
        obtain rfl := hra.unique hrb hsa.settled hsb.settled
        obtain rfl := hsa.unique hsb
        rw [h.run_read ⟨a, hra, hsa⟩ h']
        exact ih h' hcourse (by omega)
      | @accepted stack last' hred' hsingle hc' hadvance =>
        obtain ⟨a, hra, hsa⟩ := hreads
        obtain rfl := hra.unique hred' hsa.settled fun _ _ _ heq => by cases hc'.symm.trans heq
        cases hsa with
        | tree hs | extra hs => cases hs.symm.trans hc'
      | @stuck stack last' hred' hsingle _ hc' hadvance =>
        obtain ⟨a, hra, hsa⟩ := hreads
        obtain rfl := hra.unique hred' hsa.settled fun _ _ _ heq => by rw [hc'] at heq; cases heq
        cases hsa with
        | tree hs | extra hs =>
          rw [hc'] at hs
          cases hs

end Parser

/-! ## The whole text -/

theorem Floor.Arrives.course {chars : List Char} {floors : List Floor} (h : Floor.Arrives chars floors) :
    Relation.ReflTransGen (Floor.Reads chars) [] floors := by
  induction h with
  | start => exact .refl
  | read _ hr ih => exact ih.tail hr

theorem Parser.straight_initial (chars : List Char) :
    Parser.Straight chars { source := .ofList chars, stack := .initial } [] :=
  ⟨rfl, rfl, ⟨{ node := 0 }, rfl, rfl, rfl, .bottom Nat.zero_lt_one ⟨rfl, rfl, rfl⟩⟩,
    Stack.sound_initial chars True, .start⟩

/-- **If floors read a text up to its end, the parser finds their tree.** -/
theorem parse_of_accepts {chars : List Char} {root : Subtree} (h : Floor.Accepts chars root) :
    parse chars = root := by
  obtain ⟨floors, last, harrives, hred, hc, hroot⟩ := h
  have hbound : byteLength chars < roundBound (.ofList chars) + (Floor.reach []).bytes := by
    have hsize : (Source.ofList chars).size = byteLength chars := by
      rw [Source.size, Source.ofList, List.size_toArray, length_suffixesOf]
    rw [roundBound, hsize]
    omega
  have hrun := (Parser.straight_initial chars).finished_run harrives.course hred hc _ hbound
  rw [parse]
  rw [show (Floor.reach []).bytes = 0 from rfl] at hrun
  rw [hrun, hroot]
  rfl

end Cicode.Parse

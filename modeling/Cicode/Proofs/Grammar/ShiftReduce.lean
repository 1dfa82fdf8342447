import Cicode.Proofs.Grammar.Transitions

/-!
# The shift-reduce automaton of the table

The table driven in the ordinary way, without extras and without recovery: a stack of states and
trees, and the terminals still to be read.  A continuation of a repetition that stands beside a
reduction is never taken.

What is on the stack always follows the table (`Sound`): its states are linked by arrows, each of
its trees follows the table, and its leaves with the remaining input are the word that was given.
Hence a reduction always finds the trees it asks for and a state to go on with
(`run_ne_broken`), and what is accepted is a derivation of the word (`followsTable_of_accepted`).
-/

namespace Cicode.Grammar.ShiftReduce

variable {α : Type}

/-- A state on the stack with the tree that led to it. -/
structure Frame (α : Type) where
  /-- The state. -/
  state : StateId
  /-- What was recognised last. -/
  tree : Derivation α
  deriving Inhabited

/-- A configuration of the automaton. -/
structure Config (α : Type) where
  /-- The stack, its top first. -/
  stack : List (Frame α)
  /-- What is still to be read. -/
  input : List (Symbol × α)
  deriving Inhabited

/-- The state on top of a stack; at the bottom there is the initial state. -/
def stateOf : List (Frame α) → StateId
  | [] => 1
  | frame :: _ => frame.state

/-- The next terminal. -/
def lookahead : List (Symbol × α) → Symbol
  | [] => .endOfInput
  | (terminal, _) :: _ => terminal

/-- The action to take among those of a cell of the table. -/
def chosen (actions : List Action) : Option Action :=
  actions.find? fun
    | .shiftRepeat _ => false
    | _ => true

/-- What a step, or a run, leads to. -/
inductive Outcome (α : Type) where
  /-- Another configuration. -/
  | next (config : Config α)
  /-- The word is accepted. -/
  | accepted (tree : Derivation α)
  /-- The word is rejected. -/
  | rejected
  /-- A reduction finds too few trees, or no state to go on with. -/
  | broken

/-- The tree of an accepted word. -/
def Outcome.tree? : Outcome α → Option (Derivation α)
  | .accepted tree => some tree
  | _ => none

/-- One step of the automaton. -/
def step (c : Config α) : Outcome α :=
  match chosen (actionsAt (stateOf c.stack) (lookahead c.input)) with
  | some (.shift target) =>
    match c.input with
    | (terminal, token) :: rest => .next ⟨⟨target, .leaf terminal token⟩ :: c.stack, rest⟩
    | [] => .rejected
  | some (.reduce symbol count _) =>
    let below := c.stack.drop count
    let target := gotoAt (stateOf below) symbol
    if c.stack.length < count ∨ target = 0 then .broken
    else
      let children := (c.stack.take count).reverse.map Frame.tree
      .next ⟨⟨target, .node symbol children⟩ :: below, c.input⟩
  | some .accept =>
    match c.stack with
    | [frame] => .accepted frame.tree
    | _ => .rejected
  | _ => .rejected

/-- A number of steps, fewer if the automaton stops before. -/
def run : Nat → Config α → Outcome α
  | 0, c => .next c
  | steps + 1, c =>
    match step c with
    | .next c' => run steps c'
    | outcome => outcome

/-- The automaton before a word. -/
def start (word : List (Symbol × α)) : Config α := ⟨[], word⟩

theorem run_add (m n : Nat) (c : Config α) :
    run (m + n) c = match run m c with
      | .next c' => run n c'
      | outcome => outcome := by
  induction m generalizing c with
  | zero => simp [run]
  | succ m ih =>
    rw [Nat.add_right_comm, run, run]
    cases step c with
    | next c' => exact ih c'
    | accepted | rejected | broken => rfl

/-- A run that has ended stays as it is. -/
theorem run_of_le {m n : Nat} {c : Config α} (hle : m ≤ n) (h : ∀ c', run m c ≠ .next c') :
    run n c = run m c := by
  obtain ⟨k, rfl⟩ := Nat.exists_eq_add_of_le hle
  rw [run_add]
  cases hr : run m c with
  | next c' => exact absurd hr (h c')
  | accepted | rejected | broken => rfl

theorem accepted_unique {m n : Nat} {c : Config α} {t t' : Derivation α}
    (h : run m c = .accepted t) (h' : run n c = .accepted t') : t = t' := by
  have key : ∀ {m n : Nat} {t t' : Derivation α}, m ≤ n → run m c = .accepted t →
      run n c = .accepted t' → t = t' := by
    intro m n t t' hle h h'
    rw [run_of_le hle (by simp [h]), h] at h'
    exact Outcome.accepted.inj h'
  rcases Nat.le_total m n with hle | hle
  · exact key hle h h'
  · exact (key hle h' h).symm

/-! ## The cells of the table -/

/-- A cell holds one action, or a reduction with a continuation of a repetition.  Only the end of
the input is accepted, in one state, and another state is there for recovery. -/
def isCell (state : StateId) (terminals : List Symbol) : List Action → Bool
  | [.shift _] | [.shiftExtra] | [.reduce ..] | [.reduce .., .shiftRepeat _] => true
  | [.recover] => state == 0
  | [.accept] => state == 2 && terminals == [.endOfInput]
  | _ => false

theorem isCell_rows : (rowList.zipIdx.all fun q =>
    q.1.actions.all fun group => isCell q.2 group.2 group.1) = true := by
  decide +kernel

theorem cell_of_mem {state : StateId} {terminal : Symbol} {a : Action}
    (ha : a ∈ actionsAt state terminal) :
    ∃ terminals, terminal ∈ terminals ∧ isCell state terminals (actionsAt state terminal) = true := by
  cases ht : terminal.isTerminal with
  | false =>
    rw [actionsAt_not_terminal state ht] at ha
    cases ha
  | true =>
    rw [actionsAt_terminal state ht] at ha ⊢
    split at ha
    · rename_i row hrow
      obtain ⟨group, hg, hs, heq⟩ := mem_group_of_actionsOn ha
      have hcell := List.all_eq_true.mp (of_all_rows isCell_rows hrow) group hg
      rw [heq] at hcell
      exact ⟨group.2, hs, hcell⟩
    · cases ha

theorem mem_of_chosen {actions : List Action} {a : Action} (h : chosen actions = some a) :
    a ∈ actions := List.mem_of_find?_eq_some h

theorem arrow_of_chosen {state target : StateId} {terminal : Symbol}
    (h : chosen (actionsAt state terminal) = some (.shift target)) :
    Arrow state terminal target := by
  obtain ⟨terminals, -, hcell⟩ := cell_of_mem (mem_of_chosen h)
  refine .of_last (.inl ?_)
  revert h hcell
  unfold isCell
  split <;> simp_all [chosen]

theorem accept_of_chosen {state : StateId} {terminal : Symbol}
    (h : chosen (actionsAt state terminal) = some .accept) : state = 2 ∧ terminal = .endOfInput := by
  obtain ⟨terminals, hmem, hcell⟩ := cell_of_mem (mem_of_chosen h)
  revert h hcell
  unfold isCell
  split <;> simp_all [chosen]
  rintro rfl rfl
  simpa using hmem

theorem arrows_rows : (rowList.zipIdx.all fun q => q.1.arrows.all fun arrow =>
    Nat.blt 1 arrow.2 && (arrow.2 != 2 || (q.2 == 1 && arrow.1 == .sourceFile))) = true := by
  decide +kernel

/-- No arrow leads to the recovery state or the initial one, and one only to the accepting one. -/
theorem target_of_arrow {source target : StateId} {symbol : Symbol} (h : Arrow source symbol target) :
    1 < target ∧ (target = 2 → source = 1 ∧ symbol = .sourceFile) := by
  obtain ⟨row, hrow, hmem⟩ := h
  have hall := List.all_eq_true.mp (of_all_rows arrows_rows hrow) _ hmem
  simp only [Bool.and_eq_true, Bool.or_eq_true, bne_iff_ne, beq_iff_eq] at hall
  exact ⟨Nat.le_of_ble_eq_true hall.1, fun h2 => hall.2.resolve_left (not_not_intro h2)⟩

/-! ## What is on the stack -/

/-- The states of a stack are linked by arrows. -/
def Linked : List (Frame α) → Prop
  | [] => True
  | frame :: below => Arrow (stateOf below) frame.tree.symbol frame.state ∧ Linked below

/-- The leaves of the trees of a stack. -/
def stackYield (stack : List (Frame α)) : List (Symbol × α) :=
  Derivation.yieldAll (stack.reverse.map Frame.tree)

/-- What a configuration that was reached from a word has on its stack. -/
structure Sound (word : List (Symbol × α)) (c : Config α) : Prop where
  linked : Linked c.stack
  follows : ∀ frame ∈ c.stack, frame.tree.FollowsTable
  yields : stackYield c.stack ++ c.input = word

theorem Linked.drop {stack : List (Frame α)} (h : Linked stack) (count : Nat) :
    Linked (stack.drop count) := by
  induction stack generalizing count with
  | nil => simpa using h
  | cons frame below ih =>
    cases count with
    | zero => exact h
    | succ count => exact ih h.2 count

theorem Linked.descent {stack : List (Frame α)} (h : Linked stack) {count : Nat}
    (hle : count ≤ stack.length) :
    Descent (stateOf stack) ((stack.take count).reverse.map fun frame => frame.tree.symbol)
      (stateOf (stack.drop count)) := by
  induction count with
  | zero => simpa using Descent.nil
  | succ count ih =>
    have hd := ih (by omega)
    have hlinked := h.drop count
    rw [List.take_add_one, List.getElem?_eq_getElem (by omega)]
    rw [List.drop_eq_getElem_cons (by omega)] at hd hlinked
    simp only [Option.toList_some, List.reverse_append, List.reverse_singleton, List.map_cons,
      List.singleton_append]
    exact .cons hlinked.1 hd

theorem stackYield_cons (frame : Frame α) (below : List (Frame α)) :
    stackYield (frame :: below) = stackYield below ++ frame.tree.yield := by
  simp [stackYield, Derivation.yieldAll]

theorem stackYield_split (count : Nat) (stack : List (Frame α)) :
    stackYield stack = stackYield (stack.drop count) ++
      Derivation.yieldAll ((stack.take count).reverse.map Frame.tree) := by
  rw [stackYield, stackYield, ← Derivation.yieldAll_append, ← List.map_append,
    ← List.reverse_append, List.take_append_drop]

theorem allFollowTable_iff {trees : List (Derivation α)} :
    Derivation.AllFollowTable trees ↔ ∀ tree ∈ trees, tree.FollowsTable := by
  induction trees with
  | nil => simp [Derivation.AllFollowTable]
  | cons tree trees ih => simp [Derivation.AllFollowTable, ih]

/-- A reduction that the table asks for finds a right-hand side on a linked stack. -/
theorem Linked.reduction {stack : List (Frame α)} (h : Linked stack) {symbol : Symbol}
    {count production : Nat} (hr : Reduces (stateOf stack) symbol count production) :
    count ≤ stack.length ∧
      ((stack.take count).reverse.map fun frame => frame.tree.symbol) ∈ rightSides symbol ∧
      production = productionNumber symbol
        ((stack.take count).reverse.map fun frame => frame.tree.symbol) ∧
      symbol ∈ Symbol.nonterminals ∧ gotoAt (stateOf (stack.drop count)) symbol ≠ 0 := by
  have hle : count ≤ stack.length := by
    by_contra hlt
    have hshort := ((h.descent (Nat.le_refl _)).reduction hr).1 (by simp; omega)
    rw [List.drop_length] at hshort
    exact absurd hshort (Nat.lt_irrefl 1)
  exact ⟨hle, ((h.descent hle).reduction hr).2 (by simp [hle])⟩

/-- What a step keeps, and that it never breaks. -/
theorem Sound.step {word : List (Symbol × α)} {c : Config α} (h : Sound word c)
    (hword : ∀ x ∈ word, x.1.isTerminal = true) :
    ShiftReduce.step c ≠ .broken ∧ ∀ c', ShiftReduce.step c = .next c' → Sound word c' := by
  obtain ⟨stack, input⟩ := c
  obtain ⟨hlinked, hfollows, hyields⟩ := h
  rw [ShiftReduce.step]
  split
  · rename_i target hchosen
    cases input with
    | nil => exact ⟨by simp, by simp⟩
    | cons x rest =>
      obtain ⟨terminal, token⟩ := x
      refine ⟨by simp, ?_⟩
      rintro c' ⟨rfl⟩
      have hterm : terminal.isTerminal = true := hword (terminal, token) (by rw [← hyields]; simp)
      refine ⟨⟨arrow_of_chosen hchosen, hlinked⟩, ?_, ?_⟩
      · intro frame hf
        rcases List.mem_cons.mp hf with rfl | hf
        · exact hterm
        · exact hfollows frame hf
      · rw [stackYield_cons, ← hyields]
        simp [Derivation.yield]
  · rename_i symbol count production hchosen
    obtain ⟨hle, hrhs, -, hnon, hgoto⟩ := hlinked.reduction (.of_mem (mem_of_chosen hchosen))
    simp only [Nat.not_lt.mpr hle, hgoto, or_self, ↓reduceIte]
    refine ⟨by simp, ?_⟩
    rintro c' ⟨rfl⟩
    refine ⟨⟨.of_goto hnon hgoto, hlinked.drop count⟩, ?_, ?_⟩
    · intro frame hf
      rcases List.mem_cons.mp hf with rfl | hf
      · rw [Derivation.FollowsTable, List.map_map]
        refine ⟨hrhs, allFollowTable_iff.mpr fun tree ht => ?_⟩
        obtain ⟨frame, hframe, rfl⟩ := List.mem_map.mp ht
        exact hfollows frame (List.mem_of_mem_take (List.mem_reverse.mp hframe))
      · exact hfollows frame (List.mem_of_mem_drop hf)
    · rw [stackYield_cons, Derivation.yield, ← stackYield_split, hyields]
  · cases stack with
    | nil => exact ⟨by simp, by simp⟩
    | cons frame below => cases below <;> exact ⟨by simp, by simp⟩
  · exact ⟨by simp, by simp⟩

theorem Sound.run {word : List (Symbol × α)} (hword : ∀ x ∈ word, x.1.isTerminal = true) (steps : Nat)
    {c : Config α} (h : Sound word c) :
    ShiftReduce.run steps c ≠ .broken ∧ ∀ tree, ShiftReduce.run steps c = .accepted tree →
      ∃ c', Sound word c' ∧ ShiftReduce.step c' = .accepted tree := by
  induction steps generalizing c with
  | zero => exact ⟨by simp [ShiftReduce.run], by simp [ShiftReduce.run]⟩
  | succ steps ih =>
    obtain ⟨hbroken, hnext⟩ := h.step hword
    rw [ShiftReduce.run]
    cases hs : ShiftReduce.step c with
    | next c' => exact ih (hnext c' hs)
    | accepted tree =>
      refine ⟨by simp, ?_⟩
      rintro tree' ⟨rfl⟩
      exact ⟨c, h, hs⟩
    | rejected => exact ⟨by simp, by simp⟩
    | broken => exact absurd hs hbroken

theorem sound_start (word : List (Symbol × α)) : Sound word (start word) :=
  ⟨trivial, by simp [start], by simp [start, stackYield, Derivation.yieldAll]⟩

/-- **No reduction ever fails**, whatever the word. -/
theorem run_ne_broken {word : List (Symbol × α)} (hword : ∀ x ∈ word, x.1.isTerminal = true)
    (steps : Nat) : run steps (start word) ≠ .broken :=
  ((sound_start word).run hword steps).1

/-- **What is accepted is a tree of the whole word.** -/
theorem followsTable_of_accepted {word : List (Symbol × α)}
    (hword : ∀ x ∈ word, x.1.isTerminal = true ∧ x.1 ≠ .endOfInput) {steps : Nat} {tree : Derivation α}
    (h : run steps (start word) = .accepted tree) :
    tree.FollowsTable ∧ tree.symbol = .sourceFile ∧ tree.yield = word := by
  obtain ⟨c, ⟨hlinked, hfollows, hyields⟩, hstep⟩ :=
    ((sound_start word).run (fun x hx => (hword x hx).1) steps).2 tree h
  obtain ⟨stack, input⟩ := c
  rw [step] at hstep
  split at hstep
  · split at hstep <;> cases hstep
  · simp only at hstep
    split at hstep <;> cases hstep
  · rename_i hchosen
    split at hstep
    · rename_i frame hstack
      cases hstep
      simp only at hstack
      subst hstack
      obtain ⟨h2, hend⟩ := accept_of_chosen hchosen
      have hinput : input = [] := by
        cases input with
        | nil => rfl
        | cons x rest => exact absurd hend (hword x (by rw [← hyields]; simp)).2
      subst hinput
      refine ⟨hfollows frame (by simp), ((target_of_arrow hlinked.1).2 h2).2, ?_⟩
      simpa [stackYield, Derivation.yieldAll] using hyields
    · cases hstep
  · cases hstep

end Cicode.Grammar.ShiftReduce

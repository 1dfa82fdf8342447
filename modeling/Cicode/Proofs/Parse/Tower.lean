import Cicode.Proofs.Parse.Reduce

/-!
# A stack with a single way down

As long as a text needs no repair the parser follows one version, and its stack is a *tower*: each
node has one link, to a node that was made before it.  What a tower holds is a list of floors, the
topmost first, each with a tree and the state it leads to.

Main statements: pushing a tree puts a floor on the tower (`Stack.Single.push`), and a reduction takes
floors off and puts their parent on (`Stack.Single.reduce`), as `Floor.reduce` says.
-/

namespace Cicode.Parse

open Grammar Text Cicode.Lex

/-! ## Floors -/

/-- A tree on the stack, and the state it leads to. -/
structure Floor where
  state : StateId
  tree : Subtree

namespace Floor

/-- The state on top; at the bottom there is the initial state. -/
def top : List Floor → StateId
  | [] => 1
  | floor :: _ => floor.state

/-- How far into the text the trees reach. -/
def reach : List Floor → Extent
  | [] => 0
  | floor :: below => reach below + floor.tree.totalSize

/-- The trees, in the order of the text. -/
def trees (floors : List Floor) : List Subtree := (floors.map Floor.tree).reverse

/-- Take off the topmost trees down to the `count`-th that is no extra.  Gives them in the order of the
text, and what is left. -/
def takeOff : Nat → List Floor → Option (List Subtree × List Floor)
  | 0, floors => some ([], floors)
  | _ + 1, [] => none
  | count + 1, floor :: below =>
    (takeOff (if floor.tree.isExtra then count + 1 else count) below).map fun taken =>
      (taken.1 ++ [floor.tree], taken.2)

/-- Put trees on top, all with the same state. -/
def putAll (state : StateId) (trees : List Subtree) (floors : List Floor) : List Floor :=
  trees.foldl (fun floors tree => ⟨state, tree⟩ :: floors) floors

/-- Put the parent of some trees on top, and after it the extras at their end. -/
def putParent (symbol : Symbol) (production : Nat) (trees : List Subtree) (below : List Floor) :
    List Floor :=
  let target := nextState (top below) symbol
  let parts := Subtree.splitTrailingExtras trees
  putAll target parts.2 (⟨target, .ofChildren symbol production parts.1⟩ :: below)

/-- Take trees off and put their parent on. -/
def reduce (symbol : Symbol) (count production : Nat) (floors : List Floor) : Option (List Floor) :=
  (takeOff count floors).map fun taken => putParent symbol production taken.1 taken.2

end Floor

/-! ## Towers -/

/-- What a node of a tower holds. -/
structure Node.Bears (node : Node) (state : StateId) (position : Extent) (links : List Link) : Prop where
  state_eq : node.state = state
  position_eq : node.position = position
  links_eq : node.links = links

/-- From a node a single way leads down, along the trees of the floors. -/
inductive Tower (nodes : Array Node) : NodeId → List Floor → Prop
  | bottom {id : NodeId} : id < nodes.size → (nodes.getD id default).Bears 1 0 [] → Tower nodes id []
  | floor {id lower : NodeId} {floor : Floor} {below : List Floor} : id < nodes.size → lower < id →
      (nodes.getD id default).Bears floor.state (Floor.reach (floor :: below))
        [⟨lower, some floor.tree⟩] →
      Tower nodes lower below → Tower nodes id (floor :: below)

namespace Tower

variable {nodes : Array Node} {id : NodeId} {floors : List Floor}

theorem id_lt (h : Tower nodes id floors) : id < nodes.size := by
  cases h <;> assumption

theorem length_le (h : Tower nodes id floors) : floors.length ≤ id := by
  induction h with
  | bottom => exact Nat.zero_le _
  | floor _ hlt _ _ ih =>
    rw [List.length_cons]
    exact Nat.lt_of_le_of_lt ih hlt

theorem bears (h : Tower nodes id floors) : ∃ links,
    (nodes.getD id default).Bears (Floor.top floors) (Floor.reach floors) links := by
  cases h with
  | bottom _ hb => exact ⟨_, hb⟩
  | floor _ _ hb _ => exact ⟨_, hb⟩

/-- A new node leaves a tower as it is. -/
theorem push_node (h : Tower nodes id floors) (node : Node) : Tower (nodes.push node) id floors := by
  induction h with
  | bottom hid hb =>
    refine .bottom (by rw [Array.size_push]; exact Nat.lt_succ_of_lt hid) ?_
    rwa [getD_push, if_neg (Nat.ne_of_lt hid)]
  | floor hid hlt hb _ ih =>
    refine .floor (by rw [Array.size_push]; exact Nat.lt_succ_of_lt hid) hlt ?_ ih
    rwa [getD_push, if_neg (Nat.ne_of_lt hid)]

/-- A tree on top of a tower is one more floor. -/
theorem above (h : Tower nodes id floors) (floor : Floor) :
    Tower (nodes.push ((nodes.getD id default).above id (some floor.tree) floor.state)) nodes.size
      (floor :: floors) := by
  obtain ⟨links, hb⟩ := h.bears
  refine .floor (by simp) h.id_lt ?_ (h.push_node _)
  rw [getD_push, if_pos rfl]
  refine ⟨rfl, ?_, rfl⟩
  show (nodes.getD id default).position + floor.tree.totalSize = _
  rw [hb.position_eq]
  rfl

end Tower

/-! ## The single way down -/

/-- A descent that takes a path as soon as it passes a test. -/
def judgeBy (test : Node → Path → Bool) : Unit → Node → Path → Unit × Verdict :=
  fun _ node path => ((), if test node path then .take else .follow)

/-- The path leads down along single links to one that passes the test. -/
inductive Leads (nodes : Array Node) (test : Node → Path → Bool) : Path → Path → Nat → Prop
  | here {path : Path} : test (nodes.getD path.node default) path = true → Leads nodes test path path 0
  | down {path last : Path} {link : Link} {length : Nat} :
      test (nodes.getD path.node default) path = false →
      (nodes.getD path.node default).links = [link] → Leads nodes test (path.along link) last length →
      Leads nodes test path last (length + 1)

/-- The stack with one more version, at the end of a path. -/
def Stack.withEnd (stack : Stack) (origin : Version) (path : Path) : Stack :=
  { stack with
    heads := stack.heads.push { node := path.node, countAtError := (stack.head origin).countAtError } }

theorem Stack.descend_cons {σ : Type} (judge : σ → Node → Path → σ × Verdict) (origin : Version)
    (fuel : Nat) (descent : Descent σ) (path : Path) (paths : List Path) :
    descend judge origin (fuel + 1) descent (path :: paths) =
      descend judge origin fuel (descendRound judge origin descent [] [] (path :: paths)).1
        (descendRound judge origin descent [] [] (path :: paths)).2 := rfl

/-- A descent along single links finds one slice. -/
theorem Leads.descend {stack : Stack} {test : Node → Path → Bool} {path last : Path} {length : Nat}
    (h : Leads stack.nodes test path last length) (origin : Version) {fuel : Nat} (hf : length < fuel) :
    Stack.descend (judgeBy test) origin fuel ⟨(), stack, []⟩ [path] =
      ⟨(), stack.withEnd origin last, [⟨stack.heads.size, last.subtrees⟩]⟩ := by
  induction h generalizing fuel with
  | @here path htest =>
    obtain ⟨fuel, rfl⟩ := Nat.exists_eq_add_of_lt hf
    rw [Nat.zero_add, Stack.descend_cons]
    have hround : Stack.descendRound (judgeBy test) origin ⟨(), stack, []⟩ [] [] [path] =
        (⟨(), stack.withEnd origin path, [⟨stack.heads.size, path.subtrees⟩]⟩, []) := by
      simp only [Stack.descendRound, judgeBy, Stack.nodeAt, htest, if_true]
      rfl
    rw [hround]
    cases fuel <;> rfl
  | @down path last link length htest hlinks _ ih =>
    obtain ⟨fuel, rfl⟩ := Nat.exists_eq_add_of_lt hf
    rw [Stack.descend_cons]
    have hround : Stack.descendRound (judgeBy test) origin ⟨(), stack, []⟩ [] [] [path] =
        (⟨(), stack, []⟩, [path.along link]) := by
      simp only [Stack.descendRound, judgeBy, Stack.nodeAt, htest, Stack.branches, hlinks]
      rfl
    rw [hround]
    exact ih (by omega)

namespace Tower

variable {nodes : Array Node} {id : NodeId} {floors : List Floor}

/-- The way down a tower passes the trees that are taken off. -/
theorem leads (h : Tower nodes id floors) {count : Nat} {taken : List Subtree × List Floor}
    (ht : Floor.takeOff count floors = some taken) (path : Path) (hp : path.node = id) :
    ∃ lower length, Leads nodes (fun _ p => p.depth == path.depth + count) path
        ⟨lower, taken.1 ++ path.subtrees, path.depth + count⟩ length ∧ length ≤ floors.length ∧
      Tower nodes lower taken.2 := by
  induction h generalizing count taken path with
  | @bottom id hid hb =>
    cases count with
    | succ count => cases ht
    | zero =>
      cases ht
      refine ⟨id, 0, ?_, Nat.le_refl _, .bottom hid hb⟩
      rw [← hp]
      exact .here (by simp)
  | @floor id lower floor below hid hlt hb hbelow ih =>
    cases count with
    | zero =>
      cases ht
      refine ⟨id, 0, ?_, Nat.zero_le _, .floor hid hlt hb hbelow⟩
      rw [← hp]
      exact .here (by simp)
    | succ count =>
      obtain ⟨rest, hrest, rfl⟩ := Option.map_eq_some_iff.mp ht
      obtain ⟨last, length, hleads, hle, htower⟩ := ih hrest (path.along ⟨lower, some floor.tree⟩) rfl
      have hdepth : (path.along ⟨lower, some floor.tree⟩).depth +
          (if floor.tree.isExtra then count + 1 else count) = path.depth + (count + 1) := by
        simp only [Path.along]
        split
        · rfl
        · omega
      refine ⟨last, length + 1, ?_, Nat.succ_le_succ hle, htower⟩
      rw [hdepth] at hleads
      refine .down (by simp) (by rw [hp]; exact hb.links_eq) ?_
      rw [List.append_assoc]
      exact hleads

/-- The way down to the bottom passes all trees. -/
theorem leads_all (h : Tower nodes id floors) (path : Path) (hp : path.node = id) :
    ∃ lower length depth, Leads nodes (fun node _ => node.links.isEmpty) path
        ⟨lower, Floor.trees floors ++ path.subtrees, depth⟩ length ∧ length ≤ floors.length := by
  induction h generalizing path with
  | @bottom id hid hb =>
    refine ⟨id, 0, path.depth, ?_, Nat.le_refl _⟩
    rw [← hp]
    exact .here (by rw [hp, hb.links_eq]; rfl)
  | @floor id lower floor below hid hlt hb hbelow ih =>
    obtain ⟨last, length, depth, hleads, hle⟩ := ih (path.along ⟨lower, some floor.tree⟩) rfl
    refine ⟨last, length + 1, depth, ?_, Nat.succ_le_succ hle⟩
    refine .down (by rw [hp, hb.links_eq]; rfl) (by rw [hp]; exact hb.links_eq) ?_
    rw [Floor.trees, List.map_cons, List.reverse_cons, List.append_assoc]
    exact hleads

end Tower

/-! ## Stacks with one version -/

/-- The only version of the stack takes part, has met no error, and stands on a tower. -/
structure Stack.Single (stack : Stack) (floors : List Floor) : Prop where
  single : ∃ head : Head, stack.heads = #[head] ∧ head.status = .active ∧ head.countAtError = 0 ∧
    Tower stack.nodes head.node floors

namespace Stack.Single

variable {stack : Stack} {floors : List Floor}

theorem state_eq (h : stack.Single floors) : stack.state 0 = Floor.top floors := by
  obtain ⟨head, hheads, -, -, htower⟩ := h.single
  obtain ⟨links, hb⟩ := htower.bears
  rw [Stack.state, Stack.top, Stack.head, hheads]
  exact hb.state_eq

theorem position_eq (h : stack.Single floors) : stack.position 0 = Floor.reach floors := by
  obtain ⟨head, hheads, -, -, htower⟩ := h.single
  obtain ⟨links, hb⟩ := htower.bears
  rw [Stack.position, Stack.top, Stack.head, hheads]
  exact hb.position_eq

theorem versionCount_eq (h : stack.Single floors) : stack.versionCount = 1 := by
  obtain ⟨head, hheads, -⟩ := h.single
  rw [Stack.versionCount, hheads]
  rfl

theorem isActive (h : stack.Single floors) : stack.isActive 0 = true := by
  obtain ⟨head, hheads, hactive, -⟩ := h.single
  rw [Stack.isActive, Stack.head, hheads]
  simp [hactive, Status.isActive]

/-- The version does not wait. -/
theorem awake (h : stack.Single floors) : stack.isPaused 0 = false := by
  obtain ⟨head, hheads, hactive, -⟩ := h.single
  rw [Stack.isPaused, Stack.head, hheads]
  simp [hactive, Status.isPaused]

theorem length_lt (h : stack.Single floors) : floors.length < stack.nodes.size := by
  obtain ⟨head, -, -, -, htower⟩ := h.single
  exact Nat.lt_of_le_of_lt htower.length_le htower.id_lt

theorem push (h : stack.Single floors) (tree : Subtree) (state : StateId) :
    (stack.push 0 (some tree) state).Single (⟨state, tree⟩ :: floors) := by
  obtain ⟨head, hheads, hactive, hcount, htower⟩ := h.single
  refine ⟨{ head with node := stack.nodes.size }, ?_, hactive, hcount, ?_⟩
  · simp [Stack.push, Stack.modifyHead, hheads, Array.modify, Array.modifyM]
  · have hhead : stack.head 0 = head := by rw [Stack.head, hheads]; rfl
    rw [nodes_push, Stack.top, hhead]
    exact htower.above ⟨state, tree⟩

/-- The stack after a descent has found one slice: beside the first version there is a second one. -/
structure Forked (stack : Stack) (head : Head) (floors : List Floor) : Prop where
  forked : ∃ second : Head, stack.heads = #[head, second] ∧ second.status = .active ∧
    second.countAtError = 0 ∧ second.landmarks = none ∧ Tower stack.nodes second.node floors

theorem Forked.state_eq {head : Head} (h : Forked stack head floors) :
    stack.state 1 = Floor.top floors := by
  obtain ⟨second, hheads, -, -, -, htower⟩ := h.forked
  obtain ⟨links, hb⟩ := htower.bears
  rw [Stack.state, Stack.top, Stack.head, hheads]
  exact hb.state_eq

theorem Forked.push {head : Head} (h : Forked stack head floors) (tree : Subtree) (state : StateId) :
    Forked (stack.push 1 (some tree) state) head (⟨state, tree⟩ :: floors) := by
  obtain ⟨second, hheads, hactive, hcount, hnone, htower⟩ := h.forked
  refine ⟨{ second with node := stack.nodes.size }, ?_, hactive, hcount, hnone, ?_⟩
  · simp [Stack.push, Stack.modifyHead, hheads, Array.modify, Array.modifyM]
  · have hhead : stack.head 1 = second := by rw [Stack.head, hheads]; rfl
    rw [nodes_push, Stack.top, hhead]
    exact htower.above ⟨state, tree⟩

theorem Forked.pushAll {head : Head} (h : Forked stack head floors) (trees : List Subtree)
    (state : StateId) :
    Forked (stack.pushAll 1 trees state) head (Floor.putAll state trees floors) := by
  induction trees generalizing stack floors with
  | nil => exact h
  | cons tree trees ih => exact ih (h.push tree state)

/-- The second version takes the place of the first one. -/
theorem Forked.renumber {head : Head} (h : Forked stack head floors) : (stack.renumber 1 0).Single floors := by
  obtain ⟨second, hheads, hactive, hcount, hnone, htower⟩ := h.forked
  refine ⟨{ second with landmarks := head.landmarks }, ?_, hactive, hcount, ?_⟩
  · simp [Stack.renumber, Stack.modifyHead, Stack.remove, Stack.head, hheads, hnone,
      Array.eraseIdxIfInBounds, Array.modify, Array.modifyM]
  · simpa [Stack.renumber, Stack.modifyHead, Stack.remove] using htower

theorem withEnd_eq {head : Head} (hheads : stack.heads = #[head]) (hcount : head.countAtError = 0)
    (path : Path) :
    stack.withEnd 0 path = { stack with heads := #[head, { node := path.node }] } := by
  have hhead : stack.head 0 = head := by rw [Stack.head, hheads]; rfl
  simp [Stack.withEnd, hheads, hhead, hcount]

theorem popCount (h : stack.Single floors) {count : Nat} {taken : List Subtree × List Floor}
    (ht : Floor.takeOff count floors = some taken) : ∃ forked head,
      stack.popCount 0 count = (forked, [⟨1, taken.1⟩]) ∧ Forked forked head taken.2 := by
  have hlength := h.length_lt
  obtain ⟨head, hheads, -, hcount, htower⟩ := h.single
  have hhead : stack.head 0 = head := by rw [Stack.head, hheads]; rfl
  obtain ⟨lower, length, hleads, hle, hlower⟩ := htower.leads ht { node := head.node } rfl
  rw [List.append_nil, Nat.zero_add] at hleads
  have hdescent := hleads.descend 0 (show length < stack.nodes.size + 1 by omega)
  unfold judgeBy at hdescent
  refine ⟨{ stack with heads := #[head, { node := lower }] }, head, ?_,
    ⟨{ node := lower }, rfl, rfl, rfl, rfl, hlower⟩⟩
  rw [Stack.popCount, Stack.descendFrom, hhead, hdescent, withEnd_eq hheads hcount, hheads]
  rfl

/-- **A reduction on a tower** takes floors off and puts their parent on. -/
theorem reduce (h : stack.Single floors) {symbol : Symbol} {count production : Nat}
    {floors' : List Floor} (hr : Floor.reduce symbol count production floors = some floors') :
    ∃ stack', stack.reduce 0 symbol count production = (stack', some 1) ∧
      (stack'.renumber 1 0).Single floors' := by
  obtain ⟨taken, htaken, rfl⟩ := Option.map_eq_some_iff.mp hr
  obtain ⟨forked, head, hpop, hforked⟩ := h.popCount htaken
  have hone := h.versionCount_eq
  let parts := Subtree.splitTrailingExtras taken.1
  let target := nextState (Floor.top taken.2) symbol
  have hafter := ((hforked.push (.ofChildren symbol production parts.1) target).pushAll parts.2 target)
  have hparents : Stack.pushParents 0 symbol production forked.haltedCount 0 forked
      [(1, taken.1, [])] = (forked.push 1 (some (.ofChildren symbol production parts.1))
        target).pushAll 1 parts.2 target := by
    have hfew : ¬ 1 - 0 > maxVersions + versionOverflow + forked.haltedCount := by
      rw [maxVersions, versionOverflow]
      omega
    rw [Stack.pushParents, if_neg hfew]
    simp only [Stack.chooseChildren, List.foldl_nil, Nat.sub_zero, hforked.state_eq]
    rfl
  refine ⟨_, ?_, hafter.renumber⟩
  rw [Stack.reduce, hpop]
  have hcount : ((forked.push 1 (some (.ofChildren symbol production parts.1)) target).pushAll 1
      parts.2 target).versionCount = 2 := by
    obtain ⟨second, hheads, -⟩ := hafter.forked
    rw [Stack.versionCount, hheads]
    rfl
  have hgroups : Stack.groupSlices [⟨1, taken.1⟩] = [(1, taken.1, [])] := rfl
  simp only [hgroups, hparents, hone, hcount]
  rfl

/-- All trees are taken off at once. -/
theorem popAll (h : stack.Single floors) : ∃ forked,
    stack.popAll 0 = (forked, [⟨1, Floor.trees floors⟩]) ∧
      ∃ head second, forked.heads = #[head, second] ∧ forked.nodes = stack.nodes ∧
        stack.heads = #[head] := by
  have hlength := h.length_lt
  obtain ⟨head, hheads, -, hcount, htower⟩ := h.single
  have hhead : stack.head 0 = head := by rw [Stack.head, hheads]; rfl
  obtain ⟨lower, length, depth, hleads, hle⟩ := htower.leads_all { node := head.node } rfl
  rw [List.append_nil] at hleads
  have hdescent := hleads.descend 0 (show length < stack.nodes.size + 1 by omega)
  unfold judgeBy at hdescent
  refine ⟨{ stack with heads := #[head, { node := lower }] }, ?_, head, { node := lower }, rfl, rfl,
    hheads⟩
  rw [Stack.popAll, Stack.descendFrom, hhead, hdescent, withEnd_eq hheads hcount, hheads]
  rfl

end Stack.Single

end Cicode.Parse

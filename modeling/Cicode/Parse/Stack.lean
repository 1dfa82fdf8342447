import Cicode.Parse.Subtree

/-!
# The graph-structured stack

While an error is being repaired the parser follows several guesses at once. Their stacks share
what they have in common: a `Stack` is a graph of nodes in which every link leads to the node
below and carries the subtree in between, and each guess, a *version*, is a `Head` that points at
its topmost node. Versions that reach the same state at the same place and at the same price are
merged, and then a node has more than one link.

Nodes are named by their number in the order of creation. A link without a subtree marks the place
where an error was met.
-/

namespace Cicode.Parse

open Grammar Text

/-- The number of a node of the stack. -/
abbrev NodeId := Nat

/-- The number of a version of the stack. -/
abbrev Version := Nat

/-- The way from a node to one below it. -/
structure Link where
  /-- The node below. -/
  node : NodeId
  /-- What lies in between; nothing where an error was met. -/
  subtree : Option Subtree
  deriving Inhabited

/-- A node of the stack. -/
structure Node where
  /-- The parser state. -/
  state : StateId
  /-- How far into the text the subtrees up to here reach. -/
  position : Extent
  /-- The ways down, the first one first found. -/
  links : List Link := []
  /-- The price of the repairs up to here. -/
  errorCost : Nat := 0
  /-- How many nodes of the syntax tree the subtrees up to here stand for. -/
  nodeCount : Nat := 0
  deriving Inhabited

/-- A place to which recovery may return. -/
structure Landmark where
  /-- How far into the text it lies. -/
  position : Extent
  /-- How many subtrees lie above it. -/
  depth : Nat
  /-- The state there. -/
  state : StateId
  deriving DecidableEq, Repr, Inhabited

/-- Whether a version goes on. -/
inductive Status where
  /-- It takes part. -/
  | active
  /-- It met a token it cannot use. -/
  | paused (lookahead : Subtree)
  /-- It has been given up. -/
  | halted
  deriving Inhabited

/-- The top of one version of the stack. -/
structure Head where
  /-- The topmost node. -/
  node : NodeId
  /-- The node count when the last error was met. -/
  countAtError : Nat := 0
  /-- Whether the version goes on. -/
  status : Status := .active
  /-- Where recovery may return to, once an error has been met. -/
  landmarks : Option (List Landmark) := none
  deriving Inhabited

/-- The stack with all its versions. -/
structure Stack where
  /-- The nodes, by number. -/
  nodes : Array Node
  /-- The versions, the most promising ones first. -/
  heads : Array Head
  deriving Inhabited

/-- The most ways down that a node keeps. -/
def maxLinks : Nat := 8

/-- The most paths that are followed down at once. -/
def maxPaths : Nat := 64

/-- How deep below an error recovery looks for a place to return to. -/
def maxLandmarkDepth : Nat := 16

namespace Status

/-- The version takes part. -/
def isActive : Status → Bool
  | .active => true
  | _ => false

/-- The version waits for its error to be handled. -/
def isPaused : Status → Bool
  | .paused _ => true
  | _ => false

/-- The version has been given up. -/
def isHalted : Status → Bool
  | .halted => true
  | _ => false

end Status

namespace Node

/-- The node that a push creates above a node. -/
def above (below : Node) (id : NodeId) (subtree : Option Subtree) (state : StateId) : Node :=
  match subtree with
  | none =>
    { state, position := below.position, links := [⟨id, none⟩], errorCost := below.errorCost,
      nodeCount := below.nodeCount }
  | some tree =>
    { state, position := below.position + tree.totalSize, links := [⟨id, some tree⟩],
      errorCost := below.errorCost + tree.errorCost, nodeCount := below.nodeCount + tree.nodeCount }

/-- Nodes of the same state, place and price can stand for each other. -/
def agrees (a b : Node) : Bool :=
  a.state == b.state && a.position.bytes == b.position.bytes && a.errorCost == b.errorCost

end Node

namespace Stack

/-- The stack of a parser that has read nothing: one version in the initial state. -/
def initial : Stack := ⟨#[{ state := 1, position := 0 }], #[{ node := 0 }]⟩

/-! ## Looking at a version -/

/-- The number of versions. -/
def versionCount (stack : Stack) : Nat := stack.heads.size

/-- The head of a version. -/
def head (stack : Stack) (version : Version) : Head := stack.heads.getD version default

/-- The node of a number. -/
def nodeAt (stack : Stack) (id : NodeId) : Node := stack.nodes.getD id default

/-- The topmost node of a version. -/
def top (stack : Stack) (version : Version) : Node := stack.nodeAt (stack.head version).node

/-- The parser state of a version. -/
def state (stack : Stack) (version : Version) : StateId := (stack.top version).state

/-- How far into the text a version has come. -/
def position (stack : Stack) (version : Version) : Extent := (stack.top version).position

/-- Whether a version takes part. -/
def isActive (stack : Stack) (version : Version) : Bool := (stack.head version).status.isActive

/-- Whether a version waits for its error to be handled. -/
def isPaused (stack : Stack) (version : Version) : Bool := (stack.head version).status.isPaused

/-- Whether a version has been given up. -/
def isHalted (stack : Stack) (version : Version) : Bool := (stack.head version).status.isHalted

/-- How many versions have been given up. -/
def haltedCount (stack : Stack) : Nat := stack.heads.countP (·.status.isHalted)

/-- The price of a version. An error that has been met and not yet paid for by skipped text counts
as a recovery. -/
def errorCost (stack : Stack) (version : Version) : Nat :=
  let top := stack.top version
  let atError := top.state == 0 && (match top.links with
    | link :: _ => link.subtree.isNone
    | [] => true)
  top.errorCost + if stack.isPaused version || atError then recoveryCost else 0

/-- How many nodes of the syntax tree a version has found since its last error. -/
def countSinceError (stack : Stack) (version : Version) : Nat :=
  (stack.top version).nodeCount - (stack.head version).countAtError

/-! ## Changing a version -/

/-- Change the head of a version. -/
def modifyHead (stack : Stack) (version : Version) (f : Head → Head) : Stack :=
  { stack with heads := stack.heads.modify version f }

/-- A version that has gone back behind its last error counts from where it is now. -/
def settle (stack : Stack) (version : Version) : Stack :=
  let count := (stack.top version).nodeCount
  if count < (stack.head version).countAtError then
    stack.modifyHead version ({ · with countAtError := count })
  else stack

/-- Put a subtree, or the mark of an error, on top of a version. -/
def push (stack : Stack) (version : Version) (subtree : Option Subtree) (state : StateId) : Stack :=
  let below := (stack.head version).node
  let node := (stack.nodeAt below).above below subtree state
  let id := stack.nodes.size
  let stack := { stack with nodes := stack.nodes.push node }
  stack.modifyHead version fun head =>
    { head with
      node := id
      countAtError := if subtree.isNone then node.nodeCount else head.countAtError }

/-- Put several subtrees on top of a version without a change of state. -/
def pushAll (stack : Stack) (version : Version) (trees : List Subtree) (state : StateId) : Stack :=
  trees.foldl (fun stack tree => stack.push version (some tree) state) stack

/-- Give up a version. -/
def halt (stack : Stack) (version : Version) : Stack :=
  stack.modifyHead version ({ · with status := .halted })

/-- Let a version wait because of a token it cannot use. -/
def pause (stack : Stack) (version : Version) (lookahead : Subtree) : Stack :=
  let count := (stack.top version).nodeCount
  stack.modifyHead version ({ · with status := .paused lookahead, countAtError := count })

/-- Let a waiting version take part again. -/
def resume (stack : Stack) (version : Version) : Stack :=
  stack.modifyHead version ({ · with status := .active })

/-- Drop a version. -/
def remove (stack : Stack) (version : Version) : Stack :=
  { stack with heads := stack.heads.eraseIdxIfInBounds version }

/-- Add a second version with the same top as a version. -/
def copy (stack : Stack) (version : Version) : Stack :=
  { stack with heads := stack.heads.push { stack.head version with landmarks := none } }

/-- Exchange two versions. -/
def swap (stack : Stack) (a b : Version) : Stack :=
  { stack with heads := stack.heads.swapIfInBounds a b }

/-- Let a version take the place of an earlier one, whose landmarks it keeps if it has none. -/
def renumber (stack : Stack) (source target : Version) : Stack :=
  if source == target then stack
  else
    let moved := stack.head source
    let replaced := stack.head target
    let moved :=
      if moved.landmarks.isNone then { moved with landmarks := replaced.landmarks } else moved
    (stack.modifyHead target fun _ => moved).remove source

/-! ## Merging versions -/

/-- Whether two links may be taken for each other: both mark an error, or their subtrees have the
same symbol and both were repaired or have the same shape. -/
def sameSubtree : Option Subtree → Option Subtree → Bool
  | none, none => true
  | some a, some b =>
    a.symbol == b.symbol &&
      ((a.errorCost > 0 && b.errorCost > 0) ||
        (a.facts.padding.bytes == b.facts.padding.bytes &&
          a.facts.size.bytes == b.facts.size.bytes &&
          a.children.length == b.children.length && a.isExtra == b.isExtra))
  | _, _ => false

/-- Add a link to a node. A link like one that is there already is merged with it, down to where
the two ways meet; `depth` bounds how far down that may go. -/
def addLink : Nat → Array Node → NodeId → Link → Array Node
  | 0, nodes, _, _ => nodes
  | depth + 1, nodes, id, link =>
    if link.node == id then nodes
    else
      let self := nodes.getD id default
      let below := nodes.getD link.node default
      let twin := self.links.find? fun existing =>
        sameSubtree existing.subtree link.subtree &&
          (existing.node == link.node || (nodes.getD existing.node default).agrees below)
      match twin with
      | some existing =>
        if existing.node == link.node then nodes
        else below.links.foldl (fun nodes l => addLink depth nodes existing.node l) nodes
      | none =>
        if self.links.length ≥ maxLinks then nodes
        else
          let count := below.nodeCount + (match link.subtree with
            | some tree => tree.nodeCount
            | none => 0)
          nodes.modify id fun node =>
            { node with links := node.links ++ [link], nodeCount := max node.nodeCount count }

/-- Whether two versions can be merged. -/
def canMerge (stack : Stack) (a b : Version) : Bool :=
  stack.isActive a && stack.isActive b && (stack.top a).agrees (stack.top b)

/-- Merge the second version into the first, with which it can be merged. -/
def merge (stack : Stack) (a b : Version) : Stack :=
  let target := (stack.head a).node
  let links := (stack.top b).links
  let nodes :=
    links.foldl (fun nodes link => addLink (nodes.size + 1) nodes target link) stack.nodes
  let stack := { stack with nodes }
  let top := stack.nodeAt target
  let stack :=
    if top.state == 0 then stack.modifyHead a ({ · with countAtError := top.nodeCount }) else stack
  stack.remove b

/-- The first of the given versions that a version can be merged into. -/
def mergeTarget? (stack : Stack) (version : Version) (candidates : List Version) : Option Version :=
  candidates.find? (stack.canMerge · version)

end Stack

end Cicode.Parse

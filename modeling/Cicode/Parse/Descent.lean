import Cicode.Parse.Stack

/-!
# Descents into the stack

To take subtrees off a version the parser follows its links downwards. Where versions were merged
there are several ways down, and each of them yields a *slice*: the subtrees on the way, and the
version that remains below them. The ways are followed side by side, one link at a time, so that
shorter ones are found first.
-/

namespace Cicode.Parse

/-- A way down that is being followed. -/
structure Path where
  /-- The node that has been reached. -/
  node : NodeId
  /-- The subtrees passed, the lowest one first. -/
  subtrees : List Subtree := []
  /-- How many of them count; extras do not, the marks of errors do. -/
  depth : Nat := 0
  deriving Inhabited

/-- What a descent does with a path. -/
inductive Verdict where
  /-- Follow it further. -/
  | follow
  /-- Give it up. -/
  | drop
  /-- Make it a slice. -/
  | take
  deriving DecidableEq, Repr, Inhabited

/-- The result of taking subtrees off a version. -/
structure Slice where
  /-- The version that remains below. -/
  version : Version
  /-- The subtrees taken off, in the order of the text. -/
  subtrees : List Subtree
  deriving Inhabited

namespace Path

/-- The path one link further down. -/
def along (path : Path) (link : Link) : Path :=
  match link.subtree with
  | none => { path with node := link.node, depth := path.depth + 1 }
  | some tree =>
    { node := link.node, subtrees := tree :: path.subtrees,
      depth := if tree.isExtra then path.depth else path.depth + 1 }

end Path

namespace Stack

/-- Insert a slice after the last one of the same version. -/
def insertSlice (slices : List Slice) (slice : Slice) : List Slice :=
  let (after, upTo) := slices.reverse.span (·.version != slice.version)
  upTo.reverse ++ slice :: after.reverse

/-- Record a path that ends at a node as a slice. Paths that end at the same node share a
version. -/
def addSlice (stack : Stack) (origin : Version) (slices : List Slice) (path : Path) :
    Stack × List Slice :=
  match slices.reverse.find? fun slice => (stack.head slice.version).node == path.node with
  | some slice => (stack, insertSlice slices ⟨slice.version, path.subtrees⟩)
  | none =>
    let head : Head := { node := path.node, countAtError := (stack.head origin).countAtError }
    ({ stack with heads := stack.heads.push head }, slices ++ [⟨stack.heads.size, path.subtrees⟩])

/-- The state of a descent. -/
structure Descent (σ : Type) where
  /-- What the judge remembers. -/
  memory : σ
  /-- The stack, with a version for each end that was found. -/
  stack : Stack
  /-- The slices found. -/
  slices : List Slice

/-- The paths that continue a path: one for each link of its node, the one along the first link
last, because it takes the place of the path itself. Of the others only `room` are kept. -/
def branches (stack : Stack) (path : Path) (room : Nat) : Option Path × List Path :=
  match (stack.nodeAt path.node).links with
  | [] => (none, [])
  | first :: others => (some (path.along first), (others.map path.along).take room)

/-- Follow each of the paths by one link. `kept` holds the paths already followed, `forked` those
that branched off, both in reverse. -/
def descendRound {σ : Type} (judge : σ → Node → Path → σ × Verdict) (origin : Version)
    (descent : Descent σ) (kept forked : List Path) : List Path → Descent σ × List Path
  | [] => (descent, kept.reverse ++ forked.reverse)
  | path :: rest =>
    let node := descent.stack.nodeAt path.node
    let (memory, verdict) := judge descent.memory node path
    let descent := { descent with memory }
    match verdict with
    | .drop => descendRound judge origin descent kept forked rest
    | .take =>
      let (stack, slices) := descent.stack.addSlice origin descent.slices path
      descendRound judge origin { descent with stack, slices } kept forked rest
    | .follow =>
      let room := maxPaths - (kept.length + 1 + rest.length + forked.length)
      match descent.stack.branches path room with
      | (none, _) => descendRound judge origin descent kept forked rest
      | (some next, others) =>
        descendRound judge origin descent (next :: kept) (others.reverse ++ forked) rest

/-- Follow the paths until none is left; no path is longer than the stack has nodes. -/
def descend {σ : Type} (judge : σ → Node → Path → σ × Verdict) (origin : Version) :
    Nat → Descent σ → List Path → Descent σ
  | 0, descent, _ => descent
  | _, descent, [] => descent
  | fuel + 1, descent, paths =>
    let (descent, paths) := descendRound judge origin descent [] [] paths
    descend judge origin fuel descent paths

/-- Descend from the top of a version. -/
def descendFrom {σ : Type} (stack : Stack) (version : Version) (memory : σ)
    (judge : σ → Node → Path → σ × Verdict) : Descent σ :=
  descend judge version (stack.nodes.size + 1) ⟨memory, stack, []⟩
    [{ node := (stack.head version).node }]

/-- Take the topmost `count` subtrees off a version, in all ways. -/
def popCount (stack : Stack) (version : Version) (count : Nat) : Stack × List Slice :=
  let descent := stack.descendFrom version () fun _ _ path =>
    ((), if path.depth == count then .take else .follow)
  (descent.stack, descent.slices)

/-- Take everything off a version, in all ways. -/
def popAll (stack : Stack) (version : Version) : Stack × List Slice :=
  let descent := stack.descendFrom version () fun _ node _ =>
    ((), if node.links.isEmpty then .take else .follow)
  (descent.stack, descent.slices)

/-- Take a tree of skipped text off the top of a version, if there is one. Such trees are extras. -/
def popSkipped (stack : Stack) (version : Version) : Stack × Option Subtree :=
  let isSkipped : Subtree → Bool := fun tree => tree.symbol == .error && tree.isExtra
  if (stack.top version).links.any fun link => link.subtree.any isSkipped then
    let descent := stack.descendFrom version false fun found _ path =>
      match path.subtrees with
      | [] => (found, .follow)
      | tree :: _ => if !found && isSkipped tree then (true, .take) else (found, .drop)
    match descent.slices with
    | slice :: _ => (descent.stack.renumber slice.version version, slice.subtrees.head?)
    | [] => (stack, none)
  else (stack, none)

/-- Add a landmark unless one of the same depth and state is there. Landmarks come in order of
depth and are kept in reverse. -/
def addLandmark (landmarks : List Landmark) (landmark : Landmark) : List Landmark :=
  if (landmarks.takeWhile (·.depth ≥ landmark.depth)).any fun l =>
      l.depth == landmark.depth && l.state == landmark.state
  then landmarks else landmark :: landmarks

/-- Note the places below the top of a version to which recovery may return. -/
def recordLandmarks (stack : Stack) (version : Version) : Stack :=
  let descent := stack.descendFrom version [] fun landmarks node path =>
    if path.depth > maxLandmarkDepth then (landmarks, .drop)
    else (addLandmark landmarks ⟨node.position, path.depth, node.state⟩, .follow)
  stack.modifyHead version ({ · with landmarks := some descent.memory.reverse })

end Stack

end Cicode.Parse

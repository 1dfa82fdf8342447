import Cicode.Parse.Descent

/-!
# Reductions

A reduction takes subtrees off a version, makes them the children of a new one and pushes that.
Since there may be several ways down, it may leave several versions behind; a version that equals
an older one is merged with it at once.
-/

namespace Cicode.Parse

open Grammar

/-- How many versions are kept. -/
def maxVersions : Nat := 6

/-- How many versions beyond those kept may exist for a moment. -/
def versionOverflow : Nat := 4

namespace Stack

/-- The children and the trailing extras of a reduction, chosen among the slices that share a
version. -/
def chooseChildren (symbol : Symbol) (production : Nat) (first : List Subtree)
    (others : List (List Subtree)) : Subtree × List Subtree :=
  let (children, extras) := Subtree.splitTrailingExtras first
  others.foldl
    (fun (parent, extras) other =>
      let (children, otherExtras) := Subtree.splitTrailingExtras other
      if parent.prefersSecond (Subtree.ofChildren symbol 0 children)
      then (Subtree.ofChildren symbol production children, otherExtras) else (parent, extras))
    (Subtree.ofChildren symbol production children, extras)

/-- Group consecutive slices that share a version. -/
def groupSlices : List Slice → List (Version × List Subtree × List (List Subtree))
  | [] => []
  | slice :: rest =>
    match groupSlices rest with
    | (version, first, others) :: groups =>
      if version == slice.version then (version, slice.subtrees, first :: others) :: groups
      else (slice.version, slice.subtrees, []) :: (version, first, others) :: groups
    | [] => [(slice.version, slice.subtrees, [])]

/-- Push the parents of a reduction, one for each group of slices. `removed` counts the versions
that have disappeared since the slices were taken. -/
def pushParents (origin : Version) (symbol : Symbol) (production halted : Nat) :
    Nat → Stack → List (Version × List Subtree × List (List Subtree)) → Stack
  | _, stack, [] => stack
  | removed, stack, (numbered, first, others) :: groups =>
    let version := numbered - removed
    if version > maxVersions + versionOverflow + halted then
      pushParents origin symbol production halted (removed + 1) (stack.remove version) groups
    else
      let (parent, extras) := chooseChildren symbol production first others
      let target := nextState (stack.state version) symbol
      let stack := (stack.push version (some parent) target).pushAll version extras target
      let candidates := (List.range version).filter (· != origin)
      match stack.mergeTarget? version candidates with
      | some older =>
        pushParents origin symbol production halted (removed + 1) (stack.merge older version) groups
      | none => pushParents origin symbol production halted removed stack groups

/-- Reduce a version. The result names the first version that came into being, if any did. -/
def reduce (stack : Stack) (version : Version) (symbol : Symbol) (count production : Nat) :
    Stack × Option Version :=
  let before := stack.versionCount
  let (stack, slices) := stack.popCount version count
  let stack := pushParents version symbol production stack.haltedCount 0 stack (groupSlices slices)
  (stack, if stack.versionCount > before then some before else none)

end Stack

end Cicode.Parse

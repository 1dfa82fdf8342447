import Cicode.Parse.Reduce

/-!
# Recovery from errors

When no version can use the next token, the parser tries three repairs: to invent a token after
which it could go on; to return to an earlier state that can use the token, leaving out what lies
in between; and to leave out the token itself. The repairs go on side by side as versions of the
stack, and the cheaper ones survive.
-/

namespace Cicode.Parse

open Grammar Text Cicode.Lex

/-- A parse in progress. -/
structure Parser where
  /-- The text. -/
  source : Source
  /-- The versions of the stack. -/
  stack : Stack
  /-- The best tree of the whole text so far. -/
  finished : Option Subtree := none
  /-- How many trees of the whole text have been found. -/
  acceptCount : Nat := 0
  deriving Inhabited

/-! ## Comparing versions -/

/-- How well a version does. -/
structure Standing where
  /-- Its price. -/
  cost : Nat
  /-- The nodes found since its last error. -/
  nodeCount : Nat
  /-- Whether its last error is not yet overcome. -/
  inError : Bool
  deriving DecidableEq, Repr, Inhabited

/-- The result of comparing two versions. -/
inductive Comparison where
  /-- The right one is not worth following. -/
  | takeLeft
  /-- The left one is better. -/
  | preferLeft
  /-- They do equally well. -/
  | even
  /-- The right one is better. -/
  | preferRight
  /-- The left one is not worth following. -/
  | takeRight
  deriving DecidableEq, Repr, Inhabited

/-- The difference in price, times the nodes found, beyond which a version is given up. -/
def maxCostDifference : Nat := 18 * skippedTreeCost

namespace Standing

/-- Compare two versions: one that has overcome its error comes first, then the cheaper one. -/
def compare (a b : Standing) : Comparison :=
  if !a.inError && b.inError then
    if a.cost < b.cost then .takeLeft else .preferLeft
  else if a.inError && !b.inError then
    if b.cost < a.cost then .takeRight else .preferRight
  else if a.cost < b.cost then
    if (b.cost - a.cost) * (1 + a.nodeCount) > maxCostDifference then .takeLeft else .preferLeft
  else if b.cost < a.cost then
    if (a.cost - b.cost) * (1 + b.nodeCount) > maxCostDifference then .takeRight else .preferRight
  else .even

end Standing

namespace Stack

/-- How well a version does. -/
def standing (stack : Stack) (version : Version) : Standing :=
  let paused := stack.isPaused version
  { cost := stack.errorCost version + (if paused then skippedTreeCost else 0)
    nodeCount := stack.countSinceError version
    inError := paused || stack.state version == 0 }

end Stack

namespace Parser

/-- Put the text's tree among the finished ones and keep the better. -/
def finish (parser : Parser) (tree : Subtree) : Parser :=
  let better := match parser.finished with
    | none => tree
    | some old => if old.prefersSecond tree then tree else old
  { parser with finished := some better, acceptCount := parser.acceptCount + 1 }

/-- Replace the last tree that is no extra by its children: they and the extras around them become
the children of the root. -/
def rootOf (trees : List Subtree) : Option Subtree :=
  let (extras, rest) := trees.reverse.span Subtree.isExtra
  match rest with
  | [] => none
  | tree :: before =>
    some (Subtree.ofChildren tree.symbol tree.facts.production
      (before.reverse ++ tree.children ++ extras.reverse))

/-- Accept the text with a version, which ends with it. -/
def accept (parser : Parser) (version : Version) (lookahead : Subtree) : Parser :=
  let stack := parser.stack.push version (some lookahead) 1
  let (stack, slices) := stack.popAll version
  let parser := { parser with stack }
  let parser := slices.foldl
    (fun parser slice => match rootOf slice.subtrees with
      | some root => parser.finish root
      | none => parser) parser
  let stack := match slices with
    | slice :: _ => parser.stack.remove slice.version
    | [] => parser.stack
  { parser with stack := stack.halt version }

/-- Whether some other version, or a finished tree, makes it pointless to go on with a version at
the given price. -/
def betterVersionExists (parser : Parser) (version : Version) (cost : Nat) : Parser × Bool :=
  if parser.finished.any (·.errorCost ≤ cost) then (parser, true)
  else
    let stack := parser.stack.settle version
    let position := (stack.position version).bytes
    let own : Standing := ⟨cost, stack.countSinceError version, false⟩
    let (stack, found) := (List.range stack.versionCount).foldl
      (fun (stack, found) other =>
        if found || other == version || !stack.isActive other ||
            (stack.position other).bytes < position then (stack, found)
        else
          let stack := stack.settle other
          match own.compare (stack.standing other) with
          | .takeRight => (stack, true)
          | .preferRight => let found := stack.canMerge other version; (stack, found)
          | _ => (stack, false)) (stack, false)
    ({ parser with stack }, found)

end Parser

/-! ## Reductions that need no token -/

namespace Stack

/-- What the state of a version allows on the given terminals: whether one of them can be shifted,
and the reductions, each named once. -/
def potentialActions (state : StateId) (terminals : List Symbol) :
    Bool × List (Symbol × Nat × Nat) :=
  (terminals.flatMap (actionsAt state)).foldl
    (fun (canShift, reductions) action => match action with
      | .shift _ | .recover => (true, reductions)
      | .reduce symbol count production =>
        if count == 0 || reductions.any (fun r => r.1 == symbol && r.2.1 == count)
        then (canShift, reductions) else (canShift, reductions ++ [(symbol, count, production)])
      | _ => (canShift, reductions)) (false, [])

/-- Perform reductions on a version one after the other; the result names the first version that
the last of them made. -/
def reduceAll (stack : Stack) (version : Version) :
    List (Symbol × Nat × Nat) → Option Version → Stack × Option Version
  | [], made => (stack, made)
  | (symbol, count, production) :: rest, _ =>
    let (stack, made) := stack.reduce version symbol count production
    reduceAll stack version rest made

/-- Perform all reductions that are possible from a version on the given terminals, and from the
versions these create. `start` is the first version, `initial` the number of versions before; the
flag says whether some version can shift one of the terminals. With a single terminal (`exact`),
versions that can neither shift it nor be reduced on it are dropped. -/
def reducePotentially (terminals : List Symbol) (exact : Bool) (start initial : Version) :
    Nat → Nat → Version → Bool → Stack → Stack × Bool
  | 0, _, _, canShift, stack => (stack, canShift)
  | fuel + 1, round, version, canShift, stack =>
    let count := stack.versionCount
    if version ≥ count then (stack, canShift)
    else
      match stack.mergeTarget? version ((List.range version).filter (· ≥ initial)) with
      | some older =>
        reducePotentially terminals exact start initial fuel (round + 1) version canShift
          (stack.merge older version)
      | none =>
        let (shifts, reductions) := potentialActions (stack.state version) terminals
        let (stack, made) := stack.reduceAll version reductions none
        let next := if version == start then count else version + 1
        if shifts then
          reducePotentially terminals exact start initial fuel (round + 1) next true stack
        else match made with
          | some source =>
            if round < maxVersions then
              reducePotentially terminals exact start initial fuel (round + 1) version canShift
                (stack.renumber source version)
            else
              reducePotentially terminals exact start initial fuel (round + 1) next canShift
                (if exact then stack.remove version else stack)
          | none =>
            reducePotentially terminals exact start initial fuel (round + 1) next canShift
              (if exact then stack.remove version else stack)

/-- A bound on the steps of `reducePotentially`: each step moves on to the next version, merges a
version or is one of the first few rounds, and the number of versions is bounded. -/
def reductionFuel (stack : Stack) : Nat :=
  let bound := stack.versionCount + maxVersions + versionOverflow + 8
  bound * bound

/-- Perform all reductions possible from a version, whatever comes next. -/
def reduceRegardless (stack : Stack) (version : Version) : Stack :=
  (reducePotentially (Symbol.terminals.drop 1) false version stack.versionCount
    stack.reductionFuel 0 version false stack).1

/-- Perform all reductions possible from a version on a terminal; the flag says whether the
terminal can then be shifted. The end of the text stands for any terminal. -/
def reduceOn (stack : Stack) (version : Version) (terminal : Symbol) : Stack × Bool :=
  let exact := terminal != .endOfInput
  let terminals := if exact then [terminal] else Symbol.terminals.drop 1
  reducePotentially terminals exact version stack.versionCount stack.reductionFuel 0 version false
    stack

/-! ## Inventing a token -/

/-- Try to go on with one of the given terminals in place of a token that is not there. -/
def inventToken (stack : Stack) (version : Version) (lookahead : Symbol) :
    List Symbol → Stack × Bool
  | [] => (stack, false)
  | terminal :: rest =>
    let state := stack.state version
    let target := nextState state terminal
    if target == 0 || target == state || !startsWithReduce target lookahead then
      inventToken stack version lookahead rest
    else
      let copy := stack.versionCount
      let stack := (stack.copy version).push copy (some (.missingToken terminal)) target
      let (stack, canShift) := stack.reduceOn copy lookahead
      if canShift then (stack, true) else inventToken stack version lookahead rest

/-- Mark the error on a version and on those made from it, inventing at most one token on the
way. -/
def markErrors (lookahead : Symbol) : Bool → Stack → List Version → Stack
  | _, stack, [] => stack
  | invented, stack, version :: rest =>
    let (stack, invented) :=
      if invented then (stack, true)
      else stack.inventToken version lookahead (Symbol.terminals.drop 1)
    markErrors lookahead invented (stack.push version none 0) rest

/-- Merge the versions from `first` on, `count` in number, into a version. -/
def mergeRange (version first : Version) : Nat → Stack → Stack
  | 0, stack => stack
  | count + 1, stack =>
    mergeRange version first count
      (if stack.canMerge version first then stack.merge version first else stack)

end Stack

/-! ## Returning to an earlier state -/

namespace Stack

/-- Wrap what was taken off a version in a tree of skipped text and put that on top. -/
def pushSkipped (stack : Stack) (version : Version) (trees : List Subtree) (state : StateId) :
    Stack :=
  let (stack, older) := stack.popSkipped version
  let trees := (older.map (·.children)).getD [] ++ trees
  let (trees, extras) := Subtree.splitTrailingExtras trees
  let stack :=
    if trees.isEmpty then stack else stack.push version (some (.skipped trees true)) state
  stack.pushAll version extras state

/-- Use the slices that lead back to a state; the others are given up. -/
def returnAlong (goal : StateId) : Option Version → Stack → List Slice → Stack × Bool
  | last, stack, [] => (stack, last.isSome)
  | last, stack, slice :: rest =>
    if last == some slice.version then returnAlong goal last stack rest
    else if stack.state slice.version != goal then
      returnAlong goal last (stack.halt slice.version) rest
    else
      let stack := stack.pushSkipped slice.version slice.subtrees goal
      returnAlong goal (some slice.version) stack rest

/-- Return to a state that lies `depth` subtrees below the top of a version. -/
def returnTo (stack : Stack) (version : Version) (depth : Nat) (goal : StateId) : Stack × Bool :=
  let (stack, slices) := stack.popCount version depth
  returnAlong goal none stack slices

/-- Drop the versions from a number on that do not take part. -/
def dropInactive (stack : Stack) (first : Version) : Stack :=
  { stack with
    heads := stack.heads.take first ++ (stack.heads.drop first).filter (·.status.isActive) }

end Stack

namespace Parser

/-- Look for a landmark at which the lookahead can be used, and return to the first one that is
worth it. -/
def tryLandmarks (version : Version) (lookahead : Subtree) (position : Extent)
    (before cost : Nat) (progressed : Bool) : List Landmark → Parser → Parser × Bool
  | [], parser => (parser, false)
  | landmark :: rest, parser =>
    let stack := parser.stack
    let taken := (List.range before).any fun other =>
      stack.state other == landmark.state && (stack.position other).bytes == position.bytes
    if landmark.state == 0 || landmark.position.bytes == position.bytes || taken then
      tryLandmarks version lookahead position before cost progressed rest parser
    else
      let newCost := cost + landmark.depth * skippedTreeCost +
        (position.bytes - landmark.position.bytes) * skippedByteCost +
        (position.rows - landmark.position.rows) * skippedLineCost
      let (parser, better) := parser.betterVersionExists version newCost
      if better then (parser, false)
      else if hasActions landmark.state lookahead.symbol then
        let depth := if progressed then landmark.depth + 1 else landmark.depth
        let (stack, returned) := parser.stack.returnTo version depth landmark.state
        let parser := { parser with stack }
        if returned then (parser, true)
        else tryLandmarks version lookahead position before cost progressed rest parser
      else tryLandmarks version lookahead position before cost progressed rest parser

/-! ## Leaving out a token -/

/-- Put a token that is left out on top of a version, together with what was left out before. -/
def skipToken (stack : Stack) (version : Version) (lookahead : Subtree) (progressed : Bool) :
    Stack :=
  let lookahead := if takesAsExtra 1 lookahead.symbol then lookahead.withExtra true else lookahead
  let skipped := Subtree.ofChildren .errorRepeat 0 [lookahead]
  if progressed then
    let (stack, slices) := stack.popCount version 1
    match slices with
    | [] => stack.push version (some skipped) 0
    | slice :: _ =>
      let stack := { stack with heads := stack.heads.take (slice.version + 1) }
      let stack := stack.renumber slice.version version
      stack.push version (some (.ofChildren .errorRepeat 0 (slice.subtrees ++ [skipped]))) 0
  else stack.push version (some skipped) 0

/-- Handle a token in the recovery state. -/
def recover (parser : Parser) (version : Version) (lookahead : Subtree) : Parser :=
  let before := parser.stack.versionCount
  let stack := parser.stack.settle version
  let position := stack.position version
  let progressed := stack.countSinceError version > 0
  let cost := stack.errorCost version
  let landmarks := if lookahead.symbol == .error then [] else (stack.head version).landmarks.getD []
  let (parser, returned) :=
    tryLandmarks version lookahead position before cost progressed landmarks { parser with stack }
  let parser := { parser with stack := parser.stack.dropInactive before }
  if lookahead.symbol == .endOfInput then
    let stack := parser.stack.push version (some (.skipped [] false)) 1
    { parser with stack }.accept version lookahead
  else if returned && parser.stack.versionCount > maxVersions then
    { parser with stack := parser.stack.halt version }
  else
    let newCost := cost + skippedTreeCost + lookahead.totalSize.bytes * skippedByteCost +
      lookahead.totalSize.rows * skippedLineCost
    let (parser, better) := parser.betterVersionExists version newCost
    if better then { parser with stack := parser.stack.halt version }
    else { parser with stack := skipToken parser.stack version lookahead progressed }

/-- Handle an error that a version has met. -/
def handleError (parser : Parser) (version : Version) (lookahead : Subtree) : Parser :=
  let before := parser.stack.versionCount
  let stack := parser.stack.reduceRegardless version
  let count := stack.versionCount
  let created := (List.range count).filter (· ≥ before)
  let stack := Stack.markErrors lookahead.symbol false stack (version :: created)
  let stack := Stack.mergeRange version before created.length stack
  let stack := stack.recordLandmarks version
  { parser with stack }.recover version lookahead

end Parser

end Cicode.Parse

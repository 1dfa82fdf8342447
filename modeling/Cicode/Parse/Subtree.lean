import Cicode.Grammar.Production
import Cicode.Lex.Token

/-!
# Subtrees

The parser builds a `Subtree` for each token it shifts and each production it reduces. Every
subtree carries the facts that the parser asks for again and again: its extent, how much of it had
to be repaired, and how many nodes of the syntax tree it stands for. `Subtree.ofChildren` computes
them from those of the children.

## The price of a repair

Competing repairs are compared by cost. A recovery costs a fixed amount, and on top of it every
byte, line and tree that it leaves out; a token that was invented costs a recovery and a little
more. A subtree without repairs costs nothing.
-/

namespace Cicode.Parse

open Grammar Text Cicode.Lex

/-- The price of one recovery. -/
def recoveryCost : Nat := 500

/-- The price of a token that the text does not hold, beyond that of a recovery. -/
def missingCost : Nat := 110

/-- The price of a tree that is left out. -/
def skippedTreeCost : Nat := 100

/-- The price of a byte that is left out. -/
def skippedByteCost : Nat := 1

/-- The price of a line that is left out. -/
def skippedLineCost : Nat := 30

/-- What is known of a subtree without looking at its children. -/
structure Facts where
  /-- The symbol it was recognised as. -/
  symbol : Symbol
  /-- What lies between the previous token and its first one. -/
  padding : Extent
  /-- Its own text. -/
  size : Extent
  /-- The number of the production, `0` where children go unnamed. -/
  production : Nat := 0
  /-- The price of the repairs in it. -/
  errorCost : Nat := 0
  /-- How many nodes stand directly below it in the syntax tree. -/
  visibleChildren : Nat := 0
  /-- How many nodes of the syntax tree stand below it at any depth. -/
  visibleDescendants : Nat := 0
  /-- Whether it may stand anywhere and takes no place among its siblings. -/
  extra : Bool := false
  /-- Whether it is a token that the text does not hold. -/
  missing : Bool := false
  /-- Whether it was read as a keyword. -/
  keyword : Bool := false
  deriving DecidableEq, Repr, Inhabited

/-- A tree as the parser builds it. -/
inductive Subtree where
  | node (facts : Facts) (children : List Subtree)
  deriving Inhabited

namespace Subtree

/-- What is known of the tree. -/
def facts : Subtree → Facts
  | .node facts _ => facts

/-- The trees directly below. -/
def children : Subtree → List Subtree
  | .node _ children => children

/-- The symbol of the tree. -/
def symbol (tree : Subtree) : Symbol := tree.facts.symbol

/-- The price of the repairs in the tree. -/
def errorCost (tree : Subtree) : Nat := tree.facts.errorCost

/-- Whether the tree takes no place among its siblings. -/
def isExtra (tree : Subtree) : Bool := tree.facts.extra

/-- Whether the tree is a node of the syntax tree under its own symbol. -/
def isVisible (tree : Subtree) : Bool := tree.symbol.isVisible

/-- Padding and size together. -/
def totalSize (tree : Subtree) : Extent := tree.facts.padding + tree.facts.size

/-- The same tree, marked as an extra or not. -/
def withExtra (extra : Bool) : Subtree → Subtree
  | .node facts children => .node { facts with extra } children

/-- The same tree under another symbol. -/
def withSymbol (symbol : Symbol) : Subtree → Subtree
  | .node facts children => .node { facts with symbol } children

/-- The tree of a token. The end of the text is an extra. -/
def ofToken (token : Token) : Subtree :=
  .node { symbol := token.symbol, padding := token.padding, size := token.size,
          keyword := token.keyword, extra := token.symbol == .endOfInput } []

/-- A token that the text does not hold. -/
def missingToken (symbol : Symbol) : Subtree :=
  .node { symbol, padding := 0, size := 0, missing := true,
          errorCost := missingCost + recoveryCost } []

/-! ## Facts of a tree from those of its children -/

/-- The price of leaving a tree out. Extras and unreadable characters cost nothing beyond their
bytes, a hidden tree as much as the nodes it stands for. -/
def skipCost (tree : Subtree) : Nat :=
  if tree.isExtra || (tree.symbol == .error && tree.children.isEmpty) then 0
  else if tree.isVisible then skippedTreeCost
  else if tree.children.isEmpty then 0
  else skippedTreeCost * tree.facts.visibleChildren

/-- Extend the facts of a parent by one more child, which stands at the given place. -/
def addChild (facts : Facts) (place : Nat) (isFirst : Bool) (child : Subtree) : Facts :=
  let sized :=
    if isFirst then { facts with padding := child.facts.padding, size := child.facts.size }
    else { facts with size := facts.size + child.totalSize }
  let inherited := if child.symbol == .errorRepeat then 0 else child.errorCost
  let skipped := if facts.symbol.isSkipped then child.skipCost else 0
  let shown := child.isVisible || (!child.isExtra && (shownKind facts.production place).isSome)
  let own := if shown then 1 else 0
  { sized with
    errorCost := facts.errorCost + inherited + skipped
    visibleDescendants := facts.visibleDescendants + child.facts.visibleDescendants + own
    visibleChildren := facts.visibleChildren +
      if shown then 1 else if child.children.isEmpty then 0 else child.facts.visibleChildren }

/-- The facts of a parent after the remaining children. -/
def addChildren (facts : Facts) (place : Nat) (isFirst : Bool) : List Subtree → Facts
  | [] => facts
  | child :: rest =>
    addChildren (addChild facts place isFirst child)
      (if child.isExtra then place else place + 1) false rest

/-- The price that a tree of skipped text adds to that of its children. -/
def ownCost (facts : Facts) : Nat :=
  if facts.symbol.isSkipped then
    recoveryCost + skippedByteCost * facts.size.bytes + skippedLineCost * facts.size.rows
  else 0

/-- The tree of a production. -/
def ofChildren (symbol : Symbol) (production : Nat) (children : List Subtree) : Subtree :=
  let facts := addChildren { symbol, production, padding := 0, size := 0 } 0 true children
  .node { facts with errorCost := facts.errorCost + ownCost facts } children

/-- A tree for text that was skipped. -/
def skipped (children : List Subtree) (extra : Bool) : Subtree :=
  (ofChildren .error 0 children).withExtra extra

/-- How many nodes of the syntax tree the tree stands for, itself included. Trees of input that is
still being skipped count although they are hidden, so that skipping counts as progress. -/
def nodeCount (tree : Subtree) : Nat :=
  tree.facts.visibleDescendants + (if tree.isVisible then 1 else 0) +
    if tree.symbol == .errorRepeat then 1 else 0

/-- Split off the extras at the end. -/
def splitTrailingExtras (trees : List Subtree) : List Subtree × List Subtree :=
  let reversed := trees.reverse
  ((reversed.dropWhile isExtra).reverse, (reversed.takeWhile isExtra).reverse)

/-! ## Choosing between trees -/

mutual

/-- Compare two trees by symbol and number of children, parents before children. -/
def compare : Subtree → Subtree → Ordering
  | .node a as, .node b bs =>
    (Ord.compare a.symbol.index b.symbol.index).then
      ((Ord.compare as.length bs.length).then (compareAll as bs))

/-- Compare two lists of trees, the first difference deciding. -/
def compareAll : List Subtree → List Subtree → Ordering
  | a :: as, b :: bs => (compare a b).then (compareAll as bs)
  | _, _ => .eq

end

/-- Whether the second of two trees for the same text is to be taken: the cheaper one, the second
one if both were repaired at the same price, else the smaller one. -/
def prefersSecond (left right : Subtree) : Bool :=
  if right.errorCost < left.errorCost then true
  else if left.errorCost < right.errorCost then false
  else if left.errorCost > 0 then true
  else compare left right == .gt

end Subtree

end Cicode.Parse

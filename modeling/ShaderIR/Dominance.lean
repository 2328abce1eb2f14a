import ShaderIR.Edit
import ShaderIR.Traversal

/-!
# Dominator trees

A block dominates another one when every path from the entry block to the other
block passes through it.  The immediate dominators of the reachable blocks form
a tree with the entry block at its root.

Blocks are handled by their position in reverse post-order.  The tree is found
by sweeping over the positions until nothing changes: the immediate dominator of
a block is the nearest common ancestor of those predecessors that already have
one.  In reverse post-order the parent of every position but the first is a
smaller position, so walks towards the root end.

A depth-first walk over the finished tree enters and leaves every position once.
It enters a position no later and leaves it no earlier than exactly those below
it, so that dominance is decided by comparing places in these two orders.
-/

namespace ShaderIR

namespace Dominance

/-- The immediate dominators found so far; the entry position is its own. -/
abbrev Parents := Array (Option Nat)

/-- The position a walk towards the root visits next, if it makes progress. -/
def above (parents : Parents) (position : Nat) : Option Nat :=
  (parents[position]?.join).filter (· < position)

theorem above_lt
    {parents : Parents}
    {position parent : Nat}
    (found : above parents position = some parent) :
    parent < position := by
  unfold above at found
  simpa using (Option.filter_eq_some_iff.1 found).2

/-- The nearest common ancestor of two positions. -/
def meet (parents : Parents) (first second : Nat) : Nat :=
  if first = second then first
  else if second < first then
    match _ : above parents first with
    | some parent => meet parents parent second
    | none => first
  else
    match _ : above parents second with
    | some parent => meet parents first parent
    | none => second
termination_by first + second
decreasing_by
  · have := above_lt ‹_›
    omega
  · have := above_lt ‹_›
    omega

/-- The positions from a position up to the root. -/
def ancestors (parents : Parents) (position : Nat) : List Nat :=
  match _ : above parents position with
  | some parent => position :: ancestors parents parent
  | none => [position]
termination_by position
decreasing_by exact above_lt ‹_›

/-- What is agreed on after one more predecessor; one without a parent has no say. -/
def agreeWith (parents : Parents) (found : Option Nat) (predecessor : Nat) : Option Nat :=
  if (parents[predecessor]?.join).isNone then found
  else some (found.elim predecessor (meet parents predecessor))

/-- The immediate dominator that the predecessors of a position agree on so far. -/
def agreed (parents : Parents) (predecessors : List Nat) : Option Nat :=
  predecessors.foldl (agreeWith parents) none

/-- Revise the immediate dominator of a position. -/
def revise (predecessors : Array (List Nat)) (parents : Parents) (position : Nat) : Parents :=
  match agreed parents (predecessors[position]?.getD []) with
  | some parent => parents.setIfInBounds position (some parent)
  | none => parents

/-- Revise every position after the entry, in order. -/
def sweep (predecessors : Array (List Nat)) (parents : Parents) : Parents :=
  ((List.range predecessors.size).drop 1).foldl (revise predecessors) parents

/-- Sweep until nothing changes, at most the given number of times. -/
def settle (predecessors : Array (List Nat)) : Nat → Parents → Parents
  | 0, parents => parents
  | rounds + 1, parents =>
    let next := sweep predecessors parents
    if next = parents then parents else settle predecessors rounds next

/--
The immediate dominators of a graph given by its predecessor lists.  A sweep
that changes anything finds a first dominator or moves one towards the root, and
that bounds the number of sweeps.
-/
def immediate (predecessors : Array (List Nat)) : Parents :=
  let size := predecessors.size
  settle predecessors (size * size + size + 1)
    ((Array.replicate size none).setIfInBounds 0 (some 0))

/-! ## Walking over the tree -/

/-- The positions right below a position, in order. -/
def below (parents : Parents) (position : Nat) : List Nat :=
  (List.range parents.size).filter fun child => above parents child == some position

theorem mem_below {parents : Parents} {position child : Nat} :
    child ∈ below parents position ↔
      child < parents.size ∧ above parents child = some position := by
  simp [below]

theorem size_sub_lt_of_mem_below
    {parents : Parents}
    {position child : Nat}
    (member : child ∈ below parents position) :
    parents.size - child < parents.size - position := by
  have inside := (mem_below.1 member).1
  have later := above_lt (mem_below.1 member).2
  omega

/-- A position and those below it, in the order in which a depth-first walk enters them. -/
def entered (parents : Parents) (position : Nat) : List Nat :=
  position :: (below parents position).attach.flatMap fun child => entered parents child.1
termination_by parents.size - position
decreasing_by exact size_sub_lt_of_mem_below child.2

/-- A position and those below it, in the order in which a depth-first walk leaves them. -/
def left (parents : Parents) (position : Nat) : List Nat :=
  ((below parents position).attach.flatMap fun child => left parents child.1) ++ [position]
termination_by parents.size - position
decreasing_by exact size_sub_lt_of_mem_below child.2

end Dominance

/-- The dominator tree of the blocks reachable in a function, in reverse post-order. -/
structure DominatorTree where
  blocks : Array Ref
  predecessors : Array (List Nat)
  parents : Dominance.Parents
  /-- The positions in the order in which a walk over the tree enters them. -/
  entered : List Nat
  /-- The positions in the order in which a walk over the tree leaves them. -/
  left : List Nat
  deriving Repr

namespace DominatorTree

/-- The position of a block in reverse post-order; unreachable blocks have none. -/
def position? (tree : DominatorTree) (block : Ref) : Option Nat :=
  tree.blocks.idxOf? block

/-- Whether a block is in the tree. -/
def contains (tree : DominatorTree) (block : Ref) : Bool :=
  (tree.position? block).isSome

/-- The entry block. -/
def root? (tree : DominatorTree) : Option Ref :=
  tree.blocks[0]?

/-- The immediate dominator of a block; the entry block has none. -/
def parent? (tree : DominatorTree) (block : Ref) : Option Ref := do
  let position ← tree.position? block
  tree.blocks[← Dominance.above tree.parents position]?

/-- The blocks immediately dominated by a block, in reverse post-order. -/
def children (tree : DominatorTree) (block : Ref) : List Ref :=
  tree.blocks.toList.filter fun child => tree.parent? child == some block

/--
Whether the first block dominates the second one; both have to be in the tree.
The first one is then entered no later and left no earlier than the second one.
-/
def dominates (tree : DominatorTree) (first second : Ref) : Bool :=
  match tree.position? first, tree.position? second with
  | some first, some second =>
    tree.entered.idxOf first ≤ tree.entered.idxOf second &&
      tree.left.idxOf second ≤ tree.left.idxOf first
  | _, _ => false

/-- Whether the first block dominates the second one and differs from it. -/
def strictlyDominates (tree : DominatorTree) (first second : Ref) : Bool :=
  first != second && tree.dominates first second

/-- The positions whose dominance ends right at a position: those between a predecessor and
the immediate dominator. -/
def endingAt (tree : DominatorTree) (position : Nat) : List Nat :=
  let parent := Dominance.above tree.parents position
  (tree.predecessors[position]?.getD []).flatMap fun predecessor =>
    (Dominance.ancestors tree.parents predecessor).takeWhile fun ancestor =>
      some ancestor != parent

/--
The dominance frontier of a block, in reverse post-order: the blocks that it
does not strictly dominate although it dominates one of their predecessors.
-/
def frontier (tree : DominatorTree) (block : Ref) : List Ref :=
  match tree.position? block with
  | none => []
  | some runner =>
    ((List.range tree.blocks.size).filter fun position =>
      (tree.endingAt position).contains runner).filterMap (tree.blocks[·]?)

/-- The blocks from a block up to the entry block; empty for a block outside the tree. -/
def path (tree : DominatorTree) (block : Ref) : List Ref :=
  match tree.position? block with
  | none => []
  | some position => (Dominance.ancestors tree.parents position).filterMap (tree.blocks[·]?)

end DominatorTree

namespace Store

/-- The positions of the predecessors of listed blocks, as far as they are listed themselves. -/
def predecessorPositions (store : Store) (blocks : Array Ref) : Array (List Nat) :=
  blocks.map fun block => (store.predecessors block).filterMap blocks.idxOf?

/-- The dominator tree of blocks listed in reverse post-order. -/
def dominatorTreeOf (store : Store) (blocks : Array Ref) : DominatorTree :=
  let predecessors := store.predecessorPositions blocks
  let parents := Dominance.immediate predecessors
  { blocks
    predecessors
    parents
    entered := Dominance.entered parents 0
    left := Dominance.left parents 0 }

/--
The dominator tree of a function.  There is none when control reaches a block
through another function, because such a block has no predecessor to take its
immediate dominator from.
-/
def dominatorTree? (store : Store) (function : Ref) : Option DominatorTree :=
  let tree := store.dominatorTreeOf (store.reversePostOrder function).toArray
  if tree.parents.all Option.isSome then some tree else none

end Store

/-- The dominator tree of a function, which has to be a definition. -/
def Edit.dominatorTree (function : Option Ref) : Edit DominatorTree := do
  match function with
  | none => violate .dominanceDefinition
  | some ref =>
    require (← Edit.function ref).isDefinition .dominanceDefinition
    demand (← see (·.dominatorTree? ref))

end ShaderIR

import ShaderIR.Store

/-!
# Depth-first traversal

The post-order of the blocks reachable from a start block along successors, in
operand order.  Blocks that satisfy a stop condition are neither listed nor
passed through.

The walk keeps a stack of blocks with the successors they have left.  Each
step either drops one of those successors or finishes a block, and a block is
stacked once, so a bound on the number of steps is known beforehand.
-/

namespace ShaderIR

namespace Traversal

/-- The state of a depth-first walk. -/
structure Walk where
  stack : List (Ref × List Ref)
  visited : List Ref
  order : List Ref

/-- One step of the walk: move to a new successor, skip one, or finish the top block. -/
def Walk.step (store : Store) (stop : Ref → Bool) (walk : Walk) : Walk :=
  match walk.stack with
  | [] => walk
  | (block, []) :: rest => { walk with stack := rest, order := walk.order ++ [block] }
  | (block, next :: left) :: rest =>
    if walk.visited.contains next || stop next then
      { walk with stack := (block, left) :: rest }
    else
      { walk with
        stack := (next, store.successors next) :: (block, left) :: rest
        visited := next :: walk.visited }

/-- Repeat the step until the stack is empty or the bound is used up. -/
def Walk.run (store : Store) (stop : Ref → Bool) : Nat → Walk → Walk
  | 0, walk => walk
  | steps + 1, walk =>
    if walk.stack.isEmpty then walk else (walk.step store stop).run store stop steps

/-- A bound on the steps of any walk: every block once, and every operand once. -/
def bound (store : Store) : Nat :=
  store.values.foldl
    (fun total value =>
      match value.content with
      | .block .. => total + 1
      | .instruction instruction => total + instruction.operands.length
      | _ => total)
    2

/-- The blocks reachable from a start block in post-order. -/
def postOrder (store : Store) (start : Option Ref) (stop : Ref → Bool) : List Ref :=
  match start with
  | none => []
  | some start =>
    if stop start then []
    else
      ((Walk.mk [(start, store.successors start)] [start] []).run store stop
        (bound store)).order

/-- The post-order reversed: every block before its successors except along back edges. -/
def reversePostOrder (store : Store) (start : Option Ref) (stop : Ref → Bool) : List Ref :=
  (postOrder store start stop).reverse

end Traversal

namespace Store

/-- The blocks reachable from the body of a function, in post-order. -/
def postOrder (store : Store) (function : Ref) : List Ref :=
  Traversal.postOrder store (store.body? function) fun _ => false

/-- The blocks reachable from the body of a function, in reverse post-order. -/
def reversePostOrder (store : Store) (function : Ref) : List Ref :=
  Traversal.reversePostOrder store (store.body? function) fun _ => false

/-- The instructions of the reachable blocks of a function, in reverse post-order. -/
def traverse (store : Store) (function : Ref) : List Ref :=
  (store.reversePostOrder function).flatMap store.instructions

end Store

end ShaderIR

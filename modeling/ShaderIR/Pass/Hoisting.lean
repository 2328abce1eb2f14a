import ShaderIR.Pass.Flattening

/-!
# Hoisting variables

Every variable of a function moves to its entry block, right after the phis
there, in the order in which a traversal meets them.
-/

namespace ShaderIR

namespace Pass

/-- Move instructions to the cursor, one after the other. -/
def moveAll : List Ref → Build Unit
  | [] => pure ()
  | ref :: rest => do
    Build.move ref
    moveAll rest

/-- Hoist the variables of a function and answer how many there are. -/
def hoistVariables (function : Ref) : Edit Nat := do
  let allocas ← Edit.see fun store => (store.traverse function).filter store.isVariable
  if allocas.isEmpty then return 0
  else
    let body ← Edit.demand (← Edit.see (·.body? function))
    Build.run do
      Build.moveAfterPhis body
      moveAll allocas
    return allocas.length

end Pass

end ShaderIR

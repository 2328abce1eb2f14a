import ShaderIR.Store

/-!
# Call graphs

Which functions of a module call which.  Calls are read off the use-lists of the
functions, so only calls linked into a block count, and of those only the ones
whose function is still part of a module.
-/

namespace ShaderIR

/-- A call: the function that holds it, the call itself and the function it calls. -/
structure CallEdge where
  caller : Ref
  call : Ref
  callee : Ref
  deriving DecidableEq, Repr

namespace Store

/-- The caller of a use of a function when the use is the callee of a live call. -/
def caller? (store : Store) (callee : Ref) (use : Use) : Option Ref := do
  let instruction ← store.instruction? use.user
  guard (instruction.opcode == .call && instruction.operand? 0 == some (some callee))
  let caller ← store.functionOf? use.user
  let function ← store.function? caller
  if function.removed then none else some caller

/-- The calls of a function, in the order of its use-list. -/
def callsOf (store : Store) (callee : Ref) : List CallEdge :=
  (store.usesOf callee).filterMap fun use =>
    (store.caller? callee use).map fun caller => { caller, call := use.user, callee }

/-- The calls of the functions of a module, grouped by callee in module order. -/
def callEdges (store : Store) (module : Nat) : List CallEdge :=
  (store.functions module).flatMap store.callsOf

/-- The functions of a module that nothing calls, in module order. -/
def callRoots (store : Store) (module : Nat) : List Ref :=
  (store.functions module).filter fun function => (store.callsOf function).isEmpty

/-- The calls that a function makes to functions of a module. -/
def callsFrom (store : Store) (module : Nat) (caller : Ref) : List Ref :=
  ((store.callEdges module).filter (·.caller == caller)).map (·.call)

/-- The distinct functions of a module that a function calls. -/
def callees (store : Store) (module : Nat) (caller : Ref) : List Ref :=
  distinct (((store.callEdges module).filter (·.caller == caller)).map (·.callee))

end Store

end ShaderIR

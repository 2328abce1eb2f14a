import ShaderIR.Closure
import ShaderIR.Pass.Kind
import ShaderIR.Pool
import ShaderIR.Traversal

/-!
# Removing unused callables

A function is needed when it is a kernel, or when the reachable code of a needed
definition mentions it as an operand of any instruction.  Callables that are not
needed leave the module.  A module without kernels is a library and keeps all of
its functions.
-/

namespace ShaderIR

namespace Store

/-- The functions that the reachable code of a function mentions. -/
def mentioned (store : Store) (function : Ref) : List Ref :=
  (store.traverse function).flatMap fun ref =>
    (store.operands ref).filterMap store.asFunction

/-- The kernels of a module. -/
def kernels (store : Store) (module : Nat) : List Ref :=
  (store.functions module).filter fun function =>
    (store.function? function).any (·.kind == .kernel)

/-- The functions that the kernels of a module need. -/
def needed (store : Store) (module : Nat) : List Ref :=
  closure store.values.size store.mentioned (store.kernels module)

/-- The callables of a module that no kernel needs, when there are kernels. -/
def unusedCallables (store : Store) (module : Nat) : List Ref :=
  if (store.kernels module).isEmpty then []
  else
    let needed := store.needed module
    (store.functions module).filter fun function =>
      (store.function? function).any (·.kind == .callable) && !needed.contains function

end Store

namespace Pass

/-- The callables removed. -/
structure CallableRemoval where
  removed : List Ref := []
  deriving DecidableEq, Repr

/-- The remark of callable removal, given when any callable was removed. -/
def CallableRemoval.remarks (report : CallableRemoval) : List Remark :=
  if report.removed.isEmpty then []
  else
    [{ pass := "remove_unused_callables"
       subject := none
       message := "removed " ++ toString report.removed.length ++ " callables" }]

/-- Take functions out of a module. -/
def removeFunctions (module : Nat) : List Ref → Edit Unit
  | [] => pure ()
  | function :: rest => do
    Edit.removeFunction module function
    removeFunctions module rest

/-- Remove the callables of a module that no kernel needs. -/
def removeUnusedCallables (module : Nat) : Edit CallableRemoval := do
  let removed ← Edit.see (·.unusedCallables module)
  removeFunctions module removed
  return { removed }

end Pass

end ShaderIR

import ShaderIR.Clone
import ShaderIR.Pass.DeadCode
import ShaderIR.Pass.Hoisting

/-!
# Outlining ray query loops

A ray query loop dispatches every candidate of a query to a handler and ends
when there are no more candidates.  Outlining turns each handler into a callable
and the loop into one pipeline instruction, followed by what came after the
loop.

The callables take the query, then the values that the loop reads from outside,
then one reference for each value that the code after the loop reads from it.
Loops are outlined innermost first, and dead code is eliminated afterwards.
-/

namespace ShaderIR

namespace Pass

/-- A loop that was outlined: the loop, its pipeline and how many values it captures. -/
structure OutlinedLoop where
  loop : Ref
  pipeline : Ref
  captured : Nat
  deriving DecidableEq, Repr

/-- What outlining did. -/
structure Outlining where
  loops : List OutlinedLoop := []
  cleanup : Elimination := {}
  deriving DecidableEq, Repr

/-- The remarks of outlining: one for each loop, then those of the clean-up. -/
def Outlining.remarks (store : Store) (report : Outlining) (subject : String) : List Remark :=
  report.loops.map (fun outlined =>
    { pass := "lower_ray_query_loop"
      subject
      message :=
        "outlined loop into pipeline %" ++ toString (store.idOf outlined.pipeline) ++ " with " ++
          toString outlined.captured ++ " captured values" }) ++
    report.cleanup.remarks subject

/-! ## The dispatch of a loop -/

/-- The dispatch of a ray query loop and its blocks. -/
structure Dispatch where
  block : Ref
  dispatch : Ref
  query : Option Ref
  exit : Option Ref
  onSurface : Option Ref
  onProcedural : Option Ref
  deriving DecidableEq, Repr

/-- The dispatch that ends the dispatch block of a loop. -/
def dispatchOf (loop : Ref) : Edit Dispatch := do
  let operand ← Edit.operand loop 0
  match ← Edit.see (·.asBlock operand) with
  | none => Edit.violate .dispatchBlockAbsent
  | some block =>
    match ← Edit.see (·.terminator? block) with
    | none => Edit.violate .dispatchTerminator
    | some dispatch =>
      Edit.require ((← Edit.instruction dispatch).opcode == .rayQueryDispatch) .dispatchTerminator
      let blockAt (position : Nat) : Edit (Option Ref) := do
        let operand ← Edit.operand dispatch position
        Edit.see (·.asBlock operand)
      return {
        block
        dispatch
        query := ← Edit.operand dispatch 0
        exit := ← blockAt 1
        onSurface := ← blockAt 2
        onProcedural := ← blockAt 3 }

/-! ## Phis of the dispatch block -/

/-- The dispatch block may only hold phis and the dispatch. -/
def checkDispatchBlock (dispatch : Ref) : List Ref → Edit Unit
  | [] => pure ()
  | ref :: rest => do
    let entry ← Edit.instruction ref
    Edit.require (entry.opcode.isPhi || ref == dispatch) (.dispatchContents entry.opcode.mnemonic)
    checkDispatchBlock dispatch rest

/-- Write the incoming values of a dispatch phi into a variable. -/
def storeDispatchIncomings (address : Ref) : List (Option Ref × Option Ref) → Build Unit
  | [] => pure ()
  | (incoming, source) :: rest => do
    if incoming.isSome && !(← Edit.see (·.isUndefinedOption incoming)) then
      let block ← Edit.demand source
      Build.moveBefore (← Edit.see (·.terminator? block))
      let _ ← Build.store (some address) incoming
    storeDispatchIncomings address rest

/-- Give each phi a variable that its incoming blocks write. -/
def phiVariables (body : Ref) : List Ref → Build (List (Ref × Ref))
  | [] => pure []
  | phi :: rest => do
    Build.moveAfterPhis body
    let address ← Build.alloca (← Edit.see (·.typeOf phi)) .local
    Edit.addComment address "alloca to lower phi node in ray query loop"
    storeDispatchIncomings address (← Edit.demand (← Edit.see (·.incomings? phi)))
    return (phi, address) :: (← phiVariables body rest)

/-- Read the variable of a phi at the entry of a handler for the uses inside the handler. -/
def reloadIn (phi address : Ref) (entry : Option Ref) (blocks : List Ref) : Build Unit := do
  match entry with
  | none => pure ()
  | some entry =>
    let uses ← Edit.see fun store => (store.usesOf phi).filter fun use =>
      (store.blockOf? use.user).any blocks.contains
    if !uses.isEmpty then
      Build.moveAfterPhis entry
      let read ← Build.load (← Edit.see (·.typeOf phi)) (some address)
      Edit.addComment read "load from phi alloca"
      Edit.redirect (some read) uses

/-- Read the variable of a phi at the exit of the loop for the remaining uses. -/
def reloadAtExit (phi address : Ref) (exit : Option Ref) : Build Unit := do
  if ← Edit.see (·.hasUses phi) then
    match exit with
    | none => Edit.violate .dispatchExitAbsent
    | some exit =>
      Build.moveAfterPhis exit
      let read ← Build.load (← Edit.see (·.typeOf phi)) (some address)
      Edit.addComment read "load from phi alloca in ray query exit block"
      Edit.replaceUses phi (some read)

/-- Replace phis by reads of their variables. -/
def reloadPhis (dispatch : Dispatch) (surfaceBlocks proceduralBlocks : List Ref) :
    List (Ref × Ref) → Build Unit
  | [] => pure ()
  | (phi, address) :: rest => do
    reloadIn phi address dispatch.onSurface surfaceBlocks
    reloadIn phi address dispatch.onProcedural proceduralBlocks
    reloadAtExit phi address dispatch.exit
    Edit.remove phi
    reloadPhis dispatch surfaceBlocks proceduralBlocks rest

/-- Turn the phis of the dispatch block of a loop into variables. -/
def lowerDispatchPhis (loop : Ref) : Edit Unit := do
  let dispatch ← dispatchOf loop
  checkDispatchBlock dispatch.dispatch (← Edit.see (·.instructions dispatch.block))
  let phis ← Edit.see (·.phis dispatch.block)
  if phis.isEmpty then pure ()
  else
    let blocksFrom (entry : Option Ref) : Edit (List Ref) :=
      Edit.see fun store => Traversal.postOrder store entry (· == dispatch.block)
    let surfaceBlocks ← blocksFrom dispatch.onSurface
    let proceduralBlocks ← blocksFrom dispatch.onProcedural
    let function ← Edit.demand (← Edit.see (·.functionOf? loop))
    let body ← Edit.demand (← Edit.see (·.body? function))
    Build.run do
      reloadPhis dispatch surfaceBlocks proceduralBlocks (← phiVariables body phis)

/-! ## Values that cross the boundary of a loop -/

/-- The values that cross the boundary of the blocks of a loop. -/
structure Captures where
  /-- The instructions of the loop. -/
  internal : List Ref
  /-- Values from outside that the loop uses, by first use. -/
  incoming : List Ref
  /-- Instructions of the loop that are used outside of it. -/
  outgoing : List Ref
  deriving DecidableEq, Repr

/-- Whether a value means the same in every function of the module. -/
def isShared (store : Store) (ref : Ref) : Bool :=
  match store.content? ref with
  | some .undefined | some (.function _) | some (.block ..) | some (.constant ..)
  | some (.register _) => true
  | _ => false

/-- The values that cross the boundary of some blocks, the query apart. -/
def captures (store : Store) (blocks : List Ref) (query : Option Ref) : Captures :=
  let internal := blocks.flatMap store.instructions
  let isIncoming (ref : Ref) : Bool :=
    some ref != query && !isShared store ref && !internal.contains ref
  { internal
    incoming := Store.distinct <| internal.flatMap fun ref =>
      ((store.operands ref).filterMap id).filter isIncoming
    outgoing := internal.filter fun ref =>
      (store.usesOf ref).any fun use => !internal.contains use.user }

/-! ## Outlining a handler -/

/-- What the values of a loop are in the callable of a handler. -/
abbrev Mapping := List (Ref × Ref)

/-- The meaning of values inside a handler; branches back to the dispatch lead nowhere. -/
def handlerResolver (dispatchBlock : Ref) (mapping : Mapping) : Resolver := fun ref => do
  if ref = dispatchBlock then return none
  else if ← Edit.see fun store => isShared store ref && !store.isBlock ref then return some ref
  else
    match mapping.lookup ref with
    | some image => return some image
    | none =>
      let family ← Edit.see fun store => ((store.content? ref).map Content.familyName).getD ""
      Edit.violate (.handlerValue family (← Edit.see (·.idOf ref)))

/-- Create an argument for each value a handler takes from outside. -/
def createCaptureArguments (callable : Ref) : List Ref → Edit Mapping
  | [] => pure []
  | ref :: rest => do
    let passing ← Edit.see fun store =>
      if store.isLValue ref then Passing.byReference else Passing.byValue
    let argument ← Edit.createArgument callable passing (← Edit.see (·.typeOf ref))
    return (ref, argument) :: (← createCaptureArguments callable rest)

/-- Create a reference argument for each value a handler gives to the outside. -/
def createOutputArguments (callable : Ref) : List Ref → Edit Mapping
  | [] => pure []
  | ref :: rest => do
    let argument ← Edit.createArgument callable .byReference (← Edit.see (·.typeOf ref))
    return (ref, argument) :: (← createOutputArguments callable rest)

/-- Create a block for each block of a handler. -/
def createHandlerBlocks (callable : Ref) : List Ref → Edit Mapping
  | [] => pure []
  | block :: rest => do
    let copy ← Edit.createBlock callable
    return (block, copy) :: (← createHandlerBlocks callable rest)

/-- Write the values known so far to their reference arguments. -/
def writeOutputs (mapping : Mapping) : Mapping → Build Unit
  | [] => pure ()
  | (ref, argument) :: rest => do
    match mapping.lookup ref with
    | some image =>
      let _ ← Build.store (some argument) (some image)
    | none => pure ()
    writeOutputs mapping rest

/--
Copy one instruction of a handler.  A branch back to the dispatch becomes a
return after the outputs are written, and a phi is copied without incomings.
-/
def copyInstruction (dispatchBlock : Ref) (outputs mapping : Mapping) (ref : Ref) :
    Build Mapping := do
  let entry ← Edit.instruction ref
  let target ← Edit.see fun store => (entry.values.head?.map store.asBlock).join
  match entry.opcode with
  | .phi _ =>
    let copy ← Build.phi (← Edit.see (·.typeOf ref)) []
    return (ref, copy) :: mapping
  | opcode =>
    if opcode == .branch && target == some dispatchBlock then
      writeOutputs mapping outputs
      let _ ← Build.retVoid
      return mapping
    else
      let copy ← Build.clone ref (handlerResolver dispatchBlock mapping)
      return (ref, copy) :: mapping

/-- Copy the blocks of a handler. -/
def copyBlocks (dispatchBlock : Ref) (outputs : Mapping) : List Ref → Mapping → Build Mapping
  | [], mapping => pure mapping
  | block :: rest, mapping => do
    Build.moveToEnd (← Edit.demand (mapping.lookup block))
    let mapping ← (← Edit.see (·.instructions block)).foldlM
      (copyInstruction dispatchBlock outputs) mapping
    copyBlocks dispatchBlock outputs rest mapping

/-- Give a copied phi the images of some incomings. -/
def copyIncomings (resolver : Resolver) (copy : Ref) :
    List (Option Ref × Option Ref) → Edit Unit
  | [] => pure ()
  | (incoming, source) :: rest => do
    match ← resolver (← Edit.demand source) with
    | none => Edit.violate .handlerIncoming
    | some block =>
      Edit.addIncoming copy (← resolver (← Edit.demand incoming)) (some block)
    copyIncomings resolver copy rest

/-- Give the copies of phis their incomings. -/
def copyPhis (resolver : Resolver) : List (Ref × Ref) → Edit Unit
  | [] => pure ()
  | (phi, copy) :: rest => do
    copyIncomings resolver copy (← Edit.demand (← Edit.see (·.incomings? phi)))
    copyPhis resolver rest

/-- Outline the handler that starts at a block, if there is one. -/
def outlineHandler
    (module : Nat)
    (dispatch : Dispatch)
    (captures : Captures)
    (entry : Option Ref)
    (comment : String) : Edit (Option Ref) := do
  match entry with
  | none => return none
  | some entry =>
    let callable ← Edit.createFunction module .callable none
    Edit.addComment callable comment
    let query ← Edit.demand dispatch.query
    let argument ← Edit.createArgument callable .byReference (← Edit.see (·.typeOf query))
    let inputs ← createCaptureArguments callable captures.incoming
    let outputs ← createOutputArguments callable captures.outgoing
    let blocks ← Edit.see fun store =>
      Traversal.reversePostOrder store (some entry) (· == dispatch.block)
    let copies ← createHandlerBlocks callable blocks
    Edit.setBody callable (some (← Edit.demand (copies.lookup entry)))
    let mapping ← Build.run
      (copyBlocks dispatch.block outputs blocks ((query, argument) :: inputs ++ copies))
    let phis ← Edit.see fun store =>
      (blocks.flatMap store.instructions).filterMap fun ref =>
        if store.isPhi ref then (mapping.lookup ref).map (ref, ·) else none
    copyPhis (handlerResolver dispatch.block mapping) phis
    return some callable

/-! ## Replacing the loop -/

/-- Create a variable for each value that leaves a loop. -/
def createOutputVariables : List Ref → Build Mapping
  | [] => pure []
  | ref :: rest => do
    let address ← Build.alloca (← Edit.see (·.typeOf ref)) .local
    Edit.addComment address "alloca for ray query output value"
    return (ref, address) :: (← createOutputVariables rest)

/-- Read each variable and redirect the uses outside of the loop to the read. -/
def readOutputs (internal : List Ref) : Mapping → Build Unit
  | [] => pure ()
  | (ref, address) :: rest => do
    let read ← Build.load (← Edit.see (·.typeOf ref)) (some address)
    Edit.addComment read "load from ray query output alloca"
    Edit.redirect (some read) <| ← Edit.see fun store =>
      (store.usesOf ref).filter fun use => !internal.contains use.user
    readOutputs internal rest

/-- Replace phis with a single incoming by its value. -/
def replaceSingletonPhis : List Ref → Edit Unit
  | [] => pure ()
  | phi :: rest => do
    let entry ← Edit.instruction phi
    Edit.require (entry.opcode.incomingBlocks.length == 1) .mergePhi
    Edit.replaceUses phi (← Edit.operand phi 0)
    Edit.remove phi
    replaceSingletonPhis rest

/-- Let the incomings of a phi below a position come from another block. -/
def rerouteIncomings (old new : Ref) (phi : Ref) (position : Nat) :
    List (Option Ref) → Edit Unit
  | [] => pure ()
  | source :: rest => do
    let incoming ← Edit.operand phi position
    if source == some old then Edit.setIncoming phi position incoming (some new)
    rerouteIncomings old new phi (position + 1) rest

/-- Let the incomings of phis come from another block. -/
def reroutePhis (old new : Ref) : List Ref → Edit Unit
  | [] => pure ()
  | phi :: rest => do
    rerouteIncomings old new phi 0 (← Edit.instruction phi).opcode.incomingBlocks
    reroutePhis old new rest

/-- Outline the handlers of a loop and replace it by a pipeline and what follows the loop. -/
def outlineLoop (loop : Ref) : Edit OutlinedLoop := do
  let function ← Edit.demand (← Edit.see (·.functionOf? loop))
  let module ← Edit.demand (← Edit.see (·.moduleOf? function))
  let dispatch ← dispatchOf loop
  match (← Edit.instruction loop).opcode.merge?.join with
  | none => Edit.violate .loopMergeAbsent
  | some merge =>
    Edit.require (dispatch.exit == some merge) .dispatchExitMerge
    Edit.require ((← Edit.see (·.instructions dispatch.block)).head? == some dispatch.dispatch)
      .dispatchAlone
    let blocks ← Edit.see fun store =>
      Traversal.reversePostOrder store (some dispatch.block) (· == merge)
    Edit.require (blocks.head? == some dispatch.block) .loopStart
    let captures ← Edit.see (captures · blocks dispatch.query)
    let onSurface ← outlineHandler module dispatch captures dispatch.onSurface
      "on_surface function outlined from ray query loop"
    let onProcedural ← outlineHandler module dispatch captures dispatch.onProcedural
      "on_procedural function outlined from ray query loop"
    let body ← Edit.demand (← Edit.see (·.body? function))
    Build.run do
      Build.moveAfterPhis body
      let outputs ← createOutputVariables captures.outgoing
      let captured := captures.incoming ++ outputs.map (·.2)
      Build.moveBefore (some loop)
      let pipeline ← Build.rayQueryPipeline dispatch.query onSurface onProcedural
        (captured.map some)
      readOutputs captures.internal outputs
      let block ← Edit.demand (← Edit.see (·.blockOf? loop))
      Edit.remove loop
      replaceSingletonPhis (← Edit.see (·.phis merge))
      moveAll (← Edit.see (·.instructions merge))
      reroutePhis merge block (← Edit.see fun store =>
        (store.successors block).flatMap store.phis)
      return { loop, pipeline, captured := captured.length }

/-- Outline one more loop of a function. -/
def outlineNextLoop (function : Ref) (report : Outlining) (loop : Ref) : Edit Outlining := do
  lowerDispatchPhis loop
  let _ ← hoistVariables function
  return { report with loops := report.loops ++ [← outlineLoop loop] }

/-- Whether an instruction is a ray query loop. -/
def isRayQueryLoop : Opcode → Bool
  | .rayQueryLoop _ => true
  | _ => false

/-- Outline the ray query loops of a function and clean up after it. -/
def outlineLoops (function : Ref) : Edit Outlining := do
  let loops ← Edit.see fun store => (store.traverse function).filter fun ref =>
    (store.opcode? ref).any isRayQueryLoop
  if loops.isEmpty then return {}
  else
    let report ← loops.reverse.foldlM (outlineNextLoop function) {}
    return { report with cleanup := ← eliminateDeadCode function }

end Pass

end ShaderIR

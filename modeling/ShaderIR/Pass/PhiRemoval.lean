import ShaderIR.Build
import ShaderIR.Pass.Kind
import ShaderIR.Traversal

/-!
# Removing phis

A phi that is unused, or that merges a single value, is redundant: its uses can
take that value.  Other phis are lowered to a local variable, which every
incoming block writes right before its end and which is read in place of the
phi.
-/

namespace ShaderIR

namespace Store

/-- Whether an operand has the same value wherever it is visible; an absent one has. -/
def isInvariant (store : Store) : Option Ref → Bool
  | none => true
  | some ref => (store.content? ref).any Content.isInvariant

/-- Whether an operand is an undefined value. -/
def isUndefinedOption (store : Store) (operand : Option Ref) : Bool :=
  operand.any store.isUndefined

end Store

namespace Pass

/-- The value that incomings seen so far agree on, and whether one of them was undefined. -/
structure Merged where
  value : Option Ref := none
  sawUndefined : Bool := false
  deriving DecidableEq, Repr

/--
Take one more incoming value into account: the phi itself is ignored, undefined
values give way to any other, and `none` means that two values differ.
-/
def Merged.add (store : Store) (phi : Ref) (merged : Merged) (incoming : Option Ref) :
    Option Merged :=
  if incoming = some phi then some merged
  else if store.isUndefinedOption incoming then
    some { value := merged.value.or incoming, sawUndefined := true }
  else if merged.value.isNone || store.isUndefinedOption merged.value then
    some { merged with value := incoming }
  else if merged.value = incoming then some merged
  else none

/--
The single value that incomings merge.  When one of them is undefined the value
has to be invariant, because the result of an instruction on one path need not
be there on another one.
-/
def mergedValue? (store : Store) (phi : Ref) (incomings : List (Option Ref)) :
    Option (Option Ref) := do
  let merged ← incomings.foldlM (Merged.add store phi) {}
  if merged.sawUndefined && !store.isInvariant merged.value then none else some merged.value

/-- Remove a phi when it is redundant; tell whether it was removed. -/
def removeRedundantPhi (phi : Ref) : Edit Bool := do
  let entry ← Edit.instruction phi
  if entry.block.isNone then return false
  else if !(← Edit.see (·.hasUses phi)) then
    Edit.remove phi
    return true
  else
    let incomings ← Edit.demand (← Edit.see (·.incomings? phi))
    match ← Edit.see (mergedValue? · phi (incomings.map (·.1))) with
    | none => return false
    | some merged =>
      let value ←
        match merged with
        | some value => pure value
        | none =>
          let module ← Edit.demand (← Edit.see (·.moduleOf? phi))
          Edit.undefined module (← Edit.see (·.typeOf phi))
      Edit.replaceUses phi (some value)
      Edit.remove phi
      return true

/-- Write the incoming values of a phi into a variable at the end of their blocks. -/
def storeIncomings (address : Ref) : List (Option Ref × Option Ref) → Build Unit
  | [] => pure ()
  | (incoming, source) :: rest => do
    if incoming.isSome && !(← Edit.see (·.isUndefinedOption incoming)) then
      let block ← Edit.demand source
      match ← Edit.see (·.terminator? block) with
      | none => Edit.violate .incomingUnterminated
      | some terminator =>
        Build.moveBefore (some terminator)
        let _ ← Build.store (some address) incoming
    storeIncomings address rest

/-- Remove a phi by lowering it to a variable, unless it is redundant; answers the read. -/
def lowerPhi (phi : Ref) : Edit (Option Ref) := do
  match (← Edit.instruction phi).block with
  | none => return none
  | some block =>
    if ← removeRedundantPhi phi then return none
    else
      let function ← Edit.demand (← Edit.see (·.blockFunction? block))
      let body ← Edit.demand (← Edit.see (·.body? function))
      let type ← Edit.see (·.typeOf phi)
      let read ← Build.run do
        Build.moveAfterPhis body
        let address ← Build.alloca type .local
        Edit.addComment address "alloca to lower phi node"
        storeIncomings address (← Edit.demand (← Edit.see (·.incomings? phi)))
        Build.moveAfterPhis block
        let read ← Build.load type (some address)
        Edit.addComment read "load from phi alloca"
        return read
      Edit.replaceUses phi (some read)
      Edit.remove phi
      return some read

/-- What lowering the phis of a function did: each lowered phi with its read, and the others. -/
structure PhiLowering where
  lowered : List (Ref × Ref) := []
  removed : List Ref := []
  deriving DecidableEq, Repr

/-- The remark of phi lowering, given when there was any phi. -/
def PhiLowering.remarks (report : PhiLowering) (subject : String) : List Remark :=
  if report.lowered.isEmpty && report.removed.isEmpty then []
  else
    [{ pass := "reg2mem"
       subject
       message :=
        "lowered " ++ toString report.lowered.length ++ " phis, removed " ++
          toString report.removed.length ++ " redundant" }]

/-- Lower one more phi. -/
def lowerNextPhi (report : PhiLowering) (phi : Ref) : Edit PhiLowering := do
  match ← lowerPhi phi with
  | some read => return { report with lowered := report.lowered ++ [(phi, read)] }
  | none => return { report with removed := report.removed ++ [phi] }

/-- Lower every phi of a function to a variable. -/
def lowerPhis (function : Ref) : Edit PhiLowering := do
  (← Edit.see fun store => (store.traverse function).filter store.isPhi).foldlM lowerNextPhi {}

end Pass

end ShaderIR

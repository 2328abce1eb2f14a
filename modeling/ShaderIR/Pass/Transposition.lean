import ShaderIR.Pass.Flattening

/-!
# Transposing element accesses

Accesses to elements of a local variable become accesses to the whole variable,
so that the variable can be promoted afterwards:

* reading an element reads the variable and extracts the element;
* writing an element reads the variable, inserts the element and writes it back.

A variable is rewritten only when all that refers to it, or to an element of it,
are reads, writes and element references.
-/

namespace ShaderIR

namespace Pass

/-- What transposition did: the accesses replaced, and by what. -/
structure Transposition where
  flattening : Flattening := {}
  rewritten : Nat := 0
  loads : List (Ref × Ref) := []
  stores : List (Ref × Ref) := []
  deriving DecidableEq, Repr

/-- The remarks of transposition, its own given when it rewrote anything. -/
def Transposition.remarks (report : Transposition) (subject : String) : List Remark :=
  report.flattening.remarks subject ++
    if report.rewritten = 0 then []
    else
      [{ pass := "transpose_gep"
         subject
         message :=
          "rewrote " ++ toString report.rewritten ++ " geps: " ++
            toString report.loads.length ++ " loads, " ++
            toString report.stores.length ++ " stores" }]

/-- Whether an instruction accesses memory in a way that transposition can rewrite. -/
def isPlainAccess : Opcode → Bool
  | .gep | .alloca _ | .load | .store => true
  | _ => false

/-- The local variables that some operands are derived from. -/
def variablesOf : List (Option Ref) → Edit (List Ref)
  | [] => pure []
  | operand :: rest => do
    let root ← Edit.pointerVariable? operand
    return root.toList ++ (← variablesOf rest)

/-- The local variables that other instructions than plain accesses refer to. -/
def escaping : List Ref → Edit (List Ref)
  | [] => pure []
  | ref :: rest => do
    let entry ← Edit.instruction ref
    let found ← if isPlainAccess entry.opcode then pure [] else variablesOf entry.values
    return found ++ (← escaping rest)

/-- Rewrite one access through an element reference. -/
def transposeUse
    (root gep : Ref)
    (indices : List (Option Ref))
    (report : Transposition)
    (use : Use) : Edit Transposition := do
  let user := use.user
  let entry ← Edit.instruction user
  let type ← Edit.see (·.typeOf root)
  match entry.opcode with
  | .load =>
    let element ← Build.run do
      Build.moveBefore (some user)
      let whole ← Build.load type (some root)
      Build.extract (← Edit.see (·.typeOf user)) (some whole) indices
    Edit.replaceUses user (some element)
    Edit.remove user
    return { report with loads := report.loads ++ [(user, element)] }
  | .store =>
    Edit.require ((← Edit.operand user 0) == some gep) .gepStored
    let written ← Build.run do
      Build.moveBefore (some user)
      let whole ← Build.load type (some root)
      let changed ← Build.insert (some whole) (← Edit.operand user 1) indices
      Build.store (some root) (some changed)
    Edit.remove user
    return { report with stores := report.stores ++ [(user, written)] }
  | opcode => Edit.violate (.gepUser opcode.mnemonic)

/-- Rewrite the accesses through an element reference, if its variable allows it. -/
def transposeOne (excluded : List Ref) (report : Transposition) (gep : Ref) :
    Edit Transposition := do
  let operands ← Edit.see (·.operands gep)
  match ← Edit.pointerVariable? (some gep) with
  | none => return report
  | some root =>
    if excluded.contains root || operands.head? != some (some root) then return report
    else
      let report ← (← Edit.see (·.usesOf gep)).foldlM (transposeUse root gep operands.tail) report
      Edit.remove gep
      return { report with rewritten := report.rewritten + 1 }

/-- Transpose the element accesses of a function, flattening its references first. -/
def transpose (function : Ref) : Edit Transposition := do
  let flattening ← flatten function
  let instructions ← Edit.see (·.traverse function)
  let excluded ← escaping instructions
  let geps ← Edit.see fun store =>
    instructions.filter fun ref => store.isGep ref && decide (1 < (store.operands ref).length)
  geps.foldlM (transposeOne excluded) { flattening }

end Pass

end ShaderIR

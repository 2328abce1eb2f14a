import ShaderIR.Build
import ShaderIR.Pass.Kind
import ShaderIR.Traversal

/-!
# Flattening element references

An element reference into an element reference is rewritten to one reference
into the root variable, with the indices of both; a reference without indices is
replaced by its base.

The root of a pointer is found by following bases.  A chain of bases longer than
the number of values runs in a circle, so following it would never end.
-/

namespace ShaderIR

namespace Store

/-- Whether a reference denotes an element reference. -/
def isGep (store : Store) (ref : Ref) : Bool :=
  store.opcode? ref == some .gep

/-- Whether a reference denotes a variable of the local space. -/
def isLocalVariable (store : Store) (ref : Ref) : Bool :=
  store.opcode? ref == some (.alloca .local)

/-- Whether a reference denotes a variable. -/
def isVariable (store : Store) (ref : Ref) : Bool :=
  match store.opcode? ref with
  | some (.alloca _) => true
  | _ => false

end Store

/-- Where a chain of element references starts, and the indices along it. -/
structure ElementPath where
  base : Option Ref
  indices : List (Option Ref)
  deriving DecidableEq, Repr

namespace Edit

/-- Follow bases from a pointer, putting the indices passed in front of those given. -/
def followBases : Nat → Option Ref → List (Option Ref) → Edit ElementPath
  | 0, _, _ => endless
  | bound + 1, pointer, indices => do
    match pointer with
    | none => return { base := none, indices }
    | some ref =>
      if ← see (·.isGep ref) then
        let operands ← see (·.operands ref)
        let base ← demand operands.head?
        followBases bound base (operands.tail ++ indices)
      else return { base := some ref, indices }

/-- The root a pointer is derived from, with the indices from there. -/
def elementPath (pointer : Option Ref) : Edit ElementPath := do
  followBases ((← see (·.values.size)) + 1) pointer []

/-- The root a pointer is derived from. -/
def pointerRoot (pointer : Option Ref) : Edit (Option Ref) := do
  return (← elementPath pointer).base

/-- The local variable a pointer is derived from, if its root is one. -/
def pointerVariable? (pointer : Option Ref) : Edit (Option Ref) := do
  let root ← pointerRoot pointer
  see fun store => root.filter store.isLocalVariable

end Edit

namespace Pass

/-- What flattening did: how many references it saw, and which it rewrote and removed. -/
structure Flattening where
  visited : Nat := 0
  traced : List Ref := []
  removed : List Ref := []
  deriving DecidableEq, Repr

/-- The remark of flattening, given when there was any reference. -/
def Flattening.remarks (report : Flattening) (subject : String) : List Remark :=
  if report.visited = 0 then []
  else
    [{ pass := "trace_gep"
       subject
       message :=
        "traced " ++ toString report.traced.length ++ " of " ++ toString report.visited ++
          " geps, removed " ++ toString report.removed.length }]

/-- Rewrite an element reference whose base is one; tell whether it was. -/
def traceBase (gep : Ref) : Edit Bool := do
  let operands ← Edit.see (·.operands gep)
  let base ← Edit.demand operands.head?
  if ← Edit.see fun store => base.any store.isGep then
    let path ← Edit.elementPath base
    Edit.setBaseAndIndices gep path.base (path.indices ++ operands.tail)
    return true
  else return false

/-- Replace an element reference without indices by its base; tell whether it had none. -/
def removeTrivial (gep : Ref) : Edit Bool := do
  match ← Edit.see (·.operands gep) with
  | [base] =>
    Edit.replaceUses gep base
    Edit.remove gep
    return true
  | _ => return false

/-- Flatten one element reference. -/
def flattenOne (report : Flattening) (gep : Ref) : Edit Flattening := do
  let traced ← traceBase gep
  let removed ← removeTrivial gep
  return { report with
    traced := if traced then report.traced ++ [gep] else report.traced
    removed := if removed then report.removed ++ [gep] else report.removed }

/-- Flatten the element references of a function. -/
def flatten (function : Ref) : Edit Flattening := do
  let geps ← Edit.see fun store => (store.traverse function).filter store.isGep
  geps.foldlM flattenOne { visited := geps.length }

end Pass

end ShaderIR

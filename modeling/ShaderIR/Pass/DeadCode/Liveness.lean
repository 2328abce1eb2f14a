import ShaderIR.Closure
import ShaderIR.Pass.DeadCode.Report
import ShaderIR.Pass.Flattening

/-!
# Instructions that nothing needs

An instruction that has no effect besides its result is live when an instruction
with an effect needs it, directly or through other instructions, or when
unreachable code uses it.  The others are removed, and so are variables that are
only written, together with everything that writes them.
-/

namespace ShaderIR

namespace Pass

/-- Whether an instruction has no effect besides its result. -/
def isPure : Opcode → Bool
  | .phi _ | .alloca _ | .load | .gep | .arithmetic _ | .cast _ | .clock | .rayQueryRead _
  | .resourceQuery _ | .resourceRead _ => true
  | .autodiff op => op == .gradient
  | _ => false

/-- Whether an instruction is used outside of the reachable blocks. -/
def usedOutside (store : Store) (reachable : List Ref) (ref : Ref) : Bool :=
  (store.usesOf ref).any fun use =>
    !(store.blockOf? use.user).any reachable.contains

/-- The linked instructions that an instruction needs. -/
def needs (store : Store) (ref : Ref) : List Ref :=
  ((store.operands ref).filterMap id).filter fun operand => (store.blockOf? operand).isSome

/-- The instructions of the reachable blocks of a function that nothing needs. -/
def unneeded (store : Store) (function : Ref) : List Ref :=
  let reachable := store.reversePostOrder function
  let instructions := reachable.flatMap store.instructions
  let removable (ref : Ref) : Bool :=
    (store.opcode? ref).any isPure && !usedOutside store reachable ref
  let roots := instructions.filter (!removable ·)
  let live := closure store.values.size (needs store) roots
  instructions.filter fun ref => removable ref && !live.contains ref

/-- Whether a use of a pointer only writes through it or refers to an element of it. -/
def writesOnly (store : Store) (pointer : Ref) (use : Use) : Bool :=
  match store.instruction? use.user with
  | none => false
  | some user =>
    match user.opcode, user.values with
    | .store, [address, stored] => address == some pointer && stored != some pointer
    | .gep, base :: _ => base == some pointer
    | _, _ => false

/-- The element references among the users of a pointer. -/
def elementUsers (store : Store) (pointer : Ref) : List Ref :=
  ((store.usesOf pointer).map (·.user)).filter store.isGep

/-- Whether a pointer, and every element reference derived from it, is only written through. -/
def isWriteOnly (store : Store) (pointer : Ref) : Bool :=
  (closure store.values.size (elementUsers store) [pointer]).all fun derived =>
    (store.usesOf derived).all (writesOnly store derived)

/-- Remove the user of a value when it is linked. -/
def removeUser (remove : Elimination → Ref → Edit Elimination) (report : Elimination) (use : Use) :
    Edit Elimination := do
  if (← Edit.see (·.blockOf? use.user)).isSome then remove report use.user else return report

/-- Remove an instruction after everything that uses it, and each user in the same way. -/
def removeWithUsers : Nat → Elimination → Ref → Edit Elimination
  | 0, _, _ => Edit.endless
  | bound + 1, report, ref => do
    let uses ← Edit.see (·.usesOf ref)
    let report ← uses.foldlM (removeUser (removeWithUsers bound)) report
    report.drop ref

/-- Remove a variable that is only written, with all that writes it. -/
def removeWriteOnly (report : Elimination) (address : Ref) : Edit Elimination := do
  if (← Edit.see (·.blockOf? address)).isSome && (← Edit.see (isWriteOnly · address)) then
    removeWithUsers ((← Edit.see (·.values.size)) + 1) report address
  else return report

/-- Remove the instructions of a function that nothing needs. -/
def removeUnneeded (function : Ref) (report : Elimination) : Edit Elimination := do
  (← Edit.see (unneeded · function)).foldlM Elimination.drop report

/-- Remove the variables of a function that are only written. -/
def removeWriteOnlyVariables (function : Ref) (report : Elimination) : Edit Elimination := do
  (← Edit.see fun store => (store.traverse function).filter store.isVariable).foldlM
    removeWriteOnly report

end Pass

end ShaderIR

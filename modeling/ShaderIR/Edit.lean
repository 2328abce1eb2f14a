import ShaderIR.Store
import ShaderIR.Violation

/-!
# Edits

An edit changes the store and may end in a fault.  A fault keeps every change
made before it: a refused edit may already have consumed a number or unlinked
an instruction.

The operands of an instruction appear in the use-lists of their values exactly
while the instruction is linked into a block.  Edits of instructions keep that
rule: linking appends the operand uses in operand order, unlinking takes them out,
and changing a slot of a linked instruction moves its use to the end of the new
value's use-list.  A use that its instruction has dropped can still be pointed at
a value, and is then linked although nobody owns it.
-/

namespace ShaderIR

/-- A change of the store that may end in a fault and then keeps what it did. -/
abbrev Edit := ExceptT Fault (StateM Store)

namespace Store

/-- Append a use to the use-list of an operand. -/
def link (store : Store) (operand : Option Ref) (use : Use) : Store :=
  match operand with
  | none => store
  | some ref =>
    (store.modifyValue ref fun value => { value with uses := value.uses ++ [use] }).relinkUses
      (·.push ref use)

/-- Take a use out of the use-list of an operand. -/
def unlink (store : Store) (operand : Option Ref) (use : Use) : Store :=
  match operand with
  | none => store
  | some ref =>
    (store.modifyValue ref fun value => { value with uses := value.uses.erase use }).relinkUses
      (·.unlink use)

/-- Make a slot under a new key. -/
def makeSlot (store : Store) (edge : Edge) : Store :=
  ({ store with nextSlot := store.nextSlot + 1 } : Store).putEdge store.nextSlot edge

/-- Append the uses of several slots of one instruction. -/
def linkAll (store : Store) (user : Ref) (slots : List Slot) : Store :=
  slots.foldl (fun store slot => store.link slot.value ⟨user, slot.key⟩) store

/-- Take out the uses of several slots of one instruction. -/
def unlinkAll (store : Store) (user : Ref) (slots : List Slot) : Store :=
  slots.foldl (fun store slot => store.unlink slot.value ⟨user, slot.key⟩) store

end Store

/-- A list with an element put right after the first occurrence of another one. -/
def insertAfter (position new : Ref) : List Ref → List Ref
  | [] => []
  | ref :: rest =>
    if ref = position then ref :: new :: rest else ref :: insertAfter position new rest

namespace Edit

/-! ## Faults and reading -/

/-- End with a violation. -/
def violate {α : Type} (violation : Violation) : Edit α :=
  throw (.violation violation)

/-- End because something asked for is not there. -/
def stuck {α : Type} : Edit α :=
  throw .stuck

/-- End because the edit would go on for ever. -/
def endless {α : Type} : Edit α :=
  throw .endless

/-- Refuse the edit unless a condition holds. -/
def require (condition : Bool) (violation : Violation) : Edit Unit :=
  if condition then pure () else violate violation

/-- Get stuck unless something is there. -/
def demand {α : Type} : Option α → Edit α
  | some found => pure found
  | none => stuck

/-- Observe the store. -/
def see {α : Type} (observe : Store → α) : Edit α := do
  return observe (← get)

/-- The instruction behind a reference. -/
def instruction (ref : Ref) : Edit Instruction := do
  demand (← see (·.instruction? ref))

/-- The function behind a reference. -/
def function (ref : Ref) : Edit Function := do
  demand (← see (·.function? ref))

/-- The operand of an instruction at a position; there has to be such a position. -/
def operand (ref : Ref) (position : Nat) : Edit (Option Ref) := do
  demand ((← instruction ref).operand? position)

/-- The type of an operand that has to be present. -/
def typeOfPresent (operand : Option Ref) : Edit (Option Ty) := do
  let ref ← demand operand
  see (·.typeOf ref)

/-! ## Operands -/

/-- Operands have to live in the module of their user. -/
def requireSamePool (user : Ref) (operand : Option Ref) : Edit Unit := do
  match operand with
  | none => pure ()
  | some ref =>
    require (← see fun store => store.moduleOf? ref == store.moduleOf? user) .operandPool

/--
Point a slot of an instruction at an operand.  The slot may be one that the
instruction has dropped: its use is linked all the same while the instruction is.
-/
def setSlot (user : Ref) (key : Nat) (operand : Option Ref) : Edit Unit := do
  requireSamePool user operand
  let entry ← instruction user
  let edge ← demand (← see (·.edge? ⟨user, key⟩))
  let attached ← see (·.isAttached ⟨user, key⟩)
  modify fun store => store.unlink edge.value ⟨user, key⟩
  modify fun store => store.putEdge key { edge with value := operand }
  modify fun store => store.modifyInstruction user fun entry =>
    { entry with
      operands := entry.operands.map fun slot =>
        if slot.key == key then { slot with value := operand } else slot }
  if attached || entry.block.isSome then
    modify fun store => store.link operand ⟨user, key⟩

/-- Point the operand of an instruction at a position to a value. -/
def setOperand (user : Ref) (position : Int) (operand : Option Ref) : Edit Unit := do
  if position < 0 then stuck
  else
    let slot ← demand (← instruction user).operands[position.toNat]?
    setSlot user slot.key operand

/-- Append an operand in a new slot. -/
def addOperand (user : Ref) (operand : Option Ref) : Edit Unit := do
  requireSamePool user operand
  let entry ← instruction user
  modify fun store =>
    let key := store.nextSlot
    let store := store.makeSlot ⟨user, operand⟩
    let store := store.modifyInstruction user fun entry =>
      { entry with operands := entry.operands ++ [⟨key, operand⟩] }
    if entry.block.isSome then store.link operand ⟨user, key⟩ else store

/-- Append several operands. -/
def addOperands (user : Ref) : List (Option Ref) → Edit Unit
  | [] => pure ()
  | operand :: rest => do
    addOperand user operand
    addOperands user rest

/-- Keep only the first operands. -/
def truncateOperands (user : Ref) (count : Nat) : Edit Unit := do
  let entry ← instruction user
  modify fun store => store.unlinkAll user (entry.operands.drop count).reverse
  modify fun store => store.modifyInstruction user fun entry =>
    { entry with operands := entry.operands.take count }

/-- Replace the whole operand list. -/
def setOperands (user : Ref) (operands : List (Option Ref)) : Edit Unit := do
  truncateOperands user 0
  addOperands user operands

/-- Cut the operand list, or extend it by absent operands, to a length. -/
def setOperandCount (user : Ref) (count : Nat) : Edit Unit := do
  truncateOperands user count
  let entry ← instruction user
  addOperands user (List.replicate (count - entry.operands.length) none)

/-- Remove the operand at a position. -/
def removeOperand (user : Ref) (position : Int) : Edit Unit := do
  if position < 0 then stuck
  else
    let slot ← demand (← instruction user).operands[position.toNat]?
    modify fun store => store.unlink slot.value ⟨user, slot.key⟩
    modify fun store => store.modifyInstruction user fun entry =>
      { entry with operands := entry.operands.eraseIdx position.toNat }

/-- Change the opcode of an instruction. -/
def setOpcode (ref : Ref) (opcode : Opcode) : Edit Unit :=
  modify fun store => store.modifyInstruction ref fun entry => { entry with opcode := opcode }

/-- Redirect each of some uses to an operand. -/
def redirect (operand : Option Ref) : List Use → Edit Unit
  | [] => pure ()
  | use :: rest => do
    setSlot use.user use.slot operand
    redirect operand rest

/-- Redirect every use of a value to an operand. -/
def replaceUses (old : Ref) (new : Option Ref) : Edit Unit := do
  redirect new (← see (·.usesOf old))

/-- Redirect every use of a value to another operand; nothing happens if they are the same. -/
def replaceUsesWith (old : Ref) (new : Option Ref) : Edit Unit :=
  if new = some old then pure () else replaceUses old new

/-! ## Blocks -/

/-- Unlink an instruction from its block; a detached instruction stays as it is. -/
def remove (ref : Ref) : Edit Unit := do
  let entry ← instruction ref
  match entry.block with
  | none => pure ()
  | some block =>
    modify fun store => store.modifyBlock block (·.erase ref)
    modify fun store => store.relink (·.unlink ref)
    modify fun store => store.modifyInstruction ref fun entry => { entry with block := none }
    modify fun store => store.unlinkAll ref entry.operands

/--
Link a detached instruction into a block, right after a position or, when no
position is given, at its head.
-/
def insertInto (block ref : Ref) (after : Option Ref) : Edit Unit := do
  require (← see fun store => store.moduleOf? ref == store.moduleOf? block) .blockPool
  let entry ← instruction ref
  require entry.block.isNone .alreadyLinked
  match after with
  | none => modify fun store => store.modifyBlock block (ref :: ·)
  | some position =>
    require ((← see (·.blockOf? position)) == some block) .foreignPosition
    modify fun store => store.modifyBlock block (insertAfter position ref)
  modify fun store => store.relink (·.insertAfter block ref after)
  modify fun store => store.modifyInstruction ref fun entry => { entry with block := some block }
  modify fun store => store.linkAll ref entry.operands

/-- Move an instruction to the end of a block. -/
def append (block ref : Ref) : Edit Unit := do
  remove ref
  insertInto block ref (← see (·.instructions block)).getLast?

/-- Move an instruction to the head of a block. -/
def prepend (block ref : Ref) : Edit Unit := do
  remove ref
  insertInto block ref none

/-- The block of a position that has to be linked. -/
def linkedBlock (position : Option Ref) (violation : Violation) : Edit (Ref × Ref) := do
  match position with
  | none => violate violation
  | some ref =>
    match ← see (·.blockOf? ref) with
    | none => violate violation
    | some block => return (ref, block)

/-- Move an instruction right before another one. -/
def insertBefore (ref : Ref) (position : Option Ref) : Edit Unit := do
  let (target, block) ← linkedBlock position .unlinkedPosition
  if target = ref then pure ()
  else
    remove ref
    insertInto block ref (← see (·.previous? target))

/-- Move an instruction right after another one. -/
def insertBehind (ref : Ref) (position : Option Ref) : Edit Unit := do
  let (target, block) ← linkedBlock position .unlinkedPosition
  if target = ref then pure ()
  else
    remove ref
    insertInto block ref (some target)

/-! ## Names and comments -/

/-- Name a value. -/
def setName (ref : Ref) (name : String) : Edit Unit :=
  modify fun store => store.modifyValue ref fun value => { value with name := name }

/-- Add a comment to a value. -/
def addComment (ref : Ref) (comment : String) : Edit Unit :=
  modify fun store => store.modifyValue ref fun value =>
    { value with comments := value.comments ++ [comment] }

end Edit

end ShaderIR

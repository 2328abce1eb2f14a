import ShaderIR.Build

/-!
# Copying instructions

A copy has the kind, the type, the name and the own data of its source.  Its
operands, its incoming blocks and its structural blocks are those of the source
mapped by a resolver: absent operands stay absent, and a structural block that
resolves to nothing is dropped.
-/

namespace ShaderIR

/-- The blocks that an opcode records besides operands, in the order they are resolved. -/
def Opcode.held : Opcode → List (Option Ref)
  | ifElse merge | switch merge _ | simpleLoop merge | rayQueryLoop merge | outline merge
  | autodiffScope merge => [merge]
  | loop merge body update => [body, update, merge]
  | phi blocks => blocks
  | _ => []

/-- What a value becomes in a copy; `none` drops it. -/
abbrev Resolver := Ref → Edit (Option Ref)

namespace Resolver

/-- Resolve a possibly absent operand. -/
def operand (resolve : Resolver) : Option Ref → Edit (Option Ref)
  | none => pure none
  | some ref => resolve ref

/-- Resolve a list of operands, left to right. -/
def operands (resolve : Resolver) : List (Option Ref) → Edit (List (Option Ref))
  | [] => pure []
  | operand :: rest => do
    let operand ← resolve.operand operand
    return operand :: (← resolve.operands rest)

/-- Resolve a possibly absent block, which has to resolve to a block. -/
def block (resolve : Resolver) (source : Option Ref) : Edit (Option Ref) := do
  match ← resolve.operand source with
  | none => return none
  | some ref =>
    Edit.require (← Edit.see (·.isBlock ref)) .blockResolution
    return some ref

/-- The blocks a phi still has while they are resolved. -/
def currentBlocks (source : Ref) (blocks : List (Option Ref)) : Edit Unit := do
  let current ← Edit.instruction source
  if current.opcode.incomingBlocks = blocks then pure () else Edit.stuck

/--
Resolve the incoming blocks of a phi, left to right.  A resolver that changes them
while they are resolved is not followed.
-/
def blocks (resolve : Resolver) (source : Ref) (whole : List (Option Ref)) :
    List (Option Ref) → Edit (List (Option Ref))
  | [] => pure []
  | first :: rest => do
    currentBlocks source whole
    let block ← resolve.block first
    return block :: (← resolve.blocks source whole rest)

/-- Resolve the block that an instruction holds at a position at the time. -/
def held (resolve : Resolver) (source : Ref) (position : Nat) : Edit (Option Ref) := do
  let current ← Edit.instruction source
  resolve.block (← Edit.demand current.opcode.held[position]?)

/-- Resolve the blocks an instruction holds besides operands, each as it is when its turn comes. -/
def opcode (resolve : Resolver) (source : Ref) : Opcode → Edit Opcode
  | .ifElse merge => return .ifElse (← resolve.block merge)
  | .switch merge cases => return .switch (← resolve.block merge) cases
  | .loop _ body _ => do
    let body ← resolve.block body
    let update ← resolve.held source 1
    return .loop (← resolve.held source 2) body update
  | .simpleLoop merge => return .simpleLoop (← resolve.block merge)
  | .rayQueryLoop merge => return .rayQueryLoop (← resolve.block merge)
  | .outline merge => return .outline (← resolve.block merge)
  | .autodiffScope merge => return .autodiffScope (← resolve.block merge)
  | .phi blocks => return .phi (← resolve.blocks source blocks blocks)
  | opcode => return opcode

end Resolver

/--
Build a copy of an instruction at the cursor.  The operands that are resolved are
those the instruction has once its blocks are resolved.
-/
def Build.clone (source : Ref) (resolve : Resolver) : Build Ref := do
  let opcode ← resolve.opcode source (← Edit.instruction source).opcode
  let operands ← resolve.operands (← Edit.instruction source).values
  let copy ← reserve opcode (← Edit.see (·.typeOf source))
  Edit.setOperands copy operands
  Edit.setName copy (← Edit.see fun store => ((store.value? source).map (·.name)).getD "")
  place copy
  return copy

end ShaderIR

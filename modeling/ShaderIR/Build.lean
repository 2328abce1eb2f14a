import ShaderIR.Pool

/-!
# Building instructions

A cursor is a position in a block: new instructions are linked right after it,
and it then moves past them, so a sequence of building steps yields instructions
in program order.  A step that is refused leaves the cursor where it was.

Most steps check their operands before they take a number from the pool; a
branch on a condition, a switch and a phi take the number first, so a refused
one leaves a detached instruction behind.  Operands of another module are
refused only after the number is taken.
-/

namespace ShaderIR

/-- A position in a block: right after an instruction, or at the head of the block. -/
structure Cursor where
  block : Option Ref := none
  after : Option Ref := none
  deriving DecidableEq, Repr

/-- A sequence of building steps. -/
abbrev Build := StateT Cursor Edit

namespace Store

/--
The type reached from a type by index operands, `some none` when the path is
invalid.  Members of a record are chosen by integer constants; elements of other
aggregates also by other integers, all of which reach the same type.  There is no
answer when a constant index is too narrow to be read.
-/
def elementType? (store : Store) : Option Ty → List (Option Ref) → Option (Option Ty)
  | type, [] => some type
  | none, _ :: _ => some none
  | some _, none :: _ => some none
  | some type, some index :: rest =>
    if (store.typeOf index).any Ty.isInteger then
      if store.isConstant index then
        match store.constantInt? index with
        | some position => store.elementType? (type.element? position.toInt) rest
        | none => none
      else if type.isRecord then some none
      else store.elementType? (type.element? 0) rest
    else some none

/-- The type reached from a type by index operands, if there is one. -/
def elementType (store : Store) (type : Option Ty) (indices : List (Option Ref)) : Option Ty :=
  (store.elementType? type indices).join

end Store

namespace Build

/-! ## The cursor -/

/-- Build right after a linked instruction. -/
def moveAfter (instruction : Option Ref) : Build Unit := do
  let (ref, block) ← Edit.linkedBlock instruction .cursorInstruction
  set ({ block := some block, after := some ref } : Cursor)

/-- Build right before a linked instruction. -/
def moveBefore (instruction : Option Ref) : Build Unit := do
  let (ref, block) ← Edit.linkedBlock instruction .cursorInstruction
  set ({ block := some block, after := ← Edit.see (·.previous? ref) } : Cursor)

/-- Build at the head of a block. -/
def moveToHead (block : Ref) : Build Unit :=
  set ({ block := some block } : Cursor)

/-- Build at the end of a block. -/
def moveToEnd (block : Ref) : Build Unit := do
  set ({ block := some block, after := (← Edit.see (·.instructions block)).getLast? } : Cursor)

/-- Build after the leading phis of a block. -/
def moveAfterPhis (block : Ref) : Build Unit := do
  match (← Edit.see (·.phis block)).getLast? with
  | some phi => moveAfter (some phi)
  | none => moveToHead block

/-- The block of the cursor, which has to be there. -/
def cursorBlock : Build Ref := do
  match (← get).block with
  | some block => return block
  | none => Edit.violate .cursorAbsent

/-- The module of the cursor. -/
def module : Build Nat := do
  let block ← cursorBlock
  Edit.demand (← Edit.see (·.moduleOf? block))

/-- Take a number for a new, detached instruction. -/
def reserve (opcode : Opcode) (type : Option Ty) : Build Ref := do
  Edit.allocate (← module) type (.instruction { opcode })

/-- Link a detached instruction at the cursor and move past it. -/
def place (ref : Ref) : Build Unit := do
  let block ← cursorBlock
  Edit.insertInto block ref (← get).after
  modify fun cursor => { cursor with after := some ref }

/-- Build an instruction with the given operands. -/
def emit (opcode : Opcode) (type : Option Ty) (operands : List (Option Ref)) : Build Ref := do
  let ref ← reserve opcode type
  Edit.setOperands ref operands
  place ref
  return ref

/-- Move an existing instruction to the cursor. -/
def move (ref : Ref) : Build Unit := do
  let _ ← cursorBlock
  Edit.remove ref
  place ref

/-- Run building steps from no position; only what they changed stays. -/
def run {α : Type} (steps : Build α) : Edit α :=
  StateT.run' steps {}

end Build

/-! ## Setting parts of instructions -/

namespace Edit

/-- Set the condition of a two-way branch, which has to be boolean. -/
def setCondition (ref : Ref) (condition : Option Ref) : Edit Unit := do
  let type ← see (·.typeOfOption condition)
  require (condition.isNone || type.any Ty.isBool) (.branchCondition type)
  setOperand ref 0 condition

/-- Set the selector of a switch, which has to be an integer or boolean. -/
def setSelector (ref : Ref) (selector : Option Ref) : Edit Unit := do
  let type ← see (·.typeOfOption selector)
  require (selector.isNone || type.any fun type => type.isInteger || type.isBool)
    (.switchSelector type)
  setOperand ref 0 selector

/-- Append a case to a switch; its value has to be new. -/
def addCase (ref : Ref) (value : Int64) (block : Option Ref) : Edit Unit := do
  match (← instruction ref).opcode with
  | .switch merge cases =>
    require (!cases.contains value) (.duplicateCase value.toInt)
    setOpcode ref (.switch merge (cases ++ [value]))
    addOperand ref block
  | _ => stuck

/-- Set the stored value of a store, which has to have the type of the variable. -/
def setStored (ref : Ref) (stored : Option Ref) : Edit Unit := do
  let expected ← typeOfPresent (← operand ref 0)
  let type ← see (·.typeOfOption stored)
  require (stored.isSome && type == expected) (.storeType type expected)
  setOperand ref 1 stored

/-- Set the base and the indices of an element reference. -/
def setBaseAndIndices (ref : Ref) (base : Option Ref) (indices : List (Option Ref)) :
    Edit Unit := do
  require (← see fun store => base.any store.isLValue) .gepBase
  setOperands ref (base :: indices)

/-- Incoming values have to have the type of their phi. -/
def requireIncoming (phi : Ref) (incoming : Option Ref) : Edit Unit := do
  let expected ← see (·.typeOf phi)
  let type ← see (·.typeOfOption incoming)
  require (incoming.isNone || type == expected) (.phiIncoming type expected)

/-- Change the incoming blocks of a phi. -/
def modifyIncomingBlocks (phi : Ref) (change : List (Option Ref) → List (Option Ref)) :
    Edit Unit := do
  setOpcode phi (.phi (change (← instruction phi).opcode.incomingBlocks))

/-- Append an incoming pair to a phi. -/
def addIncoming (phi : Ref) (incoming block : Option Ref) : Edit Unit := do
  requireIncoming phi incoming
  addOperand phi incoming
  modifyIncomingBlocks phi (· ++ [block])

/-- Replace the incoming pair of a phi at a position. -/
def setIncoming (phi : Ref) (position : Int) (incoming block : Option Ref) : Edit Unit := do
  requireIncoming phi incoming
  setOperand phi position incoming
  if (← instruction phi).opcode.incomingBlocks.length ≤ position.toNat then stuck
  else modifyIncomingBlocks phi (·.set position.toNat block)

/--
Cut the incoming pairs of a phi, or extend them by empty ones, to a length.  For a
negative length all operands are dropped before one more is looked for.
-/
def setIncomingCount (phi : Ref) (count : Int) : Edit Unit := do
  if count < 0 then
    truncateOperands phi 0
    stuck
  else
    setOperandCount phi count.toNat
    modifyIncomingBlocks phi fun blocks =>
      blocks.take count.toNat ++ List.replicate (count.toNat - blocks.length) none

/-- Remove the incoming pair of a phi at a position. -/
def removeIncoming (phi : Ref) (position : Int) : Edit Unit := do
  removeOperand phi position
  if (← instruction phi).opcode.incomingBlocks.length ≤ position.toNat then stuck
  else modifyIncomingBlocks phi (·.eraseIdx position.toNat)

/-- Create a block in the function of a linked instruction. -/
def createBlockFor (ref : Ref) : Edit Ref := do
  match ← see (·.functionOf? ref) with
  | none => violate .unlinkedOwner
  | some function => createBlock function

/-- A declared element type has to be the one that the indices reach. -/
def requireElementType (want aggregate : Option Ty) (indices : List (Option Ref)) :
    Edit Unit := do
  let got ← demand (← see (·.elementType? aggregate indices))
  require (got == want) (.elementType aggregate indices.length got want)

end Edit

namespace Build

/-! ## Terminators -/

/-- A structured two-way branch. -/
def ifElse (condition : Option Ref) : Build Ref := do
  let ref ← reserve (.ifElse none) none
  Edit.setOperandCount ref 3
  Edit.setCondition ref condition
  place ref
  return ref

/-- An unstructured two-way branch. -/
def condBranch (condition whenTrue whenFalse : Option Ref) : Build Ref := do
  let ref ← reserve .condBranch none
  Edit.setOperandCount ref 3
  Edit.setCondition ref condition
  Edit.setOperand ref 1 whenTrue
  Edit.setOperand ref 2 whenFalse
  place ref
  return ref

/-- A structured multi-way branch without cases. -/
def switch (selector : Option Ref) : Build Ref := do
  let ref ← reserve (.switch none []) none
  Edit.setOperandCount ref 2
  Edit.setSelector ref selector
  place ref
  return ref

/-- A structured loop. -/
def loop : Build Ref := emit (.loop none none none) none [none]

/-- A structured loop with a single body. -/
def simpleLoop : Build Ref := emit (.simpleLoop none) none [none]

/-- An unconditional branch. -/
def branch (target : Option Ref) : Build Ref := emit .branch none [target]

/-- A jump out of the innermost loop or switch. -/
def breakTo (target : Option Ref) : Build Ref := emit .breakTo none [target]

/-- A jump to the update of the innermost loop. -/
def continueTo (target : Option Ref) : Build Ref := emit .continueTo none [target]

/-- A region that may be emitted as a function of its own. -/
def outline : Build Ref := emit (.outline none) none [none]

/-- The end of a block that control never reaches. -/
def unreachable (message : String) : Build Ref := emit (.unreachable message) none []

/-- Return a value of the result type of the function. -/
def ret (result : Option Ref) : Build Ref := do
  match result with
  | none => Edit.violate .returnVoid
  | some ref =>
    let block ← Edit.demand (← get).block
    let function ← Edit.demand (← Edit.see (·.blockFunction? block))
    let expected ← Edit.see (·.typeOf function)
    let type ← Edit.see (·.typeOf ref)
    Edit.require (type == expected) (.returnType type expected)
    emit .ret none [result]

/-- Return without a value. -/
def retVoid : Build Ref := emit .ret none []

/-- Discard the current fragment. -/
def rasterDiscard : Build Ref := emit .rasterDiscard none []

/-- A ray query loop. -/
def rayQueryLoop : Build Ref := emit (.rayQueryLoop none) none [none]

/-- The dispatch of a ray query loop over a query variable. -/
def rayQueryDispatch (query exit : Option Ref) : Build Ref := do
  Edit.require
    (← Edit.see fun store => query.any fun ref =>
      store.isLValue ref && (store.typeOf ref).any Ty.isRayQuery)
    .dispatchQuery
  emit .rayQueryDispatch none [query, exit, none, none]

/-- A region of automatic differentiation. -/
def autodiffScope : Build Ref := emit (.autodiffScope none) none [none]

/-! ## Memory -/

/-- Append incoming pairs to a phi. -/
def addIncomings (phi : Ref) : List (Option Ref × Option Ref) → Build Unit
  | [] => pure ()
  | (incoming, block) :: rest => do
    Edit.addIncoming phi incoming block
    addIncomings phi rest

/-- A phi with the given incoming pairs. -/
def phi (type : Option Ty) (incomings : List (Option Ref × Option Ref)) : Build Ref := do
  Edit.require type.isSome .phiVoid
  let ref ← reserve (.phi []) type
  addIncomings ref incomings
  place ref
  return ref

/-- A variable. -/
def alloca (type : Option Ty) (space : Space) : Build Ref := do
  Edit.require type.isSome .allocaVoid
  emit (.alloca space) type []

/-- Read a variable of the given type. -/
def load (type : Option Ty) (address : Option Ref) : Build Ref := do
  Edit.require (← Edit.see fun store => address.any store.isLValue) .loadLValue
  let expected ← Edit.see (·.typeOfOption address)
  Edit.require (expected == type) (.loadType type expected)
  emit .load type [address]

/-- Write a value of the variable's type into a variable. -/
def store (address stored : Option Ref) : Build Ref := do
  Edit.require (← Edit.see fun store => address.any store.isLValue) .storeLValue
  let expected ← Edit.see (·.typeOfOption address)
  let type ← Edit.see (·.typeOfOption stored)
  Edit.require (stored.isSome && type == expected) (.storeType type expected)
  emit .store none [address, stored]

/-- A reference to an element of a variable. -/
def gep (type : Option Ty) (base : Option Ref) (indices : List (Option Ref)) : Build Ref := do
  Edit.require (← Edit.see fun store => base.any store.isLValue) .gepBase
  Edit.requireElementType type (← Edit.see (·.typeOfOption base)) indices
  emit .gep type (base :: indices)

/-- An atomic operation. -/
def atomic
    (type : Option Ty)
    (op : AtomicOp)
    (base : Option Ref)
    (indices operands : List (Option Ref)) :
    Build Ref := do
  Edit.require base.isSome .atomicBase
  Edit.require (operands.length == op.valueCount)
    (.atomicValues op.name op.valueCount operands.length)
  emit (.atomic op) type (base :: indices ++ operands)

/-! ## Computation -/

/-- The rule an arithmetic operation has for its operands. -/
def checkArithmetic (type : Option Ty) (op : ArithmeticOp) (operands : List (Option Ref)) :
    Build Unit := do
  match op, operands with
  | .extract, [] => Edit.violate .extractArity
  | .extract, aggregate :: indices =>
    Edit.requireElementType type (← Edit.typeOfPresent aggregate) indices
  | .insert, aggregate :: element :: indices =>
    let aggregateType ← Edit.typeOfPresent aggregate
    Edit.require (aggregateType == type) (.insertType type aggregateType)
    Edit.requireElementType (← Edit.typeOfPresent element) type indices
  | .insert, _ => Edit.violate .insertArity
  | .select, [condition, _, _] =>
    Edit.require ((← Edit.typeOfPresent condition).any Ty.isBool) .selectOperands
  | .select, _ => Edit.violate .selectOperands
  | _, _ => pure ()

/-- An arithmetic operation. -/
def arithmetic (type : Option Ty) (op : ArithmeticOp) (operands : List (Option Ref)) :
    Build Ref := do
  checkArithmetic type op operands
  emit (.arithmetic op) type operands

/-- Read an element of an aggregate value. -/
def extract (type : Option Ty) (aggregate : Option Ref) (indices : List (Option Ref)) :
    Build Ref :=
  arithmetic type .extract (aggregate :: indices)

/-- An aggregate value with one element replaced. -/
def insert (aggregate element : Option Ref) (indices : List (Option Ref)) : Build Ref := do
  arithmetic (← Edit.typeOfPresent aggregate) .insert (aggregate :: element :: indices)

/-- A conversion; reinterpreting bits has to keep the size. -/
def cast (type : Option Ty) (op : CastOp) (operand : Option Ref) : Build Ref := do
  Edit.require operand.isSome .castOperand
  let source ← Edit.see (·.typeOfOption operand)
  match op with
  | .bitwise =>
    Edit.require (Ty.sizeOption type == Ty.sizeOption source) (.bitcastSize source type)
  | .static => pure ()
  emit (.cast op) type [operand]

/-- Arguments have to match the parameters in type, and be variables where references are taken. -/
def checkArguments (index : Nat) : List Ref → List (Option Ref) → Build Unit
  | parameter :: parameters, argument :: arguments => do
    let expected ← Edit.see (·.typeOf parameter)
    let type ← Edit.see (·.typeOfOption argument)
    Edit.require (argument.isSome && type == expected) (.callArgument index)
    if ← Edit.see (·.isLValue parameter) then
      Edit.require (← Edit.see fun store => argument.any store.isLValue) (.callReference index)
    checkArguments (index + 1) parameters arguments
  | _, _ => pure ()

/-- A call. -/
def call (type : Option Ty) (callee : Option Ref) (arguments : List (Option Ref)) :
    Build Ref := do
  match callee with
  | none => Edit.violate .calleeAbsent
  | some function =>
    let expected ← Edit.see (·.typeOf function)
    Edit.require (expected == type) (.callType type expected)
    let parameters := (← Edit.function function).arguments
    Edit.require (parameters.length == arguments.length)
      (.callArity parameters.length arguments.length)
    checkArguments 0 parameters arguments
    emit .call type (callee :: arguments)

/-- Run a ray query with outlined candidate handlers. -/
def rayQueryPipeline
    (query onSurface onProcedural : Option Ref)
    (captured : List (Option Ref)) : Build Ref := do
  Edit.require (← Edit.see fun store => query.any store.isLValue) .pipelineQuery
  emit .rayQueryPipeline none (query :: onSurface :: onProcedural :: captured)

/-- Read the clock; its type is registered before the instruction is numbered. -/
def clock : Build Ref := do
  let type ← Edit.typeBy (← module) Registry.uint64
  emit .clock (some type) []

/-- Whether an operand is a present boolean. -/
def isCondition (condition : Option Ref) : Build Bool := do
  return condition.isSome && (← Edit.see (·.typeOfOption condition)).any Ty.isBool

/-- An assertion. -/
def assertTrue (condition : Option Ref) (message : String) : Build Ref := do
  Edit.require (← isCondition condition) .assertCondition
  emit (.assertTrue message) none [condition]

/-- An assumption. -/
def assumeTrue (condition : Option Ref) (message : String) : Build Ref := do
  Edit.require (← isCondition condition) .assumeCondition
  emit (.assumeTrue message) none [condition]

end Build

end ShaderIR

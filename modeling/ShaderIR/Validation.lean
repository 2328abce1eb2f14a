import ShaderIR.Build
import ShaderIR.Traversal

/-!
# Validation

The rules a module keeps when it is ready to run: reachable blocks end in their
only terminator, phis stand first and match the predecessors, operands are
linked and belong to the function, and every instruction has operands of the
right kind.  Validation lists every broken rule, in the order of functions,
blocks and instructions, and then those of the use-lists.

The instructions of a block and the uses of a value are found by following their
links, and the links are checked on the way: neighbours have to point at each
other, and as many nodes have to be found as are counted.

An instruction with fewer operands than its kind needs cannot be judged, nor can
an element reference with a constant index that is too narrow to be read; then
validation has no answer.  It has none either when the links go round in a circle.
-/

namespace ShaderIR

/-- A broken rule and where it was found. -/
structure Issue where
  message : String
  function : Option String := none
  block : Option String := none
  instruction : Option String := none
  deriving DecidableEq, Repr

/-- The text of an issue, led by the narrowest place known. -/
def Issue.text (issue : Issue) : String :=
  match issue.function, issue.block, issue.instruction with
  | none, _, _ => issue.message
  | some function, _, some instruction =>
    "in function " ++ function ++ ", instruction " ++ instruction ++ ": " ++ issue.message
  | some function, some block, none =>
    "in function " ++ function ++ ", block " ++ block ++ ": " ++ issue.message
  | some function, none, none => "in function " ++ function ++ ": " ++ issue.message

namespace Validation

/-- The place being validated. -/
structure Place where
  module : Nat
  function : Ref
  block : Ref
  instruction : Ref

/-- The printed label of a block. -/
def blockLabel (store : Store) (block : Ref) : String := "bb" ++ toString (store.idOf block)

/-- An issue of a function. -/
def functionIssue (store : Store) (function : Ref) (message : String) : Issue :=
  { message, function := some (store.label function) }

/-- An issue of a block. -/
def blockIssue (store : Store) (function block : Ref) (message : String) : Issue :=
  { message, function := some (store.label function), block := some (blockLabel store block) }

/-- An issue of an instruction. -/
def instructionIssue (store : Store) (place : Place) (message : String) : Issue :=
  { message
    function := some (store.label place.function)
    block := some (blockLabel store place.block)
    instruction := some ("%" ++ toString (store.idOf place.instruction) ++ " (" ++
      ((store.opcode? place.instruction).map (·.mnemonic)).getD "unknown" ++ ")") }

/-- The message when a condition holds. -/
def note (condition : Bool) (message : String) : List String :=
  if condition then [message] else []

/-- The rules of one incoming pair. -/
def incomingMessages (store : Store) (predecessors : List Ref) (index : Nat) :
    Option Ref × Option Ref → List String
  | (some _, some block) =>
    note (!predecessors.contains block)
      ("phi incoming block " ++ blockLabel store block ++ " is not a predecessor")
  | _ => ["phi incoming " ++ toString index ++ " is incomplete"]

/-- The rules of a phi: one complete pair for each predecessor. -/
def phiMessages? (store : Store) (predecessors : List Ref) (phi : Ref) :
    Option (List String) := do
  let incomings ← store.incomings? phi
  let count := note (incomings.length != predecessors.length)
    ("phi has " ++ toString incomings.length ++ " incomings for " ++
      toString predecessors.length ++ " predecessors")
  return count ++ incomings.zipIdx.flatMap fun (pair, index) =>
    incomingMessages store predecessors index pair

/-- The rules of an operand's definition: it is linked and of the same function. -/
def definitionMessages (store : Store) (function : Ref) (index : Nat) (operand : Ref) :
    List String :=
  let subject := "operand " ++ toString index
  match store.content? operand with
  | some (.instruction instruction) =>
    match instruction.block with
    | none => [subject ++ " is a detached instruction"]
    | some block =>
      note (store.blockFunction? block != some function)
        (subject ++ " is defined in another function")
  | some (.argument _ owner _) =>
    note (owner != function) (subject ++ " is an argument of another function")
  | some (.block owner _) =>
    note (owner != function) (subject ++ " is a block of another function")
  | _ => []

/-- The use that a slot is, known by the instruction that made it. -/
def useOf? (store : Store) (slot : Slot) : Option Use :=
  (store.edges slot.key).map fun edge => ⟨edge.user, slot.key⟩

/-- The rules of a present operand. -/
def presentMessages
    (store : Store)
    (place : Place)
    (index : Nat)
    (slot : Slot)
    (operand : Ref) :
    List String :=
  if store.moduleOf? operand != some place.module then
    ["operand " ++ toString index ++ " and user should be in the same pool"]
  else
    note (!(useOf? store slot).any store.isAttached)
      ("operand " ++ toString index ++ " is missing from its value's use-list") ++
      definitionMessages store place.function index operand

/-- The rules of an operand. -/
def operandMessages (store : Store) (place : Place) (index : Nat) (slot : Slot) :
    List String :=
  note ((useOf? store slot).map (·.user) != some place.instruction)
    ("operand " ++ toString index ++ " is owned by another instruction") ++
    match slot.value with
    | none => []
    | some operand => presentMessages store place index slot operand

/-- Whether an operand is present and denotes a memory location. -/
def isLocation (store : Store) (operand : Option Ref) : Bool := operand.any store.isLValue

/-- The rules that the kind of an instruction has for its operands. -/
def kindMessages? (store : Store) (place : Place) (instruction : Instruction) :
    Option (List String) :=
  let type := store.typeOf place.instruction
  match instruction.opcode with
  | .load => do
    let address ← instruction.operand? 0
    let expected := store.typeOfOption address
    return if !isLocation store address then ["load from a non-lvalue"]
      else note (expected != type)
        ("load type " ++ Ty.renderOption type ++ " does not match variable type " ++
          Ty.renderOption expected)
  | .store => do
    let address ← instruction.operand? 0
    let stored ← instruction.operand? 1
    let expected := store.typeOfOption address
    let type := store.typeOfOption stored
    return if !isLocation store address then ["store to a non-lvalue"]
      else note (stored.isNone || type != expected)
        ("store value type " ++ Ty.renderOption type ++ " does not match variable type " ++
          Ty.renderOption expected)
  | .gep => do
    let base ← instruction.operand? 0
    if !isLocation store base then return ["gep base is not an lvalue"]
    else
      let reached ← store.elementType? (store.typeOfOption base) (instruction.values.drop 1)
      return note (reached != type)
        ("gep result type " ++ Ty.renderOption type ++ " does not match the addressed element")
  | .ifElse _ | .condBranch => do
    let condition ← instruction.operand? 0
    let isBool := condition.isSome && (store.typeOfOption condition).any Ty.isBool
    let whenTrue := store.asBlock (← instruction.operand? 1)
    let missing ←
      if whenTrue.isNone then pure true
      else pure (store.asBlock (← instruction.operand? 2)).isNone
    return note (!isBool) "branch condition is not a bool" ++
      note missing "conditional branch is missing a target"
  | .branch | .breakTo | .continueTo | .outline _ => do
    let target := store.asBlock (← instruction.operand? 0)
    return note target.isNone "branch has no target"
  | .switch .. => do
    let fallback := store.asBlock (← instruction.operand? 1)
    return note fallback.isNone "switch has no default block"
  | .rayQueryDispatch => do
    let exit := store.asBlock (← instruction.operand? 1)
    return note exit.isNone "ray query dispatch has no exit block"
  | .ret =>
    let expected := store.typeOf place.function
    match (instruction.operand? 0).join with
    | none => some (note expected.isSome "missing return value")
    | some result =>
      some (note (store.typeOf result != expected)
        ("return value type " ++ Ty.renderOption (store.typeOf result) ++
          " does not match function type " ++ Ty.renderOption expected))
  | .call => do
    let callee := store.asFunction (← instruction.operand? 0)
    match callee.bind store.function? with
    | none => return ["call has no callee"]
    | some function =>
      let expected := function.arguments.length
      let got := instruction.operands.length - 1
      return note (expected != got)
        ("callee takes " ++ toString expected ++ " arguments, got " ++ toString got)
  | _ => some []

/-- The rules of an instruction at its place, right after the given instruction of its block. -/
def instructionMessages?
    (store : Store)
    (place : Place)
    (predecessors : List Ref)
    (before : Option Ref)
    (isLast afterNonPhi : Bool) :
    Option (List String) := do
  let instruction ← store.instruction? place.instruction
  let links := note
    (instruction.block != some place.block || store.previous? place.instruction != before)
    "instruction list links are inconsistent"
  let terminator := note (instruction.opcode.isTerminator && !isLast)
    "terminator in the middle of a block"
  let phi ←
    if instruction.opcode.isPhi then do
      let messages ← phiMessages? store predecessors place.instruction
      pure (note afterNonPhi "phi is not at the head of its block" ++ messages)
    else pure []
  let operands := instruction.operands.zipIdx.flatMap fun (slot, index) =>
    operandMessages store place index slot
  let kind ← kindMessages? store place instruction
  return links ++ terminator ++ phi ++ operands ++ kind

/-- The issues of the instructions of a block, from some point on. -/
def instructionIssues?
    (store : Store)
    (module : Nat)
    (function block : Ref)
    (predecessors : List Ref) :
    Option Ref → Bool → List Ref → Option (List Issue)
  | _, _, [] => some []
  | before, afterNonPhi, ref :: rest => do
    let place : Place := ⟨module, function, block, ref⟩
    let isLast := store.links.last block == some ref
    let messages ← instructionMessages? store place predecessors before isLast afterNonPhi
    let others ← instructionIssues? store module function block predecessors
      (some ref) (afterNonPhi || !store.isPhi ref) rest
    return messages.map (instructionIssue store place) ++ others

/-- The issues of a reachable block. -/
def blockIssues? (store : Store) (module : Nat) (function block : Ref) :
    Option (List Issue) := do
  let owner := note (store.blockFunction? block != some function)
    "block is reachable from a different function"
  let count := store.links.count block
  if count = 0 then
    return (owner ++ ["reachable block is empty"]).map (blockIssue store function block)
  else
    let ending := note (!(store.links.last block).any store.isTerminator)
      "reachable block does not end in a terminator"
    let instructions ← store.links.walk? store.values.size (store.links.first block)
    let issues ← instructionIssues? store module function block (store.predecessors block)
      none false instructions
    let counted := note (instructions.length != count)
      ("block records " ++ toString count ++ " instructions, found " ++
        toString instructions.length)
    return (owner ++ ending).map (blockIssue store function block) ++ issues ++
      counted.map (blockIssue store function block)

/-- Whether an argument knows its function and its position. -/
def argumentMessages (store : Store) (function : Ref) (index : Nat) (argument : Ref) :
    List String :=
  match store.content? argument with
  | some (.argument _ owner position) =>
    note (owner != function || position != index)
      ("argument " ++ toString index ++ " has inconsistent parent or index")
  | _ => []

/-- The issues of a function. -/
def functionIssues? (store : Store) (module : Nat) (ref : Ref) : Option (List Issue) := do
  let function ← store.function? ref
  let issue := functionIssue store ref
  if store.moduleOf? ref != some module then
    return [issue "function and module should be in the same pool"]
  else
    let arguments := function.arguments.zipIdx.flatMap fun (argument, index) =>
      (argumentMessages store ref index argument).map issue
    if !function.isDefinition then
      return arguments ++ (note function.body.isSome "external function has a body").map issue
    else if function.body.isNone then
      return arguments ++ [issue "function definition has no body block"]
    else
      let blocks ← (store.reversePostOrder ref).mapM (blockIssues? store module ref)
      return arguments ++ blocks.flatten

/-- The rules of a use in the use-list of a value. -/
def useMessages (store : Store) (ref : Ref) (use : Use) : List String :=
  let subject := "value %" ++ toString (store.idOf ref) ++ ": use-list holds a use "
  if (store.edge? use).map (·.value) != some (some ref) then [subject ++ "of another value"]
  else
    match (store.instruction? use.user).filter (·.block.isSome) with
    | none => [subject ++ "of a detached instruction"]
    | some user =>
      note (!user.operands.any (·.key == use.slot)) (subject ++ "its user does not own")

/-- The messages about the use-list of a value, which is found by following its links. -/
def useListMessages? (store : Store) (ref : Ref) : Option (List String) := do
  let uses ← store.useLinks.walk? store.nextSlot (store.useLinks.first ref)
  let count := store.useLinks.count ref
  let counted := note (uses.length != count)
    ("value %" ++ toString (store.idOf ref) ++ ": use count " ++ toString count ++
      " does not match use-list length " ++ toString uses.length)
  return uses.flatMap (useMessages store ref) ++ counted

/-- The issues of the use-lists of a module. -/
def useIssues? (store : Store) (entry : Module) : Option (List Issue) := do
  let messages ← entry.pool.toList.mapM (useListMessages? store)
  return messages.flatten.map fun message => { message }

end Validation

/-- Every issue of a module. -/
def Store.validate? (store : Store) (module : Nat) : Option (List Issue) := do
  let entry ← store.modules[module]?
  let functions ← entry.functions.mapM (Validation.functionIssues? store module)
  let uses ← Validation.useIssues? store entry
  return functions.flatten ++ uses

end ShaderIR

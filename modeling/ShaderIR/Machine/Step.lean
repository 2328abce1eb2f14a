import Std.Data.HashMap
import ShaderIR.Machine.Arithmetic

/-!
# Steps of a run

The machine runs one thread.  Its state is a stack of frames, one for each
function being executed, the heap, the printed lines and the number of
instructions counted so far.  A step counts and executes exactly one
instruction, so a run within a limit takes at most one step more than the limit.

Calls push a frame and leave a note in the caller of what to do with the
result; a ray query pipeline is such a note that calls the handler of the next
candidate until the query ends.
-/

namespace ShaderIR.Machine

/-- What a run is given besides the program. -/
structure Settings where
  limit : Nat
  registers : List (Register × Datum) := []

/-- What a frame does when the function it called returns. -/
inductive Pending where
  | nothing
  | result (instruction : Ref)
  | pipeline (query : Nat) (onSurface onProcedural : Option Ref) (arguments : List Datum)

/-- An activation of a function: its values, its block and what is left of the block. -/
structure Frame where
  block : Ref
  values : Std.HashMap Ref Datum := {}
  rest : List Ref
  pending : Pending := .nothing

/-- The state of the machine. -/
structure State where
  frame : Frame
  callers : List Frame := []
  heap : Heap := {}
  output : List Line := []
  steps : Nat := 0

/-- The surroundings in which an instruction is executed. -/
structure Scene where
  program : Store
  settings : Settings
  values : Std.HashMap Ref Datum

namespace Scene

/-! ## Operands -/

/-- The zero of a type that has to be there. -/
def zeroOf (type : Option Ty) : Exec Datum := do
  Exec.make (zero (← Exec.demand type))

/-- The datum of a value. -/
def eval (scene : Scene) (ref : Ref) : Exec Datum := do
  let value ← Exec.demand (scene.program.value? ref)
  match value.content with
  | .constant data _ => Exec.demand (value.type.bind (constantDatum? · data))
  | .undefined => zeroOf value.type
  | .register register =>
    match scene.settings.registers.lookup register with
    | some datum => return datum
    | none => zeroOf value.type
  | .function _ | .block .. => return .entity ref
  | _ =>
    match scene.values[ref]? with
    | some datum => return datum
    | none => Exec.fail (.undefinedValue value.id)

/-- The datum of an operand, which has to be present. -/
def evalPresent (scene : Scene) (operand : Option Ref) : Exec Datum := do
  scene.eval (← Exec.demand operand)

/-- The data of all operands; absent operands have absent data. -/
def evalAll (scene : Scene) : List (Option Ref) → Exec (List Datum)
  | [] => pure []
  | none :: rest => return .absent :: (← scene.evalAll rest)
  | some ref :: rest => do
    let datum ← scene.eval ref
    return datum :: (← scene.evalAll rest)

/-- The operand of an instruction at a position, which has to exist. -/
def operand (instruction : Instruction) (position : Nat) : Exec (Option Ref) :=
  Exec.demand (instruction.operand? position)

/-- The datum of the operand at a position. -/
def evalAt (scene : Scene) (instruction : Instruction) (position : Nat) : Exec Datum := do
  scene.evalPresent (← operand instruction position)

/-- Present index operands as a path. -/
def path (scene : Scene) : List (Option Ref) → Exec (List Int)
  | [] => pure []
  | index :: rest => do
    let position ← toInteger (← scene.evalPresent index)
    return position.toInt :: (← scene.path rest)

/-- The number of a value. -/
def idOf (scene : Scene) (operand : Option Ref) : Nat :=
  (operand.map scene.program.idOf).getD 0

/-- The cell and path of a reference operand. -/
def reference (scene : Scene) (operand : Option Ref) : Exec (Nat × List Int) := do
  match ← scene.evalPresent operand with
  | .reference _ cell path => return (cell, path)
  | _ => Exec.fail (.notReference (scene.idOf operand))

/-- The content of a place. -/
def load (place : Nat × List Int) : Exec Datum := do
  Exec.demand ((← get).load? place.1 place.2)

/-- Replace the content of a place. -/
def store (place : Nat × List Int) (new : Datum) : Exec Unit := do
  set (← Exec.demand ((← get).store? place.1 place.2 new))

/-- The address of the ray query that a reference operand leads to. -/
def rayQuery (scene : Scene) (operand : Option Ref) : Exec Nat := do
  match ← load (← scene.reference operand) with
  | .rayQuery address => return address
  | _ => Exec.fail (.notRayQuery (scene.idOf operand))

/-- The ray query at an address. -/
def queryAt (address : Nat) : Exec RayQuery := do
  Exec.demand (← get).rayQueries[address]?

/-- Change the ray query at an address. -/
def setQuery (address : Nat) (query : RayQuery) : Exec Unit :=
  modify fun heap =>
    { heap with rayQueries := heap.rayQueries.setIfInBounds address query }

/-- The address and elements of a buffer operand. -/
def buffer (scene : Scene) (operand : Option Ref) : Exec (Nat × List Datum) := do
  match ← scene.evalPresent operand with
  | .buffer address => return (address, ← Exec.demand (← get).buffers[address]?)
  | _ => Exec.fail (.notBuffer (scene.idOf operand))

/-- Replace an element of a buffer. -/
def storeElement (address : Nat) (index : Int) (new : Datum) : Exec Unit := do
  let elements ← Exec.demand (← get).buffers[address]?
  let _ ← Exec.demand (Datum.elementAt? elements index)
  modify fun heap =>
    { heap with
      buffers := heap.buffers.setIfInBounds address (elements.set index.toNat new) }

/-! ## Atomic operations -/

/--
Whether two data are equal when compared as values: of one kind and equal, for
handles the same handle.  Two aggregates cannot be compared.
-/
def sameDatum : Datum → Datum → Exec Bool
  | .absent, .absent => pure true
  | .bool left, .bool right => pure (left == right)
  | .int left, .int right => pure (left == right)
  | .uint left, .uint right => pure (left == right)
  | .float left, .float right => pure (left == right)
  | .aggregate _, .aggregate _ => Exec.stuck
  | .reference left _ _, .reference right _ _ => pure (left == right)
  | .buffer left, .buffer right => pure (left == right)
  | .rayQuery left, .rayQuery right => pure (left == right)
  | .entity left, .entity right => pure (left == right)
  | _, _ => pure false

/-- The arithmetic operation of an atomic update. -/
def updateOp? : AtomicOp → Option ArithmeticOp
  | .fetchAdd => some .add
  | .fetchSub => some .sub
  | .fetchAnd => some .bitAnd
  | .fetchOr => some .bitOr
  | .fetchXor => some .bitXor
  | .fetchMin => some .min
  | .fetchMax => some .max
  | _ => none

/-- What an atomic operation stores, if anything, given the old content. -/
def updated
    (scene : Scene)
    (type : Option Ty)
    (op : AtomicOp)
    (old : Datum)
    (values : List Datum) : Exec (Option Datum) := do
  match op, values with
  | .exchange, new :: _ => return some new
  | .compareExchange, expected :: new :: _ =>
    if ← sameDatum old expected then return some new else return none
  | op, operand :: _ =>
    let op ← Exec.demand (updateOp? op)
    return some (← arithmetic scene.program type op [old, operand])
  | _, _ => Exec.stuck

/-- Execute an atomic operation and return the old content. -/
def atomic (scene : Scene) (type : Option Ty) (op : AtomicOp) (instruction : Instruction) :
    Exec Datum := do
  let operands := instruction.values
  if operands.length < 1 + op.valueCount then Exec.stuck
  else
    let indices := (operands.drop 1).take (operands.length - 1 - op.valueCount)
    let base ← operand instruction 0
    let path ← scene.path indices
    let target ← scene.evalPresent base
    match target with
    | .reference _ cell below =>
      let values ← evalValues operands
      let place := (cell, below ++ path)
      let old ← load place
      match ← scene.updated type op old values with
      | some new => store place new
      | none => pure ()
      return old
    | .buffer address =>
      match path with
      | [index] =>
        let values ← evalValues operands
        let elements ← Exec.demand (← get).buffers[address]?
        let old ← Exec.demand (Datum.elementAt? elements index)
        match ← scene.updated type op old values with
        | some new => storeElement address index new
        | none => pure ()
        return old
      | path => Exec.fail (.bufferIndices path.length)
    | _ => Exec.fail (.atomicBase (scene.idOf base))
where
  /-- The data of the value operands, which have to be present. -/
  evalValues (operands : List (Option Ref)) : Exec (List Datum) :=
    (operands.drop (operands.length - op.valueCount)).mapM scene.evalPresent

/-! ## Instructions without calls -/

/-- The result of a thread-group operation on a single thread. -/
def threadGroup
    (scene : Scene)
    (type : Option Ty)
    (op : ThreadGroupOp)
    (instruction : Instruction) : Exec (Option Datum) := do
  match op with
  | .warpActiveSum | .warpReadLaneAt => return some (← scene.evalAt instruction 0)
  | .warpActiveAllEqual =>
    return some (← mapScalars (fun _ => pure (.bool true)) (← scene.evalAt instruction 0))
  | .warpFirstActiveLane => return some (← zeroOf type)
  | _ => return none

/-- The result of reading a ray query object. -/
def rayQueryRead
    (scene : Scene)
    (type : Option Ty)
    (op : RayQueryReadOp)
    (instruction : Instruction) : Exec Datum := do
  let query ← queryAt (← scene.rayQuery (← operand instruction 0))
  match op with
  | .isTriangleCandidate => return .bool (query.isAt .triangle)
  | .isProceduralCandidate => return .bool (query.isAt .procedural)
  | .isTerminated => return .bool query.terminated
  | _ => zeroOf type

/-- Update a ray query object. -/
def rayQueryWrite (scene : Scene) (op : RayQueryWriteOp) (instruction : Instruction) :
    Exec Unit := do
  let address ← scene.rayQuery (← operand instruction 0)
  let query ← queryAt address
  match op with
  | .commitTriangle | .commitProcedural =>
    setQuery address { query with committed := query.committed ++ [query.current] }
  | .terminate => setQuery address { query with terminated := true }
  | _ => pure ()

/-- A condition operand as a truth value. -/
def condition (scene : Scene) (instruction : Instruction) : Exec Bool := do
  match ← scene.evalAt instruction 0 with
  | .bool truth => return truth
  | _ => Exec.stuck

/--
Execute an instruction that neither calls nor ends its block, at a step count.
Its result, if it has one, becomes the value of the instruction.
-/
def execute (scene : Scene) (ref : Ref) (instruction : Instruction) (steps : Nat) :
    Exec (Option Datum) := do
  let type := scene.program.typeOf ref
  match instruction.opcode with
  | .alloca _ =>
    let content ← zeroOf type
    return some (← Exec.make (·.newVariable content))
  | .load => return some (← load (← scene.reference (← operand instruction 0)))
  | .store =>
    let place ← scene.reference (← operand instruction 0)
    store place (← scene.evalAt instruction 1)
    return none
  | .gep =>
    let base ← operand instruction 0
    let path ← scene.path (instruction.values.drop 1)
    let (cell, below) ← scene.reference base
    return some (← Exec.make (·.newReference cell (below ++ path)))
  | .atomic op => return some (← scene.atomic type op instruction)
  | .arithmetic op =>
    return some (← arithmetic scene.program type op (← scene.evalAll instruction.values))
  | .cast op =>
    let source ← Exec.demand (← operand instruction 0)
    return some (← cast type op (scene.program.typeOf source) (← scene.eval source))
  | .threadGroup op => scene.threadGroup type op instruction
  | .resourceQuery op =>
    match op with
    | .bufferSize =>
      let (_, elements) ← scene.buffer (← operand instruction 0)
      return some (.uint (UInt64.ofNat elements.length))
    | _ => Exec.fail (.resourceQuery op.code)
  | .resourceRead op =>
    match op with
    | .buffer =>
      let (_, elements) ← scene.buffer (← operand instruction 0)
      let index ← toInteger (← scene.evalAt instruction 1)
      return some (← Exec.demand (Datum.elementAt? elements index.toInt))
    | _ => Exec.fail (.resourceRead op.code)
  | .resourceWrite op =>
    match op with
    | .buffer =>
      let (address, _) ← scene.buffer (← operand instruction 0)
      let index ← toInteger (← scene.evalAt instruction 1)
      let new ← scene.evalAt instruction 2
      storeElement address index.toInt new
      return none
    | _ => Exec.fail (.resourceWrite op.code)
  | .rayQueryRead op => return some (← scene.rayQueryRead type op instruction)
  | .rayQueryWrite op =>
    scene.rayQueryWrite op instruction
    return none
  | .clock => return some (.uint (UInt64.ofNat steps))
  | .assertTrue message =>
    if ← scene.condition instruction then return none else throw (.assertion message)
  | .assumeTrue _ => return none
  | .autodiff op =>
    match op with
    | .detach => return some (← scene.evalAt instruction 0)
    | .gradient => return some (← zeroOf type)
    | _ => return none
  | opcode => Exec.fail (.instruction opcode.mnemonic)

/-! ## Terminators -/

/-- Where control goes at the end of a block. -/
inductive Transfer where
  | jump (target : Option Ref)
  | back (result : Datum)

/-- The block operand at a position. -/
def target (scene : Scene) (instruction : Instruction) (position : Nat) : Exec Transfer := do
  return .jump (scene.program.asBlock (← operand instruction position))

/-- Advance a query until a candidate has a handler, and return that handler. -/
def dispatch (handler : Candidate → Option Ref) : Nat → RayQuery → Option Ref × RayQuery
  | 0, query => (none, query)
  | left + 1, query =>
    match query.advance? with
    | none => (none, query)
    | some (candidate, query) =>
      match handler candidate with
      | some found => (some found, query)
      | none => dispatch handler left query

/-- Advance the query at an address to the next candidate with a handler. -/
def nextHandler (address : Nat) (onSurface onProcedural : Option Ref) : Exec (Option Ref) := do
  let query ← queryAt address
  let (found, query) := dispatch
    (fun candidate =>
      match candidate with
      | .triangle => onSurface
      | .procedural => onProcedural)
    (query.candidates.length + 1) query
  setQuery address query
  return found

/-- The position of the case a selector takes. -/
def casePosition? (cases : List Int64) (selector : Int64) : Option Nat :=
  (cases.findIdx? (· == selector)).map (· + 2)

/-- Execute a terminator. -/
def terminate (scene : Scene) (instruction : Instruction) : Exec Transfer := do
  match instruction.opcode with
  | .ifElse _ | .condBranch =>
    if ← scene.condition instruction then scene.target instruction 1
    else scene.target instruction 2
  | .switch _ cases =>
    let selector ← toInteger (← scene.evalAt instruction 0)
    scene.target instruction ((casePosition? cases selector).getD 1)
  | .loop .. | .simpleLoop _ | .branch | .breakTo | .continueTo | .outline _
  | .autodiffScope _ | .rayQueryLoop _ => scene.target instruction 0
  | .rayQueryDispatch =>
    let address ← scene.rayQuery (← operand instruction 0)
    let onSurface := scene.program.asBlock (instruction.operand? 2).join
    let onProcedural := scene.program.asBlock (instruction.operand? 3).join
    match ← nextHandler address onSurface onProcedural with
    | some block => return .jump (some block)
    | none => scene.target instruction 1
  | .ret =>
    match (instruction.operand? 0).join with
    | some result => return .back (← scene.eval result)
    | none => return .back .absent
  | .unreachable message =>
    let block ← Exec.demand instruction.block
    throw (.unreachable (scene.program.idOf block) message)
  | .rasterDiscard => throw .discarded
  | _ => Exec.stuck

/-! ## Entering blocks and functions -/

/-- The data that the phis of a block take on an edge, all read before any is written. -/
def incomingData (scene : Scene) (source : Ref) : List Ref → Exec (List (Ref × Datum))
  | [] => pure []
  | phi :: rest => do
    let instruction ← Exec.demand (scene.program.instruction? phi)
    match instruction.opcode.incomingBlocks.findIdx? (· == some source) with
    | none =>
      Exec.fail (.missingIncoming (scene.program.idOf phi) (scene.program.idOf source))
    | some position =>
      let datum ← scene.evalAt instruction position
      return (phi, datum) :: (← scene.incomingData source rest)

/-- The values of a frame after entering a block over an edge. -/
def enter (scene : Scene) (block : Ref) (source : Option Ref) :
    Exec (Std.HashMap Ref Datum) := do
  match scene.program.phis block, source with
  | [], _ => return scene.values
  | _ :: _, none => Exec.fail (.entryPhi (scene.program.idOf block))
  | phis, some source =>
    let data ← scene.incomingData source phis
    return data.foldl (fun values (phi, datum) => values.insert phi datum) scene.values

/-- The arguments of a function bound to data; references have to be given where taken. -/
def bind (program : Store) (function : Ref) :
    Nat → List Ref → List Datum → Std.HashMap Ref Datum → Exec (Std.HashMap Ref Datum)
  | _, [], _, values => pure values
  | _, _ :: _, [], _ => Exec.stuck
  | index, parameter :: parameters, argument :: arguments, values => do
    let isReference := match argument with
      | .reference .. => true
      | _ => false
    if program.isLValue parameter && !isReference then
      Exec.fail (.argument index (program.idOf function) (kindIn program argument))
    else
      bind program function (index + 1) parameters arguments (values.insert parameter argument)

/-- The ray query of a pipeline, and the arguments that its handlers are called with. -/
def pipelineStart (scene : Scene) (instruction : Instruction) : Exec (Nat × List Datum) := do
  let query ← operand instruction 0
  let place ← scene.reference query
  let reference ← scene.evalPresent query
  match ← load place with
  | .rayQuery address =>
    let data ← scene.evalAll instruction.values
    if data.length < 3 then Exec.stuck
    else return (address, reference :: data.drop 3)
  | datum => Exec.fail (.pipelineQuery (kindIn scene.program datum))

end Scene

/-- The frame of a function called with some arguments. -/
def callFrame
    (program : Store)
    (settings : Settings)
    (function : Ref)
    (arguments : List Datum) : Exec Frame := do
  let entry ← Exec.demand (program.function? function)
  if !entry.isDefinition then Exec.fail (.externalCall (program.idOf function))
  else
    let values ← Scene.bind program function 0 entry.arguments arguments {}
    let body ← Exec.demand entry.body
    let values ← Scene.enter ⟨program, settings, values⟩ body none
    return { block := body, values, rest := program.afterPhis body }

/-! ## The step -/

/-- What a step leads to. -/
inductive Progress where
  | running (state : State)
  | finished (result : Datum) (state : State)
  | halted (halt : Halt) (state : State)

namespace State

/-- Continue after a computation on the heap, or halt with the heap it left. -/
def after {α : Type} (state : State) (work : Exec α) (next : α → State → Progress) : Progress :=
  let heap := state.heap
  let state := { state with heap := {} }
  match work.run.run heap with
  | (.ok found, heap) => next found { state with heap := heap }
  | (.error halt, heap) => .halted halt { state with heap := heap }

/-- Give the current instruction its result and move on. -/
def proceed (state : State) (ref : Ref) (result : Option Datum) : State :=
  match result with
  | none => state
  | some datum =>
    { state with frame := { state.frame with values := state.frame.values.insert ref datum } }

/-- Call a function from the current frame. -/
def call
    (program : Store)
    (settings : Settings)
    (state : State)
    (pending : Pending)
    (function : Ref)
    (arguments : List Datum) : Progress :=
  state.after (callFrame program settings function arguments) fun frame state =>
    .running
      { state with
        frame := frame
        callers := { state.frame with pending := pending } :: state.callers }

/-- Run the handler of the next candidate of a pipeline, or move on when there is none. -/
def dispatch
    (program : Store)
    (settings : Settings)
    (state : State)
    (query : Nat)
    (onSurface onProcedural : Option Ref)
    (arguments : List Datum) : Progress :=
  state.after (Scene.nextHandler query onSurface onProcedural) fun handler state =>
    match handler with
    | some function =>
      call program settings state (.pipeline query onSurface onProcedural arguments) function
        arguments
    | none => .running state

/-- Return a result to the calling frame, or end the run. -/
def back (program : Store) (settings : Settings) (state : State) (result : Datum) : Progress :=
  match state.callers with
  | [] => .finished result state
  | caller :: callers =>
    let state := { state with frame := { caller with pending := .nothing }, callers := callers }
    match caller.pending with
    | .nothing => .running state
    | .result instruction =>
      if (program.typeOf instruction).isSome then
        .running (state.proceed instruction (some result))
      else .running state
    | .pipeline query onSurface onProcedural arguments =>
      state.dispatch program settings query onSurface onProcedural arguments

/-- Move to a block, which has to be there. -/
def jump (program : Store) (settings : Settings) (state : State) (target : Option Ref) :
    Progress :=
  match target with
  | none => .halted .stuck state
  | some block =>
    let source := state.frame.block
    let scene : Scene := ⟨program, settings, state.frame.values⟩
    state.after (scene.enter block (some source)) fun values state =>
      .running
        { state with
          frame := { state.frame with block, values, rest := program.afterPhis block } }

/-- Call the function of a call instruction. -/
def performCall
    (program : Store)
    (settings : Settings)
    (state : State)
    (ref : Ref)
    (instruction : Instruction) : Progress :=
  let scene : Scene := ⟨program, settings, state.frame.values⟩
  let work : Exec (Ref × List Datum) := do
    let data ← scene.evalAll instruction.values
    let callee := program.asFunction (← Scene.operand instruction 0)
    return (← Exec.demand callee, data.drop 1)
  state.after work fun (function, arguments) state =>
    state.call program settings (.result ref) function arguments

/-- Start a ray query pipeline. -/
def performPipeline
    (program : Store)
    (settings : Settings)
    (state : State)
    (instruction : Instruction) : Progress :=
  let scene : Scene := ⟨program, settings, state.frame.values⟩
  state.after (scene.pipelineStart instruction) fun (address, arguments) state =>
    let handler (position : Nat) : Option Ref :=
      program.asFunction (instruction.operand? position).join
    state.dispatch program settings address (handler 1) (handler 2) arguments

/-- Print a line. -/
def performPrint
    (program : Store)
    (settings : Settings)
    (state : State)
    (format : String)
    (instruction : Instruction) : Progress :=
  let scene : Scene := ⟨program, settings, state.frame.values⟩
  let work : Exec Line := do
    let data ← scene.evalAll instruction.values
    Exec.demand (printLine? (← get) format data)
  state.after work fun line state => .running { state with output := line :: state.output }

/-- Execute one instruction at the current step count. -/
def perform
    (program : Store)
    (settings : Settings)
    (state : State)
    (ref : Ref)
    (instruction : Instruction) : Progress :=
  let scene : Scene := ⟨program, settings, state.frame.values⟩
  if instruction.opcode.isTerminator then
    state.after (scene.terminate instruction) fun transfer state =>
      match transfer with
      | .jump target => state.jump program settings target
      | .back result => state.back program settings result
  else
    match instruction.opcode with
    | .call => state.performCall program settings ref instruction
    | .rayQueryPipeline => state.performPipeline program settings instruction
    | .print format => state.performPrint program settings format instruction
    | _ =>
      state.after (scene.execute ref instruction state.steps) fun result state =>
        .running (state.proceed ref result)

/-- One step: count the next instruction of the current block and execute it. -/
def step (program : Store) (settings : Settings) (state : State) : Progress :=
  match state.frame.rest with
  | [] => .halted (.unsupported (.noTerminator (program.idOf state.frame.block))) state
  | ref :: rest =>
    let state :=
      { state with steps := state.steps + 1, frame := { state.frame with rest := rest } }
    if settings.limit < state.steps then .halted (.stepLimit settings.limit) state
    else
      match program.instruction? ref with
      | none => .halted .stuck state
      | some instruction => state.perform program settings ref instruction

end State

end ShaderIR.Machine

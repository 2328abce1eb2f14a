import ShaderIR.Instruction
import ShaderIR.Links
import ShaderIR.Ty.Registry

/-!
# The store

All values of all modules live in one store.  A value knows its module, its
number in the pool of that module, its type and the operands that use it; its
content says whether it is a constant, an argument, a block, a function, an
instruction and so on.  Blocks list their instructions, functions their
arguments and blocks, and modules their values, types, functions and interned
values.

The use-lists and the instruction lists are linked lists.  The store keeps their
links next to the lists themselves: an edit changes both, and validation checks
the links against what it finds by following them.

Values are never freed: an edit only unlinks them.
-/

namespace ShaderIR

/-- How an argument is passed. -/
inductive Passing where
  | byValue
  | byReference
  | resource
  deriving DecidableEq, Repr

/-- The position of a way of passing in its fixed numbering. -/
def Passing.code : Passing → Nat
  | .byValue => 0
  | .byReference => 1
  | .resource => 2

/-- Kernels and callables are definitions; externals are only declared. -/
inductive FunctionKind where
  | kernel
  | callable
  | external
  deriving DecidableEq, Repr

/-- The printed name of a function kind. -/
def FunctionKind.name : FunctionKind → String
  | .kernel => "kernel"
  | .callable => "callable"
  | .external => "external"

/-- A function: its arguments, its entry block and every block created for it. -/
structure Function where
  kind : FunctionKind
  arguments : List Ref := []
  body : Option Ref := none
  blocks : List Ref := []
  removed : Bool := false
  deriving DecidableEq, Repr

/-- Whether a function has blocks of its own. -/
def Function.isDefinition (function : Function) : Bool :=
  function.kind != .external

/-- What a value is. -/
inductive Content where
  | undefined
  | constant (data : List UInt8) (hash : UInt64)
  | register (register : Register)
  | argument (passing : Passing) (function : Ref) (index : Nat)
  | block (function : Ref) (instructions : List Ref)
  | function (function : Function)
  | instruction (instruction : Instruction)
  deriving DecidableEq, Repr

/-- The name of the family a value belongs to. -/
def Content.familyName : Content → String
  | .undefined => "undefined"
  | .constant .. => "constant"
  | .register _ => "special_register"
  | .argument .. => "argument"
  | .block .. => "basic_block"
  | .function _ => "function"
  | .instruction _ => "instruction"

/--
Whether a value is the same wherever it is visible: undefined values,
constants, arguments and registers are, results of instructions are not.
-/
def Content.isInvariant : Content → Bool
  | .undefined | .constant .. | .register _ | .argument .. => true
  | _ => false

/-- A value of the store. -/
structure Value where
  module : Nat
  id : Nat
  type : Option Ty
  content : Content
  name : String := ""
  comments : List String := []
  uses : List Use := []
  deriving Repr

/-- A compilation unit: its pool, its types, its functions and its interned values. -/
structure Module where
  name : String
  registry : Registry
  pool : Array Ref := #[]
  functions : List Ref := []
  constants : List Ref := []
  undefineds : List (Option Ty × Ref) := []
  registers : List (Register × Ref) := []
  deriving Repr

/--
What the store keeps besides the lists: the links of the instructions of blocks,
the links of the uses of values, and the edge of every slot that was ever made,
under the key of the slot.
-/
structure Records where
  edges : Nat → Option Edge := fun _ => none
  links : Links Ref Ref := {}
  useLinks : Links Ref Use := {}

/-- Every value of every module, and the records of what is linked. -/
structure Store extends Records where
  values : Array Value := #[]
  modules : Array Module := #[]
  nextSlot : Nat := 0

namespace Store

/-! ## Reading -/

/-- The value behind a reference. -/
def value? (store : Store) (ref : Ref) : Option Value :=
  store.values[ref.index]?

/-- What the value behind a reference is. -/
def content? (store : Store) (ref : Ref) : Option Content :=
  (store.value? ref).map (·.content)

/-- The number of a value in the pool of its module. -/
def idOf (store : Store) (ref : Ref) : Nat :=
  ((store.value? ref).map (·.id)).getD 0

/-- The type of a value; `none` for values without a result. -/
def typeOf (store : Store) (ref : Ref) : Option Ty :=
  (store.value? ref).bind (·.type)

/-- The type of an operand; an absent operand has none. -/
def typeOfOption (store : Store) (operand : Option Ref) : Option Ty :=
  operand.bind store.typeOf

/-- The module of a value. -/
def moduleOf? (store : Store) (ref : Ref) : Option Nat :=
  (store.value? ref).map (·.module)

/-- The use-list of a value, oldest use first. -/
def usesOf (store : Store) (ref : Ref) : List Use :=
  ((store.value? ref).map (·.uses)).getD []

/-- Whether a value is used by a linked instruction. -/
def hasUses (store : Store) (ref : Ref) : Bool :=
  !(store.usesOf ref).isEmpty

/-- The instruction behind a reference. -/
def instruction? (store : Store) (ref : Ref) : Option Instruction :=
  match store.content? ref with
  | some (.instruction instruction) => some instruction
  | _ => none

/-- The function behind a reference. -/
def function? (store : Store) (ref : Ref) : Option Function :=
  match store.content? ref with
  | some (.function function) => some function
  | _ => none

/-- Whether a reference denotes a block. -/
def isBlock (store : Store) (ref : Ref) : Bool :=
  match store.content? ref with
  | some (.block ..) => true
  | _ => false

/-- Whether a reference denotes a function. -/
def isFunction (store : Store) (ref : Ref) : Bool :=
  (store.function? ref).isSome

/-- Whether a reference denotes an instruction. -/
def isInstruction (store : Store) (ref : Ref) : Bool :=
  (store.instruction? ref).isSome

/-- Whether a reference denotes a constant. -/
def isConstant (store : Store) (ref : Ref) : Bool :=
  match store.content? ref with
  | some (.constant ..) => true
  | _ => false

/-- Whether a reference denotes an undefined value. -/
def isUndefined (store : Store) (ref : Ref) : Bool :=
  match store.content? ref with
  | some .undefined => true
  | _ => false

/-- The opcode of an instruction. -/
def opcode? (store : Store) (ref : Ref) : Option Opcode :=
  (store.instruction? ref).map (·.opcode)

/-- Whether a reference denotes a phi. -/
def isPhi (store : Store) (ref : Ref) : Bool :=
  (store.opcode? ref).any (·.isPhi)

/-- Whether a reference denotes a terminator. -/
def isTerminator (store : Store) (ref : Ref) : Bool :=
  (store.opcode? ref).any (·.isTerminator)

/-- Whether a value denotes a memory location. -/
def isLValue (store : Store) (ref : Ref) : Bool :=
  match store.content? ref with
  | some (.argument passing ..) => passing == .byReference
  | some (.instruction instruction) => instruction.opcode.isLValue
  | _ => false

/-- The block an instruction is linked into. -/
def blockOf? (store : Store) (ref : Ref) : Option Ref :=
  (store.instruction? ref).bind (·.block)

/-- The function that owns a block. -/
def blockFunction? (store : Store) (ref : Ref) : Option Ref :=
  match store.content? ref with
  | some (.block function _) => some function
  | _ => none

/-- The function of the block an instruction is linked into. -/
def functionOf? (store : Store) (ref : Ref) : Option Ref :=
  (store.blockOf? ref).bind store.blockFunction?

/-- The instructions of a block, in order. -/
def instructions (store : Store) (block : Ref) : List Ref :=
  match store.content? block with
  | some (.block _ instructions) => instructions
  | _ => []

/-- The operand values of an instruction. -/
def operands (store : Store) (ref : Ref) : List (Option Ref) :=
  ((store.instruction? ref).map (·.values)).getD []

/-- The last instruction of a block when it is a terminator. -/
def terminator? (store : Store) (block : Ref) : Option Ref :=
  (store.instructions block).getLast?.filter store.isTerminator

/-- The opcode of the terminator of a block. -/
def terminatorOpcode? (store : Store) (block : Ref) : Option Opcode :=
  (store.terminator? block).bind store.opcode?

/-- Whether a block ends in an unreachable terminator. -/
def endsUnreachable (store : Store) (block : Ref) : Bool :=
  (store.terminatorOpcode? block).any (·.isUnreachable)

/-- An operand when it is a block. -/
def asBlock (store : Store) (operand : Option Ref) : Option Ref :=
  operand.filter store.isBlock

/-- An operand when it is a function. -/
def asFunction (store : Store) (operand : Option Ref) : Option Ref :=
  operand.filter store.isFunction

/-- The instruction that is linked before another one. -/
def previous? (store : Store) (ref : Ref) : Option Ref :=
  store.links.previous ref

/-- The instruction that is linked after another one. -/
def next? (store : Store) (ref : Ref) : Option Ref :=
  store.links.next ref

/-- The edge of a use. -/
def edge? (store : Store) (use : Use) : Option Edge :=
  (store.edges use.slot).filter (·.user == use.user)

/-- Whether a use is linked into the use-list of a value. -/
def isAttached (store : Store) (use : Use) : Bool :=
  (store.useLinks.owner use).isSome

/-- The leading phis of a block. -/
def phis (store : Store) (block : Ref) : List Ref :=
  (store.instructions block).takeWhile store.isPhi

/-- The instructions of a block after its leading phis. -/
def afterPhis (store : Store) (block : Ref) : List Ref :=
  (store.instructions block).dropWhile store.isPhi

/-- The elements of a list without repetitions, each at its first occurrence. -/
def distinct (refs : List Ref) : List Ref :=
  refs.foldl (fun seen ref => if seen.contains ref then seen else seen ++ [ref]) []

/--
The distinct blocks control may move to from a block, in operand order of its
terminator.  Merge blocks and other block fields are no successors.
-/
def successors (store : Store) (block : Ref) : List Ref :=
  match store.terminator? block with
  | none => []
  | some terminator =>
    distinct ((store.operands terminator).filterMap store.asBlock)

/-- The distinct blocks of the same function whose linked terminators target a block. -/
def predecessors (store : Store) (block : Ref) : List Ref :=
  distinct <| (store.usesOf block).filterMap fun use =>
    if store.isTerminator use.user then
      (store.blockOf? use.user).filter fun source =>
        store.blockFunction? source == store.blockFunction? block
    else none

/-- The printed label of a function: its name, or its number when it has none. -/
def label (store : Store) (function : Ref) : String :=
  match store.value? function with
  | some value => if value.name = "" then "@" ++ toString value.id else "@" ++ value.name
  | none => "@0"

/-- The functions of a module, in creation order. -/
def functions (store : Store) (module : Nat) : List Ref :=
  (store.modules[module]?.map (·.functions)).getD []

/-- The kernels and callables of a module. -/
def definitions (store : Store) (module : Nat) : List Ref :=
  (store.functions module).filter fun function =>
    (store.function? function).any (·.isDefinition)

/-- The entry block of a function. -/
def body? (store : Store) (function : Ref) : Option Ref :=
  (store.function? function).bind (·.body)

/-- The incoming pairs of a phi: `none` when it has fewer operands than blocks. -/
def incomings? (store : Store) (phi : Ref) : Option (List (Option Ref × Option Ref)) :=
  (store.instruction? phi).bind fun instruction =>
    let blocks := instruction.opcode.incomingBlocks
    if instruction.operands.length < blocks.length then none
    else some (instruction.values.zip blocks)

/-! ## Writing -/

/-- Change the value behind a reference. -/
def modifyValue (store : Store) (ref : Ref) (change : Value → Value) : Store :=
  { store with values := store.values.modify ref.index change }

/-- Change an instruction; other values stay as they are. -/
def modifyInstruction
    (store : Store)
    (ref : Ref)
    (change : Instruction → Instruction) :
    Store :=
  store.modifyValue ref fun value =>
    match value.content with
    | .instruction instruction => { value with content := .instruction (change instruction) }
    | _ => value

/-- Change a function; other values stay as they are. -/
def modifyFunction (store : Store) (ref : Ref) (change : Function → Function) : Store :=
  store.modifyValue ref fun value =>
    match value.content with
    | .function function => { value with content := .function (change function) }
    | _ => value

/-- Change the instruction list of a block; other values stay as they are. -/
def modifyBlock (store : Store) (ref : Ref) (change : List Ref → List Ref) : Store :=
  store.modifyValue ref fun value =>
    match value.content with
    | .block function instructions =>
      { value with content := .block function (change instructions) }
    | _ => value

/-- Change the records; the lists stay as they are. -/
def record (store : Store) (change : Records → Records) : Store :=
  { store with toRecords := change store.toRecords }

/-- Change the links of the instructions of blocks. -/
abbrev relink (store : Store) (change : Links Ref Ref → Links Ref Ref) : Store :=
  store.record fun records => { records with links := change records.links }

/-- Change the links of the uses of values. -/
abbrev relinkUses (store : Store) (change : Links Ref Use → Links Ref Use) : Store :=
  store.record fun records => { records with useLinks := change records.useLinks }

/-- Change the edge of a slot. -/
abbrev putEdge (store : Store) (key : Nat) (edge : Edge) : Store :=
  store.record fun records => { records with edges := redefine records.edges key (some edge) }

/-- Change a module. -/
def modifyModule (store : Store) (module : Nat) (change : Module → Module) : Store :=
  { store with modules := store.modules.modify module change }

/-- Add an empty module and return its number. -/
def addModule (store : Store) (name : String) : Nat × Store :=
  let module := store.modules.size
  (module, { store with modules := store.modules.push { name, registry := { owner := module } } })

/-- Add a value to the pool of a module under the next number. -/
def allocate
    (store : Store)
    (module : Nat)
    (type : Option Ty)
    (content : Content) :
    Ref × Store :=
  let ref : Ref := ⟨store.values.size⟩
  let id := (store.modules[module]?.map (·.pool.size)).getD 0
  let store := store.modifyModule module fun entry => { entry with pool := entry.pool.push ref }
  (ref, { store with values := store.values.push { module, id, type, content } })

end Store

end ShaderIR

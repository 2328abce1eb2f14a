import ShaderIR.Operation

/-!
# Instructions

An instruction has an opcode, which carries everything that is not an operand
(merge blocks, case values, messages, operations), a list of operand slots and
the block it is linked into, if any.

Operands live in slots.  A slot keeps its key for as long as it belongs to the
instruction, so that the use-list of a value can tell two operands of one
instruction apart even while positions shift.
-/

namespace ShaderIR

/-- A reference to a value of the store. -/
structure Ref where
  index : Nat
  deriving DecidableEq, Repr, Hashable, Inhabited

/-- The address space of a variable. -/
inductive Space where
  | local
  | shared
  deriving DecidableEq, Repr

/-- The printed name of an address space. -/
def Space.name : Space → String
  | .local => "local"
  | .shared => "shared"

/-- The kind of an instruction together with what it holds besides operands. -/
inductive Opcode where
  | ifElse (merge : Option Ref)
  | switch (merge : Option Ref) (cases : List Int64)
  | loop (merge body update : Option Ref)
  | simpleLoop (merge : Option Ref)
  | branch
  | condBranch
  | unreachable (message : String)
  | breakTo
  | continueTo
  | ret
  | rasterDiscard
  | rayQueryLoop (merge : Option Ref)
  | rayQueryDispatch
  | outline (merge : Option Ref)
  | autodiffScope (merge : Option Ref)
  | phi (blocks : List (Option Ref))
  | alloca (space : Space)
  | load
  | store
  | gep
  | atomic (op : AtomicOp)
  | arithmetic (op : ArithmeticOp)
  | cast (op : CastOp)
  | call
  | threadGroup (op : ThreadGroupOp)
  | resourceQuery (op : ResourceQueryOp)
  | resourceRead (op : ResourceReadOp)
  | resourceWrite (op : ResourceWriteOp)
  | rayQueryRead (op : RayQueryReadOp)
  | rayQueryWrite (op : RayQueryWriteOp)
  | rayQueryPipeline
  | print (format : String)
  | clock
  | assertTrue (message : String)
  | assumeTrue (message : String)
  | autodiff (op : AutodiffOp)
  deriving DecidableEq, Repr

namespace Opcode

/-- The textual mnemonic of an opcode, without its operation. -/
def mnemonic : Opcode → String
  | ifElse _ => "if"
  | switch .. => "switch"
  | loop .. => "loop"
  | simpleLoop _ => "simple_loop"
  | branch => "br"
  | condBranch => "cond_br"
  | unreachable _ => "unreachable"
  | breakTo => "break"
  | continueTo => "continue"
  | ret => "return"
  | rasterDiscard => "raster_discard"
  | rayQueryLoop _ => "ray_query_loop"
  | rayQueryDispatch => "ray_query_dispatch"
  | outline _ => "outline"
  | autodiffScope _ => "autodiff_scope"
  | phi _ => "phi"
  | alloca _ => "alloca"
  | load => "load"
  | store => "store"
  | gep => "gep"
  | atomic _ => "atomic"
  | arithmetic _ => "arith"
  | cast _ => "cast"
  | call => "call"
  | threadGroup _ => "thread_group"
  | resourceQuery _ => "resource_query"
  | resourceRead _ => "resource_read"
  | resourceWrite _ => "resource_write"
  | rayQueryRead _ => "ray_query_read"
  | rayQueryWrite _ => "ray_query_write"
  | rayQueryPipeline => "ray_query_pipeline"
  | print _ => "print"
  | clock => "clock"
  | assertTrue _ => "assert"
  | assumeTrue _ => "assume"
  | autodiff _ => "autodiff"

/-- Whether instructions of this kind end their block. -/
def isTerminator : Opcode → Bool
  | ifElse _ | switch .. | loop .. | simpleLoop _ | branch | condBranch | unreachable _
  | breakTo | continueTo | ret | rasterDiscard | rayQueryLoop _ | rayQueryDispatch
  | outline _ | autodiffScope _ => true
  | _ => false

/-- Whether this is a phi. -/
def isPhi : Opcode → Bool
  | phi _ => true
  | _ => false

/-- Whether this is the terminator that control never reaches. -/
def isUnreachable : Opcode → Bool
  | unreachable _ => true
  | _ => false

/-- Whether this terminator chooses between a true and a false block. -/
def isConditional : Opcode → Bool
  | ifElse _ | condBranch => true
  | _ => false

/-- Whether instructions of this kind name a memory location. -/
def isLValue : Opcode → Bool
  | alloca _ | gep => true
  | _ => false

/--
The merge block of a structured terminator: `none` for kinds that record no
merge block, and `some none` when the block is not set.
-/
def merge? : Opcode → Option (Option Ref)
  | ifElse merge | switch merge _ | loop merge _ _ | simpleLoop merge | rayQueryLoop merge
  | outline merge | autodiffScope merge => some merge
  | _ => none

/-- Set the merge block of a structured terminator. -/
def withMerge (merge : Option Ref) : Opcode → Opcode
  | ifElse _ => ifElse merge
  | switch _ cases => switch merge cases
  | loop _ body update => loop merge body update
  | simpleLoop _ => simpleLoop merge
  | rayQueryLoop _ => rayQueryLoop merge
  | outline _ => outline merge
  | autodiffScope _ => autodiffScope merge
  | other => other

/-- The incoming blocks of a phi, one for each operand. -/
def incomingBlocks : Opcode → List (Option Ref)
  | phi blocks => blocks
  | _ => []

/-- The case values of a switch. -/
def caseValues : Opcode → List Int64
  | switch _ cases => cases
  | _ => []

end Opcode

/-- An operand position of an instruction and the value it holds, if any. -/
structure Slot where
  key : Nat
  value : Option Ref
  deriving DecidableEq, Repr

/-- An operand edge: the instruction that uses a value and the slot it uses it by. -/
structure Use where
  user : Ref
  slot : Nat
  deriving DecidableEq, Repr

/-- What is known of a slot apart from its instruction: who made it, and what it points at. -/
structure Edge where
  user : Ref
  value : Option Ref
  deriving DecidableEq, Repr

/-- An instruction: its opcode, its operands and the block it is linked into. -/
structure Instruction where
  opcode : Opcode
  operands : List Slot := []
  block : Option Ref := none
  deriving DecidableEq, Repr

namespace Instruction

/-- The operand values, in order. -/
def values (instruction : Instruction) : List (Option Ref) :=
  instruction.operands.map (·.value)

/-- The operand at a position: `none` when there is no such position. -/
def operand? (instruction : Instruction) (position : Nat) : Option (Option Ref) :=
  instruction.operands[position]?.map (·.value)

/-- The position of the slot with a key. -/
def position? (instruction : Instruction) (key : Nat) : Option Nat :=
  instruction.operands.findIdx? (·.key == key)

end Instruction

end ShaderIR

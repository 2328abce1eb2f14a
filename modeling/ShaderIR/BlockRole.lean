import ShaderIR.Build

/-!
# Block roles

Terminators refer to blocks in roles: the block taken when a condition holds,
the body of a loop, the block where a region reconverges.  Some roles are
operands, and so edges of control flow; merge blocks and the body and update of
a loop are fields, and so are not.
-/

namespace ShaderIR

/-- The role a block plays for a terminator. -/
inductive BlockRole where
  | whenTrue
  | whenFalse
  | fallback
  | prepare
  | body
  | update
  | target
  | dispatch
  | exit
  | surface
  | procedural
  | entry
  | merge
  deriving DecidableEq, Repr

/-- The printed name of a role. -/
def BlockRole.name : BlockRole → String
  | .whenTrue => "true"
  | .whenFalse => "false"
  | .fallback => "default"
  | .prepare => "prepare"
  | .body => "body"
  | .update => "update"
  | .target => "target"
  | .dispatch => "dispatch"
  | .exit => "exit"
  | .surface => "surface"
  | .procedural => "procedural"
  | .entry => "entry"
  | .merge => "merge"

/-- The role of a printed name. -/
def BlockRole.ofName? (name : String) : Option BlockRole :=
  [.whenTrue, .whenFalse, .fallback, .prepare, .body, .update, .target, .dispatch, .exit,
    .surface, .procedural, .entry, .merge].find? (·.name == name)

/-- Where a terminator keeps a block: as an operand or in a field. -/
inductive BlockPlace where
  | operand (position : Nat)
  | merge
  | body
  | update
  deriving DecidableEq, Repr

/-- Where instructions of a kind keep the block of a role, if they have that role. -/
def Opcode.blockPlace? (opcode : Opcode) (role : BlockRole) : Option BlockPlace :=
  match opcode, role with
  | .ifElse _, .whenTrue | .condBranch, .whenTrue => some (.operand 1)
  | .ifElse _, .whenFalse | .condBranch, .whenFalse => some (.operand 2)
  | .switch .., .fallback => some (.operand 1)
  | .loop .., .prepare => some (.operand 0)
  | .loop .., .body => some .body
  | .loop .., .update => some .update
  | .simpleLoop _, .body => some (.operand 0)
  | .branch, .target | .breakTo, .target | .continueTo, .target | .outline _, .target =>
    some (.operand 0)
  | .rayQueryLoop _, .dispatch => some (.operand 0)
  | .rayQueryDispatch, .exit => some (.operand 1)
  | .rayQueryDispatch, .surface => some (.operand 2)
  | .rayQueryDispatch, .procedural => some (.operand 3)
  | .autodiffScope _, .entry => some (.operand 0)
  | opcode, .merge => opcode.merge?.map fun _ => .merge
  | _, _ => none

/--
Whether a terminator can create the block of a role.  Plain branches, outline
regions and the exit of a dispatch only take blocks that exist.
-/
def Opcode.createsBlock (opcode : Opcode) (role : BlockRole) : Bool :=
  match opcode, role with
  | .condBranch, _ | .outline _, _ | .rayQueryDispatch, .exit | _, .target => false
  | opcode, role => (opcode.blockPlace? role).isSome

namespace Edit

/-- Set the block at a place of a terminator. -/
def setBlockAt (ref : Ref) (place : BlockPlace) (block : Option Ref) : Edit Unit := do
  match place with
  | .operand position => setOperand ref position block
  | .merge => setOpcode ref ((← instruction ref).opcode.withMerge block)
  | .body =>
    match (← instruction ref).opcode with
    | .loop merge _ update => setOpcode ref (.loop merge block update)
    | _ => stuck
  | .update =>
    match (← instruction ref).opcode with
    | .loop merge body _ => setOpcode ref (.loop merge body block)
    | _ => stuck

/-- Create a block in the function of a terminator and set it at a place. -/
def createBlockAt (ref : Ref) (place : BlockPlace) : Edit Ref := do
  let block ← createBlockFor ref
  setBlockAt ref place (some block)
  return block

/-- Create a block and append a case of a switch that targets it. -/
def createCase (ref : Ref) (value : Int64) : Edit Ref := do
  let block ← createBlockFor ref
  addCase ref value (some block)
  return block

end Edit

end ShaderIR

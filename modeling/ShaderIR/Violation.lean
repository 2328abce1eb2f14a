import ShaderIR.Ty

/-!
# Violations

An edit that would break a rule of the representation is refused with a
violation, which names the rule and what broke it.  An edit that asks for
something that is not there at all, such as an operand position beyond the
last or the type of an absent value, has no meaning and gets stuck.
-/

namespace ShaderIR

/-- A broken rule of the representation. -/
inductive Violation where
  | vectorElement (got : Option Ty)
  | arrayElementVoid
  | recordMemberVoid (index : Nat)
  | constantVoid
  | constantBytes (type : Ty) (got : Nat)
  | constantNotBool (type : Option Ty)
  | constantNotInteger (type : Option Ty)
  | constantNotFloat (type : Option Ty)
  | constantOneScalar (got : Option Ty)
  | operandPool
  | blockPool
  | alreadyLinked
  | foreignPosition
  | unlinkedPosition
  | unlinkedOwner
  | resourceArgument (got : Option Ty)
  | externalBlock
  | bodyExists
  | bodyOwner
  | cursorInstruction
  | cursorAbsent
  | returnVoid
  | returnType (got expected : Option Ty)
  | dispatchQuery
  | phiVoid
  | allocaVoid
  | loadLValue
  | loadType (got expected : Option Ty)
  | storeLValue
  | storeType (got expected : Option Ty)
  | gepBase
  | elementType (aggregate : Option Ty) (indices : Nat) (got want : Option Ty)
  | atomicBase
  | atomicValues (operation : String) (expected got : Nat)
  | extractArity
  | insertArity
  | insertType (got expected : Option Ty)
  | selectOperands
  | castOperand
  | bitcastSize (source target : Option Ty)
  | calleeAbsent
  | callType (got expected : Option Ty)
  | callArity (expected got : Nat)
  | callArgument (index : Nat)
  | callReference (index : Nat)
  | pipelineQuery
  | assertCondition
  | assumeCondition
  | branchCondition (got : Option Ty)
  | switchSelector (got : Option Ty)
  | duplicateCase (value : Int)
  | phiIncoming (got expected : Option Ty)
  | blockResolution
  | dominanceDefinition
  | incomingUnterminated
  | gepStored
  | gepUser (mnemonic : String)
  | promotedLoad (load : Nat) (got : Option Ty) (alloca : Nat) (expected : Option Ty)
  | promotedStore (store : Nat) (got : Option Ty) (alloca : Nat) (expected : Option Ty)
  | promotedUses (alloca uses : Nat)
  | dispatchBlockAbsent
  | dispatchTerminator
  | dispatchContents (mnemonic : String)
  | dispatchExitAbsent
  | loopMergeAbsent
  | dispatchExitMerge
  | dispatchAlone
  | loopStart
  | mergePhi
  | handlerValue (family : String) (id : Nat)
  | handlerIncoming
  deriving DecidableEq, Repr

namespace Violation

/-- The text of a violation. -/
def message : Violation → String
  | vectorElement got => "vector element must be a scalar, got " ++ Ty.renderOption got
  | arrayElementVoid => "array element type must not be void"
  | recordMemberVoid index => "struct member " ++ toString index ++ " must not be void"
  | constantVoid => "constant type must not be void"
  | constantBytes type got =>
    "constant of type " ++ type.render ++ " needs " ++ toString type.size ++
      " bytes, got " ++ toString got
  | constantNotBool type => "constant of type " ++ Ty.renderOption type ++ " is not a bool"
  | constantNotInteger type =>
    "constant of type " ++ Ty.renderOption type ++ " is not an integer"
  | constantNotFloat type => "constant of type " ++ Ty.renderOption type ++ " is not a float"
  | constantOneScalar got =>
    "constant one requires a scalar type, got " ++ Ty.renderOption got
  | operandPool => "operand and user should be in the same pool"
  | blockPool => "instruction and block should be in the same pool"
  | alreadyLinked => "instruction is already linked"
  | foreignPosition => "insertion point is not in the block"
  | unlinkedPosition => "insertion point must be linked"
  | unlinkedOwner => "instruction must be linked to create blocks"
  | resourceArgument got =>
    "resource argument requires a resource type, got " ++ Ty.renderOption got
  | externalBlock => "external function cannot own basic blocks"
  | bodyExists => "body block already exists"
  | bodyOwner => "body block must belong to the function"
  | cursorInstruction => "insertion point must be a linked instruction"
  | cursorAbsent => "builder has no insertion point"
  | returnVoid => "use ReturnVoid for void returns"
  | returnType got expected =>
    "return value of type " ++ Ty.renderOption got ++ " does not match function type " ++
      Ty.renderOption expected
  | dispatchQuery => "ray query dispatch requires a ray query variable"
  | phiVoid => "phi type must not be void"
  | allocaVoid => "alloca type must not be void"
  | loadLValue => "load requires an lvalue"
  | loadType got expected =>
    "load type " ++ Ty.renderOption got ++ " does not match variable type " ++
      Ty.renderOption expected
  | storeLValue => "store requires an lvalue"
  | storeType got expected =>
    "store value type " ++ Ty.renderOption got ++ " does not match variable type " ++
      Ty.renderOption expected
  | gepBase => "gep base must be an lvalue"
  | elementType aggregate indices got want =>
    "element of " ++ Ty.renderOption aggregate ++ " at " ++ toString indices ++
      " indices has type " ++ Ty.renderOption got ++ ", want " ++ Ty.renderOption want
  | atomicBase => "atomic base must not be nil"
  | atomicValues operation expected got =>
    "atomic " ++ operation ++ " takes " ++ toString expected ++ " values, got " ++ toString got
  | extractArity => "extract requires an aggregate"
  | insertArity => "insert requires an aggregate and an element"
  | insertType got expected =>
    "insert result type " ++ Ty.renderOption got ++ " does not match aggregate type " ++
      Ty.renderOption expected
  | selectOperands => "select requires (bool, value, value)"
  | castOperand => "cast operand must not be nil"
  | bitcastSize source target =>
    "bitcast between " ++ Ty.renderOption source ++ " and " ++ Ty.renderOption target ++
      " changes size"
  | calleeAbsent => "callee must not be nil"
  | callType got expected =>
    "call type " ++ Ty.renderOption got ++ " does not match callee type " ++
      Ty.renderOption expected
  | callArity expected got =>
    "callee takes " ++ toString expected ++ " arguments, got " ++ toString got
  | callArgument index => "argument " ++ toString index ++ " type mismatch"
  | callReference index => "argument " ++ toString index ++ " must be passed by reference"
  | pipelineQuery => "ray query pipeline requires a query variable"
  | assertCondition => "assert condition must be a bool"
  | assumeCondition => "assume condition must be a bool"
  | branchCondition got => "branch condition must be a bool, got " ++ Ty.renderOption got
  | switchSelector got => "switch selector must be an integer, got " ++ Ty.renderOption got
  | duplicateCase value => "duplicate switch case " ++ toString value
  | phiIncoming got expected =>
    "phi incoming of type " ++ Ty.renderOption got ++ " does not match phi type " ++
      Ty.renderOption expected
  | blockResolution => "block must resolve to a block"
  | dominanceDefinition => "dominator tree requires a function definition"
  | incomingUnterminated => "phi incoming block must be terminated"
  | gepStored => "gep must only be stored through"
  | gepUser mnemonic => "unexpected " ++ mnemonic ++ " user of a transposable gep"
  | promotedLoad load got alloca expected =>
    "load %" ++ toString load ++ " of type " ++ Ty.renderOption got ++ " from variable %" ++
      toString alloca ++ " of type " ++ Ty.renderOption expected
  | promotedStore store got alloca expected =>
    "store %" ++ toString store ++ " of type " ++ Ty.renderOption got ++ " to variable %" ++
      toString alloca ++ " of type " ++ Ty.renderOption expected
  | promotedUses alloca uses =>
    "promoted variable %" ++ toString alloca ++ " still has " ++ toString uses ++ " uses"
  | dispatchBlockAbsent => "ray query loop has no dispatch block"
  | dispatchTerminator => "ray query dispatch block must end in a ray query dispatch"
  | dispatchContents mnemonic =>
    "ray query dispatch block may only hold phis and the dispatch, found " ++ mnemonic
  | dispatchExitAbsent => "ray query dispatch has no exit block"
  | loopMergeAbsent => "ray query loop has no merge block"
  | dispatchExitMerge => "ray query exit block should be the loop merge block"
  | dispatchAlone => "ray query dispatch block must only hold the dispatch"
  | loopStart => "ray query subgraph must start at the dispatch block"
  | mergePhi => "ray query merge block phi must have a single incoming"
  | handlerValue family id =>
    "cannot resolve " ++ family ++ " %" ++ toString id ++ " in outlined ray query handler"
  | handlerIncoming => "phi incoming block must lie inside the outlined handler"

/-- The text of a violation as it is reported. -/
def report (violation : Violation) : String := "xir: " ++ violation.message

end Violation

/--
Why an edit ends without a result: it broke a rule, it asked for something that
is not there, or it follows references in a circle and would never end.
-/
inductive Fault where
  | violation (violation : Violation)
  | stuck
  | endless
  deriving DecidableEq, Repr

end ShaderIR

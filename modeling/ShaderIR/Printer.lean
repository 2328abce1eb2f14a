import ShaderIR.Payload
import ShaderIR.Pool
import ShaderIR.Text.Quoted
import ShaderIR.Text.Shortest
import ShaderIR.Traversal

/-!
# Printing

The text form of modules and functions.  Reachable blocks are written in
reverse post-order, each instruction as its result, its kind and its operands.

Some instructions have no text: a phi with a missing incoming block, a switch
with fewer targets than cases, a constant whose payload cannot be read.  Then
there is no text for the whole.
-/

namespace ShaderIR

namespace Printer

/-- What the text shows. -/
structure Options where
  /-- Write names, comments and predecessors. -/
  comments : Bool := true
  /-- Write the types of results and constants. -/
  types : Bool := true
  deriving DecidableEq, Repr

/-- The text of a scalar payload. -/
def scalarText? (scalar : Scalar) (data : List UInt8) : Option String :=
  match scalar.kind with
  | .bool => data.head?.map fun byte => if byte != 0 then "true" else "false"
  | .sint => (scalar.decodeInt? data).map fun number => toString number.toInt
  | .uint => (scalar.decodeInt? data).map fun number => toString number.toUInt64.toNat
  | .float =>
    if scalar.width = 8 then
      if data.length < 8 then none
      else some (Text.renderFields .general 52 11 (ofLittleEndian (data.take 8)))
    else if data.length < 4 then none
    else some (Text.renderSingle (ofLittleEndian (data.take 4)))

/-- The texts of the elements of an aggregate, in braces. -/
def aggregateText (parts : List String) : String :=
  "\x7b" ++ ", ".intercalate parts ++ "\x7d"

/-- The text of a constant payload of a type. -/
def constantText? (type : Ty) (data : List UInt8) : Option String :=
  type.readPayload scalarText? aggregateText data

/-- The text of a value number. -/
def valueText (store : Store) (ref : Ref) : String := "%" ++ toString (store.idOf ref)

/-- The text of a block. -/
def blockText (store : Store) (ref : Ref) : String := "bb" ++ toString (store.idOf ref)

/-- The text of an operand. -/
def operandText? (options : Options) (store : Store) (operand : Option Ref) :
    Option String :=
  match operand with
  | none => some "_"
  | some ref =>
    match store.value? ref with
    | none => none
    | some value =>
      match value.content with
      | .block .. => some (blockText store ref)
      | .function _ => some (store.label ref)
      | .constant data _ => do
        let type ← value.type
        let text ← constantText? type data
        return if options.types then text ++ ":" ++ type.render else text
      | .undefined => some ("undef:" ++ Ty.renderOption value.type)
      | .register register => some ("$" ++ register.name)
      | _ => some (valueText store ref)

/-- The texts of several operands. -/
def operandTexts? (options : Options) (store : Store) (operands : List (Option Ref)) :
    Option (List String) :=
  operands.mapM (operandText? options store)

/-- The mnemonic of an instruction, qualified by its operation if it has one. -/
def kindText (opcode : Opcode) : String :=
  match opcode with
  | .alloca space => opcode.mnemonic ++ "." ++ space.name
  | .atomic op => opcode.mnemonic ++ "." ++ op.name
  | .arithmetic op => opcode.mnemonic ++ "." ++ op.name
  | .cast op => opcode.mnemonic ++ "." ++ op.name
  | .threadGroup op => opcode.mnemonic ++ "." ++ op.name
  | .resourceQuery op => opcode.mnemonic ++ "." ++ op.name
  | .resourceRead op => opcode.mnemonic ++ "." ++ op.name
  | .resourceWrite op => opcode.mnemonic ++ "." ++ op.name
  | .rayQueryRead op => opcode.mnemonic ++ "." ++ op.name
  | .rayQueryWrite op => opcode.mnemonic ++ "." ++ op.name
  | .autodiff op => opcode.mnemonic ++ "." ++ op.name
  | _ => opcode.mnemonic

/-- The text of an incoming pair, whose block has to be set. -/
def incomingText? (options : Options) (store : Store) :
    Option Ref × Option Ref → Option String
  | (_, none) => none
  | (incoming, some block) => do
    return "[" ++ (← operandText? options store incoming) ++ ", " ++ blockText store block ++ "]"

/-- The texts of the cases of a switch, each with its target. -/
def caseTexts? (options : Options) (store : Store) (instruction : Instruction) :
    Nat → List Int64 → Option (List String)
  | _, [] => some []
  | position, value :: rest => do
    let target := store.asBlock (← instruction.operand? position)
    let text := "case " ++ toString value.toInt ++ " " ++
      (← operandText? options store target)
    return text :: (← caseTexts? options store instruction (position + 1) rest)

/-- The operand texts of an instruction other than a phi, without the merge block. -/
def partTexts? (options : Options) (store : Store) (instruction : Instruction) :
    Option (List String) :=
  let operands := operandTexts? options store instruction.values
  match instruction.opcode with
  | .switch _ cases => do
    let selector ← operandText? options store (← instruction.operand? 0)
    let cases ← caseTexts? options store instruction 2 cases
    let fallback ← operandText? options store (store.asBlock (← instruction.operand? 1))
    return selector :: cases ++ ["default " ++ fallback]
  | .loop _ body update => do
    let prepare ← operandText? options store (store.asBlock (← instruction.operand? 0))
    return ["prepare " ++ prepare,
      "body " ++ (← operandText? options store body),
      "update " ++ (← operandText? options store update)]
  | .print format => return Text.quote format :: (← operands)
  | .assertTrue message => return (← operands) ++ [Text.quote message]
  | .assumeTrue message => return (← operands) ++ [Text.quote message]
  | .unreachable message => return if message = "" then [] else [Text.quote message]
  | _ => operands

/-- The operand texts of an instruction, joined. -/
def operandsText? (options : Options) (store : Store) (ref : Ref) (instruction : Instruction) :
    Option String :=
  match instruction.opcode with
  | .phi _ => do
    let incomings ← (← store.incomings? ref).mapM (incomingText? options store)
    return ", ".intercalate incomings
  | opcode => do
    let parts ← partTexts? options store instruction
    match opcode.merge? with
    | some (some merge) =>
      return ", ".intercalate (parts ++ ["merge " ++ blockText store merge])
    | _ => return ", ".intercalate parts

/-- The text of an instruction. -/
def instructionText? (options : Options) (store : Store) (ref : Ref) : Option String := do
  let value ← store.value? ref
  let instruction ← store.instruction? ref
  let operands ← operandsText? options store ref instruction
  let result := if value.type.isSome then valueText store ref ++ " = " else ""
  let tail := if operands = "" then "" else " " ++ operands
  let type :=
    if options.types && value.type.isSome then " : " ++ Ty.renderOption value.type else ""
  let name := if options.comments && value.name != "" then " ; " ++ value.name else ""
  return result ++ kindText instruction.opcode ++ tail ++ type ++ name

/-- The comment lines of a value, indented. -/
def commentLines (options : Options) (store : Store) (indent : String) (ref : Ref) : String :=
  if options.comments then
    String.join <| (((store.value? ref).map (·.comments)).getD []).map fun comment =>
      indent ++ "; " ++ comment ++ "\n"
  else ""

/-- The text of a block. -/
def blockLines? (options : Options) (store : Store) (block : Ref) : Option String := do
  let predecessors := store.predecessors block
  let comment :=
    if options.comments && !predecessors.isEmpty then
      " ; preds " ++ ", ".intercalate (predecessors.map (blockText store))
    else ""
  let lines ← (store.instructions block).mapM fun ref => do
    return commentLines options store "  " ref ++ "  " ++
      (← instructionText? options store ref) ++ "\n"
  return blockText store block ++ ":" ++ comment ++ "\n" ++ String.join lines

/-- The text of an argument in the head of a function. -/
def argumentText (store : Store) (ref : Ref) : String :=
  let passing :=
    match store.content? ref with
    | some (.argument .byReference ..) => "&"
    | some (.argument .resource ..) => "resource "
    | _ => ""
  valueText store ref ++ ": " ++ passing ++ Ty.renderOption (store.typeOf ref)

/-- The text of a function. -/
def functionText? (options : Options) (store : Store) (ref : Ref) : Option String := do
  let function ← store.function? ref
  let result :=
    match store.typeOf ref with
    | some type => " -> " ++ type.render
    | none => ""
  let head := commentLines options store "" ref ++ function.kind.name ++ " " ++
    store.label ref ++ "(" ++ ", ".intercalate (function.arguments.map (argumentText store)) ++
    ")" ++ result
  if !function.isDefinition || function.body.isNone then return head ++ "\n"
  else
    let blocks ← (store.reversePostOrder ref).mapM (blockLines? options store)
    return head ++ " \x7b\n" ++ String.join blocks ++ "\x7d\n"

/-- The text of a module. -/
def moduleText? (options : Options) (store : Store) (module : Nat) : Option String := do
  let entry ← store.modules[module]?
  let functions ← entry.functions.mapM (functionText? options store)
  return "module " ++ Text.quote entry.name ++ "\n" ++
    String.join (functions.map ("\n" ++ ·))

end Printer

end ShaderIR

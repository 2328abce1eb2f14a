import ShaderIR.Digest
import ShaderIR.Edit

/-!
# Creating values

The values of a module that are not instructions: types, interned constants,
undefined values and registers, functions, arguments and blocks.

Interning returns the value made by an earlier equal request.  Constants are
equal when type and bytes are; the digest only speeds up the search, so any
digest function gives the same answers.
-/

namespace ShaderIR

/-- The digest of a constant: its type handle in four bytes, then its payload. -/
def contentHash (type : Ty) (data : List UInt8) : UInt64 :=
  Digest.ofBytes (littleEndian 4 type.handle ++ data)

namespace Store

/-- The interned constant of a type and payload, searched by digest first. -/
def constantWith?
    (store : Store)
    (digest : Ty → List UInt8 → UInt64)
    (module : Nat)
    (type : Ty)
    (data : List UInt8) :
    Option Ref :=
  ((store.modules[module]?.map (·.constants)).getD []).find? fun ref =>
    match store.value? ref with
    | some { content := .constant data' hash', type := type', .. } =>
      hash' == digest type data && type' == some type && data' == data
    | _ => false

end Store

namespace Edit

/-! ## Types -/

/-- Request a type from the registry of a module. -/
def typeBy (module : Nat) (request : Registry → Ty × Registry) : Edit Ty := do
  let entry ← demand (← see (·.modules[module]?))
  let (type, registry) := request entry.registry
  modify fun store => store.modifyModule module fun entry => { entry with registry }
  return type

/-- The vector type of a scalar type. -/
def vectorType (module : Nat) (element : Option Ty) (size : Nat) : Edit Ty := do
  match element.bind Ty.scalar? with
  | none => violate (.vectorElement element)
  | some scalar => typeBy module (·.intern "" (.vector size scalar))

/-- The array type of an element type. -/
def arrayType (module : Nat) (element : Option Ty) (count : Nat) : Edit Ty := do
  match element with
  | none => violate .arrayElementVoid
  | some element => typeBy module (·.intern "" (.array element count))

/-- The member types of a record, none of which may be void. -/
def memberTypes (index : Nat) : List (Option Ty) → Edit (List Ty)
  | [] => pure []
  | none :: _ => violate (.recordMemberVoid index)
  | some member :: rest => do return member :: (← memberTypes (index + 1) rest)

/-- The unnamed record type of some members. -/
def recordType (module : Nat) (members : List (Option Ty)) : Edit Ty := do
  let members ← memberTypes 0 members
  typeBy module (·.intern "" (.record members))

/-! ## Interned values -/

/-- Add a value to a module. -/
def allocate (module : Nat) (type : Option Ty) (content : Content) : Edit Ref :=
  modifyGet fun store => store.allocate module type content

/-- The constant of a type and payload, interned with the help of a digest function. -/
def constantWith
    (digest : Ty → List UInt8 → UInt64)
    (module : Nat)
    (type : Option Ty)
    (data : List UInt8) :
    Edit Ref := do
  match type with
  | none => violate .constantVoid
  | some type =>
    require (type.size == data.length) (.constantBytes type data.length)
    match ← see (·.constantWith? digest module type data) with
    | some ref => return ref
    | none =>
      let ref ← allocate module (some type) (.constant data (digest type data))
      modify fun store => store.modifyModule module fun entry =>
        { entry with constants := ref :: entry.constants }
      return ref

/-- The interned constant of a type and payload. -/
def constant (module : Nat) (type : Option Ty) (data : List UInt8) : Edit Ref :=
  constantWith contentHash module type data

/-- The constant truth value. -/
def constantBool (module : Nat) (truth : Bool) : Edit Ref := do
  let type ← typeBy module Registry.bool
  constant module (some type) [if truth then 1 else 0]

/-- The 32-bit signed constant with the low bits of a word. -/
def constantInt32 (module : Nat) (bits : UInt64) : Edit Ref := do
  let type ← typeBy module Registry.int32
  constant module (some type) ((Scalar.signed 4).encode bits)

/-- The 32-bit unsigned constant with the low bits of a word. -/
def constantUInt32 (module : Nat) (bits : UInt64) : Edit Ref := do
  let type ← typeBy module Registry.uint32
  constant module (some type) ((Scalar.unsigned 4).encode bits)

/-- The 32-bit float constant with the given bits. -/
def constantFloat32 (module : Nat) (bits : UInt64) : Edit Ref := do
  let type ← typeBy module Registry.float32
  constant module (some type) ((Scalar.floating 4).encode bits)

/-- The all-zero constant of a type. -/
def constantZero (module : Nat) (type : Option Ty) : Edit Ref := do
  let size := Ty.sizeOption type
  if size < 0 ∨ 0x800000000000 ≤ size then stuck
  else constant module type (List.replicate size.toNat 0)

/-- The constant one of a scalar type. -/
def constantOne (module : Nat) (type : Option Ty) : Edit Ref := do
  match type.bind Ty.scalar? with
  | none => violate (.constantOneScalar type)
  | some scalar =>
    let bits : UInt64 :=
      match scalar.kind, scalar.width with
      | .float, 8 => 0x3ff0000000000000
      | .float, _ => 0x3f800000
      | _, _ => 1
    constant module type (scalar.encode bits)

/-- The interned undefined value of a type. -/
def undefined (module : Nat) (type : Option Ty) : Edit Ref := do
  let entry ← demand (← see (·.modules[module]?))
  match entry.undefineds.lookup type with
  | some ref => return ref
  | none =>
    let ref ← allocate module type .undefined
    modify fun store => store.modifyModule module fun entry =>
      { entry with undefineds := (type, ref) :: entry.undefineds }
    return ref

/-- The interned value of a register. -/
def register (module : Nat) (register : Register) : Edit Ref := do
  let entry ← demand (← see (·.modules[module]?))
  match entry.registers.lookup register with
  | some ref => return ref
  | none =>
    let scalar ← typeBy module Registry.uint32
    let type ← if register.isVector then vectorType module (some scalar) 3 else pure scalar
    let ref ← allocate module (some type) (.register register)
    modify fun store => store.modifyModule module fun entry =>
      { entry with registers := (register, ref) :: entry.registers }
    return ref

/-! ## Functions, arguments and blocks -/

/-- Create a function at the end of the function list of a module. -/
def createFunction (module : Nat) (kind : FunctionKind) (result : Option Ty) : Edit Ref := do
  let ref ← allocate module result (.function { kind })
  modify fun store => store.modifyModule module fun entry =>
    { entry with functions := entry.functions ++ [ref] }
  return ref

/-- Take a function out of the function list of a module, if it is there. -/
def removeFunction (module : Nat) (ref : Ref) : Edit Unit := do
  if (← see (·.functions module)).contains ref then
    modify fun store => store.modifyModule module fun entry =>
      { entry with functions := entry.functions.erase ref }
    modify fun store => store.modifyFunction ref fun function => { function with removed := true }

/-- Create an argument at the end of the argument list of a function. -/
def createArgument (owner : Ref) (passing : Passing) (type : Option Ty) : Edit Ref := do
  let entry ← function owner
  let module ← demand (← see (·.moduleOf? owner))
  let ref ← allocate module type (.argument passing owner entry.arguments.length)
  modify fun store => store.modifyFunction owner fun function =>
    { function with arguments := function.arguments ++ [ref] }
  return ref

/-- Create a resource argument, whose type has to be a resource or a ray query. -/
def createResourceArgument (owner : Ref) (type : Option Ty) : Edit Ref := do
  require (type.any fun type => type.isResource || type.isRayQuery) (.resourceArgument type)
  createArgument owner .resource type

/-- Create an empty block of a function. -/
def createBlock (owner : Ref) : Edit Ref := do
  let entry ← function owner
  require entry.isDefinition .externalBlock
  let module ← demand (← see (·.moduleOf? owner))
  let ref ← allocate module none (.block owner [])
  modify fun store => store.modifyFunction owner fun function =>
    { function with blocks := function.blocks ++ [ref] }
  return ref

/-- Create the entry block of a function. -/
def createBody (owner : Ref) : Edit Ref := do
  require (← function owner).body.isNone .bodyExists
  let ref ← createBlock owner
  modify fun store => store.modifyFunction owner fun function =>
    { function with body := some ref }
  return ref

/-- Choose the entry block of a function among its blocks. -/
def setBody (owner : Ref) (block : Option Ref) : Edit Unit := do
  match block with
  | none => pure ()
  | some block => require ((← see (·.blockFunction? block)) == some owner) .bodyOwner
  modify fun store => store.modifyFunction owner fun function => { function with body := block }

end Edit

/-! ## Reading constants -/

namespace Store

/-- The payload of a constant. -/
def payload? (store : Store) (ref : Ref) : Option (List UInt8) :=
  match store.content? ref with
  | some (.constant data _) => some data
  | _ => none

/-- The value of an integer or truth-value constant as a 64-bit word. -/
def constantInt? (store : Store) (ref : Ref) : Option Int64 := do
  let data ← store.payload? ref
  let scalar ← (← store.typeOf ref).scalar?
  if scalar.kind == .float then none else scalar.decodeInt? data

end Store

namespace Edit

/-- The truth value of a constant of boolean type. -/
def boolConstant (ref : Ref) : Edit Bool := do
  let data ← demand (← see (·.payload? ref))
  let type ← see (·.typeOf ref)
  require (type.any Ty.isBool) (.constantNotBool type)
  return (← demand data.head?) != 0

/-- The value of an integer or boolean constant. -/
def intConstant (ref : Ref) : Edit Int64 := do
  let data ← demand (← see (·.payload? ref))
  let type ← see (·.typeOf ref)
  match type.bind Ty.scalar? with
  | none => violate (.constantNotInteger type)
  | some scalar =>
    require (scalar.kind != .float) (.constantNotInteger type)
    demand (scalar.decodeInt? data)

end Edit

/--
The double precision number equal to the single precision number with the given
bits.  A subnormal number gets its leading digit as the implicit one.
-/
def widenSingle (bits : UInt64) : Float :=
  let sign : UInt64 := (bits >>> 31) <<< 63
  let exponent : UInt64 := (bits >>> 23) &&& 0xff
  let fraction : UInt64 := bits &&& 0x7fffff
  let mantissa : UInt64 := fraction <<< 29
  let places : UInt64 := 52 - fraction.log2
  let leading : UInt64 := fraction <<< places
  let magnitude : UInt64 :=
    if exponent = 0xff then 0x7ff0000000000000 + mantissa
    else if exponent ≠ 0 then ((exponent + 896) <<< 52) + mantissa
    else if fraction ≠ 0 then ((925 - places) <<< 52) + leading
    else 0
  Float.ofBits (sign + magnitude)

/-- The number behind the payload of a float scalar: 8 bytes, or else 4 bytes. -/
def Scalar.decodeFloat? (scalar : Scalar) (data : List UInt8) : Option Float :=
  if scalar.width = 8 then
    if data.length < 8 then none
    else some (Float.ofBits (UInt64.ofNat (ofLittleEndian (data.take 8))))
  else if data.length < 4 then none
  else some (widenSingle (UInt64.ofNat (ofLittleEndian (data.take 4))))

namespace Edit

/-- The value of a float constant. -/
def floatConstant (ref : Ref) : Edit Float := do
  let data ← demand (← see (·.payload? ref))
  let type ← see (·.typeOf ref)
  match type.bind Ty.scalar? with
  | none => violate (.constantNotFloat type)
  | some scalar =>
    require (scalar.kind == .float) (.constantNotFloat type)
    demand (scalar.decodeFloat? data)

end Edit

end ShaderIR

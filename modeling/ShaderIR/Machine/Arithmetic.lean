import ShaderIR.Machine.FloatRules
import ShaderIR.Machine.Format

/-!
# Arithmetic

Arithmetic works on scalars and element by element on aggregates; a scalar
operand is paired with every element of an aggregate one.  Integers are 64-bit
words that are brought back to the width of the result type after every
operation; division by zero gives zero.
-/

namespace ShaderIR.Machine

/-! ## Words -/

/-- Bring a signed word to a width in bytes. -/
def wrapInt (width : Nat) (number : Int64) : Int64 :=
  match width with
  | 1 => number.toInt8.toInt64
  | 2 => number.toInt16.toInt64
  | 4 => number.toInt32.toInt64
  | _ => number

/-- Bring an unsigned word to a width in bytes. -/
def wrapUInt (width : Nat) (number : UInt64) : UInt64 :=
  match width with
  | 1 => number.toUInt8.toUInt64
  | 2 => number.toUInt16.toUInt64
  | 4 => number.toUInt32.toUInt64
  | _ => number

mutual

/-- Bring a datum to the width of a scalar, element by element. -/
def normalize (scalar : Scalar) : Datum → Datum
  | .int number => .int (wrapInt scalar.width number)
  | .uint number => .uint (wrapUInt scalar.width number)
  | .float number => .float (if scalar.width = 4 then toSingle number else number)
  | .aggregate elements => .aggregate (normalizeAll scalar elements)
  | datum => datum

/-- Bring several data to the width of a scalar. -/
def normalizeAll (scalar : Scalar) : List Datum → List Datum
  | [] => []
  | first :: rest => normalize scalar first :: normalizeAll scalar rest

end

/-- A datum as an integer: an index, a selector or the source of a conversion. -/
def toInteger (datum : Datum) : Exec Int64 :=
  match datum with
  | .int number => pure number
  | .uint number => pure number.toInt64
  | .bool truth => pure (if truth then 1 else 0)
  | .float number => pure (truncate number)
  | _ => do Exec.fail (.notInteger (plainText? (← get) datum))

/-! ## Element by element -/

mutual

/-- Apply a scalar operation to every scalar of a datum. -/
def mapScalars (apply : Datum → Exec Datum) : Datum → Exec Datum
  | .aggregate elements => return .aggregate (← mapScalarsAll apply elements)
  | datum => apply datum

/-- Apply a scalar operation to every scalar of several data. -/
def mapScalarsAll (apply : Datum → Exec Datum) : List Datum → Exec (List Datum)
  | [] => pure []
  | first :: rest => do
    let first ← mapScalars apply first
    return first :: (← mapScalarsAll apply rest)

end

mutual

/-- Apply a scalar operation to corresponding scalars of two data. -/
def zipScalars (apply : Datum → Datum → Exec Datum) : Datum → Datum → Exec Datum
  | .aggregate lefts, .aggregate rights =>
    return .aggregate (← zipScalarsAll apply lefts rights)
  | .aggregate lefts, right =>
    return .aggregate (← mapScalarsAll (apply · right) lefts)
  | left, right => mapScalars (apply left) right

/-- Apply a scalar operation to corresponding data; each left one needs a right one. -/
def zipScalarsAll (apply : Datum → Datum → Exec Datum) :
    List Datum → List Datum → Exec (List Datum)
  | [], _ => pure []
  | _ :: _, [] => Exec.stuck
  | left :: lefts, right :: rights => do
    let first ← zipScalars apply left right
    return first :: (← zipScalarsAll apply lefts rights)

end

/-! ## Scalar operations -/

/-- A unary operation on a scalar, `none` when it has no meaning for it. -/
def unary? : ArithmeticOp → Datum → Option Datum
  | .plus, .bool truth => some (.bool truth)
  | .logicNot, .bool truth | .bitNot, .bool truth => some (.bool !truth)
  | .plus, .int number => some (.int number)
  | .negate, .int number => some (.int (-number))
  | .bitNot, .int number => some (.int (~~~number))
  | .abs, .int number => some (.int (if number < 0 then -number else number))
  | .plus, .uint number | .abs, .uint number => some (.uint number)
  | .negate, .uint number => some (.uint (-number))
  | .bitNot, .uint number => some (.uint (~~~number))
  | .plus, .float number => some (.float number)
  | .negate, .float number => some (.float (-number))
  | .abs, .float number => some (.float number.abs)
  | .sqrt, .float number => some (.float number.sqrt)
  | .floor, .float number => some (.float number.floor)
  | _, _ => none

/-- A comparison operation as a test of an ordering. -/
def comparison? : ArithmeticOp → Option (Ordering → Bool)
  | .less => some (· == .lt)
  | .greater => some (· == .gt)
  | .lessEqual => some (· != .gt)
  | .greaterEqual => some (· != .lt)
  | .equal => some (· == .eq)
  | .notEqual => some (· != .eq)
  | _ => none

/-- A binary operation on truth values. -/
def boolOp? (op : ArithmeticOp) (left right : Bool) : Option Bool :=
  match op with
  | .logicAnd | .bitAnd => some (left && right)
  | .logicOr | .bitOr => some (left || right)
  | .bitXor | .notEqual => some (left != right)
  | .equal => some (left == right)
  | _ => none

/-- A binary operation on signed words; shifts take the count modulo 64. -/
def intOp? (op : ArithmeticOp) (left right : Int64) : Option Int64 :=
  match op with
  | .add => some (left + right)
  | .sub => some (left - right)
  | .mul => some (left * right)
  | .div => some (left / right)
  | .mod => some (if right = 0 then 0 else left % right)
  | .bitAnd => some (left &&& right)
  | .bitOr => some (left ||| right)
  | .bitXor => some (left ^^^ right)
  | .shiftLeft => some (left <<< (right &&& 63))
  | .shiftRight => some (left >>> (right &&& 63))
  | .min => some (if left ≤ right then left else right)
  | .max => some (if left ≤ right then right else left)
  | _ => none

/-- A binary operation on unsigned words; shifts take the count modulo 64. -/
def uintOp? (op : ArithmeticOp) (left right : UInt64) : Option UInt64 :=
  match op with
  | .add => some (left + right)
  | .sub => some (left - right)
  | .mul => some (left * right)
  | .div => some (left / right)
  | .mod => some (if right = 0 then 0 else left % right)
  | .bitAnd => some (left &&& right)
  | .bitOr => some (left ||| right)
  | .bitXor => some (left ^^^ right)
  | .shiftLeft => some (left <<< (right &&& 63))
  | .shiftRight => some (left >>> (right &&& 63))
  | .min => some (if left ≤ right then left else right)
  | .max => some (if left ≤ right then right else left)
  | _ => none

/-- A binary operation on floating point numbers. -/
def floatOp? (op : ArithmeticOp) (left right : Float) : Option Float :=
  match op with
  | .add => some (left + right)
  | .sub => some (left - right)
  | .mul => some (left * right)
  | .div => some (left / right)
  | .mod => some (remainder left right)
  | .min => some (least left right)
  | .max => some (greatest left right)
  | _ => none

/-- The text of the kind of a datum in the messages of a program. -/
def kindIn (program : Store) (datum : Datum) : String := datum.kindName program.isFunction

/-- A unary operation on a scalar. -/
def unaryScalar (program : Store) (op : ArithmeticOp) (datum : Datum) : Exec Datum :=
  match unary? op datum with
  | some result => pure result
  | none => Exec.fail (.unary op.name (kindIn program datum))

/--
A binary operation on scalars.  Both have to be of one kind, or the run is
stuck; an operation that kind does not have is unsupported.
-/
def binaryScalar (program : Store) (op : ArithmeticOp) (left right : Datum) : Exec Datum :=
  let orFail (result : Option Datum) : Exec Datum :=
    match result with
    | some result => pure result
    | none => Exec.fail (.binary op.name (kindIn program left))
  match left, right with
  | .bool left, .bool right => orFail ((boolOp? op left right).map .bool)
  | .int left, .int right =>
    match comparison? op with
    | some test => pure (.bool (test (compare left.toInt right.toInt)))
    | none => orFail ((intOp? op left right).map .int)
  | .uint left, .uint right =>
    match comparison? op with
    | some test => pure (.bool (test (compare left.toNat right.toNat)))
    | none => orFail ((uintOp? op left right).map .uint)
  | .float left, .float right =>
    match comparison? op with
    | some test => pure (.bool (test (compareFloats left right)))
    | none => orFail ((floatOp? op left right).map .float)
  | .bool _, _ | .int _, _ | .uint _, _ | .float _, _ => Exec.stuck
  | _, _ => orFail none

/-! ## Operations -/

mutual

/-- Choose between two data by a condition, element by element for aggregates. -/
def select : Datum → Datum → Datum → Exec Datum
  | .bool condition, left, right => pure (if condition then left else right)
  | .aggregate conditions, .aggregate lefts, .aggregate rights =>
    return .aggregate (← selectAll conditions lefts rights)
  | _, _, _ => Exec.stuck

/-- Choose between corresponding data; each condition needs both. -/
def selectAll : List Datum → List Datum → List Datum → Exec (List Datum)
  | [], _, _ => pure []
  | condition :: conditions, left :: lefts, right :: rights => do
    let first ← select condition left right
    return first :: (← selectAll conditions lefts rights)
  | _ :: _, _, _ => Exec.stuck

end

/-- Read the element of an aggregate at index data. -/
def extract : Datum → List Datum → Exec Datum
  | datum, [] => pure datum
  | .aggregate elements, index :: rest => do
    let element ← Exec.demand (Datum.elementAt? elements (← toInteger index).toInt)
    extract element rest
  | _, _ :: _ => Exec.stuck

/-- Index data as a path. -/
def toPath : List Datum → Exec (List Int)
  | [] => pure []
  | index :: rest => do
    let position ← toInteger index
    return position.toInt :: (← toPath rest)

/-- Bring the result of an operation to the width of its type, which has to be there. -/
def normalizeTo (type : Option Ty) (result : Datum) : Exec Datum := do
  match (← Exec.demand type).componentScalar? with
  | some scalar => return normalize scalar result
  | none => return result

/-- Evaluate an arithmetic operation of a result type. -/
def arithmetic
    (program : Store)
    (type : Option Ty)
    (op : ArithmeticOp)
    (operands : List Datum) : Exec Datum := do
  match op, operands with
  | .plus, operand :: _ | .negate, operand :: _ | .logicNot, operand :: _
  | .bitNot, operand :: _ | .abs, operand :: _ | .sqrt, operand :: _ | .floor, operand :: _ =>
    normalizeTo type (← mapScalars (unaryScalar program op) operand)
  | .select, condition :: left :: right :: _ =>
    normalizeTo type (← select condition left right)
  | .extract, datum :: indices => extract datum indices
  | .insert, datum :: element :: indices =>
    let path ← toPath indices
    Exec.demand (datum.write? path element)
  | .aggregate, operands => return .aggregate operands
  | .select, _ | .insert, _ => Exec.stuck
  | op, left :: right :: _ => normalizeTo type (← zipScalars (binaryScalar program op) left right)
  | _, _ => Exec.stuck

/-! ## Conversions -/

/-- Convert a scalar by value. -/
def convert (scalar : Scalar) (datum : Datum) : Exec Datum := do
  match scalar.kind, datum with
  | .bool, .bool truth => return .bool truth
  | .bool, .float number => return .bool (number != 0)
  | .bool, _ => return .bool ((← toInteger datum) != 0)
  | .float, .float number => return normalize scalar (.float number)
  | .float, .uint number => return normalize scalar (.float number.toFloat)
  | .float, _ => return normalize scalar (.float (← toInteger datum).toFloat)
  | .sint, _ => return normalize scalar (.int (← toInteger datum))
  | .uint, .float number => return normalize scalar (.uint (truncateUnsigned number))
  | .uint, _ => return normalize scalar (.uint (← toInteger datum).toUInt64)

/-- The bits of a scalar in the width of its type. -/
def toBits (source : Option Scalar) (datum : Datum) : Exec UInt64 := do
  match datum with
  | .float number =>
    if source.any (·.width == 4) then return number.toFloat32.toBits.toUInt64
    else return number.toBits
  | _ => return (← toInteger datum).toUInt64

/-- The scalar with given bits. -/
def ofBits (scalar : Scalar) (bits : UInt64) : Datum :=
  match scalar.kind with
  | .bool => .bool (bits != 0)
  | .sint => normalize scalar (.int bits.toInt64)
  | .uint => normalize scalar (.uint bits)
  | .float =>
    if scalar.width = 4 then .float (Float32.ofBits bits.toUInt32).toFloat
    else .float (Float.ofBits bits)

/-- Evaluate a cast from one type to another. -/
def cast (type : Option Ty) (op : CastOp) (source : Option Ty) (datum : Datum) : Exec Datum := do
  let type ← Exec.demand type
  match type.componentScalar? with
  | none => Exec.fail (.castTarget type.render)
  | some scalar =>
    match op with
    | .static => mapScalars (convert scalar) datum
    | .bitwise =>
      let source ← Exec.demand source
      mapScalars (fun element => return ofBits scalar (← toBits source.componentScalar? element))
        datum

end ShaderIR.Machine

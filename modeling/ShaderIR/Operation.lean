/-!
# Operations

Instructions of one kind differ by an operation: arithmetic, atomic updates,
thread-group communication and so on.  Each table lists its operations in the
order of their numeric codes; a code outside the table is kept as it is, so
that every code is the code of exactly one operation.
-/

namespace ShaderIR

/-- Arithmetic, comparison and aggregate operations. -/
inductive ArithmeticOp where
  | plus
  | negate
  | logicNot
  | bitNot
  | add
  | sub
  | mul
  | div
  | mod
  | bitAnd
  | bitOr
  | bitXor
  | shiftLeft
  | shiftRight
  | logicAnd
  | logicOr
  | less
  | greater
  | lessEqual
  | greaterEqual
  | equal
  | notEqual
  | min
  | max
  | abs
  | sqrt
  | floor
  | select
  | extract
  | insert
  | aggregate
  | unknown (code : UInt8)
  deriving DecidableEq, Repr

namespace ArithmeticOp

/-- The operations of the table, in the order of their codes. -/
def table : List ArithmeticOp :=
  [.plus, .negate, .logicNot, .bitNot, .add, .sub, .mul, .div, .mod, .bitAnd, .bitOr, .bitXor,
    .shiftLeft, .shiftRight, .logicAnd, .logicOr, .less, .greater, .lessEqual, .greaterEqual,
    .equal, .notEqual, .min, .max, .abs, .sqrt, .floor, .select, .extract, .insert, .aggregate]

/-- The printed name. -/
def name : ArithmeticOp → String
  | .plus => "plus"
  | .negate => "neg"
  | .logicNot => "not"
  | .bitNot => "bit_not"
  | .add => "add"
  | .sub => "sub"
  | .mul => "mul"
  | .div => "div"
  | .mod => "mod"
  | .bitAnd => "bit_and"
  | .bitOr => "bit_or"
  | .bitXor => "bit_xor"
  | .shiftLeft => "shl"
  | .shiftRight => "shr"
  | .logicAnd => "and"
  | .logicOr => "or"
  | .less => "lt"
  | .greater => "gt"
  | .lessEqual => "le"
  | .greaterEqual => "ge"
  | .equal => "eq"
  | .notEqual => "ne"
  | .min => "min"
  | .max => "max"
  | .abs => "abs"
  | .sqrt => "sqrt"
  | .floor => "floor"
  | .select => "select"
  | .extract => "extract"
  | .insert => "insert"
  | .aggregate => "aggregate"
  | .unknown _ => "unknown"

/-- The numeric code. -/
def code : ArithmeticOp → Nat
  | .plus => 0
  | .negate => 1
  | .logicNot => 2
  | .bitNot => 3
  | .add => 4
  | .sub => 5
  | .mul => 6
  | .div => 7
  | .mod => 8
  | .bitAnd => 9
  | .bitOr => 10
  | .bitXor => 11
  | .shiftLeft => 12
  | .shiftRight => 13
  | .logicAnd => 14
  | .logicOr => 15
  | .less => 16
  | .greater => 17
  | .lessEqual => 18
  | .greaterEqual => 19
  | .equal => 20
  | .notEqual => 21
  | .min => 22
  | .max => 23
  | .abs => 24
  | .sqrt => 25
  | .floor => 26
  | .select => 27
  | .extract => 28
  | .insert => 29
  | .aggregate => 30
  | .unknown code => code.toNat

/-- The operation of a numeric code. -/
def ofCode (code : UInt8) : ArithmeticOp :=
  table[code.toNat]?.getD (.unknown code)

/-- The operation of a printed name. -/
def ofName? (name : String) : Option ArithmeticOp :=
  table.find? (·.name == name)

end ArithmeticOp

/-- Atomic read-modify-write operations. -/
inductive AtomicOp where
  | exchange
  | compareExchange
  | fetchAdd
  | fetchSub
  | fetchAnd
  | fetchOr
  | fetchXor
  | fetchMin
  | fetchMax
  | unknown (code : UInt8)
  deriving DecidableEq, Repr

namespace AtomicOp

/-- The operations of the table, in the order of their codes. -/
def table : List AtomicOp :=
  [.exchange, .compareExchange, .fetchAdd, .fetchSub, .fetchAnd, .fetchOr, .fetchXor, .fetchMin,
    .fetchMax]

/-- The printed name. -/
def name : AtomicOp → String
  | .exchange => "exchange"
  | .compareExchange => "compare_exchange"
  | .fetchAdd => "fetch_add"
  | .fetchSub => "fetch_sub"
  | .fetchAnd => "fetch_and"
  | .fetchOr => "fetch_or"
  | .fetchXor => "fetch_xor"
  | .fetchMin => "fetch_min"
  | .fetchMax => "fetch_max"
  | .unknown _ => "unknown"

/-- The numeric code. -/
def code : AtomicOp → Nat
  | .exchange => 0
  | .compareExchange => 1
  | .fetchAdd => 2
  | .fetchSub => 3
  | .fetchAnd => 4
  | .fetchOr => 5
  | .fetchXor => 6
  | .fetchMin => 7
  | .fetchMax => 8
  | .unknown code => code.toNat

/-- The operation of a numeric code. -/
def ofCode (code : UInt8) : AtomicOp :=
  table[code.toNat]?.getD (.unknown code)

/-- The operation of a printed name. -/
def ofName? (name : String) : Option AtomicOp :=
  table.find? (·.name == name)

end AtomicOp

/-- The number of value operands an atomic operation takes. -/
def AtomicOp.valueCount : AtomicOp → Nat
  | .compareExchange => 2
  | _ => 1

/-- How a cast converts: by value or by reinterpreting bits. -/
inductive CastOp where
  | static
  | bitwise
  deriving DecidableEq, Repr

/-- The printed name of a cast. -/
def CastOp.name : CastOp → String
  | .static => "static_cast"
  | .bitwise => "bitcast"

/-- The cast of a numeric code; every code but that of the static cast keeps the bits. -/
def CastOp.ofCode (code : UInt8) : CastOp := if code = 0 then .static else .bitwise

/-- The cast of a printed name. -/
def CastOp.ofName? (name : String) : Option CastOp :=
  [.static, .bitwise].find? (·.name == name)

/-- Operations of a block or warp of threads. -/
inductive ThreadGroupOp where
  | syncBlock
  | warpActiveSum
  | warpActiveAllEqual
  | warpReadLaneAt
  | warpFirstActiveLane
  | unknown (code : UInt8)
  deriving DecidableEq, Repr

namespace ThreadGroupOp

/-- The operations of the table, in the order of their codes. -/
def table : List ThreadGroupOp :=
  [.syncBlock, .warpActiveSum, .warpActiveAllEqual, .warpReadLaneAt, .warpFirstActiveLane]

/-- The printed name. -/
def name : ThreadGroupOp → String
  | .syncBlock => "sync_block"
  | .warpActiveSum => "warp_active_sum"
  | .warpActiveAllEqual => "warp_active_all_equal"
  | .warpReadLaneAt => "warp_read_lane_at"
  | .warpFirstActiveLane => "warp_first_active_lane"
  | .unknown code => "op" ++ toString code

/-- The numeric code. -/
def code : ThreadGroupOp → Nat
  | .syncBlock => 0
  | .warpActiveSum => 1
  | .warpActiveAllEqual => 2
  | .warpReadLaneAt => 3
  | .warpFirstActiveLane => 4
  | .unknown code => code.toNat

/-- The operation of a numeric code. -/
def ofCode (code : UInt8) : ThreadGroupOp :=
  table[code.toNat]?.getD (.unknown code)

/-- The operation of a printed name. -/
def ofName? (name : String) : Option ThreadGroupOp :=
  table.find? (·.name == name)

end ThreadGroupOp

/-- Queries of resource properties. -/
inductive ResourceQueryOp where
  | bufferSize
  | textureSize
  | accelInstanceTransform
  | unknown (code : UInt8)
  deriving DecidableEq, Repr

namespace ResourceQueryOp

/-- The operations of the table, in the order of their codes. -/
def table : List ResourceQueryOp :=
  [.bufferSize, .textureSize, .accelInstanceTransform]

/-- The printed name. -/
def name : ResourceQueryOp → String
  | .bufferSize => "buffer_size"
  | .textureSize => "texture_size"
  | .accelInstanceTransform => "accel_instance_transform"
  | .unknown code => "op" ++ toString code

/-- The numeric code. -/
def code : ResourceQueryOp → Nat
  | .bufferSize => 0
  | .textureSize => 1
  | .accelInstanceTransform => 2
  | .unknown code => code.toNat

/-- The operation of a numeric code. -/
def ofCode (code : UInt8) : ResourceQueryOp :=
  table[code.toNat]?.getD (.unknown code)

/-- The operation of a printed name. -/
def ofName? (name : String) : Option ResourceQueryOp :=
  table.find? (·.name == name)

end ResourceQueryOp

/-- Reads of resources. -/
inductive ResourceReadOp where
  | buffer
  | texture
  | bindlessBuffer
  | traceClosest
  | traceAny
  | queryAll
  | queryAny
  | unknown (code : UInt8)
  deriving DecidableEq, Repr

namespace ResourceReadOp

/-- The operations of the table, in the order of their codes. -/
def table : List ResourceReadOp :=
  [.buffer, .texture, .bindlessBuffer, .traceClosest, .traceAny, .queryAll, .queryAny]

/-- The printed name. -/
def name : ResourceReadOp → String
  | .buffer => "buffer"
  | .texture => "texture"
  | .bindlessBuffer => "bindless_buffer"
  | .traceClosest => "trace_closest"
  | .traceAny => "trace_any"
  | .queryAll => "query_all"
  | .queryAny => "query_any"
  | .unknown code => "op" ++ toString code

/-- The numeric code. -/
def code : ResourceReadOp → Nat
  | .buffer => 0
  | .texture => 1
  | .bindlessBuffer => 2
  | .traceClosest => 3
  | .traceAny => 4
  | .queryAll => 5
  | .queryAny => 6
  | .unknown code => code.toNat

/-- The operation of a numeric code. -/
def ofCode (code : UInt8) : ResourceReadOp :=
  table[code.toNat]?.getD (.unknown code)

/-- The operation of a printed name. -/
def ofName? (name : String) : Option ResourceReadOp :=
  table.find? (·.name == name)

end ResourceReadOp

/-- Writes of resources. -/
inductive ResourceWriteOp where
  | buffer
  | texture
  | accelInstanceTransform
  | unknown (code : UInt8)
  deriving DecidableEq, Repr

namespace ResourceWriteOp

/-- The operations of the table, in the order of their codes. -/
def table : List ResourceWriteOp :=
  [.buffer, .texture, .accelInstanceTransform]

/-- The printed name. -/
def name : ResourceWriteOp → String
  | .buffer => "buffer"
  | .texture => "texture"
  | .accelInstanceTransform => "accel_instance_transform"
  | .unknown code => "op" ++ toString code

/-- The numeric code. -/
def code : ResourceWriteOp → Nat
  | .buffer => 0
  | .texture => 1
  | .accelInstanceTransform => 2
  | .unknown code => code.toNat

/-- The operation of a numeric code. -/
def ofCode (code : UInt8) : ResourceWriteOp :=
  table[code.toNat]?.getD (.unknown code)

/-- The operation of a printed name. -/
def ofName? (name : String) : Option ResourceWriteOp :=
  table.find? (·.name == name)

end ResourceWriteOp

/-- Reads of a ray query object. -/
inductive RayQueryReadOp where
  | worldSpaceRay
  | proceduralCandidateHit
  | triangleCandidateHit
  | committedHit
  | isTriangleCandidate
  | isProceduralCandidate
  | isTerminated
  | unknown (code : UInt8)
  deriving DecidableEq, Repr

namespace RayQueryReadOp

/-- The operations of the table, in the order of their codes. -/
def table : List RayQueryReadOp :=
  [.worldSpaceRay, .proceduralCandidateHit, .triangleCandidateHit, .committedHit,
    .isTriangleCandidate, .isProceduralCandidate, .isTerminated]

/-- The printed name. -/
def name : RayQueryReadOp → String
  | .worldSpaceRay => "world_space_ray"
  | .proceduralCandidateHit => "procedural_candidate_hit"
  | .triangleCandidateHit => "triangle_candidate_hit"
  | .committedHit => "committed_hit"
  | .isTriangleCandidate => "is_triangle_candidate"
  | .isProceduralCandidate => "is_procedural_candidate"
  | .isTerminated => "is_terminated"
  | .unknown code => "op" ++ toString code

/-- The numeric code. -/
def code : RayQueryReadOp → Nat
  | .worldSpaceRay => 0
  | .proceduralCandidateHit => 1
  | .triangleCandidateHit => 2
  | .committedHit => 3
  | .isTriangleCandidate => 4
  | .isProceduralCandidate => 5
  | .isTerminated => 6
  | .unknown code => code.toNat

/-- The operation of a numeric code. -/
def ofCode (code : UInt8) : RayQueryReadOp :=
  table[code.toNat]?.getD (.unknown code)

/-- The operation of a printed name. -/
def ofName? (name : String) : Option RayQueryReadOp :=
  table.find? (·.name == name)

end RayQueryReadOp

/-- Updates of a ray query object. -/
inductive RayQueryWriteOp where
  | commitTriangle
  | commitProcedural
  | terminate
  | proceed
  | unknown (code : UInt8)
  deriving DecidableEq, Repr

namespace RayQueryWriteOp

/-- The operations of the table, in the order of their codes. -/
def table : List RayQueryWriteOp :=
  [.commitTriangle, .commitProcedural, .terminate, .proceed]

/-- The printed name. -/
def name : RayQueryWriteOp → String
  | .commitTriangle => "commit_triangle"
  | .commitProcedural => "commit_procedural"
  | .terminate => "terminate"
  | .proceed => "proceed"
  | .unknown code => "op" ++ toString code

/-- The numeric code. -/
def code : RayQueryWriteOp → Nat
  | .commitTriangle => 0
  | .commitProcedural => 1
  | .terminate => 2
  | .proceed => 3
  | .unknown code => code.toNat

/-- The operation of a numeric code. -/
def ofCode (code : UInt8) : RayQueryWriteOp :=
  table[code.toNat]?.getD (.unknown code)

/-- The operation of a printed name. -/
def ofName? (name : String) : Option RayQueryWriteOp :=
  table.find? (·.name == name)

end RayQueryWriteOp

/-- Automatic differentiation intrinsics. -/
inductive AutodiffOp where
  | requiresGradient
  | gradient
  | gradientMarker
  | accumulateGradient
  | backward
  | detach
  | unknown (code : UInt8)
  deriving DecidableEq, Repr

namespace AutodiffOp

/-- The operations of the table, in the order of their codes. -/
def table : List AutodiffOp :=
  [.requiresGradient, .gradient, .gradientMarker, .accumulateGradient, .backward, .detach]

/-- The printed name. -/
def name : AutodiffOp → String
  | .requiresGradient => "requires_grad"
  | .gradient => "grad"
  | .gradientMarker => "grad_marker"
  | .accumulateGradient => "accumulate_grad"
  | .backward => "backward"
  | .detach => "detach"
  | .unknown _ => "unknown"

/-- The numeric code. -/
def code : AutodiffOp → Nat
  | .requiresGradient => 0
  | .gradient => 1
  | .gradientMarker => 2
  | .accumulateGradient => 3
  | .backward => 4
  | .detach => 5
  | .unknown code => code.toNat

/-- The operation of a numeric code. -/
def ofCode (code : UInt8) : AutodiffOp :=
  table[code.toNat]?.getD (.unknown code)

/-- The operation of a printed name. -/
def ofName? (name : String) : Option AutodiffOp :=
  table.find? (·.name == name)

end AutodiffOp

/-- The builtin thread and dispatch registers. -/
inductive Register where
  | threadId
  | blockId
  | warpLaneId
  | dispatchId
  | kernelId
  | objectId
  | blockSize
  | warpSize
  | dispatchSize
  | unknown (code : UInt8)
  deriving DecidableEq, Repr

namespace Register

/-- The registers of the table, in the order of their codes. -/
def table : List Register :=
  [.threadId, .blockId, .warpLaneId, .dispatchId, .kernelId, .objectId, .blockSize, .warpSize,
    .dispatchSize]

/-- The printed name. -/
def name : Register → String
  | .threadId => "thread_id"
  | .blockId => "block_id"
  | .warpLaneId => "warp_lane_id"
  | .dispatchId => "dispatch_id"
  | .kernelId => "kernel_id"
  | .objectId => "object_id"
  | .blockSize => "block_size"
  | .warpSize => "warp_size"
  | .dispatchSize => "dispatch_size"
  | .unknown _ => "unknown"

/-- The numeric code. -/
def code : Register → Nat
  | .threadId => 0
  | .blockId => 1
  | .warpLaneId => 2
  | .dispatchId => 3
  | .kernelId => 4
  | .objectId => 5
  | .blockSize => 6
  | .warpSize => 7
  | .dispatchSize => 8
  | .unknown code => code.toNat

/-- The register of a numeric code. -/
def ofCode (code : UInt8) : Register :=
  table[code.toNat]?.getD (.unknown code)

/-- The register of a printed name. -/
def ofName? (name : String) : Option Register :=
  table.find? (·.name == name)

end Register

/-- Whether a register holds a vector of three coordinates rather than one number. -/
def Register.isVector : Register → Bool
  | .threadId | .blockId | .dispatchId | .blockSize | .dispatchSize => true
  | _ => false

end ShaderIR

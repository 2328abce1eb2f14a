/-!
# Scalars and their byte payloads

A scalar is described by its kind and its width in bytes.  Constants carry
their scalars little-endian, so this module fixes how an integer is read from
and written to bytes: signed kinds are extended by their sign, all others by
zeros, and the result is a 64-bit word.
-/

namespace ShaderIR

/-- The four families of scalars. -/
inductive ScalarKind where
  | sint
  | uint
  | float
  | bool
  deriving DecidableEq, Repr

/-- A scalar description: its family and its width in bytes. -/
structure Scalar where
  kind : ScalarKind
  width : Nat
  deriving DecidableEq, Repr

/-- The position of a kind in the fixed numbering of scalar kinds. -/
def ScalarKind.code : ScalarKind → Nat
  | .sint => 0
  | .uint => 1
  | .float => 2
  | .bool => 3

/-- The word `b` bytes of a natural number, least significant byte first. -/
def littleEndian : Nat → Nat → List UInt8
  | 0, _ => []
  | bytes + 1, word => UInt8.ofNat word :: littleEndian bytes (word / 256)

/-- The natural number whose bytes, least significant first, are given. -/
def ofLittleEndian : List UInt8 → Nat
  | [] => 0
  | byte :: rest => byte.toNat + 256 * ofLittleEndian rest

/-- Writing some bytes of a number yields that many bytes. -/
@[simp]
theorem length_littleEndian (bytes word : Nat) :
    (littleEndian bytes word).length = bytes := by
  induction bytes generalizing word with
  | zero => rfl
  | succ bytes ih => simp [littleEndian, ih]

/-- Reading the bytes that were written gives the number modulo their range. -/
theorem ofLittleEndian_littleEndian (bytes word : Nat) :
    ofLittleEndian (littleEndian bytes word) = word % Nat.pow 256 bytes := by
  induction bytes generalizing word with
  | zero => exact (Nat.mod_one word).symm
  | succ bytes ih =>
    have next : Nat.pow 256 (bytes + 1) = 256 * Nat.pow 256 bytes := Nat.mul_comm _ _
    rw [littleEndian, ofLittleEndian, ih, next, Nat.mod_mul]
    simp [UInt8.toNat_ofNat']

namespace Scalar

/-- Truth values take one byte. -/
def boolean : Scalar := ⟨.bool, 1⟩

/-- The signed integer of the given number of bytes. -/
def signed (width : Nat) : Scalar := ⟨.sint, width⟩

/-- The unsigned integer of the given number of bytes. -/
def unsigned (width : Nat) : Scalar := ⟨.uint, width⟩

/-- The floating point number of the given number of bytes. -/
def floating (width : Nat) : Scalar := ⟨.float, width⟩

/-- The printed name: a letter for the kind and the width in bits. -/
def name (scalar : Scalar) : String :=
  let bits := toString (scalar.width * 8)
  match scalar.kind with
  | .sint => "i" ++ bits
  | .uint => "u" ++ bits
  | .float => "f" ++ bits
  | .bool => "bool"

/-- The scalars that have a name, from the smallest width to the largest. -/
def table : List Scalar :=
  [boolean, signed 1, unsigned 1, signed 2, unsigned 2, floating 2, signed 4, unsigned 4,
    floating 4, signed 8, unsigned 8, floating 8]

/-- The scalar of a printed name. -/
def ofName? (name : String) : Option Scalar :=
  table.find? (·.name == name)

/-- How many bytes an integer read consumes: 1, 2 or 4, and 8 for any other width. -/
def readWidth (scalar : Scalar) : Nat :=
  if scalar.width = 1 ∨ scalar.width = 2 ∨ scalar.width = 4 then scalar.width else 8

/--
Read a little-endian integer of the described width from the front of the
payload.  Nothing is read when the payload is too short.
-/
def decodeInt? (scalar : Scalar) (data : List UInt8) : Option Int64 :=
  let width := scalar.readWidth
  if data.length < width then none
  else
    let word := ofLittleEndian (data.take width)
    match scalar.kind with
    | .sint => some (Int64.ofInt (Int.bmod word (Nat.pow 256 width)))
    | _ => some (Int64.ofNat word)

/-- The payload holding the low bits of a word in the described width. -/
def encode (scalar : Scalar) (bits : UInt64) : List UInt8 :=
  littleEndian scalar.width bits.toNat

/-- A payload has the width of its scalar. -/
@[simp]
theorem length_encode (scalar : Scalar) (bits : UInt64) :
    (scalar.encode bits).length = scalar.width :=
  length_littleEndian _ _

end Scalar

end ShaderIR

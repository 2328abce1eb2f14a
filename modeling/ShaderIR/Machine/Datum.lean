import ShaderIR.Payload
import ShaderIR.Pool

/-!
# Runtime values

A run computes with data: truth values, 64-bit integers, double precision
numbers, aggregates of data, and handles of things that live in the heap.
Aggregates are never changed in place; a reference denotes a heap cell and a
path of indices below it, and storing through it replaces the content of the
cell.  Buffers and ray queries are heap objects too, shared by all their
handles.
-/

namespace ShaderIR.Machine

/-- The two kinds of ray query candidates. -/
inductive Candidate where
  | triangle
  | procedural
  deriving DecidableEq, Repr

/-- A scripted ray query: its candidates and how far it has come. -/
structure RayQuery where
  candidates : List Candidate := []
  committed : List Nat := []
  current : Nat := 0
  next : Nat := 0
  terminated : Bool := false
  deriving DecidableEq, Repr

/-- Move to the next candidate, unless the query is terminated or exhausted. -/
def RayQuery.advance? (query : RayQuery) : Option (Candidate × RayQuery) :=
  if query.terminated then none
  else
    query.candidates[query.next]?.map fun candidate =>
      (candidate, { query with current := query.next, next := query.next + 1 })

/-- Whether the current candidate exists and is of a kind. -/
def RayQuery.isAt (query : RayQuery) (candidate : Candidate) : Bool :=
  0 < query.next && query.candidates[query.current]? == some candidate

/--
A runtime value.  A reference has a serial number, because two references to
one place are still told apart when they are compared as values.
-/
inductive Datum where
  | absent
  | bool (truth : Bool)
  | int (number : Int64)
  | uint (number : UInt64)
  | float (number : Float)
  | aggregate (elements : List Datum)
  | reference (serial cell : Nat) (path : List Int)
  | buffer (address : Nat)
  | rayQuery (address : Nat)
  | entity (ref : Ref)
  deriving Inhabited, Repr

namespace Datum

/-- The element of a list at an index, which may be out of range. -/
def elementAt? (elements : List Datum) (index : Int) : Option Datum :=
  if index < 0 then none else elements[index.toNat]?

/-- The part of a datum at a path of indices. -/
def read? : Datum → List Int → Option Datum
  | datum, [] => some datum
  | aggregate elements, index :: path => (elementAt? elements index).bind (·.read? path)
  | _, _ :: _ => none

/-- A datum with the part at a path of indices replaced. -/
def write? : Datum → List Int → Datum → Option Datum
  | _, [], new => some new
  | aggregate elements, index :: path, new => do
    let element ← elementAt? elements index
    let element ← element.write? path new
    return aggregate (elements.set index.toNat element)
  | _, _ :: _, _ => none

/-- The name of the kind of a datum, as messages show it. -/
def kindName (isFunction : Ref → Bool) : Datum → String
  | absent => "<nil>"
  | bool _ => "bool"
  | int _ => "int64"
  | uint _ => "uint64"
  | float _ => "float64"
  | aggregate _ => "[]interface \x7b\x7d"
  | reference .. => "*interp.Pointer"
  | buffer _ => "*interp.Buffer"
  | rayQuery _ => "*interp.RayQuery"
  | entity ref => if isFunction ref then "*ir.Function" else "*ir.BasicBlock"

end Datum

/-- What lives as long as a run: cells, buffers, ray queries. -/
structure Heap where
  cells : Array Datum := #[]
  buffers : Array (List Datum) := #[]
  rayQueries : Array RayQuery := #[]
  serial : Nat := 0
  deriving Repr

namespace Heap

/-- A new variable holding a datum, and a reference to it. -/
def newVariable (heap : Heap) (content : Datum) : Datum × Heap :=
  (.reference heap.serial heap.cells.size [],
    { heap with cells := heap.cells.push content, serial := heap.serial + 1 })

/-- A new reference to the part of a cell at a path. -/
def newReference (heap : Heap) (cell : Nat) (path : List Int) : Datum × Heap :=
  (.reference heap.serial cell path, { heap with serial := heap.serial + 1 })

/-- A new buffer. -/
def newBuffer (heap : Heap) (elements : List Datum) : Datum × Heap :=
  (.buffer heap.buffers.size, { heap with buffers := heap.buffers.push elements })

/-- A new ray query. -/
def newRayQuery (heap : Heap) (query : RayQuery) : Datum × Heap :=
  (.rayQuery heap.rayQueries.size, { heap with rayQueries := heap.rayQueries.push query })

/-- The content of a cell at a path. -/
def load? (heap : Heap) (cell : Nat) (path : List Int) : Option Datum :=
  heap.cells[cell]?.bind (·.read? path)

/-- Replace the content of a cell at a path. -/
def store? (heap : Heap) (cell : Nat) (path : List Int) (new : Datum) : Option Heap := do
  let content ← heap.cells[cell]?
  let content ← content.write? path new
  return { heap with cells := heap.cells.setIfInBounds cell content }

end Heap

/-! ## Lines -/

/-- What has an address: a reference, a cell, a buffer, a ray query, or a block or function. -/
inductive Address where
  | reference (serial : Nat)
  | cell (index : Nat)
  | buffer (address : Nat)
  | rayQuery (address : Nat)
  | entity (ref : Ref)
  deriving DecidableEq, Repr

/--
A part of a printed line: a character, the digits of an address, or all that the
program keeps of a block or a function, addresses among it.
-/
inductive Glyph where
  | char (letter : Char)
  | address (shown : Address)
  | contents (ref : Ref)
  deriving DecidableEq, Repr

/-- The characters of a part of a line, but for the digits of addresses. -/
def Glyph.letters : Glyph → List Char
  | char letter => [letter]
  | address _ => ['0', 'x']
  | contents _ => ['&', '\x7b', '0', 'x', '\x7d']

/-- A printed line. -/
abbrev Line := List Glyph

/-- The text of a line with the digits of addresses left out. -/
def Line.text (line : Line) : String := String.ofList (line.flatMap Glyph.letters)

/-! ## Zero values and constants -/

/-- The zero of a scalar. -/
def zeroScalar (scalar : Scalar) : Datum :=
  match scalar.kind with
  | .bool => .bool false
  | .sint => .int 0
  | .uint => .uint 0
  | .float => .float 0

/-- Make several data one after another. -/
def makeRepeated (make : Heap → Datum × Heap) : Nat → Heap → List Datum × Heap
  | 0, heap => ([], heap)
  | count + 1, heap =>
    let (first, heap) := make heap
    let (rest, heap) := makeRepeated make count heap
    (first :: rest, heap)

mutual

/-- The zero of a type; a ray query is a new object, and a resource has no zero. -/
def zero : Ty → Heap → Datum × Heap
  | .scalar _ scalar, heap => (zeroScalar scalar, heap)
  | .vector _ size _ element, heap =>
    let (elements, heap) := makeRepeated (zero element) size heap
    (.aggregate elements, heap)
  | .matrix _ columns _ column, heap =>
    let (elements, heap) := makeRepeated (zero column) columns heap
    (.aggregate elements, heap)
  | .array _ element count, heap =>
    let (elements, heap) := makeRepeated (zero element) count heap
    (.aggregate elements, heap)
  | .record _ members, heap =>
    let (elements, heap) := zeroAll members heap
    (.aggregate elements, heap)
  | .resource _ _ _, heap => (.absent, heap)
  | .rayQuery _ _, heap => heap.newRayQuery {}

/-- The zeros of several types. -/
def zeroAll : List Ty → Heap → List Datum × Heap
  | [], heap => ([], heap)
  | type :: rest, heap =>
    let (first, heap) := zero type heap
    let (rest, heap) := zeroAll rest heap
    (first :: rest, heap)

end

/-- The datum of a scalar payload. -/
def scalarDatum? (scalar : Scalar) (data : List UInt8) : Option Datum :=
  match scalar.kind with
  | .bool => data.head?.map fun byte => .bool (byte != 0)
  | .sint => (scalar.decodeInt? data).map .int
  | .uint => (scalar.decodeInt? data).map fun number => .uint number.toUInt64
  | .float => (scalar.decodeFloat? data).map .float

/-- The datum of a constant payload. -/
def constantDatum? (type : Ty) (data : List UInt8) : Option Datum :=
  type.readPayload scalarDatum? .aggregate data

end ShaderIR.Machine

import ShaderIR.Ty

/-!
# The type registry

A registry hands out every type once.  A request is described by a `TypeForm`,
whose text key names the kind of the type, its numbers and the handles of the
types it is made of.  A request whose key is known returns the registered type,
and keeps the name it was first given; otherwise the types of its elements are
registered before it, so handles are dense and every element has a smaller
handle than the type that contains it.
-/

namespace ShaderIR

/-- What a type is requested as: its shape over already registered types. -/
inductive TypeForm where
  | scalar (scalar : Scalar)
  | vector (size : Nat) (scalar : Scalar)
  | matrix (columns : Nat) (scalar : Scalar)
  | array (element : Ty) (count : Nat)
  | record (members : List Ty)
  | resource (kind : ResourceClass) (element : Option Ty)
  | rayQuery (anyHit : Bool)
  deriving DecidableEq, Repr

/-- The text key of a scalar. -/
def Scalar.key (scalar : Scalar) : String :=
  "scalar:" ++ toString scalar.kind.code ++ ":" ++ toString scalar.width

/-- The text key under which a form is registered. -/
def TypeForm.key : TypeForm → String
  | scalar description => description.key
  | vector size description => "vec:" ++ toString size ++ ":" ++ description.key
  | matrix columns description => "mat:" ++ toString columns ++ ":" ++ description.key
  | array element count => "array:" ++ toString element.handle ++ ":" ++ toString count
  | record members =>
    "struct:" ++ toString members.length ++
      String.join (members.map fun member => ":" ++ toString member.handle)
  | resource kind none => "resource:" ++ toString kind.code ++ ":none"
  | resource kind (some element) =>
    "resource:" ++ toString kind.code ++ ":" ++ toString element.handle
  | rayQuery anyHit => if anyHit then "rayquery:any" else "rayquery:all"

/-- The form a registered type was requested as. -/
def Ty.form : Ty → TypeForm
  | scalar _ description => .scalar description
  | vector _ size description _ => .vector size description
  | matrix _ columns description _ => .matrix columns description
  | array _ element count => .array element count
  | record _ members => .record members
  | resource _ kind element => .resource kind element
  | rayQuery _ anyHit => .rayQuery anyHit

/-- The types of one module, each at the position of its handle. -/
structure Registry where
  owner : Nat
  types : Array Ty := #[]
  deriving DecidableEq, Repr

namespace Registry

/-- The registered type of a key. -/
def find? (registry : Registry) (key : String) : Option Ty :=
  registry.types.find? (·.form.key == key)

/-- The type with a handle. -/
def lookup? (registry : Registry) (handle : Nat) : Option Ty :=
  registry.types[handle]?

/-- Add a new type under the next handle. -/
def add
    (registry : Registry)
    (name : String)
    (build : TypeTag → Ty) :
    Ty × Registry :=
  let type := build ⟨registry.owner, registry.types.size, name⟩
  (type, { registry with types := registry.types.push type })

/-- The registered scalar type. -/
def internScalar
    (registry : Registry)
    (name : String)
    (scalar : Scalar) :
    Ty × Registry :=
  match registry.find? (TypeForm.scalar scalar).key with
  | some type => (type, registry)
  | none => registry.add name fun tag => .scalar tag scalar

/-- The registered vector type; its scalar type is registered first. -/
def internVector
    (registry : Registry)
    (name : String)
    (size : Nat)
    (scalar : Scalar) :
    Ty × Registry :=
  match registry.find? (TypeForm.vector size scalar).key with
  | some type => (type, registry)
  | none =>
    let (element, registry) := registry.internScalar "" scalar
    registry.add name fun tag => .vector tag size scalar element

/-- The registered matrix type; its column type is registered first. -/
def internMatrix
    (registry : Registry)
    (name : String)
    (columns : Nat)
    (scalar : Scalar) :
    Ty × Registry :=
  match registry.find? (TypeForm.matrix columns scalar).key with
  | some type => (type, registry)
  | none =>
    let (column, registry) := registry.internVector "" columns scalar
    registry.add name fun tag => .matrix tag columns scalar column

/-- The registered type of a form, created under the given name if it is new. -/
def intern
    (registry : Registry)
    (name : String)
    (form : TypeForm) :
    Ty × Registry :=
  match form with
  | .scalar scalar => registry.internScalar name scalar
  | .vector size scalar => registry.internVector name size scalar
  | .matrix columns scalar => registry.internMatrix name columns scalar
  | .array element count =>
    match registry.find? form.key with
    | some type => (type, registry)
    | none => registry.add name fun tag => .array tag element count
  | .record members =>
    match registry.find? form.key with
    | some type => (type, registry)
    | none => registry.add name fun tag => .record tag members
  | .resource kind element =>
    match registry.find? form.key with
    | some type => (type, registry)
    | none => registry.add name fun tag => .resource tag kind element
  | .rayQuery anyHit =>
    match registry.find? form.key with
    | some type => (type, registry)
    | none => registry.add name fun tag => .rayQuery tag anyHit

/-- The truth-value type. -/
def bool (registry : Registry) : Ty × Registry :=
  registry.intern "bool" (.scalar .boolean)

/-- The 32-bit signed integer type. -/
def int32 (registry : Registry) : Ty × Registry :=
  registry.intern "i32" (.scalar (.signed 4))

/-- The 32-bit unsigned integer type. -/
def uint32 (registry : Registry) : Ty × Registry :=
  registry.intern "u32" (.scalar (.unsigned 4))

/-- The 64-bit signed integer type. -/
def int64 (registry : Registry) : Ty × Registry :=
  registry.intern "i64" (.scalar (.signed 8))

/-- The 64-bit unsigned integer type. -/
def uint64 (registry : Registry) : Ty × Registry :=
  registry.intern "u64" (.scalar (.unsigned 8))

/-- The 32-bit floating point type. -/
def float32 (registry : Registry) : Ty × Registry :=
  registry.intern "f32" (.scalar (.floating 4))

/-- The square matrix of 32-bit floats of a dimension. -/
def matrix (registry : Registry) (dimension : Nat) : Ty × Registry :=
  registry.intern "" (.matrix dimension (.floating 4))

end Registry

end ShaderIR

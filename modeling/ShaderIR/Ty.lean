import ShaderIR.Scalar

/-!
# Types

A type is a finite tree.  Every node carries a tag: the registry that created
the node, its handle in that registry and the name it was first requested
under.  Two types are the same exactly when their trees agree, tags included,
so types of different registries are never the same, however alike they look.

Values without a result have no type; that is `none` in `Option Ty` and is
written `void`.
-/

namespace ShaderIR

/-- The identity of a type: its registry, its handle there and its name. -/
structure TypeTag where
  owner : Nat
  handle : Nat
  name : String
  deriving DecidableEq, Repr

/-- The classes of bindless resources. -/
inductive ResourceClass where
  | buffer
  | texture2d
  | texture3d
  | accel
  | bindlessArray
  deriving DecidableEq, Repr

/-- The printed name of a resource class. -/
def ResourceClass.name : ResourceClass → String
  | .buffer => "buffer"
  | .texture2d => "texture2d"
  | .texture3d => "texture3d"
  | .accel => "accel"
  | .bindlessArray => "bindless_array"

/-- The position of a resource class in the fixed numbering of classes. -/
def ResourceClass.code : ResourceClass → Nat
  | .buffer => 0
  | .texture2d => 1
  | .texture3d => 2
  | .accel => 3
  | .bindlessArray => 4

/-- The resource class of a printed name. -/
def ResourceClass.ofName? (name : String) : Option ResourceClass :=
  [.buffer, .texture2d, .texture3d, .accel, .bindlessArray].find? (·.name == name)

/--
A type.  A vector records its scalar and the registered type of its elements,
a matrix its scalar and the registered type of its columns.
-/
inductive Ty where
  | scalar (tag : TypeTag) (scalar : Scalar)
  | vector (tag : TypeTag) (size : Nat) (scalar : Scalar) (element : Ty)
  | matrix (tag : TypeTag) (columns : Nat) (scalar : Scalar) (column : Ty)
  | array (tag : TypeTag) (element : Ty) (count : Nat)
  | record (tag : TypeTag) (members : List Ty)
  | resource (tag : TypeTag) (kind : ResourceClass) (element : Option Ty)
  | rayQuery (tag : TypeTag) (anyHit : Bool)
  deriving Repr

namespace Ty

/-! ## Sameness -/

mutual

/-- Whether two types have the same tree. -/
def agrees : Ty → Ty → Bool
  | scalar tag description, scalar tag' description' =>
    tag == tag' && description == description'
  | vector tag size description element, vector tag' size' description' element' =>
    tag == tag' && size == size' && description == description' && agrees element element'
  | matrix tag columns description column, matrix tag' columns' description' column' =>
    tag == tag' && columns == columns' && description == description' && agrees column column'
  | array tag element count, array tag' element' count' =>
    tag == tag' && agrees element element' && count == count'
  | record tag members, record tag' members' =>
    tag == tag' && agreesAll members members'
  | resource tag kind element, resource tag' kind' element' =>
    tag == tag' && kind == kind' && agreesOption element element'
  | rayQuery tag anyHit, rayQuery tag' anyHit' =>
    tag == tag' && anyHit == anyHit'
  | _, _ => false

/-- Whether two lists of types agree position by position. -/
def agreesAll : List Ty → List Ty → Bool
  | [], [] => true
  | type :: rest, type' :: rest' => agrees type type' && agreesAll rest rest'
  | _, _ => false

/-- Whether two possibly absent types agree. -/
def agreesOption : Option Ty → Option Ty → Bool
  | none, none => true
  | some type, some type' => agrees type type'
  | _, _ => false

end

mutual

/-- The comparison of trees decides equality of types. -/
theorem agrees_iff (left right : Ty) : agrees left right = true ↔ left = right := by
  cases left <;> cases right <;>
    simp [agrees, and_assoc, agrees_iff, agreesAll_iff, agreesOption_iff]

/-- The comparison of lists of trees decides equality of lists of types. -/
theorem agreesAll_iff (left right : List Ty) :
    agreesAll left right = true ↔ left = right := by
  cases left <;> cases right <;> simp [agreesAll, agrees_iff, agreesAll_iff]

/-- The comparison of possibly absent trees decides their equality. -/
theorem agreesOption_iff (left right : Option Ty) :
    agreesOption left right = true ↔ left = right := by
  cases left <;> cases right <;> simp [agreesOption, agrees_iff]

end

instance : DecidableEq Ty := fun left right =>
  decidable_of_iff (agrees left right = true) (agrees_iff left right)

/-! ## Observations -/

/-- The identity of a type. -/
def tag : Ty → TypeTag
  | scalar tag _ => tag
  | vector tag _ _ _ => tag
  | matrix tag _ _ _ => tag
  | array tag _ _ => tag
  | record tag _ => tag
  | resource tag _ _ => tag
  | rayQuery tag _ => tag

/-- The handle of a type in its registry. -/
def handle (type : Ty) : Nat := type.tag.handle

/-- The name a type was first requested under. -/
def name (type : Ty) : String := type.tag.name

/-- The description of a scalar type. -/
def scalar? : Ty → Option Scalar
  | scalar _ description => some description
  | _ => none

/-- The scalar a scalar, vector or matrix type is made of. -/
def componentScalar? : Ty → Option Scalar
  | scalar _ description => some description
  | vector _ _ description _ => some description
  | matrix _ _ description _ => some description
  | _ => none

/-- Whether a type is a scalar. -/
def isScalar (type : Ty) : Bool := type.scalar?.isSome

/-- Whether a type is the truth-value scalar. -/
def isBool (type : Ty) : Bool :=
  type.scalar?.any (·.kind == .bool)

/-- Whether a type is a signed or unsigned integer scalar. -/
def isInteger (type : Ty) : Bool :=
  type.scalar?.any fun description => description.kind == .sint || description.kind == .uint

/-- Whether a type is a floating point scalar. -/
def isFloat (type : Ty) : Bool :=
  type.scalar?.any (·.kind == .float)

/-- Whether values of a type are composed of elements. -/
def isAggregate : Ty → Bool
  | vector .. | matrix .. | array .. | record .. => true
  | _ => false

/-- Whether a type is a record, whose members are chosen by constants only. -/
def isRecord : Ty → Bool
  | record .. => true
  | _ => false

/-- Whether a type is a resource. -/
def isResource : Ty → Bool
  | resource .. => true
  | _ => false

/-- Whether a type is a ray query object. -/
def isRayQuery : Ty → Bool
  | rayQuery .. => true
  | _ => false

/-- The number of direct elements; zero for types that are no aggregates. -/
def elementCount : Ty → Nat
  | vector _ size _ _ => size
  | matrix _ columns _ _ => columns
  | array _ _ count => count
  | record _ members => members.length
  | _ => 0

/-- The types of all direct elements, in order. -/
def elements : Ty → List Ty
  | vector _ size _ element => List.replicate size element
  | matrix _ columns _ column => List.replicate columns column
  | array _ element count => List.replicate count element
  | record _ members => members
  | _ => []

/-- The type of the direct element at an index, if there is one. -/
def element? (type : Ty) (index : Int) : Option Ty :=
  if index < 0 ∨ (type.elementCount : Int) ≤ index then none
  else
    match type with
    | vector _ _ _ element => some element
    | matrix _ _ _ column => some column
    | array _ element _ => some element
    | record _ members => members[index.toNat]?
    | _ => none

mutual

/-- The number of bytes of a packed value, counted exactly. -/
def extent : Ty → Nat
  | scalar _ description => description.width
  | vector _ size _ element => size * extent element
  | matrix _ columns _ column => columns * extent column
  | array _ element count => count * extent element
  | record _ members => extentAll members
  | resource _ _ _ => 0
  | rayQuery _ _ => 0

/-- The number of bytes of consecutive packed values. -/
def extentAll : List Ty → Nat
  | [] => 0
  | type :: rest => extent type + extentAll rest

end

/-- The packed size in bytes as a signed 64-bit word. -/
def size (type : Ty) : Int :=
  Int.bmod type.extent 0x10000000000000000

mutual

/-- The printed form of a type. -/
def render : Ty → String
  | scalar _ description => description.name
  | vector _ size description _ => "vec" ++ toString size ++ "<" ++ description.name ++ ">"
  | matrix _ columns description _ =>
    "mat" ++ toString columns ++ "x" ++ toString columns ++ "<" ++ description.name ++ ">"
  | array _ element count => "array<" ++ render element ++ ", " ++ toString count ++ ">"
  | record tag members =>
    if tag.name = "" then "struct\x7b" ++ ", ".intercalate (renderAll members) ++ "\x7d"
    else tag.name
  | resource _ kind none => kind.name
  | resource _ kind (some element) => kind.name ++ "<" ++ render element ++ ">"
  | rayQuery _ anyHit => if anyHit then "ray_query_any" else "ray_query_all"

/-- The printed forms of several types. -/
def renderAll : List Ty → List String
  | [] => []
  | type :: rest => render type :: renderAll rest

end

/-- The printed form of a possibly absent type. -/
def renderOption : Option Ty → String
  | none => "void"
  | some type => type.render

/-- The packed size of a possibly absent type; void has none. -/
def sizeOption : Option Ty → Int
  | none => 0
  | some type => type.size

end Ty

end ShaderIR

import ShaderIR.BlockRole
import ShaderIR.Machine.Datum

/-!
# Sample modules

Small modules that show one capability each.  The entry function of every sample
is named "main", and every sample comes with arguments to run it on.
-/

namespace ShaderIR

/-- A module that can be built on demand. -/
structure Sample where
  name : String
  description : String
  /-- Fill an empty module. -/
  fill : Nat → Edit Unit
  /-- Arguments for the entry function, and the heap they live in. -/
  arguments : List Machine.Datum × Machine.Heap

namespace Sample

/-- Name a function and build in its new entry block. -/
def enter (function : Ref) (name : String) : Build Unit := do
  Edit.setName function name
  Build.moveToEnd (← Edit.createBody function)

/-- A named argument passed by value. -/
def parameter (function : Ref) (type : Ty) (name : String) : Build Ref := do
  let ref ← Edit.createArgument function .byValue (some type)
  Edit.setName ref name
  return ref

/-- A named local variable. -/
def «local» (type : Ty) (name : String) : Build Ref := do
  let ref ← Build.alloca (some type) .local
  Edit.setName ref name
  return ref

/-- The 32-bit integer constant of a small number. -/
def int (module : Nat) (number : Nat) : Build Ref :=
  Edit.constantInt32 module (UInt64.ofNat number)

/-- An arithmetic operation on present operands. -/
def compute (type : Ty) (op : ArithmeticOp) (operands : List Ref) : Build Ref :=
  Build.arithmetic (some type) op (operands.map some)

/-- Read a variable. -/
def read (type : Ty) (address : Ref) : Build Ref :=
  Build.load (some type) (some address)

/-- Write a variable. -/
def write (address stored : Ref) : Build Unit := do
  let _ ← Build.store (some address) (some stored)

/-- Return a value. -/
def give (result : Ref) : Build Unit := do
  let _ ← Build.ret (some result)

/-- Return without a value. -/
def leave : Build Unit := do
  let _ ← Build.retVoid

/-- Branch to a block. -/
def goto (target : Ref) : Build Unit := do
  let _ ← Build.branch (some target)

/-- Print a format with operands. -/
def print (format : String) (operands : List Ref) : Build Unit := do
  let _ ← Build.emit (.print format) none (operands.map some)

/-- Create the block of a role of a terminator. -/
def createBlock (terminator : Ref) (role : BlockRole) : Build Ref := do
  let opcode := (← Edit.instruction terminator).opcode
  Edit.createBlockAt terminator (← Edit.demand (opcode.blockPlace? role))

/--
A local variable written on both sides of a branch and read after it:
`v` becomes 1 when the argument holds and 2 otherwise, and is returned.
-/
def ifElse (module : Nat) : Build Unit := do
  let i32 ← Edit.typeBy module Registry.int32
  let function ← Edit.createFunction module .callable (some i32)
  let condition ← parameter function (← Edit.typeBy module Registry.bool) "cond"
  enter function "main"
  let v ← «local» i32 "v"
  let branch ← Build.ifElse (some condition)
  let whenTrue ← createBlock branch .whenTrue
  let whenFalse ← createBlock branch .whenFalse
  let merge ← createBlock branch .merge
  Build.moveToEnd whenTrue
  write v (← int module 1)
  goto merge
  Build.moveToEnd whenFalse
  write v (← int module 2)
  goto merge
  Build.moveToEnd merge
  give (← read i32 v)

/-- A switch on the constant 3, with the cases 1 and 3 and a default. -/
def constantSwitch (module : Nat) : Build Unit := do
  let i32 ← Edit.typeBy module Registry.int32
  let function ← Edit.createFunction module .callable (some i32)
  enter function "main"
  let v ← «local» i32 "v"
  let choice ← Build.switch (some (← int module 3))
  let one ← Edit.createCase choice 1
  let three ← Edit.createCase choice 3
  let fallback ← createBlock choice .fallback
  let merge ← createBlock choice .merge
  Build.moveToEnd one
  print "one" []
  write v (← int module 10)
  let _ ← Build.breakTo (some merge)
  Build.moveToEnd three
  print "three" []
  write v (← int module 30)
  let _ ← Build.breakTo (some merge)
  Build.moveToEnd fallback
  write v (← int module 0)
  let _ ← Build.breakTo (some merge)
  Build.moveToEnd merge
  give (← read i32 v)

/-- A loop that sums the numbers below its argument through local variables. -/
def loopSum (module : Nat) : Build Unit := do
  let i32 ← Edit.typeBy module Registry.int32
  let function ← Edit.createFunction module .callable (some i32)
  let n ← parameter function i32 "n"
  enter function "main"
  let i ← «local» i32 "i"
  let sum ← «local» i32 "sum"
  write i (← int module 0)
  write sum (← int module 0)
  let loop ← Build.loop
  let prepare ← createBlock loop .prepare
  let body ← createBlock loop .body
  let update ← createBlock loop .update
  let merge ← createBlock loop .merge
  Build.moveToEnd prepare
  let bool ← Edit.typeBy module Registry.bool
  let condition ← compute bool .less [← read i32 i, n]
  let _ ← Build.condBranch (some condition) (some body) (some merge)
  Build.moveToEnd body
  write sum (← compute i32 .add [← read i32 sum, ← read i32 i])
  let _ ← Build.continueTo (some update)
  Build.moveToEnd update
  write i (← compute i32 .add [← read i32 i, ← int module 1])
  goto prepare
  Build.moveToEnd merge
  give (← read i32 sum)

/-- A record variable whose vector member is reached through an element of an element. -/
def recordElements (module : Nat) : Build Unit := do
  let f32 ← Edit.typeBy module Registry.float32
  let vec2 ← Edit.vectorType module (some f32) 2
  let pair ← Edit.recordType module [some f32, some vec2]
  let function ← Edit.createFunction module .callable (some f32)
  let x ← parameter function f32 "x"
  enter function "main"
  let zero ← int module 0
  let one ← int module 1
  let p ← «local» pair "p"
  let element (type : Ty) (base : Ref) (indices : List Ref) : Build Ref :=
    Build.gep (some type) (some base) (indices.map some)
  write (← element f32 p [zero]) x
  let inner ← element vec2 p [one]
  let first ← element f32 inner [zero]
  write first (← compute f32 .mul [x, ← Edit.constantFloat32 module 0x40000000])
  let second ← element f32 p [one, one]
  write second (← Edit.constantFloat32 module 0x40400000)
  let a ← read f32 (← element f32 p [zero])
  let y ← read f32 (← element f32 inner [one])
  let c ← read f32 (← element f32 p [one, zero])
  give (← compute f32 .add [← compute f32 .add [a, y], c])

/-- A kernel with unused values, a variable only written and a side that ends unreachable. -/
def deadCode (module : Nat) : Build Unit := do
  let i32 ← Edit.typeBy module Registry.int32
  let function ← Edit.createFunction module .kernel none
  let x ← parameter function i32 "x"
  enter function "main"
  let unused ← compute i32 .mul [x, ← int module 7]
  let _ ← compute i32 .add [unused, ← int module 1]
  let sink ← «local» i32 "sink"
  write sink x
  let live ← compute i32 .add [x, ← int module 1]
  let bool ← Edit.typeBy module Registry.bool
  let branch ← Build.ifElse (some (← compute bool .less [x, ← int module 0]))
  let bad ← createBlock branch .whenTrue
  let good ← createBlock branch .whenFalse
  let merge ← createBlock branch .merge
  Build.moveToEnd bad
  let _ ← compute i32 .sub [← int module 0, x]
  let _ ← Build.unreachable "negative input"
  Build.moveToEnd good
  goto merge
  Build.moveToEnd merge
  print "value \x7b\x7d" [live]
  leave

/-- A kernel that counts the surface candidates of a ray query in a local variable. -/
def rayQuery (module : Nat) : Build Unit := do
  let i32 ← Edit.typeBy module Registry.int32
  let function ← Edit.createFunction module .kernel none
  let queryType ← Edit.typeBy module (·.intern "" (.rayQuery false))
  let query ← Edit.createArgument function .byReference (some queryType)
  Edit.setName query "q"
  let base ← parameter function i32 "base"
  enter function "main"
  let hits ← «local» i32 "hits"
  write hits (← int module 0)
  let scaled ← compute i32 .mul [base, ← int module 2]
  let loop ← Build.rayQueryLoop
  let dispatchBlock ← createBlock loop .dispatch
  let merge ← createBlock loop .merge
  Build.moveToEnd dispatchBlock
  let dispatch ← Build.rayQueryDispatch (some query) (some merge)
  let surface ← createBlock dispatch .surface
  let procedural ← createBlock dispatch .procedural
  Build.moveToEnd surface
  print "surface \x7b\x7d" [scaled]
  write hits (← compute i32 .add [← read i32 hits, ← int module 1])
  let _ ← Build.emit (.rayQueryWrite .commitTriangle) none [some query]
  goto dispatchBlock
  Build.moveToEnd procedural
  print "procedural \x7b\x7d" [base]
  let _ ← Build.emit (.rayQueryWrite .terminate) none [some query]
  goto dispatchBlock
  Build.moveToEnd merge
  print "hits \x7b\x7d" [← read i32 hits]
  leave

/-- A kernel that calls a chain of callables, next to a callable that nothing calls. -/
def callChain (module : Nat) : Build Unit := do
  let i32 ← Edit.typeBy module Registry.int32
  let call (callee argument : Ref) : Build Ref :=
    Build.call (some i32) (some callee) [some argument]
  let leaf ← Edit.createFunction module .callable (some i32)
  let leafArgument ← Edit.createArgument leaf .byValue (some i32)
  enter leaf "leaf"
  give (← compute i32 .add [leafArgument, ← int module 1])
  let helper ← Edit.createFunction module .callable (some i32)
  let helperArgument ← Edit.createArgument helper .byValue (some i32)
  enter helper "helper"
  give (← call leaf (← compute i32 .mul [helperArgument, ← int module 2]))
  let orphan ← Edit.createFunction module .callable (some i32)
  enter orphan "orphan"
  give (← call leaf (← int module 0))
  let kernel ← Edit.createFunction module .kernel none
  let kernelArgument ← Edit.createArgument kernel .byValue (some i32)
  enter kernel "main"
  print "result \x7b\x7d" [← call helper kernelArgument]
  leave

/-- A query variable with a triangle, a procedural and another triangle candidate, and 4. -/
def rayQueryArguments : List Machine.Datum × Machine.Heap :=
  let (query, heap) :=
    ({} : Machine.Heap).newRayQuery { candidates := [.triangle, .procedural, .triangle] }
  let (address, heap) := heap.newVariable query
  ([address, .int 4], heap)

/-- All samples, sorted by name. -/
def all : List Sample :=
  [{ name := "call_graph"
     description := "kernel calling a chain of callables next to an unused callable"
     fill := fun module => (callChain module).run
     arguments := ([.int 20], {}) },
   { name := "constant_switch"
     description := "switch on the constant 3 with cases 1 and 3 and a default"
     fill := fun module => (constantSwitch module).run
     arguments := ([], {}) },
   { name := "dead_code"
     description := "unused values, a write-only variable and a branch ending in unreachable"
     fill := fun module => (deadCode module).run
     arguments := ([.int 3], {}) },
   { name := "if_else"
     description := "local variable written on both sides of an if and read at the merge"
     fill := fun module => (ifElse module).run
     arguments := ([.bool true], {}) },
   { name := "loop_sum"
     description := "structured loop summing 0..n-1 through local variables"
     fill := fun module => (loopSum module).run
     arguments := ([.int 6], {}) },
   { name := "ray_query"
     description := "ray query loop with surface and procedural handlers sharing a counter"
     fill := fun module => (rayQuery module).run
     arguments := rayQueryArguments },
   { name := "struct_gep"
     description := "struct variable accessed through chained element pointers"
     fill := fun module => (recordElements module).run
     arguments := ([.float 2.5], {}) }]

/-- The sample of a name. -/
def ofName? (name : String) : Option Sample :=
  all.find? (·.name == name)

/-- Build a sample as a new module. -/
def build (sample : Sample) : Edit Nat := do
  let module ← modifyGet fun store => store.addModule sample.name
  sample.fill module
  return module

end Sample

/-- The entry function of a module: its first function named "main". -/
def Store.mainFunction? (store : Store) (module : Nat) : Option Ref :=
  (store.functions module).find? fun function =>
    (store.value? function).any (·.name == "main")

end ShaderIR

import ShaderIR.Proofs.Edit.Creations
import ShaderIR.Proofs.Revision.Copying

/-!
# Requests for interned values

Constants, undefined values and registers are interned: a request for one is answered with the
value of an earlier request for the same, if there was any.  Operations make such requests, and
copying an instruction makes those of the operations that its resolver performs.

The search for a constant compares digests before it compares types and bytes.  Here all
operations are performed with an arbitrary digest function, which is the same as without one
when it is the function in use, and the answers that they receive are recorded in order.
-/

namespace ShaderIR

open Store Edit

/-- A digest of the type and the bytes of a constant. -/
abbrev Digesting := Ty → List UInt8 → UInt64

/-- What an interned value is requested as. -/
inductive Request where
  | constant (type : Ty) (data : List UInt8)
  | undefined (type : Option Ty)
  | register (name : Register)
  deriving DecidableEq

/-- A request that a module has answered, and the answer. -/
structure Answered where
  module : Nat
  request : Request
  ref : Ref
  deriving DecidableEq

/-! ## Making requests -/

namespace Edit

/-- The type of a constant is not void. -/
def constantType : Option Ty → Edit Ty
  | none => violate .constantVoid
  | some type => pure type

/-- The value for a request, interned with the help of a digest function. -/
def intern (digest : Digesting) (module : Nat) : Request → Edit Ref
  | .constant type data => constantWith digest module (some type) data
  | .undefined type => undefined module type
  | .register name => register module name

/-- Make a request of a module, and record the answer. -/
def answer (digest : Digesting) (module : Nat) (ask : Edit Request) : Edit Answered := do
  let request ← ask
  let ref ← intern digest module request
  return { module, request, ref }

end Edit

namespace Change

/-- The module of which an operation requests an interned value, and the request it makes. -/
def asks : Change → Option (Nat × Edit Request)
  | .constant module type data => some (module, do
    return .constant (← constantType type) data)
  | .constantBool module truth => some (module, do
    return .constant (← typeBy module Registry.bool) [if truth then 1 else 0])
  | .constantInt32 module bits => some (module, do
    return .constant (← typeBy module Registry.int32) ((Scalar.signed 4).encode bits))
  | .constantUInt32 module bits => some (module, do
    return .constant (← typeBy module Registry.uint32) ((Scalar.unsigned 4).encode bits))
  | .constantFloat32 module bits => some (module, do
    return .constant (← typeBy module Registry.float32) ((Scalar.floating 4).encode bits))
  | .constantZero module type => some (module,
    let size := Ty.sizeOption type
    if size < 0 ∨ 0x800000000000 ≤ size then stuck
    else do return .constant (← constantType type) (List.replicate size.toNat 0))
  | .constantOne module type => some (module, do
    match type.bind Ty.scalar? with
    | none => violate (.constantOneScalar type)
    | some scalar =>
      let bits : UInt64 :=
        match scalar.kind, scalar.width with
        | .float, 8 => 0x3ff0000000000000
        | .float, _ => 0x3f800000
        | _, _ => 1
      return .constant (← constantType type) (scalar.encode bits))
  | .undefined module type => some (module, return .undefined type)
  | .register module name => some (module, return .register name)
  | _ => none

/-- What an operation without a cursor does, with a digest function. -/
def performBy (digest : Digesting) (change : Change) : Edit Unit :=
  match change.asks with
  | none => change.perform
  | some (module, ask) => quietly (Edit.answer digest module ask)

/-- Perform several operations with a digest function; the first refused one ends the sequence. -/
def performAllBy (digest : Digesting) : List Change → Edit Unit
  | [] => pure ()
  | change :: rest => do
    change.performBy digest
    performAllBy digest rest

end Change

/-- The resolver that chooses operations and an answer, with a digest function. -/
def Resolver.choosingBy (digest : Digesting) (choose : Ref → Store → List Change × Option Ref) :
    Resolver :=
  fun ref => do
    let (changes, answer) ← see (choose ref)
    Change.performAllBy digest changes
    return answer

/-- What an operation of a session does, with a digest function. -/
def Operation.performBy (digest : Digesting) : Operation → Build Unit
  | .edit change => liftM (change.performBy digest)
  | .clone source choose =>
    Build.quietly (Build.clone source (Resolver.choosingBy digest choose))
  | operation => operation.perform

namespace Session

/-- Perform an operation with a digest function. -/
def stepBy (digest : Digesting) (session : Session) (operation : Operation) : Session :=
  match Build.outcome (operation.performBy digest) session.cursor session.store with
  | (.ok (_, cursor), store) => { store, cursor }
  | (.error _, store) => { session with store }

/-- The state after some operations, with a digest function. -/
def runBy (digest : Digesting) (session : Session) (operations : List Operation) : Session :=
  operations.foldl (stepBy digest) session

end Session

/-! ## The digest function in use -/

theorem Change.performBy_contentHash (change : Change) :
    change.performBy contentHash = change.perform := by
  have nonvoid : ∀ (module : Nat) (type : Option Ty) (data : List UInt8),
      quietly (Edit.answer contentHash module (do
        return .constant (← constantType type) data)) =
          quietly (Edit.constant module type data) := by
    intro module type data
    cases type with
    | none => rfl
    | some type => simp [Edit.answer, quietly, constantType, intern, Edit.constant]
  cases change with
  | constant module type data => exact nonvoid module type data
  | constantBool module truth =>
      simp [performBy, asks, perform, Edit.answer, quietly, intern, Edit.constantBool,
        Edit.constant]
  | constantInt32 module bits =>
      simp [performBy, asks, perform, Edit.answer, quietly, intern, Edit.constantInt32,
        Edit.constant]
  | constantUInt32 module bits =>
      simp [performBy, asks, perform, Edit.answer, quietly, intern, Edit.constantUInt32,
        Edit.constant]
  | constantFloat32 module bits =>
      simp [performBy, asks, perform, Edit.answer, quietly, intern, Edit.constantFloat32,
        Edit.constant]
  | constantZero module type =>
      simp only [performBy, asks, perform, Edit.constantZero]
      split
      · rfl
      · exact nonvoid module type _
  | constantOne module type =>
      simp only [performBy, asks, perform, Edit.constantOne]
      cases type.bind Ty.scalar? with
      | none => rfl
      | some scalar => exact nonvoid module type _
  | undefined module type =>
      simp [performBy, asks, perform, Edit.answer, quietly, intern]
  | register module name =>
      simp [performBy, asks, perform, Edit.answer, quietly, intern]
  | _ => rfl

theorem Resolver.choosingBy_contentHash (choose : Ref → Store → List Change × Option Ref) :
    Resolver.choosingBy contentHash choose = Resolver.choosing choose := by
  have all : ∀ changes, Change.performAllBy contentHash changes = Change.performAll changes := by
    intro changes
    induction changes with
    | nil => rfl
    | cons change rest induction =>
        rw [Change.performAllBy, Change.performAll, change.performBy_contentHash, induction]
  funext ref
  simp only [choosingBy, choosing, all]

theorem Operation.performBy_contentHash (operation : Operation) :
    operation.performBy contentHash = operation.perform := by
  cases operation with
  | edit change => simp only [performBy, perform, change.performBy_contentHash]
  | clone source choose => simp only [performBy, perform, Resolver.choosingBy_contentHash]
  | _ => rfl

/-- With the digest function in use, a session is what it is without one. -/
theorem Session.runBy_contentHash (operations : List Operation) :
    runBy contentHash {} operations = after operations := by
  have steps : stepBy contentHash = step := by
    funext session operation
    rw [stepBy, operation.performBy_contentHash]
    exact rfl
  rw [runBy, after, steps]

/-! ## Recording answers -/

section Recording

variable {α : Type}

/-- What is recorded after an edit, if it was not refused. -/
def Edit.following (result : Except Fault α × Store) (records : Store → List Answered) :
    List Answered :=
  match result with
  | (.ok _, left) => records left
  | (.error _, _) => []

/-- The answer that an operation without a cursor receives to its request. -/
def Change.answers (digest : Digesting) (change : Change) (store : Store) : List Answered :=
  match change.asks with
  | none => []
  | some (module, ask) =>
    match (outcome (Edit.answer digest module ask) store).1 with
    | .ok answered => [answered]
    | .error _ => []

/-- The answers that several operations receive, up to the first refused one. -/
def Change.allAnswers (digest : Digesting) : List Change → Store → List Answered
  | [], _ => []
  | change :: rest, store =>
    change.answers digest store ++
      following (outcome (change.performBy digest) store) (allAnswers digest rest)

namespace Resolver

variable (digest : Digesting) (choose : Ref → Store → List Change × Option Ref)

/-- The answers received while an operand is resolved. -/
def answers : Option Ref → Store → List Answered
  | none, _ => []
  | some ref, store => Change.allAnswers digest (choose ref store).1 store

/-- The answers received while operands are resolved one after the other. -/
def operandAnswers : List (Option Ref) → Store → List Answered
  | [], _ => []
  | operand :: rest, store =>
    answers digest choose operand store ++
      following (outcome ((choosingBy digest choose).operand operand) store) (operandAnswers rest)

/-- What is recorded with the instruction behind a reference, if there is one. -/
def withInstruction
    (source : Ref)
    (records : Instruction → Store → List Answered)
    (store : Store) : List Answered :=
  match store.instruction? source with
  | none => []
  | some entry => records entry store

/-- The answers received while the blocks of a phi are resolved, as long as it keeps them. -/
def blockAnswers (source : Ref) (whole : List (Option Ref)) :
    List (Option Ref) → Store → List Answered
  | [], _ => []
  | block :: rest, store =>
    following (outcome (currentBlocks source whole) store) fun store =>
      answers digest choose block store ++
        following (outcome ((choosingBy digest choose).block block) store)
          (blockAnswers source whole rest)

/-- The answers received while the block that an instruction holds at a position is resolved. -/
def heldAnswers (source : Ref) (position : Nat) : Store → List Answered :=
  withInstruction source fun current store =>
    match current.opcode.held[position]? with
    | none => []
    | some block => answers digest choose block store

/-- The answers received while the blocks of an opcode are resolved. -/
def opcodeAnswers (source : Ref) (opcode : Opcode) (store : Store) : List Answered :=
  let resolve := choosingBy digest choose
  match opcode with
  | .loop _ body _ =>
    answers digest choose body store ++
      following (outcome (resolve.block body) store) fun store =>
        heldAnswers digest choose source 1 store ++
          following (outcome (resolve.held source 1) store) (heldAnswers digest choose source 2)
  | .phi blocks => blockAnswers digest choose source blocks blocks store
  | other =>
    match other.merge? with
    | none => []
    | some merge => answers digest choose merge store

/-- The answers received while an instruction is copied: its blocks come before its operands. -/
def cloneAnswers (source : Ref) : Store → List Answered :=
  withInstruction source fun entry store =>
    opcodeAnswers digest choose source entry.opcode store ++
      following (outcome ((choosingBy digest choose).opcode source entry.opcode) store)
        (withInstruction source fun current => operandAnswers digest choose current.values)

end Resolver

/-- The answers that an operation of a session receives. -/
def Operation.answers (digest : Digesting) (operation : Operation) (store : Store) :
    List Answered :=
  match operation with
  | .edit change => change.answers digest store
  | .clone source choose => Resolver.cloneAnswers digest choose source store
  | _ => []

/-- The answers received in a session, in order. -/
def Session.answersBy (digest : Digesting) (session : Session) : List Operation → List Answered
  | [] => []
  | operation :: rest =>
    operation.answers digest session.store ++
      answersBy digest (session.stepBy digest operation) rest

end Recording

end ShaderIR

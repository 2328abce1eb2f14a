import Mathlib.Logic.Function.Basic
import ShaderIR.Proofs.Coherence.Session

/-!
# Shapes of instructions

The shape of an instruction is its opcode together with the number of its
operands.  Most edits change no shape: they create other values, link and unlink
instructions, and point operands that exist somewhere else.  The few edits that
do change a shape change the one of the instruction they are about.

The edits that change no shape are made of a few steps, and they respect every
relation that holds across each of these steps.
-/

namespace ShaderIR

/-- An opcode, and how many operands there are. -/
structure Shape where
  opcode : Opcode
  count : Nat
  deriving DecidableEq, Repr

/-- The shape of an instruction. -/
def Instruction.shape (entry : Instruction) : Shape :=
  ⟨entry.opcode, entry.operands.length⟩

namespace Store

/-- The shape of the instruction behind a reference. -/
def shape? (store : Store) (ref : Ref) : Option Shape :=
  (store.instruction? ref).map (·.shape)

/-- All shapes are what they were, and no instruction is new. -/
def SameShapes (store left : Store) : Prop :=
  left.shape? = store.shape?

instance : Edit.Lasting SameShapes where
  refl := fun _ => rfl
  trans := fun same same' => Eq.trans same' same

section Updates

variable {store left : Store} {ref : Ref}

theorem shape?_eq_some_iff {shape : Shape} :
    store.shape? ref = some shape ↔
      ∃ entry, store.instruction? ref = some entry ∧ entry.shape = shape :=
  Option.map_eq_some_iff

theorem sameShapes_of_contents (same : ∀ ref, left.content? ref = store.content? ref) :
    store.SameShapes left :=
  funext fun ref => congrArg (Option.map Instruction.shape) (instruction?_congr (same ref))

theorem shape?_modifyInstruction
    {change : Instruction → Instruction}
    {entry : Instruction}
    (found : store.instruction? ref = some entry) :
    (store.modifyInstruction ref change).shape? =
      Function.update store.shape? ref (some (change entry).shape) := by
  funext other
  rw [shape?, instruction?_modifyInstruction]
  split
  · rename_i same
    subst same
    simp [found]
  · rename_i different
    rw [Function.update_of_ne (Ne.symm different)]
    rfl

theorem sameShapes_modifyInstruction
    {change : Instruction → Instruction}
    (kept : ∀ entry, (change entry).shape = entry.shape) :
    store.SameShapes (store.modifyInstruction ref change) := by
  funext other
  rw [shape?, instruction?_modifyInstruction]
  split
  · simp [shape?, Function.comp_def, kept]
  · rfl

theorem sameShapes_modifyBlock (change : List Ref → List Ref) :
    store.SameShapes (store.modifyBlock ref change) :=
  funext fun other => by simp [shape?]

theorem sameShapes_modifyFunction (change : Function → Function) :
    store.SameShapes (store.modifyFunction ref change) :=
  funext fun other => by simp [shape?]

theorem shape?_allocate (module : Nat) (type : Option Ty) (entry : Instruction) :
    let created := store.allocate module type (.instruction entry)
    created.2.shape? = Function.update store.shape? created.1 (some entry.shape) := by
  intro created
  funext other
  by_cases same : other = created.1
  · subst same
    simp [created, shape?, instruction?, content?, value?_allocate]
  · rw [Function.update_of_ne same]
    exact congrArg (Option.map Instruction.shape)
      (instruction?_congr (by simp [content?, created, value?_allocate, same]))

theorem sameShapes_allocate
    {content : Content}
    (module : Nat)
    (type : Option Ty)
    (other : ∀ entry, content ≠ .instruction entry) :
    store.SameShapes (store.allocate module type content).2 := by
  funext ref
  by_cases same : ref = (store.allocate module type content).1
  · subst same
    have new : (store.allocate module type content).2.instruction?
        (store.allocate module type content).1 = none := by
      rw [Option.eq_none_iff_forall_ne_some]
      intro entry found
      rw [instruction?_eq_some_iff, content?, value?_allocate, if_pos rfl] at found
      exact other entry (Option.some.inj found)
    have old : store.instruction? (store.allocate module type content).1 = none := by
      simp [instruction?, content?, value?_allocate_fst]
    rw [shape?, shape?, new, old]
  · exact congrArg (Option.map Instruction.shape)
      (instruction?_congr (by simp [content?, value?_allocate, same]))

end Updates

end Store

/-- A value of a type that is no instruction; blocks have no type, and functions no arguments. -/
def Content.Simple (type : Option Ty) : Content → Prop
  | .instruction _ => False
  | .block .. => type = none
  | .function entry => entry.arguments = []
  | _ => True

/-- A value is an argument of some function. -/
def Store.IsArgument (store : Store) (ref : Ref) : Prop :=
  ∃ passing owner position, store.content? ref = some (.argument passing owner position)

namespace Edit

open Store

/-- A relation that holds across the steps of which edits that change no shape are made. -/
class Steady (related : Store → Store → Prop) : Prop extends Lasting related where
  addModule : ∀ store name, related store (store.addModule name).2
  modifyModule : ∀ store module change,
    (∀ entry : Module, (change entry).undefineds = entry.undefineds) →
      related store (store.modifyModule module change)
  modifyValue : ∀ store ref change,
    (∀ value : Value, (change value).content = value.content ∧
      (change value).type = value.type ∧ (change value).module = value.module) →
      related store (store.modifyValue ref change)
  modifyFunction : ∀ store ref change,
    (∀ entry : Function, ∀ parameter ∈ (change entry).arguments,
      parameter ∈ entry.arguments ∨ store.IsArgument parameter) →
      related store (store.modifyFunction ref change)
  modifyBlock : ∀ store ref change, related store (store.modifyBlock ref change)
  record : ∀ store change, related store (store.record change)
  modifyInstruction : ∀ store ref change,
    (∀ entry : Instruction, (change entry).shape = entry.shape) →
      related store (store.modifyInstruction ref change)
  allocate : ∀ store module type content, Content.Simple type content →
    related store (store.allocate module type content).2
  /-- A module gets to know a new undefined value. -/
  intern : ∀ store module type,
    related store ((store.allocate module type .undefined).2.modifyModule module fun entry =>
      { entry with
        undefineds := (type, (store.allocate module type .undefined).1) :: entry.undefineds })

instance : Steady SameShapes where
  addModule := fun _ _ => sameShapes_of_contents fun _ => rfl
  modifyModule := fun _ _ _ _ => sameShapes_of_contents fun _ => content?_modifyModule ..
  modifyValue := fun store ref _ kept => sameShapes_of_contents fun other =>
    map_value?_modifyValue store ref other fun value => (kept value).1
  modifyFunction := fun _ _ change _ => sameShapes_modifyFunction change
  modifyBlock := fun _ _ change => sameShapes_modifyBlock change
  record := fun _ _ => sameShapes_of_contents fun _ => rfl
  modifyInstruction := fun _ _ _ kept => sameShapes_modifyInstruction kept
  allocate := by
    intro store module type content simple
    refine sameShapes_allocate module type ?_
    rintro entry rfl
    exact simple
  intern := by
    intro store module type
    have added : store.SameShapes (store.allocate module type .undefined).2 :=
      sameShapes_allocate module type fun entry same => by cases same
    exact Lasting.trans added (sameShapes_of_contents fun _ => content?_modifyModule ..)

variable {related : Store → Store → Prop} [steady : Steady related]

/-! ## Use-lists -/

theorem Steady.link (store : Store) (operand : Option Ref) (use : Use) :
    related store (store.link operand use) := by
  cases operand with
  | none => exact steady.refl store
  | some ref =>
      rw [link_some]
      refine steady.trans ?_ (steady.record _ _)
      exact steady.modifyValue store ref _ fun _ => ⟨rfl, rfl, rfl⟩

theorem Steady.unlink (store : Store) (operand : Option Ref) (use : Use) :
    related store (store.unlink operand use) := by
  cases operand with
  | none => exact steady.refl store
  | some ref =>
      rw [unlink_some]
      refine steady.trans ?_ (steady.record _ _)
      exact steady.modifyValue store ref _ fun _ => ⟨rfl, rfl, rfl⟩

theorem Steady.linkAll (store : Store) (user : Ref) (slots : List Slot) :
    related store (store.linkAll user slots) := by
  induction slots generalizing store with
  | nil => exact steady.refl store
  | cons slot rest induction => exact steady.trans (Steady.link store _ _) (induction _)

theorem Steady.unlinkAll (store : Store) (user : Ref) (slots : List Slot) :
    related store (store.unlinkAll user slots) := by
  induction slots generalizing store with
  | nil => exact steady.refl store
  | cons slot rest induction => exact steady.trans (Steady.unlink store _ _) (induction _)

theorem record_steady (change : Records → Records) :
    Respects related (modify fun store => store.record change) :=
  fun store => steady.record store change

/-! ## Types and interned values -/

theorem modifyModule_steady
    (module : Nat)
    {change : Module → Module}
    (kept : ∀ entry, (change entry).undefineds = entry.undefineds) :
    Respects related (modify fun store => store.modifyModule module change) :=
  fun store => steady.modifyModule store module change kept

theorem modifyFunction_steady
    (owner : Ref)
    {change : Function → Function}
    (kept : ∀ entry, (change entry).arguments = entry.arguments) :
    Respects related (modify fun store => store.modifyFunction owner change) :=
  fun store => steady.modifyFunction store owner change fun entry _ member =>
    .inl (kept entry ▸ member)

theorem allocate_steady
    {type : Option Ty}
    {content : Content}
    (module : Nat)
    (simple : content.Simple type) :
    Respects related (allocate module type content) :=
  fun store => steady.allocate store module type content simple

theorem typeBy_steady (module : Nat) (request : Registry → Ty × Registry) :
    Respects related (typeBy module request) :=
  Respects.bind (Respects.see _) fun _ =>
    Respects.bind (Respects.demand _) fun _ =>
      Respects.bind (modifyModule_steady module fun _ => rfl) fun _ => Respects.pure _

theorem vectorType_steady (module : Nat) (element : Option Ty) (size : Nat) :
    Respects related (vectorType module element size) := by
  unfold vectorType
  cases element.bind Ty.scalar? with
  | none => exact Respects.violate _
  | some scalar => exact typeBy_steady module (·.intern "" (.vector size scalar))

theorem arrayType_steady (module : Nat) (element : Option Ty) (count : Nat) :
    Respects related (arrayType module element count) := by
  cases element with
  | none => exact Respects.violate _
  | some element => exact typeBy_steady module (·.intern "" (.array element count))

theorem memberTypes_steady (index : Nat) (members : List (Option Ty)) :
    Respects related (memberTypes index members) := by
  induction members generalizing index with
  | nil => exact Respects.pure []
  | cons member rest induction =>
      cases member with
      | none => exact Respects.violate _
      | some member => exact Respects.bind (induction (index + 1)) fun _ => Respects.pure _

theorem recordType_steady (module : Nat) (members : List (Option Ty)) :
    Respects related (recordType module members) :=
  Respects.bind (memberTypes_steady 0 members) fun _ => typeBy_steady module _

/-- Adding a simple value and noting it in its module. -/
theorem intern_steady
    {type : Option Ty}
    {content : Content}
    (module : Nat)
    (simple : content.Simple type)
    {note : Ref → Module → Module}
    (kept : ∀ ref entry, (note ref entry).undefineds = entry.undefineds) :
    Respects related (do
      let ref ← allocate module type content
      modify fun store => store.modifyModule module (note ref)
      return ref) :=
  Respects.bind (allocate_steady module simple) fun ref =>
    Respects.bind (modifyModule_steady module (kept ref)) fun _ => Respects.pure ref

theorem constant_steady (module : Nat) (type : Option Ty) (data : List UInt8) :
    Respects related (constant module type data) := by
  unfold constant
  cases type with
  | none => exact Respects.violate _
  | some type =>
      refine Respects.bind (Respects.require _ _) fun _ => ?_
      refine Respects.bind (Respects.see _) fun found => ?_
      cases found with
      | some ref => exact Respects.pure ref
      | none => exact intern_steady module (by trivial) fun _ _ => rfl

theorem constantBool_steady (module : Nat) (truth : Bool) :
    Respects related (constantBool module truth) :=
  Respects.bind (typeBy_steady module _) fun _ => constant_steady module _ _

theorem constantInt32_steady (module : Nat) (bits : UInt64) :
    Respects related (constantInt32 module bits) :=
  Respects.bind (typeBy_steady module _) fun _ => constant_steady module _ _

theorem constantUInt32_steady (module : Nat) (bits : UInt64) :
    Respects related (constantUInt32 module bits) :=
  Respects.bind (typeBy_steady module _) fun _ => constant_steady module _ _

theorem constantFloat32_steady (module : Nat) (bits : UInt64) :
    Respects related (constantFloat32 module bits) :=
  Respects.bind (typeBy_steady module _) fun _ => constant_steady module _ _

theorem constantZero_steady (module : Nat) (type : Option Ty) :
    Respects related (constantZero module type) :=
  Respects.ifThen Respects.stuck (constant_steady module type _)

theorem constantOne_steady (module : Nat) (type : Option Ty) :
    Respects related (constantOne module type) := by
  unfold constantOne
  cases type.bind Ty.scalar? with
  | none => exact Respects.violate _
  | some scalar => exact constant_steady module type _

theorem undefined_steady (module : Nat) (type : Option Ty) :
    Respects related (undefined module type) := by
  refine Respects.bind (Respects.see _) fun _ => ?_
  refine Respects.bind (Respects.demand _) fun entry => ?_
  cases entry.undefineds.lookup type with
  | some ref => exact Respects.pure ref
  | none => exact fun store => steady.intern store module type

theorem register_steady (module : Nat) (name : Register) :
    Respects related (register module name) := by
  refine Respects.bind (Respects.see _) fun _ => ?_
  refine Respects.bind (Respects.demand _) fun entry => ?_
  cases entry.registers.lookup name with
  | some ref => exact Respects.pure ref
  | none =>
      refine Respects.bind (typeBy_steady module _) fun scalar => ?_
      by_cases vector : name.isVector
      · simp only [vector, if_true]
        exact Respects.bind (vectorType_steady module (some scalar) 3) fun _ =>
          intern_steady module (by trivial) fun _ _ => rfl
      · simp only [vector]
        exact Respects.bind (Respects.pure scalar) fun _ =>
          intern_steady module (by trivial) fun _ _ => rfl

/-! ## Functions, arguments and blocks -/

theorem createFunction_steady (module : Nat) (kind : FunctionKind) (result : Option Ty) :
    Respects related (createFunction module kind result) :=
  intern_steady module (by exact rfl) fun _ _ => rfl

theorem removeFunction_steady (module : Nat) (ref : Ref) :
    Respects related (removeFunction module ref) :=
  Respects.bind (Respects.see _) fun _ => Respects.ifThen
    (Respects.bind (modifyModule_steady module fun _ => rfl) fun _ =>
      modifyFunction_steady ref fun _ => rfl)
    (Respects.pure ())

theorem createArgument_steady (owner : Ref) (passing : Passing) (type : Option Ty) :
    Respects related (createArgument owner passing type) := by
  refine Respects.bind (Respects.function owner) fun entry =>
    Respects.bind (Respects.see _) fun _ =>
      Respects.bind (Respects.demand _) fun module store => ?_
  refine Respects.bindAt (allocate_steady module (by trivial) store) fun ref left given => ?_
  have allocated := outcome_allocate module type
    (.argument passing owner entry.arguments.length) store
  rw [given, Prod.mk.injEq, Except.ok.injEq] at allocated
  obtain ⟨rfl, rfl⟩ := allocated
  refine Respects.bindAt (steady.modifyFunction _ owner _ fun function parameter member => ?_)
    fun _ left _ => Respects.pure _ left
  rcases List.mem_append.1 member with member | new
  · exact .inl member
  · obtain rfl := List.mem_singleton.1 new
    exact .inr ⟨passing, owner, entry.arguments.length, by simp [content?, value?_allocate]⟩

theorem createResourceArgument_steady (owner : Ref) (type : Option Ty) :
    Respects related (createResourceArgument owner type) :=
  Respects.bind (Respects.require _ _) fun _ => createArgument_steady owner .resource type

theorem createBlock_steady (owner : Ref) : Respects related (createBlock owner) :=
  Respects.bind (Respects.function owner) fun _ =>
    Respects.bind (Respects.require _ _) fun _ =>
      Respects.bind (Respects.see _) fun _ =>
        Respects.bind (Respects.demand _) fun module =>
          Respects.bind (allocate_steady module rfl) fun ref =>
            Respects.bind (modifyFunction_steady owner fun _ => rfl) fun _ => Respects.pure ref

theorem createBody_steady (owner : Ref) : Respects related (createBody owner) :=
  Respects.bind (Respects.function owner) fun _ =>
    Respects.bind (Respects.require _ _) fun _ =>
      Respects.bind (createBlock_steady owner) fun ref =>
        Respects.bind (modifyFunction_steady owner fun _ => rfl) fun _ => Respects.pure ref

theorem setBody_steady (owner : Ref) (block : Option Ref) :
    Respects related (setBody owner block) := by
  cases block with
  | none => exact modifyFunction_steady owner fun _ => rfl
  | some block =>
      exact Respects.bind (Respects.see _) fun _ =>
        Respects.bind (Respects.require _ _) fun _ => modifyFunction_steady owner fun _ => rfl

theorem createBlockFor_steady (ref : Ref) : Respects related (createBlockFor ref) := by
  refine Respects.bind (Respects.see _) fun found => ?_
  cases found with
  | none => exact Respects.violate _
  | some function => exact createBlock_steady function

theorem setName_steady (ref : Ref) (name : String) : Respects related (setName ref name) :=
  fun store => steady.modifyValue store ref _ fun _ => ⟨rfl, rfl, rfl⟩

theorem addComment_steady (ref : Ref) (comment : String) :
    Respects related (addComment ref comment) :=
  fun store => steady.modifyValue store ref _ fun _ => ⟨rfl, rfl, rfl⟩

/-! ## Operands that exist -/

theorem setSlot_steady (user : Ref) (key : Nat) (operand : Option Ref) :
    Respects related (setSlot user key operand) := by
  refine Respects.bind (Respects.requireSamePool user operand) fun _ =>
    Respects.bind (Respects.instruction user) fun entry =>
      Respects.bind (Respects.see _) fun _ =>
        Respects.bind (Respects.demand _) fun slot =>
          Respects.bind (Respects.see _) fun _ =>
            Respects.bind (fun store => Steady.unlink store _ _) fun _ =>
              Respects.bind (record_steady _) fun _ =>
                Respects.bind (fun store => steady.modifyInstruction store user _ fun _ => ?_)
                  fun _ => Respects.ifThen (fun store => Steady.link store _ _) (Respects.pure ())
  simp [Instruction.shape]

theorem setUse_steady (use : Use) (operand : Option Ref) :
    Respects related (setUse use operand) :=
  Respects.bind (Respects.instruction use.user) fun _ =>
    Respects.ifThen (setSlot_steady use.user use.slot operand) Respects.stuck

theorem setOperand_steady (user : Ref) (position : Int) (operand : Option Ref) :
    Respects related (setOperand user position operand) :=
  Respects.ifThen Respects.stuck <|
    Respects.bind (Respects.instruction user) fun _ =>
      Respects.bind (Respects.demand _) fun slot => setSlot_steady user slot.key operand

theorem setCondition_steady (ref : Ref) (condition : Option Ref) :
    Respects related (setCondition ref condition) :=
  Respects.bind (Respects.see _) fun _ =>
    Respects.bind (Respects.require _ _) fun _ => setOperand_steady ref 0 condition

theorem setSelector_steady (ref : Ref) (selector : Option Ref) :
    Respects related (setSelector ref selector) :=
  Respects.bind (Respects.see _) fun _ =>
    Respects.bind (Respects.require _ _) fun _ => setOperand_steady ref 0 selector

theorem setStored_steady (ref : Ref) (stored : Option Ref) :
    Respects related (setStored ref stored) :=
  Respects.bind (Respects.operand ref 0) fun address =>
    Respects.bind (Respects.typeOfPresent address) fun _ =>
      Respects.bind (Respects.see _) fun _ =>
        Respects.bind (Respects.require _ _) fun _ => setOperand_steady ref 1 stored

theorem redirect_steady (operand : Option Ref) (uses : List Use) :
    Respects related (redirect operand uses) := by
  induction uses with
  | nil => exact Respects.pure ()
  | cons use rest induction =>
      exact Respects.bind (setSlot_steady use.user use.slot operand) fun _ => induction

theorem replaceUsesWith_steady (old : Ref) (new : Option Ref) :
    Respects related (replaceUsesWith old new) :=
  Respects.ifThen (Respects.pure ()) <|
    Respects.bind (Respects.see _) fun uses => redirect_steady new uses

/-! ## Linking -/

theorem remove_steady (ref : Ref) : Respects related (remove ref) := by
  refine Respects.bind (Respects.instruction ref) fun entry => ?_
  cases entry.block with
  | none => exact Respects.pure ()
  | some block =>
      exact Respects.bind (fun store => steady.modifyBlock store block _) fun _ =>
        Respects.bind (record_steady _) fun _ =>
          Respects.bind (fun store => steady.modifyInstruction store ref _ fun _ => rfl)
            fun _ store => Steady.unlinkAll store ref _

theorem insertInto_steady (block ref : Ref) (after : Option Ref) :
    Respects related (insertInto block ref after) := by
  have rest : ∀ entry : Instruction, Respects related (do
      modify fun store : Store => store.relink (·.insertAfter block ref after)
      modify fun store : Store =>
        store.modifyInstruction ref fun entry => { entry with block := some block }
      modify fun store : Store => store.linkAll ref entry.operands) := fun entry =>
    Respects.bind (record_steady _) fun _ =>
      Respects.bind (fun store => steady.modifyInstruction store ref _ fun _ => rfl) fun _ store =>
        Steady.linkAll store ref _
  refine Respects.bind (Respects.see _) fun _ =>
    Respects.bind (Respects.require _ _) fun _ =>
      Respects.bind (Respects.instruction ref) fun entry =>
        Respects.bind (Respects.require _ _) fun _ => ?_
  cases holds : after with
  | none =>
      rw [holds] at rest
      exact Respects.bind (fun store => steady.modifyBlock store block _) fun _ => rest entry
  | some position =>
      rw [holds] at rest
      exact Respects.bind (Respects.see _) fun _ =>
        Respects.bind (Respects.require _ _) fun _ =>
          Respects.bind (fun store => steady.modifyBlock store block _) fun _ => rest entry

theorem append_steady (block ref : Ref) : Respects related (append block ref) :=
  Respects.bind (remove_steady ref) fun _ =>
    Respects.bind (Respects.see _) fun _ => insertInto_steady block ref _

theorem prepend_steady (block ref : Ref) : Respects related (prepend block ref) :=
  Respects.bind (remove_steady ref) fun _ => insertInto_steady block ref none

theorem insertBefore_steady (ref : Ref) (position : Option Ref) :
    Respects related (insertBefore ref position) :=
  Respects.bind (linkedBlock_respects position _) fun target =>
    Respects.ifThen (Respects.pure ()) <|
      Respects.bind (remove_steady ref) fun _ =>
        Respects.bind (Respects.see _) fun _ => insertInto_steady target.2 ref _

theorem insertBehind_steady (ref : Ref) (position : Option Ref) :
    Respects related (insertBehind ref position) :=
  Respects.bind (linkedBlock_respects position _) fun target =>
    Respects.ifThen (Respects.pure ()) <|
      Respects.bind (remove_steady ref) fun _ => insertInto_steady target.2 ref _

end Edit

end ShaderIR

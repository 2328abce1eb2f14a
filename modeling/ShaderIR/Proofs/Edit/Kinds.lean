import ShaderIR.Proofs.Edit.Amending
import ShaderIR.Proofs.Layout.Typing

/-!
# Kinds of edits

Few operations move instructions, and few intern values.  All others amend instructions, ask
for types, or add modules, functions, arguments, blocks and detached instructions.  A relation
between stores is respected by every operation when it holds across the edits of each kind.

Building an instruction is a sequence of steps of the last kind that leave the cursor where it
is, followed by linking the instruction at the cursor.
-/

namespace ShaderIR

open Store Edit

/-! ## Relations that hold across edits of a kind -/

/-- Undefined values, constants and registers are interned. -/
def Content.IsInterned : Content → Prop
  | .undefined | .constant .. | .register _ => True
  | _ => False

/-- What is interned and no register. -/
def Content.IsPooled : Content → Prop
  | .undefined | .constant .. => True
  | _ => False

/-- A value that is linked into no block and lists no instruction. -/
def Content.Unplaced : Content → Prop
  | .instruction entry => entry.block = none
  | .block _ members => members = []
  | _ => True

namespace Edit

/-- A relation that holds across edits that neither move an instruction nor intern a value. -/
class Still (related : Store → Store → Prop) : Prop extends Lasting related where
  amends : ∀ {store left}, store.Amends left → related store left
  addModule : ∀ store name, related store (store.addModule name).2
  intern : ∀ store module name form entry, store.modules[module]? = some entry →
    related store (store.modifyModule module fun other =>
      { other with registry := (entry.registry.intern name form).2 })
  reserve : ∀ store module type opcode,
    related store (store.allocate module type (.instruction { opcode })).2
  createFunction : ∀ module kind result, Respects related (createFunction module kind result)
  removeFunction : ∀ module function, Respects related (removeFunction module function)
  createArgument : ∀ owner passing type, Respects related (createArgument owner passing type)
  createBlock : ∀ owner, Respects related (createBlock owner)
  createBody : ∀ owner, Respects related (createBody owner)
  setBody : ∀ owner block, Respects related (setBody owner block)

/-- A relation that holds across linking and unlinking an instruction. -/
class Moving (related : Store → Store → Prop) : Prop where
  remove : ∀ ref, Respects related (remove ref)
  insertInto : ∀ block ref after, Respects related (insertInto block ref after)

/-- A relation that holds across adding an interned value and noting it in its module. -/
class Interning (related : Store → Store → Prop) : Prop where
  pool : ∀ store module type content note, Content.IsPooled content →
    (∀ entry : Module, (note entry).functions = entry.functions ∧
      (note entry).registry = entry.registry) →
      related store ((store.allocate module type content).2.modifyModule module note)
  register : ∀ module name, Respects related (register module name)

variable {α : Type} {related : Store → Store → Prop}

/-! ### Relations that hold across updates of the store -/

section Updates

variable [Lasting related]

/-- A relation that holds across new types and values and across all changes of functions. -/
theorem Still.of_updates
    (amends : ∀ {store left : Store}, store.Amends left → related store left)
    (addModule : ∀ store name, related store (store.addModule name).2)
    (intern : ∀ store module name form entry, store.modules[module]? = some entry →
      related store (store.modifyModule module fun other =>
        { other with registry := (entry.registry.intern name form).2 }))
    (setFunctions : ∀ store module (change : List Ref → List Ref),
      related store (store.modifyModule module fun entry =>
        { entry with functions := change entry.functions }))
    (allocate : ∀ store module type content, Content.Unplaced content → ¬content.IsInterned →
      related store (store.allocate module type content).2)
    (modifyFunction : ∀ store function change,
      related store (store.modifyFunction function change)) :
    Still related := by
  have allocates : ∀ module type {content}, Content.Unplaced content → ¬content.IsInterned →
      Respects related (Edit.allocate module type content) :=
    fun module type _ unplaced fresh store => allocate store module type _ unplaced fresh
  have modifies : ∀ function change,
      Respects related (modify fun store => store.modifyFunction function change) :=
    fun function change store => modifyFunction store function change
  have lists : ∀ module (change : List Ref → List Ref),
      Respects related (modify fun store => store.modifyModule module fun entry =>
        { entry with functions := change entry.functions }) :=
    fun module change store => setFunctions store module change
  have createBlock : ∀ owner, Respects related (Edit.createBlock owner) := fun owner =>
    Respects.bind (Respects.function owner) fun _ =>
      Respects.bind (Respects.require _ _) fun _ =>
        Respects.bind (Respects.see _) fun _ =>
          Respects.bind (Respects.demand _) fun module =>
            Respects.bind (allocates module none rfl id) fun ref =>
              Respects.bind (modifies owner _) fun _ => Respects.pure ref
  exact
    { amends, addModule, createBlock, intern
      reserve := fun store module type _ => allocate store module type _ rfl id
      createFunction := fun module _ result =>
        Respects.bind (allocates module result trivial id) fun ref =>
          Respects.bind (lists module (· ++ [ref])) fun _ => Respects.pure ref
      removeFunction := fun module function =>
        Respects.bind (Respects.see _) fun _ => Respects.ifThen
          (Respects.bind (lists module (·.erase function)) fun _ => modifies function _)
          (Respects.pure ())
      createArgument := fun owner _ type =>
        Respects.bind (Respects.function owner) fun _ =>
          Respects.bind (Respects.see _) fun _ =>
            Respects.bind (Respects.demand _) fun module =>
              Respects.bind (allocates module type trivial id) fun ref =>
                Respects.bind (modifies owner _) fun _ => Respects.pure ref
      createBody := fun owner =>
        Respects.bind (Respects.function owner) fun _ =>
          Respects.bind (Respects.require _ _) fun _ =>
            Respects.bind (createBlock owner) fun ref =>
              Respects.bind (modifies owner _) fun _ => Respects.pure ref
      setBody := by
        intro owner block
        cases block with
        | none => exact modifies owner _
        | some block =>
            exact Respects.bind (Respects.see _) fun _ =>
              Respects.bind (Respects.require _ _) fun _ => modifies owner _ }

/-- A relation that holds across changes of the lists of blocks and of the blocks noted. -/
theorem Moving.of_updates
    (amends : ∀ {store left : Store}, store.Amends left → related store left)
    (relink : ∀ store change, related store (store.relink change))
    (modifyBlock : ∀ store block change, related store (store.modifyBlock block change))
    (setBlock : ∀ store ref block,
      related store (store.modifyInstruction ref fun entry => { entry with block })) :
    Moving related where
  remove := by
    intro ref
    refine Respects.bind (Respects.instruction ref) fun entry => ?_
    cases entry.block with
    | none => exact Respects.pure ()
    | some block =>
        exact Respects.bind (fun store => modifyBlock store block _) fun _ =>
          Respects.bind (fun store => relink store (·.unlink ref)) fun _ =>
            Respects.bind (fun store => setBlock store ref none) fun _ store =>
              amends (amends_unlinkAll store ref entry.operands)
  insertInto := by
    intro block ref after
    have links : ∀ (entry : Instruction) (change : List Ref → List Ref),
        Respects related (do
          modify fun store => store.modifyBlock block change
          modify fun store => store.relink (·.insertAfter block ref after)
          modify fun store => store.modifyInstruction ref fun entry =>
            { entry with block := some block }
          modify fun store => store.linkAll ref entry.operands) := fun entry change =>
      Respects.bind (fun store => modifyBlock store block change) fun _ =>
        Respects.bind (fun store => relink store (·.insertAfter block ref after)) fun _ =>
          Respects.bind (fun store => setBlock store ref (some block)) fun _ store =>
            amends (amends_linkAll store ref entry.operands)
    refine Respects.bind (Respects.see _) fun _ => Respects.bind (Respects.require _ _) fun _ =>
      Respects.bind (Respects.instruction ref) fun entry =>
        Respects.bind (Respects.require _ _) fun _ => ?_
    cases after with
    | none => exact links entry _
    | some position =>
        exact Respects.bind (Respects.see _) fun _ =>
          Respects.bind (Respects.require _ _) fun _ => links entry _

end Updates

/-! ### Edits of a kind -/

theorem memberTypes_respects [Lasting related] (index : Nat) (members : List (Option Ty)) :
    Respects related (memberTypes index members) := by
  induction members generalizing index with
  | nil => exact Respects.pure []
  | cons member rest induction =>
      cases member with
      | none => exact Respects.violate _
      | some member => exact Respects.bind (induction (index + 1)) fun _ => Respects.pure _

section Still

variable [still : Still related]

theorem Respects.of_amends {edit : Edit α} (amends : Respects Amends edit) :
    Respects related edit :=
  fun store => still.amends (amends store)

theorem typeBy_still (module : Nat) (name : String) (form : TypeForm) :
    Respects related (typeBy module (·.intern name form)) := by
  intro store
  refine Respects.bindAt (Respects.see _ store) fun held left given => ?_
  obtain ⟨rfl, rfl⟩ := gives_see_iff.1 given
  refine Respects.bindAt (Respects.demand _ left) fun entry between given => ?_
  obtain ⟨found, rfl⟩ := gives_demand_iff.1 given
  exact Respects.bindAt (still.intern between module name form entry found) fun _ _ _ =>
    Respects.pure _ _

theorem vectorType_still (module : Nat) (element : Option Ty) (size : Nat) :
    Respects related (vectorType module element size) := by
  unfold vectorType
  cases element.bind Ty.scalar? with
  | none => exact Respects.violate _
  | some scalar => exact typeBy_still module "" (.vector size scalar)

theorem arrayType_still (module : Nat) (element : Option Ty) (count : Nat) :
    Respects related (arrayType module element count) := by
  cases element with
  | none => exact Respects.violate _
  | some element => exact typeBy_still module "" (.array element count)

theorem recordType_still (module : Nat) (members : List (Option Ty)) :
    Respects related (recordType module members) :=
  Respects.bind (memberTypes_respects 0 members) fun _ => typeBy_still module _ _

theorem createResourceArgument_still (owner : Ref) (type : Option Ty) :
    Respects related (createResourceArgument owner type) :=
  Respects.bind (Respects.require _ _) fun _ => still.createArgument owner .resource type

theorem createBlockFor_still (ref : Ref) : Respects related (createBlockFor ref) := by
  refine Respects.bind (Respects.see _) fun owner => ?_
  cases owner with
  | none => exact Respects.violate _
  | some owner => exact still.createBlock owner

theorem createBlockAt_still (ref : Ref) (place : BlockPlace) :
    Respects related (createBlockAt ref place) :=
  Respects.bind (createBlockFor_still ref) fun block =>
    Respects.bind (Respects.of_amends (setBlockAt_amends ref place (some block))) fun _ =>
      Respects.pure block

theorem createCase_still (ref : Ref) (value : Int64) : Respects related (createCase ref value) :=
  Respects.bind (createBlockFor_still ref) fun block =>
    Respects.bind (Respects.of_amends (addCase_amends ref value (some block))) fun _ =>
      Respects.pure block

end Still

section Moving

variable [Lasting related] [moving : Moving related]

theorem append_moving (block ref : Ref) : Respects related (append block ref) :=
  Respects.bind (moving.remove ref) fun _ =>
    Respects.bind (Respects.see _) fun _ => moving.insertInto block ref _

theorem prepend_moving (block ref : Ref) : Respects related (prepend block ref) :=
  Respects.bind (moving.remove ref) fun _ => moving.insertInto block ref none

theorem insertBefore_moving (ref : Ref) (position : Option Ref) :
    Respects related (insertBefore ref position) :=
  Respects.bind (linkedBlock_respects position _) fun target =>
    Respects.ifThen (Respects.pure ()) <|
      Respects.bind (moving.remove ref) fun _ =>
        Respects.bind (Respects.see _) fun _ => moving.insertInto target.2 ref _

theorem insertBehind_moving (ref : Ref) (position : Option Ref) :
    Respects related (insertBehind ref position) :=
  Respects.bind (linkedBlock_respects position _) fun target =>
    Respects.ifThen (Respects.pure ()) <|
      Respects.bind (moving.remove ref) fun _ => moving.insertInto target.2 ref _

end Moving

/-- A relation that holds across adding any interned value holds across adding registers. -/
theorem Interning.of_intern
    [still : Still related]
    (intern : ∀ store module type content note, Content.IsInterned content →
      (∀ entry : Module, (note entry).functions = entry.functions) →
        related store ((store.allocate module type content).2.modifyModule module note)) :
    Interning related where
  pool := by
    intro store module type content note pooled kept
    refine intern store module type content note ?_ fun entry => (kept entry).1
    cases content <;> trivial
  register := by
    intro module name
    refine Respects.bind (Respects.see _) fun _ =>
      Respects.bind (Respects.demand _) fun entry => ?_
    have interns : ∀ type, Respects related (do
        let ref ← allocate module type (.register name)
        modify fun store => store.modifyModule module fun entry =>
          { entry with registers := (name, ref) :: entry.registers }
        return ref) :=
      fun type store => intern store module type _ _ trivial fun _ => rfl
    cases entry.registers.lookup name with
    | some ref => exact Respects.pure ref
    | none =>
        refine Respects.bind (typeBy_still module _ _) fun scalar => ?_
        by_cases vector : name.isVector
        · simp only [vector, if_true]
          exact Respects.bind (vectorType_still module (some scalar) 3) fun type =>
            interns (some type)
        · simp only [vector]
          exact Respects.bind (Respects.pure scalar) fun type => interns (some type)

section Interning

variable [still : Still related] [interning : Interning related]

omit still in
theorem intern_interning
    (module : Nat)
    (type : Option Ty)
    {content : Content}
    (pooled : content.IsPooled)
    {note : Ref → Module → Module}
    (kept : ∀ ref entry, (note ref entry).functions = entry.functions ∧
      (note ref entry).registry = entry.registry) :
    Respects related (do
      let ref ← allocate module type content
      modify fun store => store.modifyModule module (note ref)
      return ref) :=
  fun store => interning.pool store module type content _ pooled (kept _)

theorem constant_interning (module : Nat) (type : Option Ty) (data : List UInt8) :
    Respects related (constant module type data) := by
  cases type with
  | none => exact Respects.violate _
  | some type =>
      refine Respects.bind (Respects.require _ _) fun _ =>
        Respects.bind (Respects.see _) fun found => ?_
      cases found with
      | some ref => exact Respects.pure ref
      | none => exact intern_interning module (some type) (by trivial) fun _ _ => ⟨rfl, rfl⟩

theorem undefined_interning (module : Nat) (type : Option Ty) :
    Respects related (undefined module type) := by
  refine Respects.bind (Respects.see _) fun _ =>
    Respects.bind (Respects.demand _) fun entry => ?_
  cases entry.undefineds.lookup type with
  | some ref => exact Respects.pure ref
  | none => exact intern_interning module type (by trivial) fun _ _ => ⟨rfl, rfl⟩

theorem constantBool_interning (module : Nat) (truth : Bool) :
    Respects related (constantBool module truth) :=
  Respects.bind (typeBy_still module _ _) fun _ => constant_interning module _ _

theorem constantInt32_interning (module : Nat) (bits : UInt64) :
    Respects related (constantInt32 module bits) :=
  Respects.bind (typeBy_still module _ _) fun _ => constant_interning module _ _

theorem constantUInt32_interning (module : Nat) (bits : UInt64) :
    Respects related (constantUInt32 module bits) :=
  Respects.bind (typeBy_still module _ _) fun _ => constant_interning module _ _

theorem constantFloat32_interning (module : Nat) (bits : UInt64) :
    Respects related (constantFloat32 module bits) :=
  Respects.bind (typeBy_still module _ _) fun _ => constant_interning module _ _

theorem constantZero_interning (module : Nat) (type : Option Ty) :
    Respects related (constantZero module type) :=
  Respects.ifThen Respects.stuck (constant_interning module type _)

theorem constantOne_interning (module : Nat) (type : Option Ty) :
    Respects related (constantOne module type) := by
  unfold constantOne
  cases type.bind Ty.scalar? with
  | none => exact Respects.violate _
  | some scalar => exact constant_interning module type _

end Interning

end Edit

/-! ## Operations without a cursor -/

namespace Change

/-- Whether an operation may move an instruction. -/
def moves : Change → Bool
  | .remove _ | .append .. | .prepend .. | .insertBefore .. | .insertBehind .. => true
  | _ => false

/-- Whether an operation requests an interned value. -/
def interns : Change → Bool
  | .constant .. | .constantBool .. | .constantInt32 .. | .constantUInt32 ..
  | .constantFloat32 .. | .constantZero .. | .constantOne .. | .undefined .. | .register .. => true
  | _ => false

variable {related : Store → Store → Prop} [still : Still related]

theorem perform_respects
    {change : Change}
    (moving : change.moves = true → Moving related)
    (interning : change.interns = true → Interning related) :
    Respects related change.perform := by
  cases change with
  | addModule name => exact fun store => still.addModule store name
  | requestType module name form => exact quietly_respects (typeBy_still module name form)
  | vectorType module element size =>
      exact quietly_respects (vectorType_still module element size)
  | arrayType module element count =>
      exact quietly_respects (arrayType_still module element count)
  | recordType module members => exact quietly_respects (recordType_still module members)
  | constant module type data =>
      have := interning rfl
      exact quietly_respects (constant_interning module type data)
  | constantBool module truth =>
      have := interning rfl
      exact quietly_respects (constantBool_interning module truth)
  | constantInt32 module bits =>
      have := interning rfl
      exact quietly_respects (constantInt32_interning module bits)
  | constantUInt32 module bits =>
      have := interning rfl
      exact quietly_respects (constantUInt32_interning module bits)
  | constantFloat32 module bits =>
      have := interning rfl
      exact quietly_respects (constantFloat32_interning module bits)
  | constantZero module type =>
      have := interning rfl
      exact quietly_respects (constantZero_interning module type)
  | constantOne module type =>
      have := interning rfl
      exact quietly_respects (constantOne_interning module type)
  | undefined module type =>
      have := interning rfl
      exact quietly_respects (undefined_interning module type)
  | register module name =>
      exact quietly_respects ((interning rfl).register module name)
  | createFunction module kind result =>
      exact quietly_respects (still.createFunction module kind result)
  | removeFunction module function => exact still.removeFunction module function
  | createArgument owner passing type =>
      exact quietly_respects (still.createArgument owner passing type)
  | createResourceArgument owner type =>
      exact quietly_respects (createResourceArgument_still owner type)
  | createBlock owner => exact quietly_respects (still.createBlock owner)
  | createBody owner => exact quietly_respects (still.createBody owner)
  | setBody owner block => exact still.setBody owner block
  | setName ref name => exact Respects.of_amends (setName_amends ref name)
  | addComment ref comment => exact Respects.of_amends (addComment_amends ref comment)
  | remove ref => exact (moving rfl).remove ref
  | append block ref =>
      have := moving rfl
      exact Respects.bind (demandBlock_respects block) fun _ => append_moving block ref
  | prepend block ref =>
      have := moving rfl
      exact Respects.bind (demandBlock_respects block) fun _ => prepend_moving block ref
  | insertBefore ref position =>
      have := moving rfl
      exact insertBefore_moving ref position
  | insertBehind ref position =>
      have := moving rfl
      exact insertBehind_moving ref position
  | setUse use operand => exact Respects.of_amends (setUse_amends use operand)
  | setOperand user position operand =>
      exact Respects.of_amends (setOperand_amends user position operand)
  | setCondition ref condition => exact Respects.of_amends (setCondition_amends ref condition)
  | setSelector ref selector => exact Respects.of_amends (setSelector_amends ref selector)
  | setStored ref stored => exact Respects.of_amends (setStored_amends ref stored)
  | setBaseAndIndices ref base indices =>
      exact Respects.bind (demandThat_respects _) fun _ =>
        Respects.of_amends (setBaseAndIndices_amends ref base indices)
  | setBlockAt ref place block => exact Respects.of_amends (setBlockAt_amends ref place block)
  | createBlockAt ref place => exact quietly_respects (createBlockAt_still ref place)
  | addCase ref value block => exact Respects.of_amends (addCase_amends ref value block)
  | createCase ref value => exact quietly_respects (createCase_still ref value)
  | addIncoming phi incoming block =>
      exact Respects.bind (demandThat_respects _) fun _ =>
        Respects.of_amends (addIncoming_amends phi incoming block)
  | setIncoming phi position incoming block =>
      exact Respects.bind (demandThat_respects _) fun _ =>
        Respects.of_amends (setIncoming_amends phi position incoming block)
  | setIncomingCount phi count =>
      exact Respects.bind (demandThat_respects _) fun _ =>
        Respects.of_amends (setIncomingCount_amends phi count)
  | removeIncoming phi position =>
      exact Respects.bind (demandThat_respects _) fun _ =>
        Respects.of_amends (removeIncoming_amends phi position)
  | replaceUses old new => exact Respects.of_amends (replaceUsesWith_amends old new)

omit still in
/-- What each of some operations respects, the sequence of them respects. -/
theorem performAll_respects
    [Lasting related]
    {changes : List Change}
    (each : ∀ change ∈ changes, Respects related change.perform) :
    Respects related (performAll changes) := by
  induction changes with
  | nil => exact Respects.pure ()
  | cons change rest induction =>
      obtain ⟨first, others⟩ := List.forall_mem_cons.1 each
      exact Respects.bind first fun _ => induction others

end Change

theorem Resolver.choosing_respects
    {related : Store → Store → Prop}
    [Lasting related]
    {choose : Ref → Store → List Change × Option Ref}
    {ref : Ref}
    (each : ∀ store, ∀ change ∈ (choose ref store).1, Respects related change.perform) :
    Respects related (Resolver.choosing choose ref) := by
  intro store
  refine Respects.bindAt (Respects.see _ store) fun chosen left given => ?_
  obtain ⟨rfl, rfl⟩ := gives_see_iff.1 given
  exact Respects.bind (Change.performAll_respects (each left)) (fun _ => Respects.pure _) left

end ShaderIR

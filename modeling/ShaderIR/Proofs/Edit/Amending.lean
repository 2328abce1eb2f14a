import ShaderIR.Proofs.Coherence.Session

/-!
# Amending instructions

An amendment changes what an instruction computes, or how a value is annotated: the kind and
the operands of instructions, use-lists, names and comments.  It moves no instruction and
creates no value, and functions, blocks, constants and modules stay as they are.

The frame of a value is the part that no amendment changes.  Whatever is read off the frames
is the same after an amendment.
-/

namespace ShaderIR

/-- What a value is, where of an instruction only its block counts. -/
def Content.frame : Content → Content :=
  Content.mapInstruction fun entry => { opcode := .ret, operands := [], block := entry.block }

/-- A value without its annotations, where of an instruction only its block counts. -/
def Value.frame (value : Value) : Value :=
  { module := value.module, id := value.id, type := value.type, content := value.content.frame }

namespace Store

/-- The frame of the value behind a reference. -/
def frame? (store : Store) (ref : Ref) : Option Value :=
  (store.value? ref).map Value.frame

/-- All frames, all modules and the links between instructions are what they were. -/
structure Amends (store left : Store) : Prop where
  frames : ∀ ref, left.frame? ref = store.frame? ref
  modules : left.modules = store.modules
  links : left.links = store.links

instance : Edit.Lasting Amends where
  refl := fun _ => ⟨fun _ => rfl, rfl, rfl⟩
  trans := fun amends amends' =>
    ⟨fun ref => (amends'.frames ref).trans (amends.frames ref),
      amends'.modules.trans amends.modules, amends'.links.trans amends.links⟩

namespace Amends

variable {store left : Store}

/-! ## Reading after an amendment -/

/-- What the frame of a value tells is the same after an amendment. -/
theorem values
    (amends : store.Amends left)
    {α : Type}
    (read : Value → α)
    (framed : ∀ value, read value.frame = read value)
    (ref : Ref) :
    (left.value? ref).map read = (store.value? ref).map read := by
  have same := congrArg (Option.map read) (amends.frames ref)
  simpa [frame?, Function.comp_def, framed] using same

/-- What the frame of a content tells is the same after an amendment. -/
theorem contents
    (amends : store.Amends left)
    {α : Type}
    (read : Option Content → α)
    (framed : ∀ content, read (content.map Content.frame) = read content)
    (ref : Ref) :
    read (left.content? ref) = read (store.content? ref) := by
  have same : (left.content? ref).map Content.frame = (store.content? ref).map Content.frame := by
    have same := congrArg (Option.map Value.content) (amends.frames ref)
    simpa [frame?, content?, Value.frame, Function.comp_def] using same
  rw [← framed, same, framed]

theorem idOf (amends : store.Amends left) (ref : Ref) : left.idOf ref = store.idOf ref :=
  congrArg (·.getD 0) (amends.values Value.id (fun _ => rfl) ref)

theorem typeOf (amends : store.Amends left) (ref : Ref) : left.typeOf ref = store.typeOf ref := by
  have reads : ∀ store : Store, store.typeOf ref = ((store.value? ref).map Value.type).join := by
    intro store
    rw [Store.typeOf]
    cases store.value? ref <;> rfl
  rw [reads left, reads store, amends.values Value.type fun _ => rfl]

theorem function? (amends : store.Amends left) (ref : Ref) :
    left.function? ref = store.function? ref := by
  refine Option.ext fun entry => ?_
  rw [function?_eq_some_iff, function?_eq_some_iff]
  refine iff_of_eq (amends.contents (· = some (.function entry)) (fun content => ?_) ref)
  rcases content with _ | ⟨_ | _⟩ <;> simp [Content.frame, Content.mapInstruction]

theorem block_iff (amends : store.Amends left) (ref function : Ref) (members : List Ref) :
    left.content? ref = some (.block function members) ↔
      store.content? ref = some (.block function members) := by
  refine iff_of_eq (amends.contents (· = some (.block function members)) (fun content => ?_) ref)
  rcases content with _ | ⟨_ | _⟩ <;> simp [Content.frame, Content.mapInstruction]

theorem blockFunction? (amends : store.Amends left) (ref : Ref) :
    left.blockFunction? ref = store.blockFunction? ref := by
  refine Option.ext fun function => ?_
  simp only [blockFunction?_eq_some_iff, amends.block_iff]

theorem instructions (amends : store.Amends left) (ref : Ref) :
    left.instructions ref = store.instructions ref :=
  instructions_eq_of_blocks (amends.block_iff ref)

theorem blockOf? (amends : store.Amends left) (ref : Ref) :
    left.blockOf? ref = store.blockOf? ref := by
  refine Option.ext fun block => ?_
  simp only [blockOf?_eq_some_iff, instruction?_eq_some_iff]
  refine iff_of_eq (amends.contents (fun content => ∃ entry : Instruction,
    content = some (.instruction entry) ∧ entry.block = some block) (fun content => ?_) ref)
  rcases content with _ | ⟨_ | _⟩ <;> simp [Content.frame, Content.mapInstruction]

end Amends

/-! ## Updates that amend -/

variable (store : Store)

theorem amends_modifyValue
    (ref : Ref)
    {change : Value → Value}
    (framed : ∀ value, (change value).frame = value.frame) :
    store.Amends (store.modifyValue ref change) :=
  ⟨fun other => map_value?_modifyValue store ref other framed, rfl, rfl⟩

theorem amends_modifyInstruction
    (ref : Ref)
    {change : Instruction → Instruction}
    (kept : ∀ entry, (change entry).block = entry.block) :
    store.Amends (store.modifyInstruction ref change) := by
  refine amends_modifyValue store ref fun value => ?_
  cases value with
  | mk module id type content name comments uses =>
      cases content with
      | instruction entry => simp [Value.frame, Content.frame, Content.mapInstruction, kept]
      | _ => rfl

theorem amends_record
    {change : Records → Records}
    (linked : ∀ records, (change records).links = records.links) :
    store.Amends (store.record change) :=
  ⟨fun _ => rfl, rfl, linked _⟩

theorem amends_link (operand : Option Ref) (use : Use) :
    store.Amends (store.link operand use) := by
  cases operand with
  | none => exact Edit.Lasting.refl store
  | some ref =>
      rw [link_some]
      refine Edit.Lasting.trans ?_ (amends_record _ fun _ => rfl)
      exact amends_modifyValue store ref fun _ => rfl

theorem amends_unlink (operand : Option Ref) (use : Use) :
    store.Amends (store.unlink operand use) := by
  cases operand with
  | none => exact Edit.Lasting.refl store
  | some ref =>
      rw [unlink_some]
      refine Edit.Lasting.trans ?_ (amends_record _ fun _ => rfl)
      exact amends_modifyValue store ref fun _ => rfl

theorem amends_linkAll (user : Ref) (slots : List Slot) :
    store.Amends (store.linkAll user slots) := by
  induction slots generalizing store with
  | nil => exact Edit.Lasting.refl store
  | cons slot rest induction =>
      exact Edit.Lasting.trans (amends_link store slot.value _) (induction _)

theorem amends_unlinkAll (user : Ref) (slots : List Slot) :
    store.Amends (store.unlinkAll user slots) := by
  induction slots generalizing store with
  | nil => exact Edit.Lasting.refl store
  | cons slot rest induction =>
      exact Edit.Lasting.trans (amends_unlink store slot.value _) (induction _)

end Store

/-! ## Edits that amend -/

namespace Edit

open Store

theorem setName_amends (ref : Ref) (name : String) : Respects Amends (setName ref name) :=
  fun store => amends_modifyValue store ref fun _ => rfl

theorem addComment_amends (ref : Ref) (comment : String) :
    Respects Amends (addComment ref comment) :=
  fun store => amends_modifyValue store ref fun _ => rfl

theorem setOpcode_amends (ref : Ref) (opcode : Opcode) : Respects Amends (setOpcode ref opcode) :=
  fun store => amends_modifyInstruction store ref fun _ => rfl

theorem record_amends
    {change : Records → Records}
    (linked : ∀ records, (change records).links = records.links) :
    Respects Amends (modify fun store => store.record change) :=
  fun store => amends_record store linked

theorem setSlot_amends (user : Ref) (key : Nat) (operand : Option Ref) :
    Respects Amends (setSlot user key operand) :=
  Respects.bind (Respects.requireSamePool user operand) fun _ =>
    Respects.bind (Respects.instruction user) fun _ =>
      Respects.bind (Respects.see _) fun _ =>
        Respects.bind (Respects.demand _) fun _ =>
          Respects.bind (Respects.see _) fun _ =>
            Respects.bind (fun store => amends_unlink store _ _) fun _ =>
              Respects.bind (record_amends fun _ => rfl) fun _ =>
                Respects.bind (fun store => amends_modifyInstruction store user fun _ => rfl)
                  fun _ => Respects.ifThen (fun store => amends_link store _ _) (Respects.pure ())

theorem setUse_amends (use : Use) (operand : Option Ref) :
    Respects Amends (setUse use operand) :=
  Respects.bind (Respects.instruction use.user) fun _ =>
    Respects.ifThen (setSlot_amends use.user use.slot operand) Respects.stuck

theorem setOperand_amends (user : Ref) (position : Int) (operand : Option Ref) :
    Respects Amends (setOperand user position operand) :=
  Respects.ifThen Respects.stuck <|
    Respects.bind (Respects.instruction user) fun _ =>
      Respects.bind (Respects.demand _) fun slot => setSlot_amends user slot.key operand

theorem addOperand_amends (user : Ref) (operand : Option Ref) :
    Respects Amends (addOperand user operand) := by
  refine Respects.bind (Respects.requireSamePool user operand) fun _ =>
    Respects.bind (Respects.instruction user) fun entry store => ?_
  have counted : store.Amends (store.makeSlot ⟨user, operand⟩) :=
    ⟨fun _ => rfl, rfl, rfl⟩
  have added : store.Amends
      ((store.makeSlot ⟨user, operand⟩).modifyInstruction user fun entry =>
        { entry with operands := entry.operands ++ [⟨store.nextSlot, operand⟩] }) :=
    Lasting.trans counted (amends_modifyInstruction _ user fun _ => rfl)
  rw [outcome_modify]
  dsimp only
  split
  · exact Lasting.trans added (amends_link _ operand _)
  · exact added

theorem addOperands_amends (user : Ref) (operands : List (Option Ref)) :
    Respects Amends (addOperands user operands) := by
  induction operands with
  | nil => exact Respects.pure ()
  | cons operand rest induction =>
      exact Respects.bind (addOperand_amends user operand) fun _ => induction

theorem truncateOperands_amends (user : Ref) (count : Nat) :
    Respects Amends (truncateOperands user count) :=
  Respects.bind (Respects.instruction user) fun _ =>
    Respects.bind (fun store => amends_unlinkAll store user _) fun _ store =>
      amends_modifyInstruction store user fun _ => rfl

theorem setOperands_amends (user : Ref) (operands : List (Option Ref)) :
    Respects Amends (setOperands user operands) :=
  Respects.bind (truncateOperands_amends user 0) fun _ => addOperands_amends user operands

theorem setOperandCount_amends (user : Ref) (count : Nat) :
    Respects Amends (setOperandCount user count) :=
  Respects.bind (truncateOperands_amends user count) fun _ =>
    Respects.bind (Respects.instruction user) fun _ => addOperands_amends user _

theorem removeOperand_amends (user : Ref) (position : Int) :
    Respects Amends (removeOperand user position) :=
  Respects.ifThen Respects.stuck <|
    Respects.bind (Respects.instruction user) fun _ =>
      Respects.bind (Respects.demand _) fun _ =>
        Respects.bind (fun store => amends_unlink store _ _) fun _ store =>
          amends_modifyInstruction store user fun _ => rfl

theorem redirect_amends (operand : Option Ref) (uses : List Use) :
    Respects Amends (redirect operand uses) := by
  induction uses with
  | nil => exact Respects.pure ()
  | cons use rest induction =>
      exact Respects.bind (setSlot_amends use.user use.slot operand) fun _ => induction

theorem replaceUsesWith_amends (old : Ref) (new : Option Ref) :
    Respects Amends (replaceUsesWith old new) :=
  Respects.ifThen (Respects.pure ()) <|
    Respects.bind (Respects.see _) fun uses => redirect_amends new uses

/-! ### Parts of instructions -/

theorem setCondition_amends (ref : Ref) (condition : Option Ref) :
    Respects Amends (setCondition ref condition) :=
  Respects.bind (Respects.see _) fun _ =>
    Respects.bind (Respects.require _ _) fun _ => setOperand_amends ref 0 condition

theorem setSelector_amends (ref : Ref) (selector : Option Ref) :
    Respects Amends (setSelector ref selector) :=
  Respects.bind (Respects.see _) fun _ =>
    Respects.bind (Respects.require _ _) fun _ => setOperand_amends ref 0 selector

theorem setStored_amends (ref : Ref) (stored : Option Ref) :
    Respects Amends (setStored ref stored) :=
  Respects.bind (Respects.operand ref 0) fun address =>
    Respects.bind (Respects.typeOfPresent address) fun _ =>
      Respects.bind (Respects.see _) fun _ =>
        Respects.bind (Respects.require _ _) fun _ => setOperand_amends ref 1 stored

theorem setBaseAndIndices_amends (ref : Ref) (base : Option Ref) (indices : List (Option Ref)) :
    Respects Amends (setBaseAndIndices ref base indices) :=
  Respects.bind (Respects.see _) fun _ =>
    Respects.bind (Respects.require _ _) fun _ => setOperands_amends ref (base :: indices)

theorem setBlockAt_amends (ref : Ref) (place : BlockPlace) (block : Option Ref) :
    Respects Amends (setBlockAt ref place block) := by
  cases place with
  | operand position => exact setOperand_amends ref position block
  | merge => exact Respects.bind (Respects.instruction ref) fun _ => setOpcode_amends ref _
  | body =>
      refine Respects.bind (Respects.instruction ref) fun entry => ?_
      cases entry.opcode with
      | loop merge body update => exact setOpcode_amends ref _
      | _ => exact Respects.stuck
  | update =>
      refine Respects.bind (Respects.instruction ref) fun entry => ?_
      cases entry.opcode with
      | loop merge body update => exact setOpcode_amends ref _
      | _ => exact Respects.stuck

theorem addCase_amends (ref : Ref) (value : Int64) (block : Option Ref) :
    Respects Amends (addCase ref value block) := by
  refine Respects.bind (Respects.instruction ref) fun entry => ?_
  cases entry.opcode with
  | switch merge cases =>
      exact Respects.bind (Respects.require _ _) fun _ =>
        Respects.bind (setOpcode_amends ref _) fun _ => addOperand_amends ref block
  | _ => exact Respects.stuck

theorem modifyIncomingBlocks_amends
    (phi : Ref)
    (change : List (Option Ref) → List (Option Ref)) :
    Respects Amends (modifyIncomingBlocks phi change) :=
  Respects.bind (Respects.instruction phi) fun _ => setOpcode_amends phi _

theorem addIncoming_amends (phi : Ref) (incoming block : Option Ref) :
    Respects Amends (addIncoming phi incoming block) :=
  Respects.bind (requireIncoming_respects phi incoming) fun _ =>
    Respects.bind (addOperand_amends phi incoming) fun _ => modifyIncomingBlocks_amends phi _

theorem setIncoming_amends (phi : Ref) (position : Int) (incoming block : Option Ref) :
    Respects Amends (setIncoming phi position incoming block) :=
  Respects.bind (requireIncoming_respects phi incoming) fun _ =>
    Respects.bind (setOperand_amends phi position incoming) fun _ =>
      Respects.bind (Respects.instruction phi) fun _ =>
        Respects.ifThen Respects.stuck (modifyIncomingBlocks_amends phi _)

theorem setIncomingCount_amends (phi : Ref) (count : Int) :
    Respects Amends (setIncomingCount phi count) :=
  Respects.ifThen (Respects.bind (truncateOperands_amends phi 0) fun _ => Respects.stuck) <|
    Respects.bind (setOperandCount_amends phi count.toNat) fun _ =>
      modifyIncomingBlocks_amends phi _

theorem removeIncoming_amends (phi : Ref) (position : Int) :
    Respects Amends (removeIncoming phi position) :=
  Respects.bind (removeOperand_amends phi position) fun _ =>
    Respects.bind (Respects.instruction phi) fun _ =>
      Respects.ifThen Respects.stuck (modifyIncomingBlocks_amends phi _)

end Edit

end ShaderIR

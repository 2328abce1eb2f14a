import ShaderIR.Pass.Flattening
import ShaderIR.Proofs.Layout.Shape

/-!
# Types of blocks and variables

Blocks are created without a type and variables with one, and only new undefined
values are noted as the undefined values of a module.  Afterwards no edit takes a type
away or makes a variable of something else.

Phis have a type like variables.  A variable is given no operands: what sets an operand
has looked for a place to put it in, or for an instruction of another kind.
-/

namespace ShaderIR

theorem Opcode.eq_of_withMerge
    {opcode : Opcode}
    {merge : Option Ref}
    {space : Space}
    (same : opcode.withMerge merge = .alloca space) :
    opcode = .alloca space := by
  cases opcode <;> cases same
  rfl

namespace Store

/-- The undefined values that a module knows, by their types. -/
def undefinedsOf (store : Store) (module : Nat) : List (Option Ty × Ref) :=
  ((store.modules[module]?).map (·.undefineds)).getD []

/-- What a module knows as the undefined value of a type is one, of this type and module. -/
structure Interned (store : Store) (module : Nat) (known : Option Ty × Ref) : Prop where
  undefined : store.isUndefined known.2 = true
  type : store.typeOf known.2 = known.1
  pool : store.moduleOf? known.2 = some module

/--
What creating values makes sure of: blocks have no type, variables have one, functions take
arguments, and modules know undefined values for what they are.
-/
structure Regular (store : Store) : Prop where
  blocks : ∀ {ref}, store.isBlock ref = true → store.typeOf ref = none
  typed : ∀ {ref}, store.isLocalVariable ref = true → (store.typeOf ref).isSome
  arguments : ∀ {ref entry}, store.function? ref = some entry →
    ∀ parameter ∈ entry.arguments, store.IsArgument parameter
  undefineds : ∀ {module known}, known ∈ store.undefinedsOf module → store.Interned module known

/-- What is regular stays so, and values with a type keep having one. -/
def Regulates (store left : Store) : Prop :=
  store.Regular → left.Regular ∧ ∀ {ref}, (store.typeOf ref).isSome → (left.typeOf ref).isSome

variable {store left : Store} {ref other : Ref}

theorem isLocalVariable_iff :
    store.isLocalVariable ref = true ↔ store.opcode? ref = some (.alloca .local) :=
  beq_iff_eq

theorem isUndefined_iff : store.isUndefined ref = true ↔ store.content? ref = some .undefined := by
  unfold isUndefined
  split <;> simp_all

theorem content?_of_isLocalVariable (isVariable : store.isLocalVariable ref = true) :
    ∃ entry, store.content? ref = some (.instruction entry) ∧ entry.opcode = .alloca .local := by
  obtain ⟨entry, found, opcode⟩ := Option.map_eq_some_iff.1 (isLocalVariable_iff.1 isVariable)
  exact ⟨entry, instruction?_eq_some_iff.1 found, opcode⟩

theorem isLocalVariable_of_content?
    {entry : Instruction}
    (found : store.content? ref = some (.instruction entry))
    (opcode : entry.opcode = .alloca .local) :
    store.isLocalVariable ref = true :=
  isLocalVariable_iff.2 (Option.map_eq_some_iff.2 ⟨entry, instruction?_eq_some_iff.2 found, opcode⟩)

instance : Edit.Lasting Regulates where
  refl := fun _ regular => ⟨regular, id⟩
  trans := by
    intro store middle left first second regular
    obtain ⟨between, typed⟩ := first regular
    obtain ⟨after, typed'⟩ := second between
    exact ⟨after, fun known => typed' (typed known)⟩

/-! ## Changing values -/

theorem typeOf_modifyValue
    {change : Value → Value}
    (kept : ∀ value, (change value).type = value.type) :
    (store.modifyValue ref change).typeOf other = store.typeOf other := by
  unfold typeOf
  rw [value?_modifyValue]
  split
  · simp only [Option.bind_map, Function.comp_def, kept]
  · rfl

/--
A change of a value that keeps its type, makes neither a block nor a variable of it, and lets
functions take nothing but arguments.
-/
theorem regulates_modifyValue
    {change : Value → Value}
    {changeContent : Content → Content}
    (respected : ∀ value, (change value).content = changeContent value.content)
    (kept : ∀ value, (change value).type = value.type ∧ (change value).module = value.module)
    (undefined : changeContent .undefined = .undefined)
    (argument : ∀ passing owner position,
      changeContent (.argument passing owner position) = .argument passing owner position)
    (functions : ∀ {content entry}, changeContent content = .function entry →
      ∃ former, content = .function former ∧ ∀ parameter ∈ entry.arguments,
        parameter ∈ former.arguments ∨ store.IsArgument parameter)
    (blocks : ∀ {content owner members}, changeContent content = .block owner members →
      ∃ owner members, content = .block owner members)
    (locals : ∀ {content entry}, store.content? ref = some content →
      changeContent content = .instruction entry → entry.opcode = .alloca .local →
        ∃ former, content = .instruction former ∧ former.opcode = .alloca .local) :
    store.Regulates (store.modifyValue ref change) := by
  intro regular
  have stays {parameter : Ref} (isArgument : store.IsArgument parameter) :
      (store.modifyValue ref change).IsArgument parameter := by
    obtain ⟨passing, owner, position, found⟩ := isArgument
    refine ⟨passing, owner, position, ?_⟩
    rw [content?_modifyValue store ref parameter respected, found, Option.map_some, argument,
      ite_self]
  refine ⟨⟨?_, ?_, ?_, ?_⟩, ?_⟩
  · intro other isBlock
    obtain ⟨owner, members, found⟩ := isBlock_iff.1 isBlock
    rw [content?_modifyValue store ref other respected] at found
    rw [typeOf_modifyValue fun value => (kept value).1]
    apply regular.blocks
    split at found
    · obtain ⟨content, former, becomes⟩ := Option.map_eq_some_iff.1 found
      obtain ⟨owner, members, rfl⟩ := blocks becomes
      exact isBlock_iff.2 ⟨owner, members, former⟩
    · exact isBlock_iff.2 ⟨owner, members, found⟩
  · intro other isVariable
    obtain ⟨entry, found, opcode⟩ := content?_of_isLocalVariable isVariable
    rw [content?_modifyValue store ref other respected] at found
    rw [typeOf_modifyValue fun value => (kept value).1]
    apply regular.typed
    split at found
    · rename_i same
      subst same
      obtain ⟨content, former, becomes⟩ := Option.map_eq_some_iff.1 found
      obtain ⟨entry, rfl, opcode⟩ := locals former becomes opcode
      exact isLocalVariable_of_content? former opcode
    · exact isLocalVariable_of_content? found opcode
  · intro other entry found parameter member
    rw [function?_eq_some_iff, content?_modifyValue store ref other respected] at found
    split at found
    · obtain ⟨content, former, becomes⟩ := Option.map_eq_some_iff.1 found
      obtain ⟨former', rfl, taken⟩ := functions becomes
      exact stays ((taken parameter member).elim
        (regular.arguments (function?_eq_some_iff.2 former) parameter) id)
    · exact stays (regular.arguments (function?_eq_some_iff.2 found) parameter member)
  · intro module known member
    have interned := regular.undefineds member
    have former := isUndefined_iff.1 interned.undefined
    refine ⟨?_, ?_, ?_⟩
    · rw [isUndefined_iff, content?_modifyValue store ref _ respected, former]
      split
      · exact congrArg some undefined
      · rfl
    · rw [typeOf_modifyValue fun value => (kept value).1, interned.type]
    · rw [moduleOf?_modifyValue _ _ _ fun value => (kept value).2, interned.pool]
  · intro other typed
    rwa [typeOf_modifyValue fun value => (kept value).1]

theorem regulates_modifyFunction
    {change : Function → Function}
    (arguments : ∀ entry : Function, ∀ parameter ∈ (change entry).arguments,
      parameter ∈ entry.arguments ∨ store.IsArgument parameter) :
    store.Regulates (store.modifyFunction ref change) := by
  refine regulates_modifyValue
    (fun value => show _ = Content.mapFunction change value.content from ?_) ?_ rfl
    (fun _ _ _ => rfl) ?_ ?_ ?_
  · unfold Content.mapFunction
    split <;> simp_all
  · intro value
    split <;> exact ⟨rfl, rfl⟩
  · intro content entry becomes
    cases content with
    | function former =>
        cases becomes
        exact ⟨former, rfl, arguments former⟩
    | _ => cases becomes
  · intro content owner members becomes
    cases content <;> simp_all [Content.mapFunction]
  · intro content entry _ becomes opcode
    cases content <;> simp_all [Content.mapFunction]

theorem regulates_modifyBlock (change : List Ref → List Ref) :
    store.Regulates (store.modifyBlock ref change) := by
  refine regulates_modifyValue
    (fun value => show _ = Content.mapBlock change value.content from ?_) ?_ rfl
    (fun _ _ _ => rfl) ?_ ?_ ?_
  · unfold Content.mapBlock
    split <;> simp_all
  · intro value
    split <;> exact ⟨rfl, rfl⟩
  · intro content entry becomes
    cases content <;> cases becomes
    exact ⟨entry, rfl, fun _ => .inl⟩
  · intro content owner members becomes
    cases content <;> simp_all [Content.mapBlock]
  · intro content entry _ becomes opcode
    cases content <;> simp_all [Content.mapBlock]

/-- A change of an instruction that makes no variable of it. -/
theorem regulates_modifyInstruction
    {change : Instruction → Instruction}
    (locals : ∀ {entry}, store.instruction? ref = some entry →
      (change entry).opcode = .alloca .local → entry.opcode = .alloca .local) :
    store.Regulates (store.modifyInstruction ref change) := by
  refine regulates_modifyValue
    (fun value => show _ = Content.mapInstruction change value.content from ?_) ?_ rfl
    (fun _ _ _ => rfl) ?_ ?_ ?_
  · unfold Content.mapInstruction
    split <;> simp_all
  · intro value
    split <;> exact ⟨rfl, rfl⟩
  · intro content entry becomes
    cases content <;> cases becomes
    exact ⟨entry, rfl, fun _ => .inl⟩
  · intro content owner members becomes
    cases content <;> simp_all [Content.mapInstruction]
  · intro content entry found becomes opcode
    cases content with
    | instruction former =>
        cases becomes
        exact ⟨former, rfl, locals (instruction?_eq_some_iff.2 found) opcode⟩
    | _ => cases becomes

/-! ## Changing modules -/

theorem mem_undefinedsOf_iff {module : Nat} {known : Option Ty × Ref} :
    known ∈ store.undefinedsOf module ↔
      ∃ entry, store.modules[module]? = some entry ∧ known ∈ entry.undefineds := by
  unfold undefinedsOf
  cases store.modules[module]? <;> simp

/-- Values are the same, and what a module knows besides is undefined. -/
theorem regulates_of_values
    (same : ∀ ref, left.value? ref = store.value? ref)
    (undefineds : ∀ {module known}, known ∈ left.undefinedsOf module →
      known ∈ store.undefinedsOf module ∨ store.Interned module known) :
    store.Regulates left := by
  intro regular
  have contents : ∀ ref, left.content? ref = store.content? ref := fun ref =>
    congrArg (Option.map _) (same ref)
  have types : ∀ ref, left.typeOf ref = store.typeOf ref := fun ref =>
    congrArg (Option.bind · _) (same ref)
  refine ⟨⟨?_, ?_, ?_, ?_⟩, ?_⟩
  · intro ref isBlock
    rw [isBlock_congr (contents ref)] at isBlock
    rw [types, regular.blocks isBlock]
  · intro ref isVariable
    obtain ⟨entry, found, opcode⟩ := content?_of_isLocalVariable isVariable
    rw [contents] at found
    rw [types]
    exact regular.typed (isLocalVariable_of_content? found opcode)
  · intro ref entry found parameter member
    rw [function?_congr (contents ref)] at found
    obtain ⟨passing, owner, position, isArgument⟩ := regular.arguments found parameter member
    exact ⟨passing, owner, position, (contents parameter).trans isArgument⟩
  · intro module known member
    have pool : left.moduleOf? known.2 = store.moduleOf? known.2 :=
      congrArg (Option.map _) (same known.2)
    have interned := (undefineds member).elim regular.undefineds id
    refine ⟨?_, (types _).trans interned.type, pool.trans interned.pool⟩
    rw [isUndefined_iff, contents, ← isUndefined_iff]
    exact interned.undefined
  · intro ref typed
    rwa [types]

theorem mem_undefinedsOf_modifyModule
    {module place : Nat}
    {change : Module → Module}
    {known : Option Ty × Ref}
    (member : known ∈ (store.modifyModule module change).undefinedsOf place) :
    known ∈ store.undefinedsOf place ∨ module = place ∧
      ∃ entry, store.modules[place]? = some entry ∧ known ∈ (change entry).undefineds := by
  obtain ⟨entry, found, member⟩ := mem_undefinedsOf_iff.1 member
  rw [modifyModule, Array.getElem?_modify] at found
  split at found
  · rename_i here
    obtain ⟨former, held, rfl⟩ := Option.map_eq_some_iff.1 found
    exact .inr ⟨here, former, held, member⟩
  · exact .inl (mem_undefinedsOf_iff.2 ⟨entry, found, member⟩)

theorem regulates_modifyModule
    {module : Nat}
    {change : Module → Module}
    (kept : ∀ entry, (change entry).undefineds = entry.undefineds) :
    store.Regulates (store.modifyModule module change) := by
  refine regulates_of_values (fun _ => rfl) fun member => .inl ?_
  rcases mem_undefinedsOf_modifyModule member with member | ⟨-, entry, found, member⟩
  · exact member
  · rw [kept] at member
    exact mem_undefinedsOf_iff.2 ⟨entry, found, member⟩

/-! ## Adding values -/

theorem typeOf_allocate (module : Nat) (type : Option Ty) (content : Content) :
    (store.allocate module type content).2.typeOf ref =
      if ref = (store.allocate module type content).1 then type else store.typeOf ref := by
  rw [typeOf, value?_allocate]
  split <;> rfl

theorem moduleOf?_allocate (module : Nat) (type : Option Ty) (content : Content) :
    (store.allocate module type content).2.moduleOf? ref =
      if ref = (store.allocate module type content).1 then some module
      else store.moduleOf? ref := by
  rw [moduleOf?, value?_allocate]
  split <;> rfl

theorem content?_allocate (module : Nat) (type : Option Ty) (content : Content) :
    (store.allocate module type content).2.content? ref =
      if ref = (store.allocate module type content).1 then some content
      else store.content? ref := by
  rw [Store.content?, value?_allocate]
  split <;> rfl

theorem mem_undefinedsOf_of_allocate
    {module place : Nat}
    {type : Option Ty}
    {content : Content}
    {known : Option Ty × Ref}
    (member : known ∈ (store.allocate module type content).2.undefinedsOf place) :
    known ∈ store.undefinedsOf place := by
  rw [mem_undefinedsOf_iff, modules_allocate] at member
  rcases mem_undefinedsOf_modifyModule (mem_undefinedsOf_iff.2 member) with
    member | ⟨-, entry, found, member⟩
  · exact member
  · exact mem_undefinedsOf_iff.2 ⟨entry, found, member⟩

/-- A module gets to know only the new undefined value. -/
theorem mem_undefinedsOf_of_intern
    {module place : Nat}
    {type : Option Ty}
    {known : Option Ty × Ref}
    (member : known ∈ ((store.allocate module type .undefined).2.modifyModule module fun entry =>
      { entry with
        undefineds := (type, (store.allocate module type .undefined).1) :: entry.undefineds
      }).undefinedsOf place) :
    known ∈ (store.allocate module type .undefined).2.undefinedsOf place ∨
      place = module ∧ known = (type, (store.allocate module type .undefined).1) := by
  rcases mem_undefinedsOf_modifyModule member with member | ⟨here, entry, found, member⟩
  · exact .inl member
  · rcases List.mem_cons.1 member with rfl | member
    · exact .inr ⟨here.symm, rfl⟩
    · exact .inl (mem_undefinedsOf_iff.2 ⟨entry, found, member⟩)

/-- A new undefined value is what its module is to know it for. -/
theorem interned_allocate (module : Nat) (type : Option Ty) :
    (store.allocate module type .undefined).2.Interned module
      (type, (store.allocate module type .undefined).1) where
  undefined := by rw [isUndefined_iff, content?_allocate, if_pos rfl]
  type := by rw [typeOf_allocate, if_pos rfl]
  pool := by rw [moduleOf?_allocate, if_pos rfl]

/-- A new block has no type, and a new variable has one. -/
theorem regulates_allocate
    {type : Option Ty}
    {content : Content}
    (module : Nat)
    (blocks : ∀ {owner members}, content = .block owner members → type = none)
    (locals : ∀ {entry}, content = .instruction entry → entry.opcode = .alloca .local →
      type.isSome)
    (functions : ∀ {entry}, content = .function entry → entry.arguments = []) :
    store.Regulates (store.allocate module type content).2 := by
  intro regular
  refine ⟨⟨?_, ?_, ?_, ?_⟩, ?_⟩
  · intro ref isBlock
    obtain ⟨owner, members, found⟩ := isBlock_iff.1 isBlock
    rw [content?_allocate] at found
    rw [typeOf_allocate]
    split at found
    · rw [if_pos ‹_›]
      exact blocks (Option.some.inj found)
    · rw [if_neg ‹_›]
      exact regular.blocks (isBlock_iff.2 ⟨owner, members, found⟩)
  · intro ref isVariable
    obtain ⟨entry, found, opcode⟩ := content?_of_isLocalVariable isVariable
    rw [content?_allocate] at found
    rw [typeOf_allocate]
    split at found
    · rw [if_pos ‹_›]
      exact locals (Option.some.inj found) opcode
    · rw [if_neg ‹_›]
      exact regular.typed (isLocalVariable_of_content? found opcode)
  · intro ref entry found parameter member
    rw [function?_eq_some_iff, content?_allocate] at found
    split at found
    · rw [functions (Option.some.inj found)] at member
      cases member
    · obtain ⟨passing, owner, position, isArgument⟩ :=
        regular.arguments (function?_eq_some_iff.2 found) parameter member
      refine ⟨passing, owner, position, ?_⟩
      rw [content?_allocate, if_neg, isArgument]
      rintro rfl
      rw [Store.content?, value?_allocate_fst] at isArgument
      cases isArgument
  · intro place known member
    have interned := regular.undefineds (mem_undefinedsOf_of_allocate member)
    have undefined := isUndefined_iff.1 interned.undefined
    have different : known.2 ≠ (store.allocate module type content).1 := by
      intro same
      rw [same, Store.content?, value?_allocate_fst] at undefined
      cases undefined
    refine ⟨?_, ?_, ?_⟩
    · rw [isUndefined_iff, content?_allocate, if_neg different, undefined]
    · rw [typeOf_allocate, if_neg different, interned.type]
    · rw [moduleOf?_allocate, if_neg different, interned.pool]
  · intro ref typed
    rw [typeOf_allocate, if_neg]
    · exact typed
    · rintro rfl
      rw [typeOf, value?_allocate_fst] at typed
      cases typed

theorem regulates_addModule (name : String) : store.Regulates (store.addModule name).2 := by
  refine regulates_of_values (fun _ => rfl) fun member => .inl ?_
  obtain ⟨entry, found, member⟩ := mem_undefinedsOf_iff.1 member
  rw [addModule, Array.getElem?_push] at found
  split at found
  · cases found
    cases member
  · exact mem_undefinedsOf_iff.2 ⟨entry, found, member⟩

instance : Edit.Steady Regulates where
  addModule := fun _ name => regulates_addModule name
  modifyModule := fun _ _ _ kept => regulates_modifyModule kept
  modifyValue := by
    intro store ref change kept
    refine regulates_modifyValue (fun value => show _ = id value.content from (kept value).1)
      (fun value => (kept value).2) rfl (fun _ _ _ => rfl) ?_ ?_ ?_
    · exact fun becomes => ⟨_, becomes, fun _ => .inl⟩
    · exact fun becomes => ⟨_, _, becomes⟩
    · exact fun _ becomes opcode => ⟨_, becomes, opcode⟩
  modifyFunction := fun _ _ _ kept => regulates_modifyFunction kept
  modifyBlock := fun _ _ change => regulates_modifyBlock change
  record := fun _ _ => regulates_of_values (fun _ => rfl) .inl
  modifyInstruction := by
    intro store ref change kept
    refine regulates_modifyInstruction fun _ opcode => ?_
    exact (congrArg Shape.opcode (kept _)).symm.trans opcode
  allocate := by
    intro store module type content simple
    refine regulates_allocate module ?_ ?_ ?_
    · rintro owner members rfl
      exact simple
    · rintro entry rfl
      cases simple
    · rintro entry rfl
      exact simple
  intern := by
    intro store module type
    have added : store.Regulates (store.allocate module type .undefined).2 :=
      regulates_allocate module (fun other => by cases other) (fun other => by cases other)
        fun other => by cases other
    refine Edit.Lasting.trans added (regulates_of_values (fun _ => rfl) fun member => ?_)
    refine (mem_undefinedsOf_of_intern member).imp_right ?_
    rintro ⟨rfl, rfl⟩
    exact interned_allocate ..

end Store

open Store Edit

namespace Edit

/-! ## Edits that change shapes -/

/-- A change of operands keeps the opcode. -/
theorem modifyInstruction_regulates
    (ref : Ref)
    {change : Instruction → Instruction}
    (kept : ∀ entry, (change entry).opcode = entry.opcode) :
    Respects Regulates (modify fun store => store.modifyInstruction ref change) :=
  fun _ => regulates_modifyInstruction fun _ opcode => kept _ ▸ opcode

/-- No other opcode is replaced by that of a variable. -/
theorem setOpcode_regulates (ref : Ref) {opcode : Opcode} (other : opcode ≠ .alloca .local) :
    Respects Regulates (setOpcode ref opcode) :=
  fun _ => regulates_modifyInstruction fun _ same => absurd same other

theorem addOperand_regulates (user : Ref) (operand : Option Ref) :
    Respects Regulates (addOperand user operand) := by
  refine Respects.bind (Respects.requireSamePool user operand) fun _ =>
    Respects.bind (Respects.instruction user) fun entry store => ?_
  have counted : store.Regulates (store.makeSlot ⟨user, operand⟩) :=
    regulates_of_values (fun _ => rfl) .inl
  have extended : store.Regulates
      ((store.makeSlot ⟨user, operand⟩).modifyInstruction user fun entry =>
        { entry with operands := entry.operands ++ [⟨store.nextSlot, operand⟩] }) :=
    Lasting.trans counted (regulates_modifyInstruction fun _ opcode => opcode)
  rw [outcome_modify]
  dsimp only
  split
  · exact Lasting.trans extended (Steady.link _ operand _)
  · exact extended

theorem addOperands_regulates (user : Ref) (operands : List (Option Ref)) :
    Respects Regulates (addOperands user operands) := by
  induction operands with
  | nil => exact Respects.pure ()
  | cons operand rest induction =>
      exact Respects.bind (addOperand_regulates user operand) fun _ => induction

theorem truncateOperands_regulates (user : Ref) (count : Nat) :
    Respects Regulates (truncateOperands user count) :=
  Respects.bind (Respects.instruction user) fun _ =>
    Respects.bind (fun store => Steady.unlinkAll store user _) fun _ =>
      modifyInstruction_regulates user fun _ => rfl

theorem setOperands_regulates (user : Ref) (operands : List (Option Ref)) :
    Respects Regulates (setOperands user operands) :=
  Respects.bind (truncateOperands_regulates user 0) fun _ => addOperands_regulates user operands

theorem setOperandCount_regulates (user : Ref) (count : Nat) :
    Respects Regulates (setOperandCount user count) :=
  Respects.bind (truncateOperands_regulates user count) fun _ =>
    Respects.bind (Respects.instruction user) fun _ => addOperands_regulates user _

theorem removeOperand_regulates (user : Ref) (position : Int) :
    Respects Regulates (removeOperand user position) :=
  Respects.ifThen Respects.stuck <|
    Respects.bind (Respects.instruction user) fun _ =>
      Respects.bind (Respects.demand _) fun _ =>
        Respects.bind (fun store => Steady.unlink store _ _) fun _ =>
          modifyInstruction_regulates user fun _ => rfl

theorem setBaseAndIndices_regulates (ref : Ref) (base : Option Ref) (indices : List (Option Ref)) :
    Respects Regulates (setBaseAndIndices ref base indices) :=
  Respects.bind (Respects.see _) fun _ =>
    Respects.bind (Respects.require _ _) fun _ => setOperands_regulates ref _

theorem addCase_regulates (ref : Ref) (value : Int64) (block : Option Ref) :
    Respects Regulates (addCase ref value block) := by
  refine Respects.bind (Respects.instruction ref) fun entry => ?_
  cases entry.opcode with
  | switch merge cases =>
      exact Respects.bind (Respects.require _ _) fun _ =>
        Respects.bind (setOpcode_regulates ref fun same => by cases same) fun _ =>
          addOperand_regulates ref block
  | _ => exact Respects.stuck

theorem setBlockAt_regulates (ref : Ref) (place : BlockPlace) (block : Option Ref) :
    Respects Regulates (setBlockAt ref place block) := by
  cases place with
  | operand position => exact setOperand_steady ref position block
  | merge =>
      intro store
      refine Respects.bindInstruction fun entry found => ?_
      refine regulates_modifyInstruction fun held same => ?_
      cases found.symm.trans held
      exact Opcode.eq_of_withMerge same
  | body =>
      refine Respects.bind (Respects.instruction ref) fun entry => ?_
      cases entry.opcode with
      | loop merge body update => exact setOpcode_regulates ref fun same => by cases same
      | _ => exact Respects.stuck
  | update =>
      refine Respects.bind (Respects.instruction ref) fun entry => ?_
      cases entry.opcode with
      | loop merge body update => exact setOpcode_regulates ref fun same => by cases same
      | _ => exact Respects.stuck

theorem createBlockAt_regulates (ref : Ref) (place : BlockPlace) :
    Respects Regulates (createBlockAt ref place) :=
  Respects.bind (createBlockFor_steady ref) fun block =>
    Respects.bind (setBlockAt_regulates ref place (some block)) fun _ => Respects.pure block

theorem createCase_regulates (ref : Ref) (value : Int64) :
    Respects Regulates (createCase ref value) :=
  Respects.bind (createBlockFor_steady ref) fun block =>
    Respects.bind (addCase_regulates ref value (some block)) fun _ => Respects.pure block

theorem modifyIncomingBlocks_regulates
    (phi : Ref)
    (change : List (Option Ref) → List (Option Ref)) :
    Respects Regulates (modifyIncomingBlocks phi change) :=
  Respects.bind (Respects.instruction phi) fun _ =>
    setOpcode_regulates phi fun same => by cases same

theorem addIncoming_regulates (phi : Ref) (incoming block : Option Ref) :
    Respects Regulates (addIncoming phi incoming block) :=
  Respects.bind (requireIncoming_respects phi incoming) fun _ =>
    Respects.bind (addOperand_regulates phi incoming) fun _ => modifyIncomingBlocks_regulates phi _

theorem setIncoming_regulates (phi : Ref) (position : Int) (incoming block : Option Ref) :
    Respects Regulates (setIncoming phi position incoming block) :=
  Respects.bind (requireIncoming_respects phi incoming) fun _ =>
    Respects.bind (setOperand_steady phi position incoming) fun _ =>
      Respects.bind (Respects.instruction phi) fun _ =>
        Respects.ifThen Respects.stuck (modifyIncomingBlocks_regulates phi _)

theorem setIncomingCount_regulates (phi : Ref) (count : Int) :
    Respects Regulates (setIncomingCount phi count) :=
  Respects.ifThen (Respects.bind (truncateOperands_regulates phi 0) fun _ => Respects.stuck) <|
    Respects.bind (setOperandCount_regulates phi count.toNat) fun _ =>
      modifyIncomingBlocks_regulates phi _

theorem removeIncoming_regulates (phi : Ref) (position : Int) :
    Respects Regulates (removeIncoming phi position) :=
  Respects.bind (removeOperand_regulates phi position) fun _ =>
    Respects.bind (Respects.instruction phi) fun _ =>
      Respects.ifThen Respects.stuck (modifyIncomingBlocks_regulates phi _)

end Edit

/-! ## What instructions are made with -/

/-- The opcodes of instructions that always have a type: phis and variables. -/
def Opcode.isTyped : Opcode → Bool
  | phi _ | alloca _ => true
  | _ => false

theorem Opcode.isTyped_iff {opcode : Opcode} :
    opcode.isTyped = true ↔ opcode.isPhi = true ∨ ∃ space, opcode = .alloca space := by
  cases opcode <;> simp [isTyped, isPhi]

namespace Store

/-- Phis and variables have types, and variables have no operands. -/
def Furnished (store : Store) : Prop :=
  ∀ ⦃ref entry⦄, store.instruction? ref = some entry →
    (entry.opcode.isTyped = true → (store.typeOf ref).isSome) ∧
      ∀ space, entry.opcode = .alloca space → entry.operands = []

/-- An instruction that may get operands: any but a variable. -/
def TakesOperands (store : Store) (ref : Ref) : Prop :=
  ∃ entry, store.instruction? ref = some entry ∧ ∀ space, entry.opcode ≠ .alloca space

/-- What is furnished stays so, and phis and all that take operands stay what they are. -/
structure Furnishes (store left : Store) : Prop where
  furnished : store.Furnished → left.Furnished
  phis : ∀ {ref}, store.isPhi ref = true → left.isPhi ref = true
  takes : ∀ {ref}, store.TakesOperands ref → left.TakesOperands ref

variable {store left : Store} {ref user : Ref}

instance : Edit.Lasting Furnishes where
  refl := fun _ => ⟨id, id, id⟩
  trans := fun first second =>
    ⟨second.furnished ∘ first.furnished, second.phis ∘ first.phis, second.takes ∘ first.takes⟩

theorem isPhi_iff :
    store.isPhi ref = true ↔
      ∃ entry, store.instruction? ref = some entry ∧ entry.opcode.isPhi = true := by
  simp [isPhi, opcode?, Option.any_eq_true]

theorem isVariable_iff :
    store.isVariable ref = true ↔ ∃ space, store.opcode? ref = some (.alloca space) := by
  unfold isVariable
  split
  · rename_i space found
    exact ⟨fun _ => ⟨space, found⟩, fun _ => rfl⟩
  · rename_i other
    exact ⟨fun wrong => (by cases wrong), fun ⟨space, found⟩ => absurd found (other space)⟩

theorem takesOperands_of_isPhi (isPhi : store.isPhi ref = true) : store.TakesOperands ref := by
  obtain ⟨entry, found, holds⟩ := isPhi_iff.1 isPhi
  refine ⟨entry, found, fun space same => ?_⟩
  rw [same] at holds
  cases holds

/-- Instructions and types are the same. -/
theorem furnishes_of_same
    (entries : ∀ ref, left.instruction? ref = store.instruction? ref)
    (types : ∀ ref, left.typeOf ref = store.typeOf ref) :
    store.Furnishes left where
  furnished := by
    intro furnished ref entry found
    rw [entries] at found
    rw [types]
    exact furnished found
  phis := by
    intro ref isPhi
    obtain ⟨entry, found, holds⟩ := isPhi_iff.1 isPhi
    exact isPhi_iff.2 ⟨entry, (entries ref).trans found, holds⟩
  takes := fun ⟨entry, found, other⟩ => ⟨entry, (entries _).trans found, other⟩

theorem furnishes_of_values (same : ∀ ref, left.value? ref = store.value? ref) :
    store.Furnishes left :=
  furnishes_of_same (fun ref => instruction?_congr (congrArg (Option.map _) (same ref)))
    fun ref => congrArg (Option.bind · _) (same ref)

theorem typeOf_modifyInstruction {change : Instruction → Instruction} {other : Ref} :
    (store.modifyInstruction ref change).typeOf other = store.typeOf other := by
  refine typeOf_modifyValue fun value => ?_
  split <;> rfl

/-- A change of an instruction that makes neither a phi nor a variable of anything else. -/
theorem furnishes_modifyInstruction
    {change : Instruction → Instruction}
    (phis : ∀ {entry}, store.instruction? ref = some entry →
      (change entry).opcode.isPhi = entry.opcode.isPhi)
    (allocas : ∀ {entry space}, store.instruction? ref = some entry →
      (change entry).opcode = .alloca space →
        entry.opcode = .alloca space ∧ (entry.operands = [] → (change entry).operands = [])) :
    store.Furnishes (store.modifyInstruction ref change) where
  furnished := by
    intro furnished other entry found
    rw [typeOf_modifyInstruction]
    rw [instruction?_modifyInstruction] at found
    split at found
    · rename_i same
      subst same
      obtain ⟨former, held, rfl⟩ := Option.map_eq_some_iff.1 found
      obtain ⟨typed, bare⟩ := furnished held
      refine ⟨fun isTyped => typed ?_, fun space opcode => ?_⟩
      · refine Opcode.isTyped_iff.2 ((Opcode.isTyped_iff.1 isTyped).imp (phis held ▸ ·) ?_)
        exact fun ⟨space, opcode⟩ => ⟨space, (allocas held opcode).1⟩
      obtain ⟨wasVariable, kept⟩ := allocas held opcode
      exact kept (bare space wasVariable)
    · exact furnished found
  phis := by
    intro other isPhi
    obtain ⟨entry, found, holds⟩ := isPhi_iff.1 isPhi
    refine isPhi_iff.2 ?_
    rw [instruction?_modifyInstruction]
    split
    · rename_i same
      subst same
      exact ⟨change entry, congrArg (Option.map change) found, (phis found).trans holds⟩
    · exact ⟨entry, found, holds⟩
  takes := by
    rintro other ⟨entry, found, notVariable⟩
    unfold TakesOperands
    rw [instruction?_modifyInstruction]
    split
    · rename_i same
      subst same
      exact ⟨change entry, congrArg (Option.map change) found,
        fun space opcode => notVariable space (allocas found opcode).1⟩
    · exact ⟨entry, found, notVariable⟩

theorem instruction?_allocate (module : Nat) (type : Option Ty) (content : Content) :
    (store.allocate module type content).2.instruction? ref =
      if ref = (store.allocate module type content).1 then
        match content with
        | .instruction entry => some entry
        | _ => none
      else store.instruction? ref := by
  unfold instruction?
  rw [content?_allocate]
  by_cases here : ref = (store.allocate module type content).1
  · rw [if_pos here, if_pos here]
    cases content <;> rfl
  · rw [if_neg here, if_neg here]

/-- A new phi or variable has a type, and a new variable has no operands. -/
theorem furnishes_allocate
    {type : Option Ty}
    {content : Content}
    (module : Nat)
    (made : ∀ {entry}, content = .instruction entry →
      (entry.opcode.isTyped = true → type.isSome) ∧
        ∀ space, entry.opcode = .alloca space → entry.operands = []) :
    store.Furnishes (store.allocate module type content).2 := by
  have old : ∀ {other entry}, store.instruction? other = some entry →
      (store.allocate module type content).2.instruction? other = some entry := by
    intro other entry found
    rw [instruction?_allocate, if_neg, found]
    rintro rfl
    have absent := value?_allocate_fst store module type content
    have present := value?_isSome_of_instruction? found
    rw [absent] at present
    cases present
  refine ⟨?_, ?_, ?_⟩
  · intro furnished ref entry found
    rw [instruction?_allocate] at found
    rw [typeOf_allocate]
    split at found
    · rw [if_pos ‹_›]
      split at found
      · cases found
        exact made rfl
      · cases found
    · rw [if_neg ‹_›]
      exact furnished found
  · intro ref isPhi
    obtain ⟨entry, found, holds⟩ := isPhi_iff.1 isPhi
    exact isPhi_iff.2 ⟨entry, old found, holds⟩
  · exact fun ⟨entry, found, notVariable⟩ => ⟨entry, old found, notVariable⟩

instance : Edit.Steady Furnishes where
  addModule := fun _ _ => furnishes_of_values fun _ => rfl
  modifyModule := fun _ _ _ _ => furnishes_of_values fun _ => rfl
  modifyValue := by
    intro store ref change kept
    refine furnishes_of_same (fun other => instruction?_congr ?_) fun other => ?_
    · exact map_value?_modifyValue store ref other fun value => (kept value).1
    · exact typeOf_modifyValue fun value => (kept value).2.1
  modifyFunction := fun _ _ _ _ => furnishes_of_same (fun _ => by simp) fun _ => by
    refine typeOf_modifyValue fun value => ?_
    split <;> rfl
  modifyBlock := fun _ _ _ => furnishes_of_same (fun _ => by simp) fun _ => by
    refine typeOf_modifyValue fun value => ?_
    split <;> rfl
  record := fun _ _ => furnishes_of_values fun _ => rfl
  modifyInstruction := by
    intro store ref change kept
    have opcode (entry : Instruction) := congrArg Shape.opcode (kept entry)
    refine furnishes_modifyInstruction (fun {entry} _ => congrArg Opcode.isPhi (opcode entry))
      fun {entry space} _ isVariable => ⟨(opcode entry).symm.trans isVariable, fun bare => ?_⟩
    have count := congrArg Shape.count (kept entry)
    exact List.eq_nil_of_length_eq_zero (count.trans (congrArg List.length bare))
  allocate := by
    intro store module type content simple
    refine furnishes_allocate module ?_
    rintro entry rfl
    cases simple
  intern := by
    intro store module type
    have added : store.Furnishes (store.allocate module type .undefined).2 :=
      furnishes_allocate module fun other => by cases other
    exact Edit.Lasting.trans added (furnishes_of_values fun _ => rfl)

end Store

namespace Edit

variable {store : Store} {user : Ref}

/-! ### Edits that furnish -/

/-- An operand is added to an instruction that takes operands. -/
theorem addOperand_furnishesAt (takes : store.TakesOperands user) (operand : Option Ref) :
    store.Furnishes (outcome (addOperand user operand) store).2 := by
  refine Respects.bindAt (Respects.requireSamePool user operand store) fun _ left given => ?_
  obtain ⟨-, rfl⟩ := gives_requireSamePool_iff.1 given
  refine Respects.bindInstruction fun entry found => ?_
  have counted : left.Furnishes (left.makeSlot ⟨user, operand⟩) :=
    furnishes_of_values fun _ => rfl
  obtain ⟨held, isHeld, notVariable⟩ := takes
  have extended : left.Furnishes
      ((left.makeSlot ⟨user, operand⟩).modifyInstruction user fun entry =>
        { entry with operands := entry.operands ++ [⟨left.nextSlot, operand⟩] }) := by
    refine Lasting.trans counted (furnishes_modifyInstruction (fun _ => rfl) ?_)
    intro entry space found' isVariable
    cases isHeld.symm.trans found'
    exact absurd isVariable (notVariable space)
  rw [outcome_modify]
  dsimp only
  split
  · exact Lasting.trans extended (Steady.link _ operand _)
  · exact extended

theorem addOperands_furnishesAt (takes : store.TakesOperands user) (operands : List (Option Ref)) :
    store.Furnishes (outcome (addOperands user operands) store).2 := by
  induction operands generalizing store with
  | nil => exact Lasting.refl store
  | cons operand rest induction =>
      have first := addOperand_furnishesAt takes operand
      refine Respects.bindAt first fun _ left given => induction ?_
      rw [given] at first
      exact first.takes takes

theorem truncateOperands_furnishes (user : Ref) (count : Nat) :
    Respects Furnishes (truncateOperands user count) :=
  Respects.bind (Respects.instruction user) fun _ =>
    Respects.bind (fun store => Steady.unlinkAll store user _) fun _ _ =>
      furnishes_modifyInstruction (fun _ => rfl)
        fun _ isVariable => ⟨isVariable, fun bare => by simp [bare]⟩

theorem setOperands_furnishesAt (takes : store.TakesOperands user) (operands : List (Option Ref)) :
    store.Furnishes (outcome (setOperands user operands) store).2 := by
  have first := truncateOperands_furnishes user 0 store
  refine Respects.bindAt first fun _ left given => ?_
  rw [given] at first
  exact addOperands_furnishesAt (first.takes takes) operands

/-- Having no operands is for every instruction. -/
theorem setOperands_nil_furnishes (user : Ref) : Respects Furnishes (setOperands user []) :=
  Respects.bind (truncateOperands_furnishes user 0) fun _ => Respects.pure ()

theorem setOperandCount_furnishesAt (takes : store.TakesOperands user) (count : Nat) :
    store.Furnishes (outcome (setOperandCount user count) store).2 := by
  have first := truncateOperands_furnishes user count store
  refine Respects.bindAt first fun _ left given => ?_
  rw [given] at first
  refine Respects.bindInstruction fun entry _ => ?_
  exact addOperands_furnishesAt (first.takes takes) _

theorem removeOperand_furnishes (user : Ref) (position : Int) :
    Respects Furnishes (removeOperand user position) :=
  Respects.ifThen Respects.stuck <|
    Respects.bind (Respects.instruction user) fun _ =>
      Respects.bind (Respects.demand _) fun _ =>
        Respects.bind (fun store => Steady.unlink store _ _) fun _ _ =>
          furnishes_modifyInstruction (fun _ => rfl)
            fun _ isVariable => ⟨isVariable, fun bare => by simp [bare]⟩

/-- An opcode is replaced by one that is a phi as well or as little, and no variable. -/
theorem setOpcode_furnishesAt
    {entry : Instruction}
    {opcode : Opcode}
    (found : store.instruction? user = some entry)
    (phis : opcode.isPhi = entry.opcode.isPhi)
    (notVariable : ∀ space, opcode ≠ .alloca space) :
    store.Furnishes (outcome (setOpcode user opcode) store).2 := by
  refine furnishes_modifyInstruction (fun found' => ?_) fun _ same => absurd same (notVariable _)
  cases found.symm.trans found'
  exact phis

theorem setBaseAndIndices_furnishesAt
    (takes : store.TakesOperands user)
    (base : Option Ref)
    (indices : List (Option Ref)) :
    store.Furnishes (outcome (setBaseAndIndices user base indices) store).2 := by
  refine Respects.bindAt (Respects.see _ store) fun _ left given => ?_
  obtain ⟨-, rfl⟩ := gives_see_iff.1 given
  refine Respects.bindAt (Respects.require _ _ left) fun _ between given => ?_
  obtain ⟨-, rfl⟩ := gives_require_iff.1 given
  exact setOperands_furnishesAt takes _

theorem addCase_furnishes (ref : Ref) (value : Int64) (block : Option Ref) :
    Respects Furnishes (addCase ref value block) := by
  intro store
  refine Respects.bindInstruction fun entry found => ?_
  cases opcode : entry.opcode with
  | switch merge cases =>
      refine Respects.bindAt (Respects.require _ _ store) fun _ between given => ?_
      obtain ⟨-, rfl⟩ := gives_require_iff.1 given
      have set : between.Furnishes (outcome (setOpcode ref (.switch merge (cases ++ [value])))
          between).2 :=
        setOpcode_furnishesAt found (by rw [opcode]; rfl) fun space same => by cases same
      refine Respects.bindAt set fun _ last given => ?_
      rw [given] at set
      refine addOperand_furnishesAt (set.takes ⟨entry, found, fun space same => ?_⟩) block
      rw [opcode] at same
      cases same
  | _ => exact Lasting.refl store

theorem setBlockAt_furnishes (ref : Ref) (place : BlockPlace) (block : Option Ref) :
    Respects Furnishes (setBlockAt ref place block) := by
  cases place with
  | operand position => exact setOperand_steady ref position block
  | merge =>
      intro store
      refine Respects.bindInstruction fun entry found => ?_
      refine furnishes_modifyInstruction (fun held => ?_) fun held same => ?_
      · cases found.symm.trans held
        cases entry.opcode <;> rfl
      · cases found.symm.trans held
        exact ⟨Opcode.eq_of_withMerge same, id⟩
  | body | update =>
      intro store
      refine Respects.bindInstruction fun entry found => ?_
      cases opcode : entry.opcode with
      | loop merge body update =>
          exact setOpcode_furnishesAt found (by rw [opcode]; rfl) fun space same => by cases same
      | _ => exact Lasting.refl store

theorem createBlockAt_furnishes (ref : Ref) (place : BlockPlace) :
    Respects Furnishes (createBlockAt ref place) :=
  Respects.bind (createBlockFor_steady ref) fun block =>
    Respects.bind (setBlockAt_furnishes ref place (some block)) fun _ => Respects.pure block

theorem createCase_furnishes (ref : Ref) (value : Int64) :
    Respects Furnishes (createCase ref value) :=
  Respects.bind (createBlockFor_steady ref) fun block =>
    Respects.bind (addCase_furnishes ref value (some block)) fun _ => Respects.pure block

section Phis

variable {phi : Ref}

theorem modifyIncomingBlocks_furnishesAt
    (isPhi : store.isPhi phi = true)
    (change : List (Option Ref) → List (Option Ref)) :
    store.Furnishes (outcome (modifyIncomingBlocks phi change) store).2 := by
  refine Respects.bindInstruction fun entry found => ?_
  obtain ⟨held, isHeld, holds⟩ := isPhi_iff.1 isPhi
  cases found.symm.trans isHeld
  exact setOpcode_furnishesAt found holds.symm fun space same => by cases same

theorem addIncoming_furnishesAt (isPhi : store.isPhi phi = true) (incoming block : Option Ref) :
    store.Furnishes (outcome (addIncoming phi incoming block) store).2 := by
  have checked : store.Furnishes (outcome (requireIncoming phi incoming) store).2 :=
    requireIncoming_respects phi incoming store
  refine Respects.bindAt checked fun _ left given => ?_
  rw [given] at checked
  have isPhi := checked.phis isPhi
  have added := addOperand_furnishesAt (takesOperands_of_isPhi isPhi) incoming
  refine Respects.bindAt added fun _ between given => ?_
  rw [given] at added
  exact modifyIncomingBlocks_furnishesAt (added.phis isPhi) _

theorem setIncoming_furnishesAt
    (isPhi : store.isPhi phi = true)
    (position : Int)
    (incoming block : Option Ref) :
    store.Furnishes (outcome (setIncoming phi position incoming block) store).2 := by
  have checked : store.Furnishes (outcome (requireIncoming phi incoming) store).2 :=
    requireIncoming_respects phi incoming store
  refine Respects.bindAt checked fun _ left given => ?_
  rw [given] at checked
  have isPhi := checked.phis isPhi
  have set : left.Furnishes (outcome (setOperand phi position incoming) left).2 :=
    setOperand_steady phi position incoming left
  refine Respects.bindAt set fun _ between given => ?_
  rw [given] at set
  have isPhi := set.phis isPhi
  refine Respects.bindInstruction fun entry _ => ?_
  split
  · exact Lasting.refl between
  · exact modifyIncomingBlocks_furnishesAt isPhi _

theorem setIncomingCount_furnishesAt (isPhi : store.isPhi phi = true) (count : Int) :
    store.Furnishes (outcome (setIncomingCount phi count) store).2 := by
  unfold setIncomingCount
  split
  · exact Respects.bind (truncateOperands_furnishes phi 0) (fun _ => Respects.stuck) store
  · have set := setOperandCount_furnishesAt (takesOperands_of_isPhi isPhi) count.toNat
    refine Respects.bindAt set fun _ left given => ?_
    rw [given] at set
    exact modifyIncomingBlocks_furnishesAt (set.phis isPhi) _

theorem removeIncoming_furnishesAt (isPhi : store.isPhi phi = true) (position : Int) :
    store.Furnishes (outcome (removeIncoming phi position) store).2 := by
  have removed := removeOperand_furnishes phi position store
  refine Respects.bindAt removed fun _ left given => ?_
  rw [given] at removed
  refine Respects.bindInstruction fun entry _ => ?_
  split
  · exact Lasting.refl left
  · exact modifyIncomingBlocks_furnishesAt (removed.phis isPhi) _

end Phis

/-- What is demanded holds in what follows. -/
theorem demandThat_bindAt
    {α : Type}
    {related : Store → Store → Prop}
    [lasting : Lasting related]
    {holds : Store → Bool}
    {next : Edit α}
    (follows : holds store = true → related store (outcome next store).2) :
    related store (outcome (demandThat holds >>= fun _ => next) store).2 := by
  refine Respects.bindAt (demandThat_respects holds store) fun _ left given => ?_
  obtain ⟨held, rfl⟩ := gives_demandThat_iff.1 given
  exact follows held

end Edit

/-! ## What is regular and furnished -/

namespace Store

/-- What is regular and furnished stays so. -/
def Upholds (store left : Store) : Prop :=
  store.Regular → store.Furnished → store.Regulates left ∧ store.Furnishes left

instance : Edit.Steady Upholds where
  refl := fun store _ _ => ⟨Edit.Lasting.refl store, Edit.Lasting.refl store⟩
  trans := by
    intro store middle left first second regular furnished
    obtain ⟨regulates, furnishes⟩ := first regular furnished
    obtain ⟨regulates', furnishes'⟩ :=
      second (regulates regular).1 (furnishes.furnished furnished)
    exact ⟨Edit.Lasting.trans regulates regulates', Edit.Lasting.trans furnishes furnishes'⟩
  addModule := fun store name _ _ =>
    ⟨Edit.Steady.addModule store name, Edit.Steady.addModule store name⟩
  modifyModule := fun store module change kept _ _ =>
    ⟨Edit.Steady.modifyModule store module change kept,
      Edit.Steady.modifyModule store module change kept⟩
  modifyValue := fun store ref change kept _ _ =>
    ⟨Edit.Steady.modifyValue store ref change kept, Edit.Steady.modifyValue store ref change kept⟩
  modifyFunction := fun store ref change taken _ _ =>
    ⟨Edit.Steady.modifyFunction store ref change taken,
      Edit.Steady.modifyFunction store ref change taken⟩
  modifyBlock := fun store ref change _ _ =>
    ⟨Edit.Steady.modifyBlock store ref change, Edit.Steady.modifyBlock store ref change⟩
  record := fun store change _ _ =>
    ⟨Edit.Steady.record store change, Edit.Steady.record store change⟩
  modifyInstruction := fun store ref change kept _ _ =>
    ⟨Edit.Steady.modifyInstruction store ref change kept,
      Edit.Steady.modifyInstruction store ref change kept⟩
  allocate := fun store module type content simple _ _ =>
    ⟨Edit.Steady.allocate store module type content simple,
      Edit.Steady.allocate store module type content simple⟩
  intern := fun store module type _ _ =>
    ⟨Edit.Steady.intern store module type, Edit.Steady.intern store module type⟩

end Store

theorem Edit.Respects.upholds
    {α : Type}
    {edit : Edit α}
    (regulates : Respects Regulates edit)
    (furnishes : Respects Furnishes edit) :
    Respects Upholds edit :=
  fun store _ _ => ⟨regulates store, furnishes store⟩

theorem Change.perform_upholds (change : Change) : Respects Upholds change.perform := by
  cases change with
  | addModule name => exact fun store => Steady.addModule store name
  | requestType module name form => exact quietly_respects (typeBy_steady module _)
  | vectorType module element size => exact quietly_respects (vectorType_steady module element size)
  | arrayType module element count => exact quietly_respects (arrayType_steady module element count)
  | recordType module members => exact quietly_respects (recordType_steady module members)
  | constant module type data => exact quietly_respects (constant_steady module type data)
  | constantBool module truth => exact quietly_respects (constantBool_steady module truth)
  | constantInt32 module bits => exact quietly_respects (constantInt32_steady module bits)
  | constantUInt32 module bits => exact quietly_respects (constantUInt32_steady module bits)
  | constantFloat32 module bits => exact quietly_respects (constantFloat32_steady module bits)
  | constantZero module type => exact quietly_respects (constantZero_steady module type)
  | constantOne module type => exact quietly_respects (constantOne_steady module type)
  | undefined module type => exact quietly_respects (undefined_steady module type)
  | register module name => exact quietly_respects (register_steady module name)
  | createFunction module kind result =>
      exact quietly_respects (createFunction_steady module kind result)
  | removeFunction module function => exact removeFunction_steady module function
  | createArgument owner passing type =>
      exact quietly_respects (createArgument_steady owner passing type)
  | createResourceArgument owner type =>
      exact quietly_respects (createResourceArgument_steady owner type)
  | createBlock owner => exact quietly_respects (createBlock_steady owner)
  | createBody owner => exact quietly_respects (createBody_steady owner)
  | setBody owner block => exact setBody_steady owner block
  | setName ref name => exact setName_steady ref name
  | addComment ref comment => exact addComment_steady ref comment
  | remove ref => exact remove_steady ref
  | append block ref =>
      exact Respects.bind (demandBlock_respects block) fun _ => append_steady block ref
  | prepend block ref =>
      exact Respects.bind (demandBlock_respects block) fun _ => prepend_steady block ref
  | insertBefore ref position => exact insertBefore_steady ref position
  | insertBehind ref position => exact insertBehind_steady ref position
  | setUse use operand => exact setUse_steady use operand
  | setOperand user position operand => exact setOperand_steady user position operand
  | setCondition ref condition => exact setCondition_steady ref condition
  | setSelector ref selector => exact setSelector_steady ref selector
  | setStored ref stored => exact setStored_steady ref stored
  | setBaseAndIndices ref base indices =>
      refine fun store => demandThat_bindAt fun isGep _ _ =>
        ⟨setBaseAndIndices_regulates ref base indices store,
          setBaseAndIndices_furnishesAt ?_ base indices⟩
      obtain ⟨entry, found, opcode⟩ := Option.map_eq_some_iff.1 (beq_iff_eq.1 isGep)
      exact ⟨entry, found, fun space same => by cases opcode.symm.trans same⟩
  | setBlockAt ref place block =>
      exact (setBlockAt_regulates ref place block).upholds (setBlockAt_furnishes ref place block)
  | createBlockAt ref place =>
      exact quietly_respects
        ((createBlockAt_regulates ref place).upholds (createBlockAt_furnishes ref place))
  | addCase ref value block =>
      exact (addCase_regulates ref value block).upholds (addCase_furnishes ref value block)
  | createCase ref value =>
      exact quietly_respects
        ((createCase_regulates ref value).upholds (createCase_furnishes ref value))
  | addIncoming phi incoming block =>
      exact fun store => demandThat_bindAt fun isPhi _ _ =>
        ⟨addIncoming_regulates phi incoming block store,
          addIncoming_furnishesAt isPhi incoming block⟩
  | setIncoming phi position incoming block =>
      exact fun store => demandThat_bindAt fun isPhi _ _ =>
        ⟨setIncoming_regulates phi position incoming block store,
          setIncoming_furnishesAt isPhi position incoming block⟩
  | setIncomingCount phi count =>
      exact fun store => demandThat_bindAt fun isPhi _ _ =>
        ⟨setIncomingCount_regulates phi count store, setIncomingCount_furnishesAt isPhi count⟩
  | removeIncoming phi position =>
      exact fun store => demandThat_bindAt fun isPhi _ _ =>
        ⟨removeIncoming_regulates phi position store, removeIncoming_furnishesAt isPhi position⟩
  | replaceUses old new => exact replaceUsesWith_steady old new

theorem Change.performAll_upholds (changes : List Change) :
    Respects Upholds (performAll changes) := by
  induction changes with
  | nil => exact Respects.pure ()
  | cons change rest induction => exact Respects.bind change.perform_upholds fun _ => induction

end ShaderIR

import ShaderIR.Proofs.Coherence.Building
import ShaderIR.Proofs.Revision.Rewriting

/-!
# What a built instruction leaves

Building an instruction at a cursor adds one instruction with the operands asked
for and lists it in the block of the cursor, right after the instruction that the
cursor stands behind.  Nothing else changes that a program can tell.
-/

namespace ShaderIR

namespace Store

variable {store left : Store}

/-! ## Whole operand lists -/

theorem rewrites_addOperand
    {user : Ref}
    {operand : Option Ref}
    {answer : Unit}
    (gives : Edit.Gives (Edit.addOperand user operand) store answer left) :
    ∃ key, store.Rewrites
      (fun other entry =>
        if user = other then { entry with operands := entry.operands ++ [⟨key, operand⟩] }
        else entry) left := by
  obtain ⟨_, between, given, rest⟩ := Edit.gives_bind_iff.1 gives
  obtain ⟨-, equal⟩ := Edit.gives_requireSamePool_iff.1 given
  rw [equal] at rest
  obtain ⟨entry, found, rest⟩ := Edit.gives_instruction_bind_iff.1 rest
  have added := Edit.gives_modify_iff.1 rest
  refine ⟨store.nextSlot, ?_⟩
  have counted : store.Revises (fun _ content => content)
      (store.makeSlot ⟨user, operand⟩) :=
    { Revises.refl store with }
  have changed := counted.trans (revises_modifyInstruction _ user fun entry =>
    { entry with operands := entry.operands ++ [⟨store.nextSlot, operand⟩] })
  have revises : store.Revises
      (fun other content => if user = other then content.mapInstruction fun entry =>
        { entry with operands := entry.operands ++ [⟨store.nextSlot, operand⟩] } else content)
      left := by
    dsimp only at added
    split at added
    · rw [added]
      exact changed.trans (revises_link _ operand ⟨user, store.nextSlot⟩)
    · rw [added]
      exact changed
  refine revises.congr ?_
  intro other content _
  by_cases same : user = other <;> cases content <;> simp [Content.mapInstruction, same]

theorem rewrites_addOperands
    {user : Ref}
    {operands : List (Option Ref)}
    {answer : Unit}
    (gives : Edit.Gives (Edit.addOperands user operands) store answer left) :
    ∃ slots : List Slot, slots.map (·.value) = operands ∧
      store.Rewrites
        (fun other entry =>
          if user = other then { entry with operands := entry.operands ++ slots } else entry)
        left := by
  induction operands generalizing store with
  | nil =>
      obtain ⟨-, rfl⟩ := Edit.gives_pure_iff.1 gives
      refine ⟨[], rfl, (Revises.refl left).congr ?_⟩
      intro other content _
      cases content <;> simp [Content.mapInstruction]
  | cons operand rest induction =>
      obtain ⟨_, between, first, others⟩ := Edit.gives_bind_iff.1 gives
      obtain ⟨key, rewrites⟩ := rewrites_addOperand first
      obtain ⟨slots, values, rewrites'⟩ := induction others
      refine ⟨⟨key, operand⟩ :: slots, by simp [values],
        (Revises.trans rewrites rewrites').congr ?_⟩
      intro other content _
      by_cases same : user = other <;> cases content <;> simp [Content.mapInstruction, same]

theorem rewrites_truncateOperands
    {user : Ref}
    {count : Nat}
    {answer : Unit}
    (gives : Edit.Gives (Edit.truncateOperands user count) store answer left) :
    (store.instruction? user).isSome ∧
      store.Rewrites
        (fun other entry =>
          if user = other then { entry with operands := entry.operands.take count } else entry)
        left := by
  obtain ⟨entry, found, truncated⟩ := Edit.gives_instruction_bind_iff.1 gives
  obtain ⟨_, _, given, truncated⟩ := Edit.gives_bind_iff.1 truncated
  obtain rfl := Edit.gives_modify_iff.1 given
  obtain rfl := Edit.gives_modify_iff.1 truncated
  refine ⟨Option.isSome_of_eq_some found,
    ((revises_unlinkAll store user (entry.operands.drop count).reverse).trans
      (revises_modifyInstruction _ user fun entry =>
        { entry with operands := entry.operands.take count })).congr ?_⟩
  intro other content _
  by_cases same : user = other <;> cases content <;> simp [Content.mapInstruction, same]

theorem rewrites_setOperands
    {user : Ref}
    {operands : List (Option Ref)}
    {answer : Unit}
    (gives : Edit.Gives (Edit.setOperands user operands) store answer left) :
    (store.instruction? user).isSome ∧ ∃ slots : List Slot, slots.map (·.value) = operands ∧
      store.Rewrites
        (fun other entry => if user = other then { entry with operands := slots } else entry)
        left := by
  obtain ⟨_, between, truncated, added⟩ := Edit.gives_bind_iff.1 gives
  obtain ⟨present, cut⟩ := rewrites_truncateOperands truncated
  obtain ⟨slots, values, rewrites⟩ := rewrites_addOperands added
  refine ⟨present, slots, values, (Revises.trans cut rewrites).congr ?_⟩
  intro other content _
  by_cases same : user = other <;> cases content <;> simp [Content.mapInstruction, same]

/-! ## Linking -/

theorem revises_linkAll (store : Store) (user : Ref) (slots : List Slot) :
    store.Revises (fun _ content => content) (store.linkAll user slots) := by
  induction slots generalizing store with
  | nil => exact .refl store
  | cons slot rest induction =>
      exact (revises_link store slot.value ⟨user, slot.key⟩).trans
        (induction (store.link slot.value ⟨user, slot.key⟩))

/-- The instructions of a block with one put right after another one, or in front. -/
def received (after : Option Ref) (new : Ref) (members : List Ref) : List Ref :=
  match after with
  | none => new :: members
  | some position => insertAfter position new members

/-- An instruction is linked when it is detached and what it is to follow is in the block. -/
theorem gives_insertInto
    {block ref : Ref}
    {after : Option Ref}
    {answer : Unit}
    (gives : Edit.Gives (Edit.insertInto block ref after) store answer left) :
    ∃ entry, store.instruction? ref = some entry ∧ store.moduleOf? ref = store.moduleOf? block ∧
      (∀ position, after = some position → store.blockOf? position = some block) ∧
      left = (((store.modifyBlock block (received after ref)).relink
        (·.insertAfter block ref after)).modifyInstruction ref fun entry =>
          { entry with block := some block }).linkAll ref entry.operands := by
  obtain ⟨_, _, given, rest⟩ := Edit.gives_bind_iff.1 (Edit.gives_see_bind_iff.1 gives)
  obtain ⟨pool, unchanged⟩ := Edit.gives_require_iff.1 given
  rw [unchanged] at rest
  obtain ⟨entry, found, rest⟩ := Edit.gives_instruction_bind_iff.1 rest
  obtain ⟨_, _, given, rest⟩ := Edit.gives_bind_iff.1 rest
  obtain ⟨-, unchanged⟩ := Edit.gives_require_iff.1 given
  rw [unchanged] at rest
  have listed : (∀ position, after = some position → store.blockOf? position = some block) ∧
      Edit.Gives (do
        modify fun store => store.modifyBlock block (received after ref)
        modify fun store => store.relink (·.insertAfter block ref after)
        modify fun store => store.modifyInstruction ref fun entry =>
          { entry with block := some block }
        modify fun store => store.linkAll ref entry.operands) store answer left := by
    cases after with
    | none => exact ⟨nofun, rest⟩
    | some position =>
        obtain ⟨_, _, given, rest⟩ := Edit.gives_bind_iff.1 (Edit.gives_see_bind_iff.1 rest)
        obtain ⟨placed, unchanged⟩ := Edit.gives_require_iff.1 given
        rw [unchanged] at rest
        exact ⟨fun _ equal => Option.some.inj equal ▸ beq_iff_eq.1 placed, rest⟩
  obtain ⟨_, _, given, rest⟩ := Edit.gives_bind_iff.1 listed.2
  obtain rfl := Edit.gives_modify_iff.1 given
  obtain ⟨_, _, given, rest⟩ := Edit.gives_bind_iff.1 rest
  obtain rfl := Edit.gives_modify_iff.1 given
  obtain ⟨_, _, given, rest⟩ := Edit.gives_bind_iff.1 rest
  obtain rfl := Edit.gives_modify_iff.1 given
  exact ⟨entry, found, beq_iff_eq.1 pool, listed.1, Edit.gives_modify_iff.1 rest⟩

/-- Linking an instruction puts it into the list of the block and notes the block. -/
theorem revises_insertInto
    {block ref : Ref}
    {after : Option Ref}
    {answer : Unit}
    (gives : Edit.Gives (Edit.insertInto block ref after) store answer left) :
    store.Revises
      (fun other content =>
        (if block = other then content.mapBlock (received after ref) else content).mapInstruction
          fun entry => if ref = other then { entry with block := some block } else entry)
      left := by
  obtain ⟨entry, -, -, -, linked⟩ := gives_insertInto gives
  rw [linked]
  refine ((((revises_modifyBlock store block (received after ref)).record _).trans
    (revises_modifyInstruction _ ref fun entry => { entry with block := some block })).trans
      (revises_linkAll _ ref entry.operands)).congr ?_
  intro other content _
  by_cases inBlock : block = other <;> by_cases same : ref = other <;> cases content <;>
    simp [Content.mapBlock, Content.mapInstruction, inBlock, same]

/-- A block has received a new instruction. -/
structure Receives (store : Store) (block : Ref) (after : Option Ref) (new : Ref)
    (entry : Instruction) (left : Store) : Prop where
  coherent : left.Coherent
  ages : store.Ages left
  fresh : store.value? new = none
  linked : entry.block = some block
  content? : ∀ ref, left.content? ref =
    if ref = new then some (.instruction entry)
    else if block = ref then (store.content? ref).map (.mapBlock (received after new))
    else store.content? ref
  undefineds : ∀ module : Nat, (left.modules[module]?).map Module.undefineds =
    (store.modules[module]?).map Module.undefineds

namespace Receives

variable {block new ref : Ref} {after : Option Ref} {entry : Instruction}

theorem instruction?_new (receives : store.Receives block after new entry left) :
    left.instruction? new = some entry := by
  rw [instruction?_eq_some_iff, receives.content?, if_pos rfl]

theorem instruction?_old
    (receives : store.Receives block after new entry left)
    (different : ref ≠ new) :
    left.instruction? ref = store.instruction? ref := by
  unfold instruction?
  rw [receives.content?, if_neg different]
  by_cases same : block = ref
  · rw [if_pos same]
    cases store.content? ref with
    | none => rfl
    | some content => cases content <;> rfl
  · rw [if_neg same]

theorem ne_new
    (receives : store.Receives block after new entry left)
    (present : (store.value? ref).isSome) :
    ref ≠ new := by
  rintro rfl
  rw [receives.fresh] at present
  cases present

theorem instructions
    (receives : store.Receives block after new entry left)
    (isBlock : store.isBlock block = true)
    (other : Ref) :
    left.instructions other =
      if block = other then received after new (store.instructions other)
      else store.instructions other := by
  have notNew : other = new → store.content? other = none := by
    rintro rfl
    simp [Store.content?, receives.fresh]
  unfold Store.instructions
  rw [receives.content?]
  by_cases same : block = other
  · subst same
    obtain ⟨owner, members, found⟩ := isBlock_iff.1 isBlock
    have different : block ≠ new := by
      rintro rfl
      simp [notNew rfl] at found
    simp [different, found, Content.mapBlock]
  · by_cases atNew : other = new
    · rw [if_pos atNew, if_neg same, notNew atNew]
    · simp [atNew, same]

end Receives

end Store

namespace Build

open Store Edit

variable {store left : Store} {new : Ref} {opcode : Opcode} {type : Option Ty}
  {operands : List (Option Ref)} {cursor moved : Cursor}

theorem yields_cursorBlock
    {found : Ref}
    (yields : Yields cursorBlock cursor store found moved left) :
    cursor.block = some found ∧ moved = cursor ∧ left = store := by
  obtain ⟨_, _, _, got, rest⟩ := yields_bind_iff.1 yields
  obtain ⟨equal, same, unchanged⟩ := yields_get_iff.1 got
  rw [equal, same, unchanged] at rest
  cases located : cursor.block with
  | none =>
      rw [located] at rest
      exact absurd (yields_lift_iff.1 rest).1 not_gives_violate
  | some block =>
      rw [located] at rest
      obtain ⟨rfl, same, unchanged⟩ := yields_pure_iff.1 rest
      exact ⟨rfl, same, unchanged⟩

/-- Reserving an instruction adds a detached one without operands. -/
theorem yields_reserve
    (yields : Yields (reserve opcode type) cursor store new moved left) :
    moved = cursor ∧
      ∃ module, (new, left) = store.allocate module type (.instruction { opcode }) := by
  obtain ⟨module, _, _, located, rest⟩ := yields_bind_iff.1 yields
  obtain ⟨block, _, _, atBlock, located⟩ := yields_bind_iff.1 located
  obtain ⟨-, same, unchanged⟩ := yields_cursorBlock atBlock
  rw [same, unchanged] at located
  obtain ⟨_, _, _, seen, located⟩ := yields_bind_iff.1 located
  obtain ⟨seen, same⟩ := yields_lift_iff.1 seen
  obtain ⟨-, unchanged⟩ := gives_see_iff.1 seen
  rw [same, unchanged] at located
  obtain ⟨located, same⟩ := yields_lift_iff.1 located
  obtain ⟨-, unchanged⟩ := gives_demand_iff.1 located
  rw [same, unchanged] at rest
  obtain ⟨allocated, same⟩ := yields_lift_iff.1 rest
  refine ⟨same, module, ?_⟩
  rw [Edit.Gives, outcome_allocate] at allocated
  simp only [Prod.mk.injEq, Except.ok.injEq] at allocated
  exact Prod.ext allocated.1.symm allocated.2.symm

theorem yields_place
    {ref : Ref}
    {answer : Unit}
    (yields : Yields (place ref) cursor store answer moved left) :
    ∃ block, cursor.block = some block ∧ moved = { cursor with after := some ref } ∧
      Gives (insertInto block ref cursor.after) store () left := by
  obtain ⟨block, _, _, located, rest⟩ := yields_bind_iff.1 yields
  obtain ⟨atBlock, same, unchanged⟩ := yields_cursorBlock located
  rw [same, unchanged] at rest
  obtain ⟨_, _, _, got, rest⟩ := yields_bind_iff.1 rest
  obtain ⟨atCursor, same, unchanged⟩ := yields_get_iff.1 got
  rw [atCursor, same, unchanged] at rest
  obtain ⟨_, _, _, inserted, rest⟩ := yields_bind_iff.1 rest
  obtain ⟨inserted, same⟩ := yields_lift_iff.1 inserted
  obtain ⟨moves, unchanged⟩ := yields_modify_iff.1 rest
  rw [← unchanged] at inserted
  exact ⟨block, atBlock, by rw [moves, same], inserted⟩

theorem content?_allocated
    {module : Nat}
    {content : Content}
    {reserved : Store}
    (allocated : (new, reserved) = store.allocate module type content)
    (ref : Ref) :
    reserved.content? ref = if ref = new then some content else store.content? ref := by
  rw [show reserved = (store.allocate module type content).2 from congrArg Prod.snd allocated,
    show new = (store.allocate module type content).1 from congrArg Prod.fst allocated,
    Store.content?, value?_allocate]
  split <;> rfl

theorem value?_of_allocated
    {module : Nat}
    {content : Content}
    {reserved : Store}
    (allocated : (new, reserved) = store.allocate module type content) :
    store.value? new = none := by
  rw [show new = (store.allocate module type content).1 from congrArg Prod.fst allocated]
  exact value?_allocate_fst store module type content

section Parts

variable {module : Nat} {slots : List Slot} {block : Ref} {after : Option Ref}
  {reserved pointed : Store}

theorem content?_of_parts
    (allocated : (new, reserved) = store.allocate module type (.instruction { opcode }))
    (rewrites : reserved.Rewrites
      (fun other entry => if new = other then { entry with operands := slots } else entry) pointed)
    (inserted : Gives (insertInto block new after) pointed () left)
    (ref : Ref) :
    left.content? ref =
      if ref = new then some (.instruction { opcode, operands := slots, block := some block })
      else if block = ref then (store.content? ref).map (.mapBlock (received after new))
      else store.content? ref := by
  rw [(revises_insertInto inserted).content?, Revises.content? rewrites,
    content?_allocated allocated]
  by_cases atNew : ref = new
  · subst atNew
    by_cases inBlock : block = ref <;> simp [Content.mapBlock, Content.mapInstruction, inBlock]
  · have different : ¬new = ref := fun equal => atNew equal.symm
    rw [if_neg atNew, if_neg atNew]
    cases store.content? ref with
    | none => simp
    | some content =>
        by_cases inBlock : block = ref <;> cases content <;>
          simp [Content.mapBlock, Content.mapInstruction, inBlock, different]

theorem ages_of_parts
    (allocated : (new, reserved) = store.allocate module type (.instruction { opcode }))
    (rewrites : reserved.Rewrites
      (fun other entry => if new = other then { entry with operands := slots } else entry) pointed)
    (inserted : Gives (insertInto block new after) pointed () left) :
    store.Ages left := by
  have added : store.Ages reserved := by
    rw [show reserved = (store.allocate module type (.instruction { opcode })).2 from
      congrArg Prod.snd allocated]
    exact ages_allocate store module type (.inr ⟨_, rfl⟩)
  refine Lasting.trans (Lasting.trans added rewrites.ages)
    ((revises_insertInto inserted).ages fun ref content => ?_)
  by_cases inBlock : block = ref <;> cases content <;>
    simp [inBlock, Content.mapBlock, Content.mapInstruction, Content.Becomes]

/-- A reserved instruction that got operands and was linked is one that a block has received. -/
theorem receives_of_parts
    (allocated : (new, reserved) = store.allocate module type (.instruction { opcode }))
    (rewrites : reserved.Rewrites
      (fun other entry => if new = other then { entry with operands := slots } else entry) pointed)
    (inserted : Gives (insertInto block new after) pointed () left)
    (coherent : left.Coherent) :
    store.Receives block after new { opcode, operands := slots, block := some block } left where
  coherent := coherent
  ages := ages_of_parts allocated rewrites inserted
  fresh := value?_of_allocated allocated
  linked := rfl
  content? := content?_of_parts allocated rewrites inserted
  undefineds := by
    intro other
    rw [(revises_insertInto inserted).modules, Revises.modules rewrites,
      show reserved = (store.allocate module type (.instruction { opcode })).2 from
        congrArg Prod.snd allocated, modules_allocate, Array.getElem?_modify]
    split
    · rw [Option.map_map]
      rfl
    · rfl

end Parts

/-- Building an instruction is reserving it, giving it its operands and linking it. -/
theorem yields_emit (yields : Yields (emit opcode type operands) cursor store new moved left) :
    ∃ module reserved slots pointed block, cursor.block = some block ∧
      moved = { cursor with after := some new } ∧ slots.map (·.value) = operands ∧
      (new, reserved) = store.allocate module type (.instruction { opcode }) ∧
      reserved.Rewrites
        (fun other entry => if new = other then { entry with operands := slots } else entry)
        pointed ∧
      Gives (insertInto block new cursor.after) pointed () left := by
  obtain ⟨_, _, _, reserved, rest⟩ := yields_bind_iff.1 yields
  obtain ⟨same, module, allocated⟩ := yields_reserve reserved
  rw [same] at rest
  obtain ⟨_, _, _, pointed, rest⟩ := yields_bind_iff.1 rest
  obtain ⟨pointed, same⟩ := yields_lift_iff.1 pointed
  rw [same] at rest
  obtain ⟨-, slots, values, rewrites⟩ := rewrites_setOperands pointed
  obtain ⟨_, _, _, placed, rest⟩ := yields_bind_iff.1 rest
  obtain ⟨rfl, rfl, rfl⟩ := yields_pure_iff.1 rest
  obtain ⟨block, atBlock, moves, inserted⟩ := yields_place placed
  exact ⟨module, _, slots, _, block, atBlock, moves, values, allocated, rewrites, inserted⟩

/-- Building an instruction adds it and forgets nothing. -/
theorem ages_emit (yields : Yields (emit opcode type operands) cursor store new moved left) :
    store.Ages left ∧
      ∃ entry, left.instruction? new = some entry ∧ entry.opcode = opcode ∧
        entry.values = operands := by
  obtain ⟨module, reserved, slots, pointed, block, -, -, values, allocated, rewrites, inserted⟩ :=
    yields_emit yields
  have content := content?_of_parts allocated rewrites inserted new
  rw [if_pos rfl] at content
  exact ⟨ages_of_parts allocated rewrites inserted, _, instruction?_eq_some_iff.2 content, rfl,
    values⟩

/-- Building an instruction adds it to the block of the cursor and moves past it. -/
theorem receives_emit
    (coherent : store.Coherent)
    (stands : cursor.Stands store)
    (casesDistinct : opcode.caseValues.Nodup)
    (yields : Yields (emit opcode type operands) cursor store new moved left) :
    ∃ block entry, cursor.block = some block ∧ moved = { cursor with after := some new } ∧
      entry.opcode = opcode ∧ entry.values = operands ∧
      store.Receives block cursor.after new entry left := by
  have coherent' : left.Coherent := by
    have leaves := emit_sound type operands casesDistinct cursor store coherent stands
    have final := leaves.coherent
    rwa [show outcome (emit opcode type operands) cursor store = (.ok (new, moved), left) from
      yields] at final
  obtain ⟨module, reserved, slots, pointed, block, atBlock, moves, values, allocated, rewrites,
    inserted⟩ := yields_emit yields
  exact ⟨block, { opcode, operands := slots, block := some block }, atBlock, moves, rfl, values,
    receives_of_parts allocated rewrites inserted coherent'⟩

/-- Building a phi without incomings adds it to the block of the cursor. -/
theorem receives_phi
    (coherent : store.Coherent)
    (stands : cursor.Stands store)
    (yields : Yields (phi type []) cursor store new moved left) :
    ∃ block entry, cursor.block = some block ∧ entry.opcode = .phi [] ∧ entry.values = [] ∧
      store.Receives block cursor.after new entry left := by
  have coherent' : left.Coherent := by
    have leaves := phi_sound type [] cursor store coherent stands
    have final := leaves.coherent
    rwa [show outcome (phi type []) cursor store = (.ok (new, moved), left) from yields] at final
  obtain ⟨_, _, _, required, rest⟩ := yields_bind_iff.1 yields
  obtain ⟨required, same⟩ := yields_lift_iff.1 required
  obtain ⟨-, unchanged⟩ := gives_require_iff.1 required
  rw [same, unchanged] at rest
  obtain ⟨_, _, _, reserved, rest⟩ := yields_bind_iff.1 rest
  obtain ⟨same, module, allocated⟩ := yields_reserve reserved
  rw [same] at rest
  obtain ⟨_, _, _, none, rest⟩ := yields_bind_iff.1 rest
  obtain ⟨-, same, unchanged⟩ := yields_pure_iff.1 none
  rw [same, unchanged] at rest
  obtain ⟨_, _, _, placed, rest⟩ := yields_bind_iff.1 rest
  obtain ⟨rfl, rfl, rfl⟩ := yields_pure_iff.1 rest
  obtain ⟨block, atBlock, -, inserted⟩ := yields_place placed
  refine ⟨block, { opcode := .phi [], operands := [], block := some block }, atBlock, rfl, rfl,
    receives_of_parts allocated ((Revises.refl _).congr ?_) inserted coherent'⟩
  -- The operands that the phi is given are those it has.
  intro other content content?
  by_cases atNew : new = other
  · rw [content?_allocated allocated, if_pos atNew.symm] at content?
    cases content?
    simp [Content.mapInstruction]
  · cases content <;> simp [Content.mapInstruction, atNew]

/-! ## Accesses are checked before they are built -/

theorem gives_requireElementType
    {want aggregate : Option Ty}
    {indices : List (Option Ref)}
    {answer : Unit}
    (gives : Gives (requireElementType want aggregate indices) store answer left) :
    store.elementType aggregate indices = want ∧ left = store := by
  unfold requireElementType at gives
  replace gives := gives_see_bind_iff.1 gives
  obtain ⟨got, reached, gives⟩ := gives_demand_bind_iff.1 gives
  obtain ⟨same, unchanged⟩ := gives_require_iff.1 gives
  refine ⟨?_, unchanged⟩
  rw [elementType, reached]
  exact beq_iff_eq.1 same

theorem gives_typeOfPresent
    {operand : Option Ref}
    (gives : Gives (typeOfPresent operand) store type left) :
    type = store.typeOfOption operand ∧ left = store := by
  obtain ⟨ref, rfl, gives⟩ := gives_demand_bind_iff.1 gives
  exact gives_see_iff.1 gives

theorem yields_gep
    {base : Option Ref}
    {indices : List (Option Ref)}
    (yields : Yields (gep type base indices) cursor store new moved left) :
    store.elementType (store.typeOfOption base) indices = type ∧
      Yields (emit .gep type (base :: indices)) cursor store new moved left := by
  simp only [gep, yields_see_bind_iff, yields_require_bind_iff] at yields
  obtain ⟨_, _, required, rest⟩ := yields_lift_bind_iff.1 yields.2
  obtain ⟨same, unchanged⟩ := gives_requireElementType required
  exact ⟨same, unchanged ▸ rest⟩

/-- What an arithmetic operation that gets to an element is checked for. -/
def ElementChecked
    (store : Store)
    (type : Option Ty)
    (op : ArithmeticOp)
    (operands : List (Option Ref)) : Prop :=
  match op, operands with
  | .extract, aggregate :: indices =>
    store.elementType (store.typeOfOption aggregate) indices = type
  | .insert, aggregate :: element :: indices =>
    store.typeOfOption aggregate = type ∧
      store.elementType type indices = store.typeOfOption element
  | _, _ => True

theorem yields_checkArithmetic
    {op : ArithmeticOp}
    {answer : Unit}
    (yields : Yields (checkArithmetic type op operands) cursor store answer moved left) :
    ElementChecked store type op operands ∧ moved = cursor ∧ left = store := by
  unfold checkArithmetic at yields
  split at yields
  · exact absurd (yields_lift_iff.1 yields).1 not_gives_violate
  · obtain ⟨aggregate, _, present, rest⟩ := yields_lift_bind_iff.1 yields
    obtain ⟨rfl, rfl⟩ := gives_typeOfPresent present
    obtain ⟨required, same⟩ := yields_lift_iff.1 rest
    obtain ⟨checked, unchanged⟩ := gives_requireElementType required
    exact ⟨checked, same, unchanged⟩
  · obtain ⟨aggregate, _, present, rest⟩ := yields_lift_bind_iff.1 yields
    obtain ⟨rfl, rfl⟩ := gives_typeOfPresent present
    obtain ⟨typed, rest⟩ := yields_require_bind_iff.1 rest
    obtain ⟨element, _, present', rest⟩ := yields_lift_bind_iff.1 rest
    obtain ⟨rfl, rfl⟩ := gives_typeOfPresent present'
    obtain ⟨required, same⟩ := yields_lift_iff.1 rest
    obtain ⟨checked, unchanged⟩ := gives_requireElementType required
    exact ⟨⟨beq_iff_eq.1 typed, checked⟩, same, unchanged⟩
  · exact absurd (yields_lift_iff.1 yields).1 not_gives_violate
  · obtain ⟨condition, _, present, rest⟩ := yields_lift_bind_iff.1 yields
    obtain ⟨-, unchanged⟩ := gives_typeOfPresent present
    obtain ⟨required, same⟩ := yields_lift_iff.1 rest
    exact ⟨trivial, same, (gives_require_iff.1 required).2.trans unchanged⟩
  · exact absurd (yields_lift_iff.1 yields).1 not_gives_violate
  · rename_i extract insert _ _ _
    obtain ⟨-, same, unchanged⟩ := yields_pure_iff.1 yields
    refine ⟨?_, same, unchanged⟩
    unfold ElementChecked
    split <;> simp_all

/-- An arithmetic operation is built once it is checked. -/
theorem yields_arithmetic
    {op : ArithmeticOp}
    (yields : Yields (arithmetic type op operands) cursor store new moved left) :
    ElementChecked store type op operands ∧
      Yields (emit (.arithmetic op) type operands) cursor store new moved left := by
  obtain ⟨_, _, _, checked, rest⟩ := yields_bind_iff.1 yields
  obtain ⟨elements, same, unchanged⟩ := yields_checkArithmetic checked
  rw [same, unchanged] at rest
  exact ⟨elements, rest⟩

theorem yields_insert
    {aggregate element : Option Ref}
    {indices : List (Option Ref)}
    (yields : Yields (insert aggregate element indices) cursor store new moved left) :
    Yields (arithmetic (store.typeOfOption aggregate) .insert (aggregate :: element :: indices))
      cursor store new moved left := by
  obtain ⟨_, _, present, rest⟩ := yields_lift_bind_iff.1 yields
  obtain ⟨rfl, rfl⟩ := gives_typeOfPresent present
  exact rest

end Build

end ShaderIR

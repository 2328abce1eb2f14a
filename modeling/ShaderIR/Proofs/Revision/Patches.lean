import ShaderIR.Proofs.Revision.Emitting

/-!
# Changes with nothing left out

A revision tells what a program can tell of a store.  Here a change is told in full:
every value with its name, its number and its use-list, in order.  Each step by which
an instruction gets into a block has such a description.
-/

namespace ShaderIR

namespace Store

/-- A store whose values are changed in place, every part of them accounted for. -/
structure Patches (store : Store) (change : Ref → Value → Value) (left : Store) : Prop where
  value? : ∀ ref, left.value? ref = (store.value? ref).map (change ref)
  modules : left.modules = store.modules

namespace Patches

variable {store left last : Store} {change change' : Ref → Value → Value}

theorem refl (store : Store) : store.Patches (fun _ value => value) store where
  value? := fun ref => by rw [Option.map_id']
  modules := rfl

theorem trans (patches : store.Patches change left) (patches' : left.Patches change' last) :
    store.Patches (fun ref value => change' ref (change ref value)) last where
  value? := by
    intro ref
    rw [patches'.value?, patches.value?, Option.map_map]
    rfl
  modules := patches'.modules.trans patches.modules

/-- The same changes, described by a function that agrees on the values there are. -/
theorem congr
    (patches : store.Patches change left)
    (agrees : ∀ ref value, store.value? ref = some value → change' ref value = change ref value) :
    store.Patches change' left where
  value? := by
    intro ref
    rw [patches.value?]
    exact Option.map_congr fun value found => (agrees ref value found).symm
  modules := patches.modules

theorem record (patches : store.Patches change left) (records : Records → Records) :
    store.Patches change (left.record records) where
  value? := patches.value?
  modules := patches.modules

end Patches

section Updates

variable (store : Store) (ref : Ref)

theorem patches_modifyValue (change : Value → Value) :
    store.Patches (fun other value => if ref = other then change value else value)
      (store.modifyValue ref change) where
  value? := by
    intro other
    rw [value?_modifyValue]
    split <;> simp
  modules := rfl

theorem patches_modifyInstruction (change : Instruction → Instruction) :
    store.Patches
      (fun other value =>
        if ref = other then { value with content := value.content.mapInstruction change }
        else value)
      (store.modifyInstruction ref change) := by
  refine (patches_modifyValue store ref _).congr fun other value _ => ?_
  cases equal : value.content <;> simp [Content.mapInstruction, ← equal]

theorem patches_modifyBlock (change : List Ref → List Ref) :
    store.Patches
      (fun other value =>
        if ref = other then { value with content := value.content.mapBlock change } else value)
      (store.modifyBlock ref change) := by
  refine (patches_modifyValue store ref _).congr fun other value _ => ?_
  cases equal : value.content <;> simp [Content.mapBlock, ← equal]

/-- Linking slots puts their uses at the ends of the use-lists. -/
theorem patches_linkAll (user : Ref) (slots : List Slot) :
    store.Patches
      (fun other value => { value with uses := value.uses ++ usesAmong user other slots })
      (store.linkAll user slots) := by
  induction slots generalizing store with
  | nil =>
      refine (Patches.refl store).congr fun other value _ => ?_
      simp [usesAmong]
  | cons slot rest induction =>
      have first : store.Patches
          (fun other value =>
            { value with uses := value.uses ++ usesAmong user other [slot] })
          (store.link slot.value ⟨user, slot.key⟩) := by
        cases held : slot.value with
        | none =>
            refine (Patches.refl store).congr fun other value _ => ?_
            simp [usesAmong, held]
        | some target =>
            rw [link_some]
            refine ((patches_modifyValue store target _).record _).congr fun other value _ => ?_
            by_cases same : target = other <;> simp [usesAmong, held, same]
      refine (first.trans (induction _)).congr fun other value _ => ?_
      rw [List.append_assoc, usesAmong, usesAmong, usesAmong, ← List.map_append,
        ← List.filter_append, List.singleton_append]

end Updates

section Furnishing

variable {store left : Store} {user : Ref} {answer : Unit}

/-- A detached instruction gets operands without being recorded as their user. -/
theorem patches_addOperands
    {entry : Instruction}
    {operands : List (Option Ref)}
    (found : store.instruction? user = some entry)
    (detached : entry.block = none)
    (gives : Edit.Gives (Edit.addOperands user operands) store answer left) :
    ∃ slots : List Slot, slots.map (·.value) = operands ∧
      store.Patches
        (fun other value =>
          if user = other then
            { value with
              content := value.content.mapInstruction fun entry =>
                { entry with operands := entry.operands ++ slots } }
          else value)
        left := by
  induction operands generalizing store entry with
  | nil =>
      obtain ⟨-, rfl⟩ := Edit.gives_pure_iff.1 gives
      refine ⟨[], rfl, (Patches.refl left).congr fun other value _ => ?_⟩
      cases equal : value.content <;> simp [Content.mapInstruction, ← equal]
  | cons operand rest induction =>
      obtain ⟨_, between, first, others⟩ := Edit.gives_bind_iff.1 gives
      obtain ⟨_, _, pool, added⟩ := Edit.gives_bind_iff.1 first
      obtain ⟨-, unchanged⟩ := Edit.gives_requireSamePool_iff.1 pool
      rw [unchanged] at added
      obtain ⟨entry', found', added⟩ := Edit.gives_instruction_bind_iff.1 added
      cases found.symm.trans found'
      replace added := Edit.gives_modify_iff.1 added
      simp only [detached, Option.isSome_none, Bool.false_eq_true, if_false] at added
      have counted : store.Patches (fun _ value => value) (store.makeSlot ⟨user, operand⟩) :=
        { Patches.refl store with }
      have appended := counted.trans (patches_modifyInstruction _ user fun entry =>
        { entry with operands := entry.operands ++ [⟨store.nextSlot, operand⟩] })
      rw [← added] at appended
      have found'' : between.instruction? user =
          some { entry with operands := entry.operands ++ [⟨store.nextSlot, operand⟩] } := by
        rw [added, instruction?_modifyInstruction, if_pos rfl]
        exact congrArg (Option.map _) found
      obtain ⟨slots, values, patches⟩ := induction found'' detached others
      refine ⟨⟨store.nextSlot, operand⟩ :: slots, congrArg (operand :: ·) values,
        (appended.trans patches).congr fun other value _ => ?_⟩
      by_cases same : user = other <;> cases equal : value.content <;>
        simp [Content.mapInstruction, same]

/-- A new instruction gets its operands. -/
theorem patches_setOperands
    {opcode : Opcode}
    {operands : List (Option Ref)}
    (found : store.instruction? user = some { opcode })
    (gives : Edit.Gives (Edit.setOperands user operands) store answer left) :
    ∃ slots : List Slot, slots.map (·.value) = operands ∧
      store.Patches
        (fun other value =>
          if user = other then
            { value with content := .instruction { opcode, operands := slots } }
          else value)
        left := by
  obtain ⟨_, between, truncated, added⟩ := Edit.gives_bind_iff.1 gives
  obtain ⟨entry, found', truncated⟩ := Edit.gives_instruction_bind_iff.1 truncated
  cases found.symm.trans found'
  obtain ⟨_, _, unlinked, truncated⟩ := Edit.gives_bind_iff.1 truncated
  rw [Edit.gives_modify_iff.1 unlinked] at truncated
  have cut : between = store.modifyInstruction user fun entry =>
      { entry with operands := entry.operands.take 0 } :=
    Edit.gives_modify_iff.1 truncated
  have bare : between.instruction? user = some { opcode } := by
    rw [cut, instruction?_modifyInstruction, if_pos rfl, found]
    rfl
  obtain ⟨slots, values, patches⟩ := patches_addOperands bare rfl added
  rw [cut] at patches
  refine ⟨slots, values, ((patches_modifyInstruction store user _).trans patches).congr ?_⟩
  intro other value present
  by_cases same : user = other
  · subst same
    have content : value.content = .instruction { opcode } := by
      have held := instruction?_eq_some_iff.1 found
      rwa [Store.content?, present, Option.map_some, Option.some.injEq] at held
    simp [content, Content.mapInstruction]
  · simp [same]

end Furnishing

/-- Linking an instruction lists it, notes its block and records its uses. -/
theorem patches_insertInto
    {store left : Store}
    {block ref : Ref}
    {after : Option Ref}
    {entry : Instruction}
    {answer : Unit}
    (found : store.instruction? ref = some entry)
    (gives : Edit.Gives (Edit.insertInto block ref after) store answer left) :
    store.moduleOf? ref = store.moduleOf? block ∧
      (∀ position, after = some position → store.blockOf? position = some block) ∧
      store.Patches
        (fun other value =>
          { value with
            content :=
              (if block = other then value.content.mapBlock (received after ref)
                else value.content).mapInstruction fun entry =>
                  if ref = other then { entry with block := some block } else entry
            uses := value.uses ++ usesAmong ref other entry.operands })
        left := by
  obtain ⟨entry', found', pool, placed, rfl⟩ := gives_insertInto gives
  cases found.symm.trans found'
  refine ⟨pool, placed, ((((patches_modifyBlock store block (received after ref)).record _).trans
    (patches_modifyInstruction _ ref fun entry => { entry with block := some block })).trans
      (patches_linkAll _ ref entry.operands)).congr ?_⟩
  intro other value _
  by_cases inBlock : block = other <;> by_cases same : ref = other <;>
    cases equal : value.content <;>
    simp [Content.mapBlock, Content.mapInstruction, inBlock, same, equal]

end Store

end ShaderIR

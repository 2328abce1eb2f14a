import ShaderIR.Proofs.Revision.Revises

/-!
# Rewriting instructions

Redirecting the uses of a value to another one changes the operands of linked
instructions only: a detached instruction keeps the operands it had.  Forgetting
a merge block and dropping an incoming pair change one instruction.
-/

namespace ShaderIR

/-- An instruction with the slots of some uses pointing to an operand. -/
def Instruction.pointedBy
    (uses : List Use)
    (operand : Option Ref)
    (ref : Ref)
    (entry : Instruction) : Instruction :=
  { entry with
    operands := entry.operands.map fun slot =>
      if ⟨ref, slot.key⟩ ∈ uses then { slot with value := operand } else slot }

/-- A slot with one value replaced by another one. -/
def Slot.redirected (old new : Ref) (slot : Slot) : Slot :=
  if slot.value = some old then { slot with value := some new } else slot

/-- A linked instruction with one operand value replaced by another one. -/
def Instruction.redirected (old new : Ref) (entry : Instruction) : Instruction :=
  if entry.block.isSome then
    { entry with operands := entry.operands.map (Slot.redirected old new) }
  else entry

/-- A phi without its incoming pair at a position. -/
def Instruction.withoutIncoming (position : Nat) (entry : Instruction) : Instruction :=
  { entry with
    opcode := .phi (entry.opcode.incomingBlocks.eraseIdx position)
    operands := entry.operands.eraseIdx position }

namespace Store

/-- A store with instructions rewritten in place. -/
def Rewrites (store : Store) (change : Ref → Instruction → Instruction) (left : Store) : Prop :=
  store.Revises (fun ref content => content.mapInstruction (change ref)) left

namespace Rewrites

variable {store left : Store} {change : Ref → Instruction → Instruction}

theorem ages (rewrites : store.Rewrites change left) : store.Ages left := by
  refine Revises.ages rewrites fun ref content => ?_
  cases content <;> simp [Content.mapInstruction, Content.Becomes]

theorem instructions (rewrites : store.Rewrites change left) (block : Ref) :
    left.instructions block = store.instructions block := by
  unfold Store.instructions
  rw [Revises.content? rewrites block]
  cases found : store.content? block with
  | none => rfl
  | some content => cases content <;> simp [Content.mapInstruction]

theorem instruction? (rewrites : store.Rewrites change left) (ref : Ref) :
    left.instruction? ref = (store.instruction? ref).map (change ref) := by
  unfold Store.instruction?
  rw [Revises.content? rewrites ref]
  cases found : store.content? ref with
  | none => rfl
  | some content => cases content <;> simp [Content.mapInstruction]

end Rewrites

theorem rewrites_setOpcode
    {store left : Store}
    {ref : Ref}
    {opcode : Opcode}
    {answer : Unit}
    (gives : Edit.Gives (Edit.setOpcode ref opcode) store answer left) :
    store.Rewrites (fun other entry => if ref = other then { entry with opcode } else entry)
      left := by
  obtain rfl := Edit.gives_modify_iff.1 gives
  refine (revises_modifyInstruction store ref fun entry => { entry with opcode }).congr ?_
  intro other content _
  by_cases same : ref = other <;> cases content <;> simp [Content.mapInstruction, same]

theorem rewrites_removeIncoming
    {store left : Store}
    {phi : Ref}
    {position : Nat}
    {answer : Unit}
    (gives : Edit.Gives (Edit.removeIncoming phi position) store answer left) :
    store.Rewrites
        (fun other entry => if phi = other then entry.withoutIncoming position else entry) left ∧
      ∃ entry, store.instruction? phi = some entry ∧ position < entry.operands.length ∧
        position < entry.opcode.incomingBlocks.length := by
  obtain ⟨_, between, removed, rest⟩ := Edit.gives_bind_iff.1 gives
  unfold Edit.removeOperand at removed
  rw [if_neg (by omega)] at removed
  obtain ⟨entry, middle, given, removed⟩ := Edit.gives_bind_iff.1 removed
  obtain ⟨found, equal⟩ := Edit.gives_instruction_iff.1 given
  rw [equal] at removed
  obtain ⟨slot, middle, given, removed⟩ := Edit.gives_bind_iff.1 removed
  obtain ⟨atPosition, equal⟩ := Edit.gives_demand_iff.1 given
  rw [equal] at removed
  obtain ⟨_, _, given, removed⟩ := Edit.gives_bind_iff.1 removed
  obtain rfl := Edit.gives_modify_iff.1 given
  have operandRemoved := Edit.gives_modify_iff.1 removed
  have first := (revises_unlink store slot.value ⟨phi, slot.key⟩).trans
    (revises_modifyInstruction _ phi fun entry =>
      { entry with operands := entry.operands.eraseIdx (position : Int).toNat })
  rw [← operandRemoved] at first
  obtain ⟨entry', middle, given, rest⟩ := Edit.gives_bind_iff.1 rest
  obtain ⟨found', equal⟩ := Edit.gives_instruction_iff.1 given
  rw [equal] at rest
  -- The opcode is still the one it was, so the second part drops the block that belongs there.
  have first' : store.Rewrites (fun other entry =>
      if phi = other then { entry with operands := entry.operands.eraseIdx position } else entry)
      between := by
    refine first.congr ?_
    intro other content _
    by_cases same : phi = other <;> cases content <;> simp [Content.mapInstruction, same]
  have changed : entry' = { entry with operands := entry.operands.eraseIdx position } := by
    rw [first'.instruction?, found] at found'
    simpa using found'.symm
  split at rest
  · exact absurd rest Edit.not_gives_stuck
  · rename_i within
    obtain ⟨entry'', middle, given, rest⟩ := Edit.gives_bind_iff.1 rest
    obtain ⟨found'', equal⟩ := Edit.gives_instruction_iff.1 given
    rw [equal] at rest
    cases found'.symm.trans found''
    refine ⟨(Revises.trans first' (rewrites_setOpcode rest)).congr ?_, entry, found, ?_, ?_⟩
    · intro other content content?
      by_cases same : phi = other
      · subst same
        cases content with
        | instruction old =>
            cases (instruction?_eq_some_iff.2 content?).symm.trans found
            simp [Content.mapInstruction, Instruction.withoutIncoming, changed]
        | _ => rfl
      · cases content <;> simp [Content.mapInstruction, same]
    · rcases List.getElem?_eq_some_iff.1 atPosition with ⟨inside, -⟩
      simpa using inside
    · simpa [changed] using within

section Redirection

variable {store left : Store} {operand : Option Ref}

theorem rewrites_setSlot
    {user : Ref}
    {key : Nat}
    {answer : Unit}
    (gives : Edit.Gives (Edit.setSlot user key operand) store answer left) :
    store.Rewrites (Instruction.pointedBy [⟨user, key⟩] operand) left := by
  obtain ⟨_, between, given, rest⟩ := Edit.gives_bind_iff.1 gives
  obtain ⟨-, equal⟩ := Edit.gives_requireSamePool_iff.1 given
  rw [equal] at rest
  obtain ⟨entry, between, given, rest⟩ := Edit.gives_bind_iff.1 rest
  obtain ⟨found, equal⟩ := Edit.gives_instruction_iff.1 given
  rw [equal] at rest
  have rest := Edit.gives_see_bind_iff.1 rest
  obtain ⟨edge, -, rest⟩ := Edit.gives_demand_bind_iff.1 rest
  have rest := Edit.gives_see_bind_iff.1 rest
  obtain ⟨_, _, given, rest⟩ := Edit.gives_bind_iff.1 rest
  obtain rfl := Edit.gives_modify_iff.1 given
  obtain ⟨_, _, given, rest⟩ := Edit.gives_bind_iff.1 rest
  obtain rfl := Edit.gives_modify_iff.1 given
  obtain ⟨_, _, given, rest⟩ := Edit.gives_bind_iff.1 rest
  obtain rfl := Edit.gives_modify_iff.1 given
  have changed := ((revises_unlink store edge.value ⟨user, key⟩).record fun records =>
      { records with
        edges := redefine records.edges key (some { edge with value := operand }) }).trans
    (revises_modifyInstruction _ user fun entry =>
      { entry with
        operands := entry.operands.map fun slot =>
          if slot.key == key then { slot with value := operand } else slot })
  have revises : ((store.unlink edge.value ⟨user, key⟩).putEdge key
      { edge with value := operand }).modifyInstruction user (fun entry =>
        { entry with
          operands := entry.operands.map fun slot =>
            if slot.key == key then { slot with value := operand } else slot })
      |>.Revises (fun _ content => content) left := by
    split at rest
    · obtain rfl := Edit.gives_modify_iff.1 rest
      exact revises_link _ operand ⟨user, key⟩
    · obtain ⟨-, rfl⟩ := Edit.gives_pure_iff.1 rest
      exact .refl _
  refine (changed.trans revises).congr ?_
  intro ref content _
  cases content with
  | instruction entry =>
      by_cases same : user = ref
      · subst same
        simp [Content.mapInstruction, Instruction.pointedBy]
      · have different : ¬ref = user := fun equal => same equal.symm
        simp [Content.mapInstruction, Instruction.pointedBy, same, different]
  | _ => simp [Content.mapInstruction]

theorem rewrites_redirect
    {uses : List Use}
    {answer : Unit}
    (gives : Edit.Gives (Edit.redirect operand uses) store answer left) :
    store.Rewrites (Instruction.pointedBy uses operand) left := by
  induction uses generalizing store with
  | nil =>
      obtain ⟨-, rfl⟩ := Edit.gives_pure_iff.1 gives
      refine (Revises.refl left).congr ?_
      intro ref content _
      cases content <;> simp [Content.mapInstruction, Instruction.pointedBy]
  | cons use rest induction =>
      obtain ⟨_, between, first, others⟩ := Edit.gives_bind_iff.1 gives
      refine (Revises.trans (rewrites_setSlot first) (induction others)).congr ?_
      intro ref content _
      cases content with
      | instruction entry =>
          simp only [Content.mapInstruction, Instruction.pointedBy, List.map_map,
            Content.instruction.injEq, Instruction.mk.injEq, true_and, and_true]
          refine List.map_congr_left fun slot _ => ?_
          simp only [Function.comp_apply, List.mem_cons]
          by_cases first : (⟨ref, slot.key⟩ : Use) = use
          · simp [first]
          · by_cases later : (⟨ref, slot.key⟩ : Use) ∈ rest <;> simp [first, later]
      | _ => rfl

/-- Replacing the uses of a value rewrites the operands of linked instructions. -/
theorem Coherent.rewrites_replaceUses
    (coherent : store.Coherent)
    {old new : Ref}
    {answer : Unit}
    (gives : Edit.Gives (Edit.replaceUses old (some new)) store answer left) :
    store.Rewrites (fun _ => Instruction.redirected old new) left := by
  obtain ⟨uses, between, given, rest⟩ := Edit.gives_bind_iff.1 gives
  obtain ⟨rfl, equal⟩ := Edit.gives_see_iff.1 given
  rw [equal] at rest
  refine Revises.congr (rewrites_redirect rest) ?_
  intro ref content content?
  cases content with
  | instruction entry =>
      have found := instruction?_eq_some_iff.2 content?
      simp only [Content.mapInstruction, Content.instruction.injEq]
      -- A slot is among the uses just when the instruction is linked and holds the value there.
      have listed : ∀ slot ∈ entry.operands,
          ((⟨ref, slot.key⟩ : Use) ∈ store.usesOf old ↔
            entry.block.isSome ∧ slot.value = some old) := by
        intro slot member
        rw [coherent.mem_uses]
        constructor
        · rintro ⟨entry', found', linked, member'⟩
          cases found.symm.trans found'
          have same := coherent.slot_unique found member member' rfl
          exact ⟨linked, by rw [same]⟩
        · rintro ⟨linked, holds⟩
          refine ⟨entry, found, linked, ?_⟩
          rw [← holds]
          exact member
      unfold Instruction.redirected Instruction.pointedBy
      by_cases linked : entry.block.isSome
      · rw [if_pos linked]
        refine congrArg (fun operands => { entry with operands }) ?_
        refine List.map_congr_left fun slot member => ?_
        simp only [Slot.redirected, listed slot member, linked, true_and]
      · rw [if_neg linked]
        have same : (entry.operands.map fun slot =>
            if (⟨ref, slot.key⟩ : Use) ∈ store.usesOf old then { slot with value := some new }
            else slot) = entry.operands := by
          refine (List.map_congr_left fun slot member => ?_).trans (List.map_id entry.operands)
          rw [if_neg fun listedUse => linked ((listed slot member).1 listedUse).1]
          rfl
        rw [same]
  | _ => rfl

end Redirection

end Store

end ShaderIR

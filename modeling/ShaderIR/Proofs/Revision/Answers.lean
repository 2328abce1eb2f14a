import ShaderIR.Proofs.Revision.Trimming

/-!
# Edits that nothing refuses

Operands have to be values of the module of their user.  Where a value takes the place of
another one of its module, this is so, and the uses of the other one are redirected
without an error.  A value has a use for each slot that it fills, so the slots are there.
-/

namespace ShaderIR

namespace Store

variable {store : Store} {old new user : Ref} {key : Nat} {operand : Option Ref}

theorem Coherent.exists_gives_setSlot
    (coherent : store.Coherent)
    (hasSlot : store.HasSlot ⟨user, key⟩)
    (pool : ∀ ref, operand = some ref → store.moduleOf? ref = store.moduleOf? user) :
    ∃ left, Edit.Gives (Edit.setSlot user key operand) store () left := by
  obtain ⟨entry, found, slot, member, rfl⟩ := hasSlot
  have admitted : Edit.Gives (Edit.requireSamePool user operand) store () store :=
    Edit.gives_requireSamePool_iff.2 ⟨pool, rfl⟩
  -- What follows only changes the store.
  have changes : ∃ left, Edit.Gives (do
      let attached ← Edit.see (·.isAttached ⟨user, slot.key⟩)
      modify fun store => store.unlink slot.value ⟨user, slot.key⟩
      modify fun store => store.putEdge slot.key ⟨user, operand⟩
      modify fun store => store.modifyInstruction user fun entry =>
        { entry with
          operands := entry.operands.map fun other =>
            if other.key == slot.key then { other with value := operand } else other }
      if attached || entry.block.isSome then
        modify fun store => store.link operand ⟨user, slot.key⟩) store () left := by
    simp only [Edit.gives_see_bind_iff]
    cases store.isAttached ⟨user, slot.key⟩ || entry.block.isSome <;> exact ⟨_, rfl⟩
  obtain ⟨left, changes⟩ := changes
  exact ⟨left, Edit.gives_bind_iff.2 ⟨(), store, admitted, Edit.gives_instruction_bind_iff.2
    ⟨entry, found, Edit.gives_see_bind_iff.2 (Edit.gives_demand_bind_iff.2
      ⟨_, coherent.edge?_of_mem found member, changes⟩)⟩⟩⟩

theorem HasSlot.present {use : Use} (hasSlot : store.HasSlot use) :
    (store.value? use.user).isSome := by
  obtain ⟨entry, found, -⟩ := hasSlot
  exact value?_isSome_of_instruction? found

theorem Coherent.exists_gives_redirect
    {uses : List Use}
    (coherent : store.Coherent)
    (present : (store.value? new).isSome)
    (fits : ∀ use ∈ uses, store.HasSlot use ∧ store.moduleOf? new = store.moduleOf? use.user) :
    ∃ left, Edit.Gives (Edit.redirect (some new) uses) store () left := by
  induction uses generalizing store with
  | nil => exact ⟨store, rfl⟩
  | cons use rest induction =>
      obtain ⟨⟨hasSlot, pool⟩, later⟩ := List.forall_mem_cons.1 fits
      obtain ⟨between, gives⟩ := coherent.exists_gives_setSlot hasSlot
        (fun ref same => Option.some.inj same ▸ pool)
      have ages := (rewrites_setSlot gives).ages
      have coherent' : between.Coherent := by
        have kept := Edit.setSlot_keeps (some new) hasSlot coherent
        rw [show Edit.outcome (Edit.setSlot use.user use.slot (some new)) store =
          (.ok (), between) from gives] at kept
        exact kept.1
      obtain ⟨left, gives'⟩ := induction coherent' (ages.value?_isSome present)
        fun use' member => by
          obtain ⟨hasSlot', pool⟩ := later use' member
          refine ⟨(Edit.setSlot_keepsSlots use.user use.slot (some new)).of_gives gives use'
            hasSlot', ?_⟩
          rw [ages.moduleOf? present, ages.moduleOf? hasSlot'.present, pool]
      exact ⟨left, Edit.gives_bind_iff.2 ⟨(), between, gives, gives'⟩⟩

/-- A value of the same module takes the place of another one. -/
theorem Coherent.exists_gives_replaceUses
    (coherent : store.Coherent)
    (present : (store.value? new).isSome)
    (pool : store.moduleOf? new = store.moduleOf? old) :
    ∃ left, Edit.Gives (Edit.replaceUses old (some new)) store () left := by
  have fits : ∀ use ∈ store.usesOf old,
      store.HasSlot use ∧ store.moduleOf? new = store.moduleOf? use.user := by
    intro use member
    obtain ⟨entry, found, -, slot⟩ := (coherent.mem_uses old use).1 member
    exact ⟨⟨entry, found, _, slot, rfl⟩, pool.trans (coherent.operandPool found _ slot old rfl)⟩
  obtain ⟨left, gives⟩ := coherent.exists_gives_redirect present fits
  exact ⟨left, Edit.gives_see_bind_iff.2 gives⟩

/-! ## New operands -/

/-- A module has an undefined value of every type. -/
theorem exists_gives_undefined
    {module : Nat}
    (type : Option Ty)
    (isModule : (store.modules[module]?).isSome) :
    ∃ ref left, Edit.Gives (Edit.undefined module type) store ref left := by
  obtain ⟨entry, found⟩ := Option.isSome_iff_exists.1 isModule
  simp only [Edit.undefined, Edit.gives_see_bind_iff, Edit.gives_demand_bind_iff, found,
    Option.some.injEq, exists_eq_left']
  cases entry.undefineds.lookup type with
  | some ref => exact ⟨ref, store, rfl⟩
  | none => exact ⟨_, _, rfl⟩

end Store

end ShaderIR

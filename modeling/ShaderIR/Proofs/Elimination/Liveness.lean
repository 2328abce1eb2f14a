import ShaderIR.Proofs.Elimination.Doomed
import ShaderIR.Proofs.Traversal.Closure

/-!
# Instructions that are needed

An instruction is needed when an instruction with an effect, or one that is used
outside of the reached blocks, depends on it through operands.  A variable is only
written when it, and every element reference derived from it, is the destination of
stores and the base of element references and nothing else.

Both are found by closures, and these find exactly what is described here.  Where
nothing is to be taken out, a round takes nothing out.
-/

namespace ShaderIR

namespace Store

/-- Some user of a value is linked into none of the reached blocks of a function. -/
def UsedOutside (store : Store) (function ref : Ref) : Prop :=
  ∃ use ∈ store.usesOf ref,
    ∀ block, store.blockOf? use.user = some block → ¬store.Reached function block

/-- An instruction of a reached block with an effect or with a user outside of those blocks. -/
structure IsRoot (store : Store) (function ref : Ref) : Prop where
  held : ∃ block, store.Reached function block ∧ ref ∈ store.instructions block
  active : (∃ opcode, store.opcode? ref = some opcode ∧ Pass.isPure opcode = false) ∨
    store.UsedOutside function ref

/-- An instruction has a linked instruction among its operands. -/
def Consumes (store : Store) (user operand : Ref) : Prop :=
  some operand ∈ store.operands user ∧ (store.blockOf? operand).isSome

/-- Some root depends on an instruction, directly or through other instructions. -/
def Needed (store : Store) (function ref : Ref) : Prop :=
  ∃ root, store.IsRoot function root ∧ Relation.ReflTransGen store.Consumes root ref

/-- A use of a pointer stores to it or refers to an element of it, and does nothing else with it. -/
def WritesThrough (store : Store) (pointer : Ref) (use : Use) : Prop :=
  ∃ user, store.instruction? use.user = some user ∧
    (user.opcode = .store ∧
        (∃ stored, user.values = [some pointer, stored] ∧ stored ≠ some pointer) ∨
      user.opcode = .gep ∧ user.values.head? = some (some pointer))

/-- An element reference among the users of a pointer. -/
def Derives (store : Store) (pointer element : Ref) : Prop :=
  (∃ use ∈ store.usesOf pointer, use.user = element) ∧ store.isGep element = true

/-- A pointer, and every element reference derived from it, is only written through. -/
def WriteOnly (store : Store) (pointer : Ref) : Prop :=
  ∀ derived, Relation.ReflTransGen store.Derives pointer derived →
    ∀ use ∈ store.usesOf derived, store.WritesThrough derived use

end Store

namespace Pass

open Store Edit Elimination

variable {store left : Store} {function ref pointer : Ref} {report report' : Elimination}

/-! ## What nothing needs -/

theorem mem_needs_iff {user operand : Ref} :
    operand ∈ needs store user ↔ store.Consumes user operand := by
  simp [needs, Consumes]

theorem usedOutside_iff (coherent : store.Coherent) :
    usedOutside store (store.reversePostOrder function) ref = true ↔
      store.UsedOutside function ref := by
  simp only [usedOutside, UsedOutside, List.any_eq_true, Bool.not_eq_true']
  refine exists_congr fun use => and_congr_right fun _ => ?_
  cases store.blockOf? use.user with
  | none => simp
  | some block => simp [mem_reversePostOrder_iff_reached coherent]

/-- What a round looks at without taking it for removable are the roots. -/
theorem isRoot_iff (coherent : store.Coherent) :
    ref ∈ (store.traverse function).filter (fun ref =>
        !((store.opcode? ref).any isPure &&
          !usedOutside store (store.reversePostOrder function) ref)) ↔
      store.IsRoot function ref := by
  rw [List.mem_filter]
  constructor
  · rintro ⟨member, kept⟩
    refine ⟨coherent.mem_traverse_iff.1 member, ?_⟩
    by_cases outside : usedOutside store (store.reversePostOrder function) ref = true
    · exact .inr ((usedOutside_iff coherent).1 outside)
    · obtain ⟨block, linked⟩ :=
        Option.isSome_iff_exists.1 (coherent.blockOf?_isSome_of_mem_traverse member)
      obtain ⟨entry, found, -⟩ := blockOf?_eq_some_iff.1 linked
      exact .inl ⟨entry.opcode, by simp [opcode?, found], by simpa [opcode?, found,
        outside] using kept⟩
  · rintro ⟨held, active⟩
    refine ⟨coherent.mem_traverse_iff.2 held, ?_⟩
    rcases active with ⟨opcode, found, effect⟩ | outside
    · simp [found, effect]
    · simp [(usedOutside_iff coherent).2 outside]

/-- A round takes out the instructions of reached blocks that are not needed, and only those. -/
theorem mem_unneeded_iff (coherent : store.Coherent) :
    ref ∈ unneeded store function ↔
      ref ∈ store.traverse function ∧ ¬store.Needed function ref := by
  let roots := (store.traverse function).filter fun ref =>
    !((store.opcode? ref).any isPure && !usedOutside store (store.reversePostOrder function) ref)
  have live : ref ∈ closure store.values.size (needs store) roots ↔ store.Needed function ref := by
    have sameRelation : (fun source target => target ∈ needs store source) = store.Consumes := by
      funext source target
      exact propext mem_needs_iff
    rw [mem_closure_iff, sameRelation]
    · exact exists_congr fun root => and_congr_left fun _ => isRoot_iff coherent
    · intro user operand member
      exact index_lt_of_value? (value?_isSome_of_blockOf? (mem_needs_iff.1 member).2)
    · exact (coherent.nodup_traverse function).filter _
    · intro root member
      exact index_lt_of_value? (value?_isSome_of_blockOf?
        (coherent.blockOf?_isSome_of_mem_traverse (List.mem_filter.1 member).1))
  have split : ref ∈ unneeded store function ↔ ref ∈ store.traverse function ∧
      ((store.opcode? ref).any isPure &&
        !usedOutside store (store.reversePostOrder function) ref) = true ∧
      ref ∉ closure store.values.size (needs store) roots := by
    unfold unneeded
    rw [List.mem_filter, Bool.and_eq_true, Bool.not_eq_true', ← Bool.not_eq_true,
      List.contains_iff_mem]
    rfl
  rw [split, live]
  refine and_congr_right fun member => and_iff_right_of_imp fun unneeded => ?_
  by_contra kept
  refine unneeded ⟨ref, (isRoot_iff coherent).1 (List.mem_filter.2 ⟨member, ?_⟩), .refl⟩
  rw [Bool.not_eq_true', ← Bool.not_eq_true]
  exact kept

theorem advances_removeUnneeded
    (records : report.Records store)
    (gives : Gives (removeUnneeded function report) store report' left) :
    report.Advances store report' left :=
  advancing_drop.foldlM records (fun _ _ => trivial) (gives_see_bind_iff.1 gives)

/-- When nothing is taken out, everything in the reached blocks is needed. -/
theorem needed_of_quiet
    (records : report.Records store)
    (gives : Gives (removeUnneeded function report) store report store)
    (member : ref ∈ store.traverse function) :
    store.Needed function ref := by
  by_contra unneeded
  have listed := (mem_unneeded_iff records.coherent).2 ⟨member, unneeded⟩
  have detached := detached_of_gives records <| advancing_drop.gives_of_quiet records
    (fun _ _ => trivial) (gives_see_bind_iff.1 gives) rfl ref listed
  have linked := records.coherent.blockOf?_isSome_of_mem_traverse member
  rw [detached.blockOf?] at linked
  cases linked

/-- Where everything in the reached blocks is needed, nothing is taken out. -/
theorem gives_removeUnneeded
    (report : Elimination)
    (coherent : store.Coherent)
    (needed : ∀ ref ∈ store.traverse function, store.Needed function ref) :
    Gives (removeUnneeded function report) store report store := by
  refine gives_see_bind_iff.2 (gives_foldlM_of_still fun ref listed => ?_)
  obtain ⟨member, unneeded⟩ := (mem_unneeded_iff coherent).1 listed
  exact absurd (needed ref member) unneeded

/-! ## Variables that are only written -/

theorem writesOnly_iff {use : Use} :
    writesOnly store pointer use = true ↔ store.WritesThrough pointer use := by
  unfold writesOnly WritesThrough
  cases store.instruction? use.user with
  | none => simp
  | some user =>
      simp only [Option.some.injEq, exists_eq_left']
      split
      · rename_i isStore values
        simp only [isStore, values, Bool.and_eq_true, beq_iff_eq, bne_iff_ne,
          true_and, reduceCtorEq, false_and, or_false, List.cons.injEq, and_true]
        constructor
        · rintro ⟨rfl, different⟩
          exact ⟨_, ⟨rfl, rfl⟩, different⟩
        · rintro ⟨_, ⟨rfl, rfl⟩, different⟩
          exact ⟨rfl, different⟩
      · rename_i isGep values
        simp [isGep, values]
      · rename_i notStore notGep
        simp only [Bool.false_eq_true, false_iff]
        rintro (⟨isStore, stored, values, -⟩ | ⟨isGep, first⟩)
        · exact notStore _ _ isStore values
        · obtain ⟨rest, values⟩ := List.head?_eq_some_iff.1 first
          exact notGep _ _ isGep values

theorem mem_elementUsers_iff {element : Ref} :
    element ∈ elementUsers store pointer ↔ store.Derives pointer element := by
  simp [elementUsers, Derives]

theorem isWriteOnly_iff (present : (store.value? pointer).isSome) :
    isWriteOnly store pointer = true ↔ store.WriteOnly pointer := by
  have sameRelation : (fun source target => target ∈ elementUsers store source) =
      store.Derives := by
    funext source target
    exact propext mem_elementUsers_iff
  have derived : ∀ ref, ref ∈ closure store.values.size (elementUsers store) [pointer] ↔
      Relation.ReflTransGen store.Derives pointer ref := by
    intro ref
    rw [mem_closure_iff, sameRelation]
    · simp
    · intro pointer element member
      have isGep := (mem_elementUsers_iff.1 member).2
      refine index_lt_of_value? ?_
      cases found : store.instruction? element with
      | none => simp [Store.isGep, opcode?, found] at isGep
      | some entry => exact value?_isSome_of_instruction? found
    · exact List.nodup_singleton pointer
    · intro ref member
      rw [List.mem_singleton.1 member]
      exact index_lt_of_value? present
  simp only [isWriteOnly, WriteOnly, List.all_eq_true, derived, writesOnly_iff]

theorem advances_removeWriteOnlyVariables
    (records : report.Records store)
    (gives : Gives (removeWriteOnlyVariables function report) store report' left) :
    report.Advances store report' left :=
  advancing_removeWriteOnly.foldlM records (fun _ _ => trivial) (gives_see_bind_iff.1 gives)

/-- When no variable is removed, none of those in the reached blocks is only written. -/
theorem not_writeOnly_of_quiet
    (records : report.Records store)
    (gives : Gives (removeWriteOnlyVariables function report) store report store)
    (member : ref ∈ store.traverse function)
    (isVariable : store.isVariable ref = true) :
    ¬store.WriteOnly ref := by
  have linked := records.coherent.blockOf?_isSome_of_mem_traverse member
  have kept := not_isWriteOnly_of_gives records <| advancing_removeWriteOnly.gives_of_quiet records
    (fun _ _ => trivial) (gives_see_bind_iff.1 gives) rfl ref
    (List.mem_filter.2 ⟨member, isVariable⟩)
  rw [linked, Bool.true_and] at kept
  rw [← isWriteOnly_iff (value?_isSome_of_blockOf? linked), kept]
  exact Bool.false_ne_true

/-- Where no variable in the reached blocks is only written, none is removed. -/
theorem gives_removeWriteOnlyVariables
    (report : Elimination)
    (coherent : store.Coherent)
    (kept : ∀ ref ∈ store.traverse function, store.isVariable ref = true → ¬store.WriteOnly ref) :
    Gives (removeWriteOnlyVariables function report) store report store := by
  refine gives_see_bind_iff.2 (gives_foldlM_of_still fun ref listed => ?_)
  obtain ⟨member, isVariable⟩ := List.mem_filter.1 listed
  have linked := coherent.blockOf?_isSome_of_mem_traverse member
  rw [gives_removeWriteOnly_iff, if_neg]
  · exact ⟨rfl, rfl⟩
  · rw [linked, Bool.true_and, isWriteOnly_iff (value?_isSome_of_blockOf? linked)]
    exact kept ref member isVariable

/-! ## Removing until nothing more is removed -/

/-- Everything in the reached blocks is needed, and no phi of a list is redundant. -/
structure Spare (store : Store) (function : Ref) (phis : List Ref) : Prop where
  needed : ∀ ref ∈ store.traverse function, store.Needed function ref
  read : ∀ ref ∈ store.traverse function, store.isVariable ref = true → ¬store.WriteOnly ref
  refused : ∀ phi ∈ phis, Gives (removeRedundantPhi phi) store false store

/-- One pass of removals: when it makes no progress, there was nothing to be removed. -/
theorem spare_of_pass
    {phis : List Ref}
    {unneeded unread : Elimination}
    {second third : Store}
    (records : report.Records store)
    (first : Gives (removeUnneeded function report) store unneeded second)
    (next : Gives (removeWriteOnlyVariables function unneeded) second unread third)
    (last : Gives (phis.foldlM removePhi unread) third report' left) :
    report.Advances store report' left ∧
      (report'.progress = report.progress → Spare store function phis) := by
  have advances := advances_removeUnneeded records first
  have advances' := advances_removeWriteOnlyVariables advances.records next
  have advances'' := advancing_removePhi.foldlM advances'.records (fun _ _ => trivial) last
  refine ⟨(advances.trans advances').trans advances'', fun same => ?_⟩
  obtain ⟨rfl, rfl⟩ := advances.quiet_first (advances'.trans advances'') same
  obtain ⟨rfl, rfl⟩ := advances'.quiet_first advances'' same
  refine
    { needed := fun ref member => needed_of_quiet records first member
      read := fun ref member isVariable => not_writeOnly_of_quiet records next member isVariable
      refused := fun phi member => ?_ }
  exact refused_of_gives records <|
    advancing_removePhi.gives_of_quiet records (fun _ _ => trivial) last same phi member

/-- Removals advance, and when they make no progress, there was nothing to be removed. -/
theorem spare_of_removeUseless
    {phis : List Ref}
    {bound : Nat}
    (records : report.Records store)
    (gives : Gives (removeUseless function phis bound report) store report' left) :
    report.Advances store report' left ∧
      (report'.progress = report.progress → Spare store function phis) := by
  induction bound generalizing report store with
  | zero => exact absurd gives not_gives_endless
  | succ bound induction =>
      unfold removeUseless at gives
      obtain ⟨_, _, first, gives⟩ := gives_bind_iff.1 gives
      obtain ⟨_, _, second, gives⟩ := gives_bind_iff.1 gives
      obtain ⟨_, _, third, gives⟩ := gives_bind_iff.1 gives
      obtain ⟨advances, spare⟩ := spare_of_pass records first second third
      split at gives
      · obtain ⟨rfl, rfl⟩ := gives_pure_iff.1 gives
        exact ⟨advances, spare⟩
      · obtain ⟨advances', -⟩ := induction advances.records gives
        refine ⟨advances.trans advances', fun same => spare ?_⟩
        rw [(advances.quiet_first advances' same).1]

theorem Spare.of_subset
    {phis phis' : List Ref}
    (spare : Spare store function phis)
    (subset : phis' ⊆ phis) :
    Spare store function phis' :=
  ⟨spare.needed, spare.read, fun phi member => spare.refused phi (subset member)⟩

/-- Where there is nothing to be removed, nothing is removed. -/
theorem Spare.gives_removeUseless
    {phis : List Ref}
    (spare : Spare store function phis)
    (coherent : store.Coherent)
    (report : Elimination)
    (bound : Nat) :
    Gives (removeUseless function phis (bound + 1) report) store report store := by
  refine gives_bind_iff.2 ⟨report, store, gives_removeUnneeded report coherent spare.needed, ?_⟩
  refine gives_bind_iff.2
    ⟨report, store, gives_removeWriteOnlyVariables report coherent spare.read, ?_⟩
  refine gives_bind_iff.2 ⟨report, store, gives_foldlM_of_still fun phi member => ?_, ?_⟩
  · exact gives_bind_iff.2 ⟨false, store, spare.refused phi member, gives_pure_iff.2 ⟨rfl, rfl⟩⟩
  · rw [if_pos rfl]
    exact gives_pure_iff.2 ⟨rfl, rfl⟩

end Pass

end ShaderIR

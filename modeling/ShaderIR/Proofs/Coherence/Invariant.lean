import ShaderIR.Proofs.Coherence.Links
import ShaderIR.Proofs.Store.Update

/-!
# The representation invariant

The store keeps the operand edges twice, at the instructions and at the values
they use, and block membership twice, at the blocks and at the instructions.
`Store.Coherent` says that the two records agree, that no edge and no member is
recorded more than once, that the links of the lists go along these lists, and that
everything connected lies in one module.

An edit of an instruction rewires it: its own entry changes, and the use-lists
and the block lists change just as far as they concern it.  `Store.Rewires`
states this for arbitrary stores, and `Rewires.coherent` is the one place where
the invariant is carried over such a change.
-/

namespace ShaderIR

namespace Store

/-- A slot of an instruction that is linked into a block uses a value. -/
def Uses (store : Store) (use : Use) (value : Ref) : Prop :=
  ∃ entry, store.instruction? use.user = some entry ∧
    entry.block.isSome ∧ (⟨use.slot, some value⟩ : Slot) ∈ entry.operands

/-- The two records of operand edges and of block membership agree. -/
structure Coherent (store : Store) : Prop where
  /-- The slots of an instruction have different keys. -/
  keysDistinct : ∀ {user entry}, store.instruction? user = some entry →
    (entry.operands.map (·.key)).Nodup
  /-- Keys of later slots are new. -/
  keysBelow : ∀ {user entry}, store.instruction? user = some entry →
    ∀ slot ∈ entry.operands, slot.key < store.nextSlot
  /-- The cases of a switch have different values. -/
  casesDistinct : ∀ {user entry}, store.instruction? user = some entry →
    entry.opcode.caseValues.Nodup
  /-- A user and what it uses belong to one module. -/
  operandPool : ∀ {user entry}, store.instruction? user = some entry →
    ∀ slot ∈ entry.operands, ∀ value, slot.value = some value →
      store.moduleOf? value = store.moduleOf? user
  /-- The edge of a slot of an instruction is that slot. -/
  edged : ∀ {user entry}, store.instruction? user = some entry →
    ∀ slot ∈ entry.operands, store.edges slot.key = some ⟨user, slot.value⟩
  /-- The links of the uses go along the use-lists. -/
  used : store.useLinks.Traces store.usesOf
  /-- A use-list holds the slots of linked instructions that use the value. -/
  mem_uses : ∀ value use, use ∈ store.usesOf value ↔ store.Uses use value
  /-- The links of the instructions go along the blocks. -/
  linked : store.links.Traces store.instructions
  /-- A block holds the instructions that are linked into it. -/
  mem_members : ∀ block ref,
    ref ∈ store.instructions block ↔ store.blockOf? ref = some block
  /-- An instruction and its block belong to one module. -/
  memberPool : ∀ {ref block}, store.blockOf? ref = some block →
    store.moduleOf? ref = store.moduleOf? block
  /-- A block and its function belong to one module. -/
  ownerPool : ∀ {block function}, store.blockFunction? block = some function →
    store.moduleOf? block = store.moduleOf? function
  /-- The entry block of a function is one of its own. -/
  bodyOwner : ∀ {function entry block}, store.function? function = some entry →
    entry.body = some block → store.blockFunction? block = some function
  /-- A module lists functions of its own. -/
  listed : ∀ module, ∀ function ∈ store.functions module,
    (store.function? function).isSome ∧ store.moduleOf? function = some module

/-- A use-list holds no use twice. -/
theorem Coherent.usesDistinct {store : Store} (coherent : store.Coherent) (value : Ref) :
    (store.usesOf value).Nodup :=
  coherent.used.distinct value

/-- A block holds no instruction twice. -/
theorem Coherent.membersDistinct {store : Store} (coherent : store.Coherent) (block : Ref) :
    (store.instructions block).Nodup :=
  coherent.linked.distinct block

theorem Coherent.isBlock_of_blockOf?
    {store : Store}
    (coherent : store.Coherent)
    {ref block : Ref}
    (linked : store.blockOf? ref = some block) :
    store.isBlock block = true :=
  isBlock_of_mem_instructions ((coherent.mem_members block ref).2 linked)

/-- A store without values is coherent. -/
theorem coherent_empty : ({} : Store).Coherent := by
  have noValue : ∀ ref, ({} : Store).value? ref = none := by
    intro ref
    simp [value?]
  have noContent : ∀ ref, ({} : Store).content? ref = none := by
    intro ref
    simp [content?, noValue]
  have noInstruction : ∀ ref, ({} : Store).instruction? ref = none := by
    intro ref
    simp [instruction?, noContent]
  have noUses : ({} : Store).usesOf = fun _ => [] := by
    funext ref
    simp [usesOf, noValue]
  have noMembers : ({} : Store).instructions = fun _ => [] := by
    funext ref
    simp [instructions, noContent]
  have noUse : ({} : Store).useLinks.Traces ({} : Store).usesOf := noUses ▸ Links.traces_empty
  have noMember : ({} : Store).links.Traces ({} : Store).instructions :=
    noMembers ▸ Links.traces_empty
  constructor <;>
    simp [noUse, noMember, noInstruction, noContent, noValue, usesOf, Uses, instructions, blockOf?,
      blockFunction?, function?, functions]

/--
A change that concerns one instruction: its entry becomes a new one, and the
use-lists and the block lists follow.
-/
structure Rewires (store : Store) (user : Ref) (changed : Instruction) (left : Store) :
    Prop where
  others : ∀ ref, ref ≠ user → left.instruction? ref = store.instruction? ref
  functions : ∀ ref, left.function? ref = store.function? ref
  owners : ∀ ref, left.blockFunction? ref = store.blockFunction? ref
  pools : ∀ ref, left.moduleOf? ref = store.moduleOf? ref
  modules : left.modules = store.modules
  slots : store.nextSlot ≤ left.nextSlot
  self : left.instruction? user = some changed
  keysDistinct : (changed.operands.map (·.key)).Nodup
  keysBelow : ∀ slot ∈ changed.operands, slot.key < left.nextSlot
  casesDistinct : changed.opcode.caseValues.Nodup
  operandPool : ∀ slot ∈ changed.operands, ∀ value, slot.value = some value →
    store.moduleOf? value = store.moduleOf? user
  edged : ∀ slot ∈ changed.operands, left.edges slot.key = some ⟨user, slot.value⟩
  edgesKept : ∀ key edge, key < store.nextSlot → store.edges key = some edge →
    edge.user ≠ user → left.edges key = some edge
  used : left.useLinks.Traces left.usesOf
  mem_uses : ∀ value use, use ∈ left.usesOf value ↔
    if use.user = user then
      changed.block.isSome ∧ (⟨use.slot, some value⟩ : Slot) ∈ changed.operands
    else use ∈ store.usesOf value
  linked : left.links.Traces left.instructions
  mem_members : ∀ block ref, ref ∈ left.instructions block ↔
    if ref = user then changed.block = some block else ref ∈ store.instructions block
  memberPool : ∀ block, changed.block = some block →
    store.moduleOf? user = store.moduleOf? block

namespace Rewires

variable {store left : Store} {user : Ref} {changed : Instruction}

theorem uses_iff
    (rewires : store.Rewires user changed left)
    (coherent : store.Coherent)
    (value : Ref)
    (use : Use) :
    use ∈ left.usesOf value ↔ left.Uses use value := by
  rw [rewires.mem_uses]
  split
  · rename_i same
    subst same
    simp only [Uses, rewires.self, Option.some.injEq, exists_eq_left']
  · rename_i different
    rw [coherent.mem_uses]
    simp only [Uses, rewires.others _ different]

theorem members_iff
    (rewires : store.Rewires user changed left)
    (coherent : store.Coherent)
    (block ref : Ref) :
    ref ∈ left.instructions block ↔ left.blockOf? ref = some block := by
  rw [rewires.mem_members]
  split
  · rename_i same
    subst same
    simp [blockOf?, rewires.self]
  · rename_i different
    rw [coherent.mem_members]
    simp only [blockOf?, rewires.others _ different]

/-- Rewiring an instruction keeps the store coherent. -/
theorem coherent (rewires : store.Rewires user changed left) (coherent : store.Coherent) :
    left.Coherent where
  keysDistinct := by
    intro ref entry found
    by_cases same : ref = user
    · subst same
      cases rewires.self.symm.trans found
      exact rewires.keysDistinct
    · exact coherent.keysDistinct ((rewires.others ref same).symm.trans found)
  keysBelow := by
    intro ref entry found slot member
    by_cases same : ref = user
    · subst same
      cases rewires.self.symm.trans found
      exact rewires.keysBelow slot member
    · have old := coherent.keysBelow ((rewires.others ref same).symm.trans found) slot member
      exact Nat.lt_of_lt_of_le old rewires.slots
  casesDistinct := by
    intro ref entry found
    by_cases same : ref = user
    · subst same
      cases rewires.self.symm.trans found
      exact rewires.casesDistinct
    · exact coherent.casesDistinct ((rewires.others ref same).symm.trans found)
  operandPool := by
    intro ref entry found slot member value holds
    rw [rewires.pools, rewires.pools]
    by_cases same : ref = user
    · subst same
      cases rewires.self.symm.trans found
      exact rewires.operandPool slot member value holds
    · exact coherent.operandPool ((rewires.others ref same).symm.trans found) slot member value
        holds
  edged := by
    intro ref entry found slot member
    by_cases same : ref = user
    · subst same
      cases rewires.self.symm.trans found
      exact rewires.edged slot member
    · have old := (rewires.others ref same).symm.trans found
      exact rewires.edgesKept _ _ (coherent.keysBelow old slot member)
        (coherent.edged old slot member) same
  used := rewires.used
  mem_uses := rewires.uses_iff coherent
  linked := rewires.linked
  mem_members := rewires.members_iff coherent
  memberPool := by
    intro ref block linked
    rw [rewires.pools, rewires.pools]
    rw [← rewires.members_iff coherent, rewires.mem_members] at linked
    split at linked
    · rename_i same
      subst same
      exact rewires.memberPool block linked
    · exact coherent.memberPool ((coherent.mem_members block ref).1 linked)
  ownerPool := by
    intro block function owned
    rw [rewires.pools, rewires.pools]
    exact coherent.ownerPool ((rewires.owners block).symm.trans owned)
  bodyOwner := by
    intro function entry block found body
    rw [rewires.owners]
    exact coherent.bodyOwner ((rewires.functions function).symm.trans found) body
  listed := by
    intro module function member
    rw [rewires.functions, rewires.pools]
    rw [Store.functions, rewires.modules] at member
    exact coherent.listed module function member

end Rewires

end Store

end ShaderIR

import ShaderIR.Proofs.Coherence.Operands

/-!
# Moving instructions keeps the store coherent

Unlinking an instruction takes it out of the list of its block and its operand
uses out of the use-lists; linking a detached instruction puts both back.  Both
are rewirings, and every move is made of them.

Linking is the one edit that asks something of its arguments that it does not
check: the target has to be a block.
-/

namespace ShaderIR

/-- Putting an element after one of a list puts it behind the first ones up to that one. -/
theorem exists_split_insertAfter
    {position : Ref}
    (new : Ref)
    {refs : List Ref}
    (present : position ∈ refs) :
    ∃ front back, refs = front ++ back ∧ front.getLast? = some position ∧
      insertAfter position new refs = front ++ new :: back := by
  induction refs with
  | nil => cases present
  | cons first rest induction =>
      by_cases here : first = position
      · exact ⟨[first], rest, rfl, by simp [here], by simp [insertAfter, here]⟩
      · have later : position ∈ rest :=
          (List.mem_cons.1 present).resolve_left fun equal => here equal.symm
        obtain ⟨front, back, split, ends, inserted⟩ := induction later
        refine ⟨first :: front, back, by rw [split]; rfl, ?_, by simp [insertAfter, here, inserted]⟩
        rw [List.getLast?_cons, ends]
        rfl

namespace Store

section Membership

variable {store : Store} {ref block : Ref} {entry : Instruction}

/-- Unlinking an instruction is a rewiring. -/
theorem Coherent.rewires_removed
    (coherent : store.Coherent)
    (found : store.instruction? ref = some entry)
    (linked : entry.block = some block) :
    store.Rewires ref { entry with block := none }
      ((((store.modifyBlock block (·.erase ref)).relink (·.unlink ref)).modifyInstruction ref
        fun entry => { entry with block := none }).unlinkAll ref entry.operands) := by
  have member : store.blockOf? ref = some block := by rw [blockOf?, found]; exact linked
  have isBlock := coherent.isBlock_of_blockOf? member
  have distinct := coherent.keysDistinct found
  have below := coherent.keysBelow found
  have cases := coherent.casesDistinct found
  have pool := coherent.operandPool found
  constructor
  case others =>
    intro other different
    rw [instruction?_congr (content?_unlinkAll ..), instruction?_modifyInstruction,
      if_neg (Ne.symm different), instruction?_record, instruction?_modifyBlock]
  case functions =>
    intro other
    rw [function?_congr (content?_unlinkAll ..)]
    simp
  case owners =>
    intro other
    rw [blockFunction?_congr (content?_unlinkAll ..)]
    simp
  case pools => simp
  case modules => simp
  case slots => simp
  case self =>
    rw [instruction?_congr (content?_unlinkAll ..), instruction?_modifyInstruction, if_pos rfl,
      instruction?_record, instruction?_modifyBlock, found]
    rfl
  case keysDistinct => exact distinct
  case keysBelow => simpa using below
  case casesDistinct => exact cases
  case operandPool => exact pool
  case edged =>
    intro slot member
    simpa using coherent.edged found slot member
  case edgesKept =>
    intro key edge _ held _
    simpa using held
  case used =>
    refine Store.used_unlinkAll ?_ fun slot slotMember value listed => ?_
    · refine coherent.used.congr fun value => ?_
      rw [usesOf_modifyInstruction, usesOf_record, usesOf_modifyBlock]
    · rw [usesOf_modifyInstruction, usesOf_record, usesOf_modifyBlock] at listed
      have held := ((coherent.mem_usesOf_self found rfl).1 listed).2
      rw [coherent.slot_unique found slotMember held rfl]
  case mem_uses =>
    intro value use
    have taken := coherent.mem_usesOf_unlinkAll found (fun _ member => member) value use
    rw [usesOf_unlinkAll] at taken ⊢
    rw [usesOf_modifyInstruction, usesOf_record, usesOf_modifyBlock, taken]
    by_cases own : use.user = ref
    · simp only [own, coherent.mem_usesOf_self found own, if_true, true_and]
      refine iff_of_false (fun kept => kept.2 ?_) (by simp)
      exact List.mem_map_of_mem (f := Slot.key) kept.1.2
    · simp [own]
  case linked =>
    rw [links_unlinkAll]
    refine coherent.linked.unlink_erase fun other => ?_
    rw [instructions_congr (content?_unlinkAll ..), instructions_modifyInstruction,
      instructions_record, instructions_modifyBlock _ _ _ isBlock]
    split
    · rfl
    · rename_i different
      rw [List.erase_of_not_mem]
      intro listed
      rw [coherent.mem_members, member] at listed
      exact different (Option.some.inj listed)
  case mem_members =>
    intro other instruction
    rw [instructions_congr (content?_unlinkAll ..), instructions_modifyInstruction,
      instructions_record, instructions_modifyBlock _ _ _ isBlock]
    by_cases same : block = other
    · rw [if_pos same, (coherent.membersDistinct other).mem_erase_iff]
      split <;> simp_all
    · rw [if_neg same]
      split
      · rename_i own
        rw [own, coherent.mem_members, member]
        simpa using same
      · rfl
  case memberPool =>
    intro other linked
    cases linked

/-- Linking a detached instruction into a block is a rewiring. -/
theorem Coherent.rewires_inserted
    (coherent : store.Coherent)
    (found : store.instruction? ref = some entry)
    (detached : entry.block = none)
    (isBlock : store.isBlock block = true)
    (pool : store.moduleOf? ref = store.moduleOf? block)
    {insert : List Ref → List Ref}
    {front back : List Ref}
    (split : store.instructions block = front ++ back)
    (inserts : insert (store.instructions block) = front ++ ref :: back) :
    store.Rewires ref { entry with block := some block }
      ((((store.modifyBlock block insert).relink
        (·.insertAfter block ref front.getLast?)).modifyInstruction ref fun entry =>
          { entry with block := some block }).linkAll ref entry.operands) := by
  have added : (insert (store.instructions block)).Perm (ref :: store.instructions block) := by
    rw [inserts, split]
    exact List.perm_middle
  have outside : ∀ other, ref ∉ store.instructions other := by
    intro other member
    have linked := (coherent.mem_members other ref).1 member
    simp [blockOf?, found, detached] at linked
  have unused : ∀ value use, use.user = ref → use ∉ store.usesOf value := by
    intro value use own member
    have linked := ((coherent.mem_usesOf_self found own).1 member).1
    simp [detached] at linked
  have present : ∀ slot ∈ entry.operands, ∀ value, slot.value = some value →
      ((((store.modifyBlock block insert).relink
        (·.insertAfter block ref front.getLast?)).modifyInstruction ref fun entry =>
          { entry with block := some block }).value? value).isSome := by
    intro slot member value holds
    rw [← moduleOf?_isSome_iff, moduleOf?_modifyInstruction, moduleOf?_record,
      moduleOf?_modifyBlock, moduleOf?_isSome_iff]
    exact value?_isSome_of_moduleOf? found (coherent.operandPool found slot member value holds)
  have linkedUses : ∀ value,
      ((((store.modifyBlock block insert).relink
        (·.insertAfter block ref front.getLast?)).modifyInstruction ref fun entry =>
          { entry with block := some block }).linkAll ref entry.operands).usesOf value =
          store.usesOf value ++ usesAmong ref value entry.operands := by
    intro value
    rw [usesOf_linkAll _ _ fun slot member => present slot member value, usesOf_modifyInstruction,
      usesOf_record, usesOf_modifyBlock]
  have distinct := coherent.keysDistinct found
  have below := coherent.keysBelow found
  have cases := coherent.casesDistinct found
  have operandPool := coherent.operandPool found
  constructor
  case others =>
    intro other different
    rw [instruction?_congr (content?_linkAll ..), instruction?_modifyInstruction,
      if_neg (Ne.symm different), instruction?_record, instruction?_modifyBlock]
  case functions =>
    intro other
    rw [function?_congr (content?_linkAll ..)]
    simp
  case owners =>
    intro other
    rw [blockFunction?_congr (content?_linkAll ..)]
    simp
  case pools => simp
  case modules => simp
  case slots => simp
  case self =>
    rw [instruction?_congr (content?_linkAll ..), instruction?_modifyInstruction, if_pos rfl,
      instruction?_record, instruction?_modifyBlock, found]
    rfl
  case keysDistinct => exact distinct
  case keysBelow => simpa using below
  case casesDistinct => exact cases
  case operandPool => exact operandPool
  case edged =>
    intro slot member
    simpa using coherent.edged found slot member
  case edgesKept =>
    intro key edge _ held _
    simpa using held
  case used =>
    refine used_linkAll ?_ distinct ?_ present
    · refine coherent.used.congr fun value => ?_
      rw [usesOf_modifyInstruction, usesOf_record, usesOf_modifyBlock]
    · intro slot _ value
      rw [usesOf_modifyInstruction, usesOf_record, usesOf_modifyBlock]
      exact unused value _ rfl
  case mem_uses =>
    intro value use
    rw [linkedUses, List.mem_append, mem_usesAmong]
    by_cases own : use.user = ref
    · simp [own, unused value use own]
    · simp [own]
  case linked =>
    have unlisted : store.links.owner ref = none := by
      cases holds : store.links.owner ref with
      | none => rfl
      | some other => exact absurd ((coherent.linked.owner ref other).1 holds) (outside other)
    rw [links_linkAll]
    refine coherent.linked.insertAfter unlisted split ?_ fun other different => ?_
    · rw [instructions_congr (content?_linkAll ..), instructions_modifyInstruction,
        instructions_record, instructions_modifyBlock _ _ _ isBlock, if_pos rfl, inserts]
    · rw [instructions_congr (content?_linkAll ..), instructions_modifyInstruction,
        instructions_record, instructions_modifyBlock _ _ _ isBlock, if_neg (Ne.symm different)]
  case mem_members =>
    intro other instruction
    rw [instructions_congr (content?_linkAll ..), instructions_modifyInstruction,
      instructions_record, instructions_modifyBlock _ _ _ isBlock]
    by_cases same : block = other
    · subst same
      rw [if_pos rfl, added.mem_iff, List.mem_cons]
      split <;> simp_all
    · rw [if_neg same]
      split
      · rename_i own
        rw [own]
        simpa [same] using outside other
      · rfl
  case memberPool =>
    intro other linked
    cases linked
    exact pool

/-- Linking a detached instruction right after one of a block is a rewiring. -/
theorem Coherent.rewires_insertedAfter
    (coherent : store.Coherent)
    (found : store.instruction? ref = some entry)
    (detached : entry.block = none)
    (pool : store.moduleOf? ref = store.moduleOf? block)
    {position : Ref}
    (placed : store.blockOf? position = some block) :
    store.Rewires ref { entry with block := some block }
      ((((store.modifyBlock block (insertAfter position ref)).relink
        (·.insertAfter block ref (some position))).modifyInstruction ref fun entry =>
          { entry with block := some block }).linkAll ref entry.operands) := by
  obtain ⟨front, back, split, ends, inserted⟩ :=
    exists_split_insertAfter ref ((coherent.mem_members block position).2 placed)
  have rewires := coherent.rewires_inserted found detached (coherent.isBlock_of_blockOf? placed)
    pool split inserted
  rwa [ends] at rewires

end Membership

end Store

namespace Edit

open Store

variable {α β : Type}

/-- Sequencing for `Keeps`, where the second part may rely on what the first one kept. -/
theorem keeps_bindAt
    {edit : Edit α}
    {next : α → Edit β}
    {store : Store}
    (first : store.Keeps (outcome edit store).2)
    (second : ∀ answer left, Gives edit store answer left → left.Coherent →
      (∀ block, store.isBlock block = true → left.isBlock block = true) →
        left.Keeps (outcome (next answer) left).2) :
    store.Keeps (outcome (edit >>= next) store).2 := by
  intro coherent
  obtain ⟨coherent', kept⟩ := first coherent
  refine Respects.bindAt first (fun answer left given => ?_) coherent
  rw [given] at coherent' kept
  exact second answer left given coherent' kept

theorem remove_keeps (ref : Ref) : Respects Keeps (remove ref) := by
  intro store
  refine Respects.bindInstruction fun entry found => ?_
  cases linked : entry.block with
  | none => exact Respects.pure () store
  | some block => exact Rewires.keeps fun coherent => coherent.rewires_removed found linked

theorem gives_linkedBlock_iff
    {position : Option Ref}
    {violation : Violation}
    {store left : Store}
    {answer : Ref × Ref} :
    Gives (linkedBlock position violation) store answer left ↔
      position = some answer.1 ∧ store.blockOf? answer.1 = some answer.2 ∧ left = store := by
  unfold linkedBlock
  cases position with
  | none => simp [not_gives_violate]
  | some target =>
      simp only [gives_bind_iff, gives_see_iff]
      constructor
      · rintro ⟨_, between, ⟨rfl, rfl⟩, rest⟩
        cases linked : between.blockOf? target with
        | none =>
            rw [linked] at rest
            exact absurd rest not_gives_violate
        | some block =>
            rw [linked] at rest
            obtain ⟨rfl, rfl⟩ := gives_pure_iff.1 rest
            exact ⟨rfl, linked, rfl⟩
      · rintro ⟨equal, linked, rfl⟩
        cases equal
        refine ⟨_, _, ⟨rfl, rfl⟩, ?_⟩
        rw [linked]
        exact gives_pure_iff.2 ⟨rfl, rfl⟩

theorem linkedBlock_respects
    {related : Store → Store → Prop}
    [Lasting related]
    (position : Option Ref)
    (violation : Violation) :
    Respects related (linkedBlock position violation) := by
  cases position with
  | none => exact Respects.violate violation
  | some target =>
      refine Respects.bind (Respects.see _) fun block => ?_
      cases block with
      | none => exact Respects.violate violation
      | some block => exact Respects.pure _

theorem insertInto_keeps
    {block ref : Ref}
    {after : Option Ref}
    {store : Store}
    (isBlock : store.isBlock block = true) :
    store.Keeps (outcome (insertInto block ref after) store).2 := by
  refine Respects.bindAt (Respects.see _ store) fun pool left given => ?_
  obtain ⟨rfl, rfl⟩ := gives_see_iff.1 given
  refine Respects.bindAt (Respects.require _ _ left) fun _ left given => ?_
  obtain ⟨pool, rfl⟩ := gives_require_iff.1 given
  rw [beq_iff_eq] at pool
  refine Respects.bindInstruction fun entry found => ?_
  refine Respects.bindAt (Respects.require _ _ left) fun _ left given => ?_
  obtain ⟨detached, rfl⟩ := gives_require_iff.1 given
  rw [Option.isNone_iff_eq_none] at detached
  cases after with
  | none =>
      exact Rewires.keeps fun coherent =>
        coherent.rewires_inserted found detached isBlock pool (List.nil_append _).symm rfl
  | some position =>
      refine Respects.bindAt (Respects.see _ left) fun placed left given => ?_
      obtain ⟨rfl, rfl⟩ := gives_see_iff.1 given
      refine Respects.bindAt (Respects.require _ _ left) fun _ left given => ?_
      obtain ⟨placed, rfl⟩ := gives_require_iff.1 given
      rw [beq_iff_eq] at placed
      exact Rewires.keeps fun coherent =>
        coherent.rewires_insertedAfter found detached pool placed

theorem append_keeps
    {block ref : Ref}
    {store : Store}
    (isBlock : store.isBlock block = true) :
    store.Keeps (outcome (append block ref) store).2 := by
  refine keeps_bindAt (remove_keeps ref store) fun _ left _ _ kept => ?_
  refine Respects.bindAt (Respects.see _ left) fun members left' given => ?_
  obtain ⟨-, rfl⟩ := gives_see_iff.1 given
  exact insertInto_keeps (kept block isBlock)

theorem prepend_keeps
    {block ref : Ref}
    {store : Store}
    (isBlock : store.isBlock block = true) :
    store.Keeps (outcome (prepend block ref) store).2 :=
  keeps_bindAt (remove_keeps ref store) fun _ _ _ _ kept =>
    insertInto_keeps (kept block isBlock)

theorem insertBefore_keeps (ref : Ref) (position : Option Ref) :
    Respects Keeps (insertBefore ref position) := by
  intro store
  refine keeps_bindAt (linkedBlock_respects position _ store) fun answer left given coherent _ => ?_
  obtain ⟨target, block⟩ := answer
  obtain ⟨-, linked, rfl⟩ := gives_linkedBlock_iff.1 given
  have isBlock := coherent.isBlock_of_blockOf? linked
  by_cases same : target = ref
  · simp only [same, if_true]
    exact Respects.pure () left
  simp only [same, if_false]
  refine keeps_bindAt (remove_keeps ref left) fun _ between _ _ kept => ?_
  refine Respects.bindAt (Respects.see _ between) fun before between' given => ?_
  obtain ⟨-, rfl⟩ := gives_see_iff.1 given
  exact insertInto_keeps (kept _ isBlock)

theorem insertBehind_keeps (ref : Ref) (position : Option Ref) :
    Respects Keeps (insertBehind ref position) := by
  intro store
  refine keeps_bindAt (linkedBlock_respects position _ store) fun answer left given coherent _ => ?_
  obtain ⟨target, block⟩ := answer
  obtain ⟨-, linked, rfl⟩ := gives_linkedBlock_iff.1 given
  have isBlock := coherent.isBlock_of_blockOf? linked
  by_cases same : target = ref
  · simp only [same, if_true]
    exact Respects.pure () left
  simp only [same, if_false]
  exact keeps_bindAt (remove_keeps ref left) fun _ _ _ _ kept =>
    insertInto_keeps (kept _ isBlock)

end Edit

end ShaderIR

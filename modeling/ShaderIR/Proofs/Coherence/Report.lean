import ShaderIR.Proofs.Coherence.Edges
import ShaderIR.Proofs.Coherence.Session
import ShaderIR.Proofs.Traversal.Order
import ShaderIR.Validation

/-!
# What validation can say of a coherent store

Some complaints of validation are about the program (a block without terminator,
a phi with an incoming block that is no predecessor), others are about the
records of the store (a use that is missing from a use-list, an instruction
that is listed by a block it is not linked into).  In a coherent store there is
no reason for a complaint of the second kind.
-/

namespace ShaderIR

namespace Validation

section Program

variable (store : Store)

end Program

/-! ## No complaint about the records -/

section Records

variable {store : Store} (coherent : store.Coherent)

include coherent

/-- Of an operand of a linked instruction, validation only judges where it is defined. -/
theorem operandMessages_eq
    {place : Place}
    {entry : Instruction}
    (found : store.instruction? place.instruction = some entry)
    (linked : entry.block.isSome)
    (pool : store.moduleOf? place.instruction = some place.module)
    (index : Nat)
    {slot : Slot}
    (member : slot ∈ entry.operands) :
    operandMessages store place index slot =
      slot.value.elim [] (definitionMessages store place.function index) := by
  have use : useOf? store slot = some ⟨place.instruction, slot.key⟩ := by
    simp [useOf?, coherent.edged found slot member]
  unfold operandMessages
  rw [use]
  cases value : slot.value with
  | none => simp [note]
  | some operand =>
      have samePool := coherent.operandPool found slot member operand value
      have attached : store.isAttached ⟨place.instruction, slot.key⟩ = true := by
        have listed : (⟨place.instruction, slot.key⟩ : Use) ∈ store.usesOf operand := by
          refine (coherent.mem_uses operand _).2 ⟨entry, found, linked, ?_⟩
          rw [← value]
          exact member
        rw [Store.isAttached, (coherent.used.owner _ operand).2 listed]
        rfl
      simp [presentMessages, use, samePool, pool, attached, note]

theorem length_members_le (block : Ref) :
    (store.instructions block).length ≤ store.values.size :=
  Store.length_le_size (coherent.membersDistinct block) fun ref member =>
    Store.value?_isSome_of_blockOf? (by rw [(coherent.mem_members block ref).1 member]; rfl)

/-- The instructions that validation finds in a block are those of the block. -/
theorem walk?_members (block : Ref) :
    store.links.walk? store.values.size (store.links.first block) =
      some (store.instructions block) :=
  coherent.linked.walk?_first block (length_members_le coherent block)

/-- The last instruction of a block is the one that nothing follows. -/
theorem isLast_eq
    {block ref : Ref}
    {before rest : List Ref}
    (split : store.instructions block = before ++ ref :: rest) :
    (store.links.last block == some ref) = rest.isEmpty := by
  rw [coherent.linked.last block, split]
  have distinct := coherent.membersDistinct block
  rw [split] at distinct
  have later := (List.nodup_cons.1 (List.nodup_append.1 distinct).2.1).1
  cases rest with
  | nil => simp
  | cons next rest =>
      rw [List.getLast?_append, List.getLast?_cons_cons, List.isEmpty_cons, beq_eq_false_iff_ne]
      intro ends
      rw [List.getLast?_eq_some_getLast (List.cons_ne_nil next rest), Option.some_or] at ends
      exact later (Option.some.inj ends ▸ List.getLast_mem _)

/-- What validation says of a block of a coherent store, said of its list. -/
theorem blockIssues?_eq {module : Nat} {function block : Ref} :
    blockIssues? store module function block =
      let owner := note (store.blockFunction? block != some function)
        "block is reachable from a different function"
      if (store.instructions block).isEmpty then
        some ((owner ++ ["reachable block is empty"]).map (blockIssue store function block))
      else
        (instructionIssues? store module function block (store.predecessors block) none false
          (store.instructions block)).map fun issues =>
            (owner ++ note (store.terminator? block).isNone
              "reachable block does not end in a terminator").map
                (blockIssue store function block) ++ issues := by
  have ending : (!(store.links.last block).any store.isTerminator) =
      (store.terminator? block).isNone := by
    rw [coherent.linked.last block, Store.terminator?]
    cases (store.instructions block).getLast? with
    | none => rfl
    | some ref => cases ends : store.isTerminator ref <;> simp [Option.filter, ends]
  unfold blockIssues?
  rw [coherent.linked.count block, walk?_members coherent block, ending]
  simp only [List.length_eq_zero_iff, List.isEmpty_iff]
  split
  · rfl
  · rw [Option.map_eq_bind]
    simp only [Option.bind_eq_bind, Option.bind_some, bne_self_eq_false, note, List.map_nil,
      List.append_nil, Bool.false_eq_true, if_false]
    rfl

/-- The blocks reached from the body of a function lie in the module of the function. -/
theorem moduleOf?_of_mem_reversePostOrder
    {module : Nat}
    {function block : Ref}
    (pool : store.moduleOf? function = some module)
    (member : block ∈ store.reversePostOrder function) :
    store.moduleOf? block = some module := by
  obtain ⟨body, bodyFound, reaches⟩ := Store.reaches_of_mem_reversePostOrder member
  obtain ⟨entry, entryFound, bodyEqual⟩ := Option.bind_eq_some_iff.1 bodyFound
  have owned := coherent.bodyOwner entryFound bodyEqual
  exact (coherent.moduleOf?_of_reaches reaches).trans ((coherent.ownerPool owned).trans pool)

theorem useMessages_eq_nil {ref : Ref} {use : Use} (member : use ∈ store.usesOf ref) :
    useMessages store ref use = [] := by
  obtain ⟨entry, found, linked, slotMember⟩ := (coherent.mem_uses ref use).1 member
  have edge : store.edge? use = some ⟨use.user, some ref⟩ :=
    coherent.edge?_of_mem found slotMember
  have owned : entry.operands.any (·.key == use.slot) = true :=
    List.any_eq_true.2 ⟨_, slotMember, beq_self_eq_true _⟩
  simp [useMessages, edge, found, Option.filter, linked, owned, note]

/-- A value has no more uses than slots were made. -/
theorem length_usesOf_le (ref : Ref) : (store.usesOf ref).length ≤ store.nextSlot := by
  have distinct : ((store.usesOf ref).map (·.slot)).Nodup := by
    refine List.Nodup.map_on (fun first firstMember second secondMember sameSlot => ?_)
      (coherent.usesDistinct ref)
    obtain ⟨entry, found, -, held⟩ := (coherent.mem_uses ref first).1 firstMember
    obtain ⟨entry', found', -, held'⟩ := (coherent.mem_uses ref second).1 secondMember
    -- The edge of the slot names the one instruction that has it.
    have edge := coherent.edged found _ held
    have edge' := coherent.edged found' _ held'
    rw [sameSlot] at edge
    cases first
    cases second
    cases edge.symm.trans edge'
    cases sameSlot
    rfl
  have below : (store.usesOf ref).map (·.slot) ⊆ List.range store.nextSlot := by
    intro slot listed
    obtain ⟨use, member, rfl⟩ := List.mem_map.1 listed
    obtain ⟨entry, found, -, held⟩ := (coherent.mem_uses ref use).1 member
    exact List.mem_range.2 (coherent.keysBelow found _ held)
  simpa using (List.subperm_of_subset distinct below).length_le

theorem useListMessages?_eq (ref : Ref) : useListMessages? store ref = some [] := by
  have walked := coherent.used.walk?_first ref (length_usesOf_le coherent ref)
  have quiet : (store.usesOf ref).flatMap (useMessages store ref) = [] :=
    List.flatMap_eq_nil_iff.2 fun use member => useMessages_eq_nil coherent member
  simp [useListMessages?, walked, quiet, coherent.used.count ref, note]

theorem useIssues?_eq (entry : Module) : useIssues? store entry = some [] := by
  have judged : ∀ refs : List Ref,
      refs.mapM (useListMessages? store) = some (refs.map fun _ => []) := by
    intro refs
    induction refs with
    | nil => rfl
    | cons ref rest induction =>
        rw [List.mapM_cons, useListMessages?_eq coherent, induction]
        rfl
  simp [useIssues?, judged]

end Records

end Validation

open Edit

/-- The neighbours of the instructions of a block are their neighbours in its list. -/
def Store.Chained (store : Store) (block : Ref) : Prop :=
  ∀ before ref after, store.instructions block = before ++ ref :: after →
    store.previous? ref = before.getLast? ∧ store.next? ref = after.head?

theorem Store.Coherent.chained {store : Store} (coherent : store.Coherent) (block : Ref) :
    store.Chained block :=
  fun _ _ _ split => ⟨coherent.linked.previous split, coherent.linked.next split⟩

/--
A use that its user has dropped can still be pointed at a value, but that breaks the records:
while the user is linked, the use is then in the use-list of the value and yet no operand.
-/
theorem Store.Coherent.astray_of_setSlot
    {store : Store}
    {user value : Ref}
    {key : Nat}
    {edge : Edge}
    {entry : Instruction}
    (found : store.instruction? user = some entry)
    (linked : entry.block.isSome)
    (known : store.edge? ⟨user, key⟩ = some edge)
    (dropped : ∀ slot ∈ entry.operands, slot.key ≠ key)
    (pool : store.moduleOf? value = store.moduleOf? user) :
    ∃ left, Gives (setSlot user key (some value)) store () left ∧
      ⟨user, key⟩ ∈ left.usesOf value ∧ ¬left.Uses ⟨user, key⟩ value ∧ ¬left.Coherent := by
  have unchanged : entry.operands.map (fun slot =>
      if slot.key == key then { slot with value := some value } else slot) = entry.operands := by
    refine (List.map_congr_left fun slot member => ?_).trans (List.map_id _)
    rw [if_neg (by simpa using dropped slot member), id]
  generalize placed : ((store.unlink edge.value ⟨user, key⟩).putEdge key
    { edge with value := some value }).modifyInstruction user (fun entry =>
      { entry with
        operands := entry.operands.map fun slot =>
          if slot.key == key then { slot with value := some value } else slot }) = between
  have same : between.instruction? user = some entry := by
    rw [← placed, instruction?_modifyInstruction, if_pos rfl, instruction?_record,
      instruction?_congr (content?_unlink ..), found, Option.map_some, unchanged]
  have present : (between.value? value).isSome := by
    rw [← moduleOf?_isSome_iff, ← placed, moduleOf?_modifyInstruction, moduleOf?_record,
      moduleOf?_unlink, pool, moduleOf?_isSome_iff]
    exact value?_isSome_of_instruction? found
  have listed : (⟨user, key⟩ : Use) ∈ (between.link (some value) ⟨user, key⟩).usesOf value := by
    rw [usesOf_link _ _ fun _ => present, if_pos rfl]
    exact List.mem_append_right _ (List.mem_singleton_self _)
  have astray : ¬(between.link (some value) ⟨user, key⟩).Uses ⟨user, key⟩ value := by
    rintro ⟨entry', found', -, member⟩
    rw [instruction?_congr (content?_link ..), same] at found'
    cases found'
    exact dropped _ member rfl
  refine ⟨between.link (some value) ⟨user, key⟩, ?_, listed, astray,
    fun coherent => astray ((coherent.mem_uses _ _).1 listed)⟩
  have admitted : ∀ ref, some value = some ref → store.moduleOf? ref = store.moduleOf? user := by
    rintro _ ⟨⟩
    exact pool
  refine gives_bind_iff.2 ⟨(), store, gives_requireSamePool_iff.2 ⟨admitted, rfl⟩,
    gives_instruction_bind_iff.2 ⟨entry, found, gives_see_bind_iff.2
      (gives_demand_bind_iff.2 ⟨edge, known, gives_see_bind_iff.2 ?_⟩)⟩⟩
  rw [linked, Bool.or_true, if_pos rfl, ← placed]
  exact rfl

/-- A store with operands the wrong way round is refused, and the body is left without an end. -/
def Session.unended : List Operation :=
  [.edit (.addModule "unended"),
    .edit (.createFunction 0 .kernel none),
    .edit (.createBody ⟨0⟩),
    .edit (.constantInt32 0 1),
    .moveToEnd ⟨1⟩, .alloca (some (.scalar ⟨0, 0, "i32"⟩ (.signed 4))) .local,
    .store (some ⟨2⟩) (some ⟨3⟩),
    .store (some ⟨3⟩) (some ⟨2⟩)]

end ShaderIR

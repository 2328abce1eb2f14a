import ShaderIR.Proofs.Control.Acceptance
import ShaderIR.Proofs.Control.SsaForm
import ShaderIR.Proofs.Elimination.DwindlingSteps

/-!
# Condensing a program

Removing code takes out instructions that nothing uses any more, and lets operands give way
to others.  Where a value that takes the place of an instruction is there when control comes
to the instruction, control goes on as before and the form of a function is kept.
-/

namespace ShaderIR

/-- An instruction with its operands replaced. -/
def Instruction.becoming (become : Ref → Ref) (entry : Instruction) : Instruction :=
  { entry with
    operands := entry.operands.map fun slot => { slot with value := slot.value.map become } }

theorem Instruction.values_becoming (become : Ref → Ref) (entry : Instruction) :
    (entry.becoming become).values = entry.values.map (Option.map become) := by
  simp [values, becoming, Function.comp_def]

/-- A value that takes the place of another one. -/
def Ref.instead (old new ref : Ref) : Ref := if ref = old then new else ref

theorem Ref.instead_old (old new : Ref) : Ref.instead old new old = new := if_pos rfl

theorem Ref.instead_of_ne {old new ref : Ref} (different : ref ≠ old) :
    Ref.instead old new ref = ref :=
  if_neg different

theorem Ref.eq_of_instead_ne {old new ref : Ref} (different : Ref.instead old new ref ≠ ref) :
    ref = old := by
  by_contra other
  exact different (Ref.instead_of_ne other)

theorem Slot.redirected_eq (old new : Ref) (slot : Slot) :
    slot.redirected old new = { slot with value := slot.value.map (Ref.instead old new) } := by
  unfold redirected
  split
  · rename_i same
    rw [same, Option.map_some, Ref.instead_old]
  · rename_i other
    obtain ⟨key, _ | value⟩ := slot
    · rfl
    · rw [Option.map_some, Ref.instead_of_ne fun same => other (congrArg some same)]

theorem Instruction.redirected_of_linked
    {entry : Instruction}
    (old new : Ref)
    (linked : entry.block.isSome) :
    entry.redirected old new = entry.becoming (Ref.instead old new) := by
  rw [redirected, if_pos linked, becoming, funext (Slot.redirected_eq old new)]

namespace Store

/-- An instruction of a reached block of a function can give way to another value of its type. -/
structure Yields (store : Store) (function ref value : Ref) : Prop where
  reached : ∃ block, store.Reached function block ∧ ref ∈ store.instructions block
  sameType : store.typeOf value = store.typeOf ref
  present : (store.value? value).isSome
  notBlock : store.isBlock value = false
  belongs : store.BelongsTo function value
  /-- What is not undefined comes from the operands of the instruction. -/
  merged : store.isUndefined value = false → some value ∈ store.operands ref
  /-- The result of another instruction is there when control comes to the instruction. -/
  placed : ∀ {block home}, store.blockOf? ref = some block → store.blockOf? value = some home →
    store.Dominates function home block ∧
      ∀ {before rest}, home = block → store.instructions block = before ++ ref :: rest →
        value ∈ before

/-- Instructions are taken out that nothing uses afterwards, and operands become others. -/
structure Condenses (store : Store) (gone : List Ref) (become : Ref → Ref) (left : Store) :
    Prop where
  trims : store.Trims left
  instructions : ∀ block, left.instructions block = (store.instructions block).filter (· ∉ gone)
  instruction? : ∀ {ref}, ref ∉ gone → (store.blockOf? ref).isSome →
    left.instruction? ref = (store.instruction? ref).map (Instruction.becoming become)
  unused : ∀ ref ∈ gone, left.usesOf ref = []
  ends : ∀ ref ∈ gone, store.isTerminator ref = false

/-- Only instructions of a function become something else, each a value that it can give way to. -/
def YieldsTo (store : Store) (function : Ref) (become : Ref → Ref) : Prop :=
  ∀ ref, become ref = ref ∨ store.Yields function ref (become ref)

variable {store left : Store} {gone functions : List Ref} {become : Ref → Ref}
  {function block ref user operand home source : Ref}

theorem present_of_mem_operands
    (coherent : store.Coherent)
    (operandOf : some operand ∈ store.operands user) :
    (store.value? operand).isSome := by
  obtain ⟨entry, found, slot, member, holds⟩ := some_mem_operands_iff.1 operandOf
  have pool := coherent.operandPool found slot member operand holds
  rw [← moduleOf?_isSome_iff, pool, moduleOf?_isSome_iff]
  exact value?_isSome_of_isInstruction (isInstruction_of_mem_operands operandOf)

namespace Yields

variable {value : Ref}

theorem isInstruction (yields : store.Yields function ref value) (coherent : store.Coherent) :
    store.isInstruction ref = true := by
  obtain ⟨block, -, member⟩ := yields.reached
  exact isInstruction_of_linked
    (Option.isSome_of_eq_some ((coherent.mem_members block ref).1 member))

theorem attached
    (yields : store.Yields function ref value)
    (isInstruction : store.isInstruction value = true) :
    (store.blockOf? value).isSome := by
  obtain ⟨entry, found⟩ := Option.isSome_iff_exists.1 isInstruction
  obtain ⟨home, placed, -⟩ := yields.belongs.instruction found
  exact Option.isSome_of_eq_some (blockOf?_eq_some_iff.2 ⟨entry, found, placed⟩)

/-- A function comes from the operands of the instruction. -/
theorem callee
    (yields : store.Yields function ref value)
    (isFunction : store.isFunction value = true) :
    some value ∈ store.operands ref := by
  refine yields.merged ?_
  rw [Bool.eq_false_iff]
  intro undefined
  simp [Store.isFunction, function?, isUndefined_iff.1 undefined] at isFunction

/-- An instruction without constants among its operands gives way to no constant. -/
theorem isConstant
    (yields : store.Yields function ref value)
    (spared : ∀ operand, some operand ∈ store.operands ref → store.isConstant operand = false) :
    store.isConstant value = false := by
  cases undefined : store.isUndefined value with
  | false => exact spared value (yields.merged undefined)
  | true => rw [Store.isConstant, isUndefined_iff.1 undefined]

end Yields

namespace Condenses

section Plain

variable (condenses : store.Condenses gone become left) (coherent : store.Coherent)

include condenses

/-! ## Instructions -/

theorem blockOf?_eq_some_iff (coherent : store.Coherent) :
    left.blockOf? ref = some block ↔ store.blockOf? ref = some block ∧ ref ∉ gone := by
  rw [← condenses.trims.coherent.mem_members, ← coherent.mem_members, condenses.instructions,
    List.mem_filter, decide_eq_true_iff]

include coherent

theorem linked (linked : (left.blockOf? ref).isSome) :
    (store.blockOf? ref).isSome ∧ ref ∉ gone := by
  obtain ⟨block, linked⟩ := Option.isSome_iff_exists.1 linked
  obtain ⟨linked, kept⟩ := (condenses.blockOf?_eq_some_iff coherent).1 linked
  exact ⟨Option.isSome_of_eq_some linked, kept⟩

theorem opcode? (isLinked : (left.blockOf? ref).isSome) : left.opcode? ref = store.opcode? ref := by
  obtain ⟨isLinked, kept⟩ := condenses.linked coherent isLinked
  rw [Store.opcode?, Store.opcode?, condenses.instruction? kept isLinked, Option.map_map]
  rfl

theorem operands (isLinked : (left.blockOf? ref).isSome) :
    left.operands ref = (store.operands ref).map (Option.map become) := by
  obtain ⟨isLinked, kept⟩ := condenses.linked coherent isLinked
  rw [Store.operands, Store.operands, condenses.instruction? kept isLinked]
  cases store.instruction? ref with
  | none => rfl
  | some entry => exact entry.values_becoming become

theorem exists_operand
    (isLinked : (left.blockOf? user).isSome)
    (operandOf : some operand ∈ left.operands user) :
    ∃ former, some former ∈ store.operands user ∧ become former = operand := by
  rw [condenses.operands coherent isLinked] at operandOf
  obtain ⟨former, member, becomes⟩ := List.mem_map.1 operandOf
  obtain ⟨former, rfl, rfl⟩ := Option.map_eq_some_iff.1 becomes
  exact ⟨former, member, rfl⟩

omit coherent in
theorem kept_of_operand
    (isLinked : (left.blockOf? user).isSome)
    (operandOf : some operand ∈ left.operands user) :
    operand ∉ gone := fun taken =>
  condenses.trims.coherent.usesOf_eq_nil_iff.1 (condenses.unused operand taken) user isLinked
    operandOf

theorem isPhi (isLinked : (left.blockOf? ref).isSome) : left.isPhi ref = store.isPhi ref := by
  rw [Store.isPhi, Store.isPhi, condenses.opcode? coherent isLinked]

theorem isTerminator (isLinked : (left.blockOf? ref).isSome) :
    left.isTerminator ref = store.isTerminator ref := by
  rw [Store.isTerminator, Store.isTerminator, condenses.opcode? coherent isLinked]

theorem incomings? (isLinked : (left.blockOf? ref).isSome) :
    left.incomings? ref = (store.incomings? ref).map
      (List.map fun pair => (pair.1.map become, pair.2)) := by
  obtain ⟨isLinked, kept⟩ := condenses.linked coherent isLinked
  rw [Store.incomings?, Store.incomings?, condenses.instruction? kept isLinked]
  cases store.instruction? ref with
  | none => rfl
  | some entry =>
      simp only [Option.map_some, Option.bind_some, Instruction.values_becoming]
      have lengths : (entry.becoming become).operands.length = entry.operands.length := by
        simp [Instruction.becoming]
      rw [lengths]
      change (if entry.operands.length < entry.opcode.incomingBlocks.length then none else _) = _
      split
      · rfl
      · rw [Option.map_some, List.zip_map_left]
        rfl

/-! ## Blocks -/

omit coherent in
theorem isLinked_of_mem (member : ref ∈ left.instructions block) : (left.blockOf? ref).isSome :=
  Option.isSome_of_eq_some ((condenses.trims.coherent.mem_members block ref).1 member)

/-- A block keeps its phis and its other instructions, unless a phi comes first among these then. -/
theorem phis_and_rest
    (first : ∀ ref ∈ ((store.afterPhis block).filter (· ∉ gone)).head?,
      store.isPhi ref = false) :
    left.phis block = (store.phis block).filter (· ∉ gone) ∧
      left.afterPhis block = (store.afterPhis block).filter (· ∉ gone) := by
  have split : left.instructions block = (store.phis block).filter (· ∉ gone) ++
      (store.afterPhis block).filter (· ∉ gone) := by
    rw [condenses.instructions, ← List.filter_append, Store.phis, Store.afterPhis,
      List.takeWhile_append_dropWhile]
  have isPhi : ∀ {ref}, ref ∈ left.instructions block → left.isPhi ref = store.isPhi ref :=
    fun member => condenses.isPhi coherent (condenses.isLinked_of_mem member)
  have front : ∀ ref ∈ (store.phis block).filter (· ∉ gone), left.isPhi ref = true := by
    intro ref member
    rw [isPhi (split ▸ List.mem_append_left _ member)]
    exact isPhi_of_mem_phis (List.mem_filter.1 member).1
  have behind : ∀ ref ∈ ((store.afterPhis block).filter (· ∉ gone)).head?,
      ¬left.isPhi ref = true := by
    intro ref member
    rw [isPhi (split ▸ List.mem_append_right _ (List.mem_of_mem_head? member)), first ref member]
    exact Bool.false_ne_true
  have head (nonempty : 0 < ((store.afterPhis block).filter (· ∉ gone)).length) :
      ¬left.isPhi (((store.afterPhis block).filter (· ∉ gone)).get ⟨0, nonempty⟩) = true := by
    refine behind _ ?_
    rw [List.head?_eq_getElem?, List.getElem?_eq_getElem nonempty]
    rfl
  constructor
  · rw [Store.phis, split, List.takeWhile_append_of_pos front, List.takeWhile_eq_nil_iff.2 head,
      List.append_nil]
  · rw [Store.afterPhis, split, List.dropWhile_append_of_pos front,
      List.dropWhile_eq_self_iff.2 head]

omit condenses coherent in
/-- A phi does not come first if all phis are at the head of their block, or if nothing is lost. -/
theorem first_of_heads
    (heads : (∃ lost ∈ gone, lost ∈ store.instructions block) →
      ∀ ref ∈ store.afterPhis block, store.isPhi ref = false) :
    ∀ ref ∈ ((store.afterPhis block).filter (· ∉ gone)).head?, store.isPhi ref = false := by
  intro ref member
  by_cases loses : ∃ lost ∈ gone, lost ∈ store.instructions block
  · exact heads loses ref (List.mem_filter.1 (List.mem_of_mem_head? member)).1
  · have whole : (store.afterPhis block).filter (· ∉ gone) = store.afterPhis block := by
      refine List.filter_eq_self.2 fun kept behind => decide_eq_true fun lost => ?_
      exact loses ⟨kept, lost, (List.dropWhile_sublist _).subset behind⟩
    have first := List.head?_dropWhile_not store.isPhi (store.instructions block)
    rw [whole, Store.afterPhis, Option.mem_def] at member
    rw [member] at first
    exact first

/-- The terminator of a block is kept if the block has no others. -/
theorem terminator?
    (single :
    ∀ {before ref rest}, store.instructions block = before ++ ref :: rest →
      store.isTerminator ref = true → rest = []) :
    left.terminator? block = store.terminator? block := by
  have isTerminator : ∀ {ref}, ref ∈ left.instructions block →
      left.isTerminator ref = store.isTerminator ref :=
    fun member => condenses.isTerminator coherent (condenses.isLinked_of_mem member)
  refine Option.ext fun terminator => ?_
  rw [terminator?_eq_some_iff, terminator?_eq_some_iff]
  constructor
  · rintro ⟨last, ends⟩
    have member := List.mem_of_getLast? last
    rw [isTerminator member] at ends
    rw [condenses.instructions] at member
    obtain ⟨before, rest, split⟩ := List.append_of_mem (List.mem_filter.1 member).1
    cases single split ends
    exact ⟨by rw [split, List.getLast?_concat], ends⟩
  · rintro ⟨last, ends⟩
    have kept : terminator ∉ gone := fun taken => by
      rw [condenses.ends terminator taken] at ends
      cases ends
    obtain ⟨before, split⟩ := List.getLast?_eq_some_iff.1 last
    have last : (left.instructions block).getLast? = some terminator := by
      rw [condenses.instructions, split, List.filter_append, List.filter_singleton]
      simp [kept]
    exact ⟨last, (isTerminator (List.mem_of_getLast? last)).trans ends⟩

end Plain

/-! ## Control -/

section Control

variable (condenses : store.Condenses gone become left) (coherent : store.Coherent)
  (yieldsTo : store.YieldsTo function become)

include condenses coherent yieldsTo

omit condenses in
/-- Blocks are operands as before. -/
theorem isBlock_become (ref : Ref) (isBlock : store.isBlock ref = true) : become ref = ref := by
  rcases yieldsTo ref with same | yields
  · exact same
  · have isInstruction := yields.isInstruction coherent
    obtain ⟨owner, members, found⟩ := isBlock_iff.1 isBlock
    simp [Store.isInstruction, Store.instruction?, found] at isInstruction

omit condenses in
theorem become_eq_block_iff (isBlock : store.isBlock block = true) :
    become operand = block ↔ operand = block := by
  constructor
  · intro becomes
    rcases yieldsTo operand with same | yields
    · exact same.symm.trans becomes
    · have notBlock := yields.notBlock
      rw [becomes, isBlock] at notBlock
      cases notBlock
  · rintro rfl
    exact isBlock_become coherent yieldsTo operand isBlock

theorem block_mem_operands_iff
    (isBlock : store.isBlock block = true)
    (isLinked : (left.blockOf? user).isSome) :
    some block ∈ left.operands user ↔ some block ∈ store.operands user := by
  rw [condenses.operands coherent isLinked, List.mem_map]
  constructor
  · rintro ⟨operand, member, becomes⟩
    obtain ⟨operand, rfl, same⟩ := Option.map_eq_some_iff.1 becomes
    rwa [← (become_eq_block_iff coherent yieldsTo isBlock).1 same]
  · intro member
    exact ⟨some block, member, congrArg some (isBlock_become coherent yieldsTo block isBlock)⟩

theorem mem_successors_iff
    (single : ∀ {before ref rest}, store.instructions source = before ++ ref :: rest →
      store.isTerminator ref = true → rest = []) :
    block ∈ left.successors source ↔ block ∈ store.successors source := by
  rw [Store.mem_successors_iff, Store.mem_successors_iff, condenses.terminator? coherent single]
  refine exists_congr fun terminator => and_congr_right fun last => ?_
  rw [condenses.trims.ages.isBlock]
  refine and_congr_left fun isBlock => condenses.block_mem_operands_iff coherent yieldsTo isBlock ?_
  rw [← condenses.terminator? coherent single] at last
  exact condenses.isLinked_of_mem (mem_instructions_of_terminator? last)

theorem mem_predecessors_iff (isBlock : store.isBlock block = true) :
    source ∈ left.predecessors block ↔ source ∈ store.predecessors block := by
  rw [condenses.trims.coherent.mem_predecessors_iff, coherent.mem_predecessors_iff]
  refine exists_congr fun terminator => ?_
  simp only [condenses.trims.ages.blockFunction?]
  constructor
  · rintro ⟨linked, ends, operand, owner⟩
    have isLinked := Option.isSome_of_eq_some linked
    rw [condenses.isTerminator coherent isLinked] at ends
    rw [condenses.block_mem_operands_iff coherent yieldsTo isBlock isLinked] at operand
    exact ⟨((condenses.blockOf?_eq_some_iff coherent).1 linked).1, ends, operand, owner⟩
  · rintro ⟨linked, ends, operand, owner⟩
    have linked : left.blockOf? terminator = some source := by
      refine (condenses.blockOf?_eq_some_iff coherent).2 ⟨linked, fun taken => ?_⟩
      rw [condenses.ends terminator taken] at ends
      cases ends
    have isLinked := Option.isSome_of_eq_some linked
    rw [← condenses.isTerminator coherent isLinked] at ends
    rw [← condenses.block_mem_operands_iff coherent yieldsTo isBlock isLinked] at operand
    exact ⟨linked, ends, operand, owner⟩

theorem perm_predecessors (isBlock : store.isBlock block = true) :
    (left.predecessors block).Perm (store.predecessors block) :=
  (List.perm_ext_iff_of_nodup (nodup_distinct _) (nodup_distinct _)).2 fun _ =>
    condenses.mem_predecessors_iff coherent yieldsTo isBlock

variable (ordered : store.Ordered functions) {owner : Ref} (listed : owner ∈ functions)

include ordered listed

/-- Control reaches the blocks that it reached. -/
theorem reached_iff : left.Reached owner block ↔ store.Reached owner block := by
  constructor
  · rintro ⟨body, hasBody, reaches⟩
    rw [condenses.trims.ages.body?] at hasBody
    induction reaches with
    | refl => exact ⟨body, hasBody, .refl⟩
    | @tail source target _ edge reached =>
        refine reached.tail ?_
        rwa [condenses.mem_successors_iff coherent yieldsTo (ordered.single listed reached)] at edge
  · rintro ⟨body, hasBody, reaches⟩
    have hasBody' := hasBody
    rw [← condenses.trims.ages.body?] at hasBody'
    induction reaches with
    | refl => exact ⟨body, hasBody', .refl⟩
    | @tail source target before edge reached =>
        have former : store.Reached owner source := ⟨body, hasBody, before⟩
        refine reached.tail ?_
        rwa [condenses.mem_successors_iff coherent yieldsTo (ordered.single listed former)]

/-- What dominated a block still does. -/
theorem dominates {dominator : Ref} (dominates : store.Dominates owner dominator block) :
    left.Dominates owner dominator block := by
  rw [dominates_iff_not_bypasses] at dominates ⊢
  intro body hasBody different bypasses
  rw [condenses.trims.ages.body?] at hasBody
  refine dominates body hasBody different ?_
  clear dominates
  induction bypasses with
  | refl => exact .refl
  | @tail source target _ step around =>
      refine around.tail ⟨?_, step.2⟩
      have reached : store.Reached owner source := ⟨body, hasBody, Bypasses.reaches around⟩
      exact (condenses.mem_successors_iff coherent yieldsTo
        (ordered.single listed reached)).1 step.1

end Control

end Condenses

/-! ## The form of functions -/

section Form

theorem YieldsTo.typeOf (yieldsTo : store.YieldsTo function become) (ref : Ref) :
    store.typeOf (become ref) = store.typeOf ref := by
  rcases yieldsTo ref with same | yields
  · rw [same]
  · exact yields.sameType

section

variable (yieldsTo : store.YieldsTo function become) (coherent : store.Coherent)

include yieldsTo coherent

/-- Where a value is available, so is the one that it gives way to. -/
theorem AvailableIn.becoming (available : store.AvailableIn function block ref) :
    store.AvailableIn function block (become ref) := by
  rcases yieldsTo ref with same | yields
  · rwa [same]
  · intro home placed
    obtain ⟨place, -, member⟩ := yields.reached
    have linked := (coherent.mem_members place ref).1 member
    exact (yields.placed linked placed).1.trans (available place linked)

/-- A value of the same block comes before all that come after what gives way to it. -/
theorem AvailableIn.mem_before_becoming
    {before rest : List Ref}
    {user : Ref}
    (available : store.AvailableIn function block ref)
    (split : store.instructions block = before ++ user :: rest)
    (sooner : store.blockOf? ref = some block → ref ∈ before)
    (placed : store.blockOf? (become ref) = some block) :
    become ref ∈ before := by
  rcases yieldsTo ref with same | yields
  · rw [same] at placed ⊢
    exact sooner placed
  · obtain ⟨place, reached, member⟩ := yields.reached
    have linked := (coherent.mem_members place ref).1 member
    obtain ⟨dominates, order⟩ := yields.placed linked placed
    obtain rfl := dominates.antisymm (available place linked) reached
    obtain ⟨front, behind, rfl⟩ := List.append_of_mem (sooner linked)
    rw [List.append_assoc] at split
    exact List.mem_append_left _ (order rfl split)

end

namespace Condenses

section

variable (condenses : store.Condenses gone become left) (coherent : store.Coherent)
  (yieldsTo : store.YieldsTo function become) (ordered : store.Ordered functions)
  (listed : function ∈ functions) (inForm : store.InSsaForm function)

include condenses coherent yieldsTo ordered listed inForm

omit ordered listed in
theorem attached
    (isLinked : (left.blockOf? user).isSome)
    (operandOf : some operand ∈ left.operands user)
    (isInstruction : left.isInstruction operand = true) :
    (left.blockOf? operand).isSome := by
  have kept := condenses.kept_of_operand isLinked operandOf
  obtain ⟨former, formerOf, rfl⟩ := condenses.exists_operand coherent isLinked operandOf
  have present : (store.value? (become former)).isSome := by
    rcases yieldsTo former with same | yields
    · rw [same]
      exact present_of_mem_operands coherent formerOf
    · exact yields.present
  rw [condenses.trims.ages.isInstruction present] at isInstruction
  have linked : (store.blockOf? (become former)).isSome := by
    rcases yieldsTo former with same | yields
    · rw [same] at isInstruction ⊢
      exact inForm.attached (condenses.linked coherent isLinked).1 formerOf isInstruction
    · exact yields.attached isInstruction
  obtain ⟨place, linked⟩ := Option.isSome_iff_exists.1 linked
  exact Option.isSome_of_eq_some ((condenses.blockOf?_eq_some_iff coherent).2 ⟨linked, kept⟩)

omit inForm in
theorem available (available : store.AvailableIn function block ref) :
    left.AvailableIn function block (become ref) := by
  intro home placed
  have placed := ((condenses.blockOf?_eq_some_iff coherent).1 placed).1
  exact condenses.dominates coherent yieldsTo ordered listed
    (available.becoming yieldsTo coherent home placed)

omit ordered listed inForm in
theorem typeOf_operand (operandOf : some ref ∈ store.operands user) :
    left.typeOf (become ref) = store.typeOf ref := by
  rw [← yieldsTo.typeOf]
  refine condenses.trims.ages.typeOf ?_
  rcases yieldsTo ref with same | yields
  · rw [same]
    exact present_of_mem_operands coherent operandOf
  · exact yields.present

/-- Condensing keeps functions in static single assignment form. -/
theorem inSsaForm : left.InSsaForm function where
  entry := by
    intro body hasBody
    rw [condenses.trims.ages.body?] at hasBody
    have reached : store.Reached function body := ⟨body, hasBody, .refl⟩
    have perm := condenses.perm_predecessors coherent yieldsTo (reached.isBlock coherent)
    rwa [inForm.entry hasBody, List.perm_nil] at perm
  attached := condenses.attached coherent yieldsTo inForm
  incomings := by
    intro block phi reached member
    rw [condenses.reached_iff coherent yieldsTo ordered listed] at reached
    have heads : ∀ ref ∈ store.afterPhis block, store.isPhi ref = false :=
      fun _ => ordered.heads listed reached
    have isLinked := condenses.isLinked_of_mem (mem_instructions_of_mem_phis member)
    rw [(condenses.phis_and_rest coherent (first_of_heads fun _ => heads)).1] at member
    obtain ⟨pairs, paired, each, given⟩ := inForm.incomings reached (List.mem_filter.1 member).1
    refine ⟨_, by rw [condenses.incomings? coherent isLinked, paired]; rfl, ?_, ?_⟩
    · have perm := condenses.perm_predecessors coherent yieldsTo (reached.isBlock coherent)
      rw [List.map_map]
      exact each.trans (perm.symm.map some)
    · intro incoming source inside
      obtain ⟨⟨former, _⟩, inPairs, equal⟩ := List.mem_map.1 inside
      cases equal
      obtain ⟨value, rfl, sameType, available⟩ := given inPairs
      have operandOf := Pass.mem_operands_of_incomings? paired inPairs
      refine ⟨become value, rfl, ?_, ?_⟩
      · rw [condenses.typeOf_operand coherent yieldsTo operandOf, sameType]
        have isPhi := isPhi_of_mem_phis (List.mem_filter.1 member).1
        obtain ⟨opcode, found, -⟩ := (Option.any_eq_true _ _).1 isPhi
        exact (condenses.trims.ages.typeOf (value?_isSome_of_opcode? found)).symm
      · exact condenses.available coherent yieldsTo ordered listed available
  dominated := by
    intro block before user rest operand reached split notPhi operandOf
    rw [condenses.reached_iff coherent yieldsTo ordered listed] at reached
    have isLinked := condenses.isLinked_of_mem
      (split ▸ List.mem_append_right before List.mem_cons_self)
    rw [condenses.isPhi coherent isLinked] at notPhi
    obtain ⟨former, formerOf, rfl⟩ := condenses.exists_operand coherent isLinked operandOf
    rw [condenses.instructions] at split
    obtain ⟨front, behind, whole, rfl, others⟩ := List.filter_eq_append_iff.1 split
    obtain ⟨skipped, later, rfl, none, -, -⟩ := List.filter_eq_cons_iff.1 others
    rw [← List.append_assoc] at whole
    obtain ⟨available, sooner⟩ := inForm.dominated reached whole notPhi formerOf
    refine ⟨condenses.available coherent yieldsTo ordered listed available, ?_⟩
    intro placed
    obtain ⟨placed, kept⟩ := (condenses.blockOf?_eq_some_iff coherent).1 placed
    refine List.mem_filter.2 ⟨?_, by simpa using kept⟩
    have sooner := available.mem_before_becoming yieldsTo coherent whole sooner placed
    refine (List.mem_append.1 sooner).resolve_right fun member => ?_
    exact none _ member (by simpa using kept)

omit inForm in
/-- Condensing keeps the order of functions. -/
theorem ordered_left : left.Ordered functions where
  owner := by
    intro owner block listed reached
    rw [condenses.reached_iff coherent yieldsTo ordered listed] at reached
    rw [condenses.trims.ages.blockFunction?, ordered.owner listed reached]
  single := by
    intro owner block before ref rest listed reached split ends
    have isLinked := condenses.isLinked_of_mem
      (split ▸ List.mem_append_right before List.mem_cons_self)
    rw [condenses.reached_iff coherent yieldsTo ordered listed] at reached
    rw [condenses.isTerminator coherent isLinked] at ends
    rw [condenses.instructions] at split
    obtain ⟨front, behind, whole, -, others⟩ := List.filter_eq_append_iff.1 split
    obtain ⟨skipped, later, rfl, -, -, rest⟩ := List.filter_eq_cons_iff.1 others
    rw [← List.append_assoc] at whole
    rw [← rest, ordered.single listed reached whole ends]
    rfl
  heads := by
    intro owner block ref listed reached member
    have isLinked := condenses.isLinked_of_mem (List.dropWhile_subset _ member)
    rw [condenses.reached_iff coherent yieldsTo ordered listed] at reached
    have heads : ∀ ref ∈ store.afterPhis block, store.isPhi ref = false :=
      fun _ => ordered.heads listed reached
    rw [(condenses.phis_and_rest coherent (first_of_heads fun _ => heads)).2] at member
    rw [condenses.isPhi coherent isLinked, heads ref (List.mem_filter.1 member).1]
  inside := by
    intro owner block user operand home owned reached member operandOf placed
    have isLinked := condenses.isLinked_of_mem member
    rw [condenses.reached_iff coherent yieldsTo ordered owned] at reached
    rw [condenses.instructions] at member
    have member := (List.mem_filter.1 member).1
    have placed := ((condenses.blockOf?_eq_some_iff coherent).1 placed).1
    rw [condenses.trims.ages.blockFunction?]
    obtain ⟨former, formerOf, rfl⟩ := condenses.exists_operand coherent isLinked operandOf
    rcases yieldsTo former with same | yields
    · rw [same] at placed
      exact ordered.inside owned reached member formerOf placed
    · -- What gives way is of the function of its user, and its value is of its own function.
      obtain ⟨place, reached', inside⟩ := yields.reached
      have linked := (coherent.mem_members place former).1 inside
      have here := ordered.inside owned reached member formerOf linked
      cases here.symm.trans (ordered.owner listed reached')
      exact yields.belongs.home placed

end

end Condenses

end Form

/-! ## Edits that condense -/

section Edits

open Edit

variable {old new : Ref}

/-- A program condenses to itself. -/
theorem Coherent.condenses_refl (coherent : store.Coherent) : store.Condenses [] id store where
  trims := Trims.refl coherent
  instructions := by simp
  instruction? := by
    intro ref _ _
    cases store.instruction? ref with
    | none => rfl
    | some entry => simp [Instruction.becoming]
  unused := by simp
  ends := by simp

theorem Interns.condenses (interns : store.Interns left) (coherent : left.Coherent) :
    store.Condenses [] id left where
  trims := (interns.repoints coherent).trims
  instructions := by simp [interns.instructions]
  instruction? := by
    intro ref _ _
    rw [interns.instruction?]
    cases store.instruction? ref with
    | none => rfl
    | some entry => simp [Instruction.becoming]
  unused := by simp
  ends := by simp

/-- Another value takes the place of one that is taken out afterwards. -/
theorem Coherent.condenses_replace
    (coherent : store.Coherent)
    {answer : Bool}
    (notTerminator : store.isTerminator old = false)
    (different : new ≠ old)
    (gives : Gives (do
      replaceUses old (some new)
      Edit.remove old
      return true) store answer left) :
    store.Condenses [old] (Ref.instead old new) left := by
  obtain ⟨_, middle, replaces, gives⟩ := gives_bind_iff.1 gives
  obtain ⟨_, last, removes, gives⟩ := gives_bind_iff.1 gives
  obtain ⟨-, rfl⟩ := gives_pure_iff.1 gives
  have repoints := coherent.repoints_replaceUses replaces
  have rewrites := coherent.rewrites_replaceUses replaces
  obtain ⟨takes, trims⟩ := repoints.trims.coherent.removes removes
  refine ⟨repoints.trims.trans trims, fun block => ?_, fun {ref} kept linked => ?_, ?_, ?_⟩
  · rw [takes.instructions, repoints.instructions]
  · rw [takes.instruction?_kept kept, rewrites.instruction?]
    obtain ⟨block, linked⟩ := Option.isSome_iff_exists.1 linked
    obtain ⟨entry, found, placed⟩ := Option.bind_eq_some_iff.1 linked
    rw [found, Option.map_some, Option.map_some,
      Instruction.redirected_of_linked old new (Option.isSome_of_eq_some placed)]
  · intro ref gone
    cases List.mem_singleton.1 gone
    refine trims.coherent.usesOf_eq_nil_iff.2 fun user linked operand => ?_
    obtain ⟨block, linked⟩ := Option.isSome_iff_exists.1 linked
    have linked := (takes.blockOf?_eq_some_iff.1 linked).1
    rw [repoints.blockOf?] at linked
    rw [takes.operands, repoints.operands, if_pos (Option.isSome_of_eq_some linked),
      List.mem_map] at operand
    obtain ⟨former, -, becomes⟩ := operand
    unfold replaced at becomes
    split at becomes
    · exact different (Option.some.inj becomes)
    · rename_i other
      exact other becomes
  · intro ref gone
    cases List.mem_singleton.1 gone
    exact notTerminator

/-- What nothing uses afterwards is taken out. -/
theorem Takes.condenses
    (takes : store.Takes gone left)
    (coherent : left.Coherent)
    (unused : ∀ ref ∈ gone, left.usesOf ref = [])
    (ends : ∀ ref ∈ gone, store.isTerminator ref = false) :
    store.Condenses gone id left where
  trims := takes.trims coherent
  instructions := takes.instructions
  instruction? := by
    intro ref kept _
    rw [takes.instruction?_kept kept]
    cases store.instruction? ref with
    | none => rfl
    | some entry => simp [Instruction.becoming]
  unused := unused
  ends := ends

/-- What nothing uses is taken out. -/
theorem Coherent.condenses_remove
    (coherent : store.Coherent)
    {answer : Unit}
    (notTerminator : store.isTerminator old = false)
    (unused : store.usesOf old = [])
    (gives : Gives (Edit.remove old) store answer left) :
    store.Condenses [old] id left := by
  obtain ⟨takes, trims⟩ := coherent.removes gives
  refine takes.condenses trims.coherent ?_ ?_
  · intro ref gone
    cases List.mem_singleton.1 gone
    refine trims.coherent.usesOf_eq_nil_iff.2 fun user linked operand => ?_
    obtain ⟨block, linked⟩ := Option.isSome_iff_exists.1 linked
    rw [takes.operands] at operand
    exact coherent.usesOf_eq_nil_iff.1 unused user
      (Option.isSome_of_eq_some (takes.blockOf?_eq_some_iff.1 linked).1) operand
  · intro ref gone
    cases List.mem_singleton.1 gone
    exact notTerminator

end Edits

end Store

end ShaderIR

import ShaderIR.Proofs.Coherence.Invariant
import ShaderIR.Proofs.Edit.Outcome

/-!
# Operand edits keep the store coherent

The edits of operand lists unlink the slots they drop, change the entry of the
instruction and link the slots they add.  Between those steps the two records
of an edge disagree, so each edit is judged as a whole: what it does to the
instruction and to the use-lists together is a rewiring.
-/

namespace ShaderIR

namespace Store

/-- A change that keeps a coherent store coherent, and blocks blocks. -/
def Keeps (store left : Store) : Prop :=
  store.Coherent → left.Coherent ∧ ∀ block, store.isBlock block = true → left.isBlock block = true

instance : Edit.Lasting Keeps where
  refl := fun _ coherent => ⟨coherent, fun _ isBlock => isBlock⟩
  trans := by
    intro first second third step step' coherent
    obtain ⟨coherent, kept⟩ := step coherent
    obtain ⟨coherent', kept'⟩ := step' coherent
    exact ⟨coherent', fun block isBlock => kept' block (kept block isBlock)⟩

theorem isBlock_eq_of_blockFunction?
    {store left : Store}
    {ref : Ref}
    (same : left.blockFunction? ref = store.blockFunction? ref) :
    left.isBlock ref = store.isBlock ref := by
  rw [Bool.eq_iff_iff, isBlock_iff_blockFunction?, isBlock_iff_blockFunction?, same]

theorem Rewires.keeps
    {store left : Store}
    {user : Ref}
    {changed : Instruction}
    (rewires : store.Coherent → store.Rewires user changed left) :
    store.Keeps left := by
  intro coherent
  refine ⟨(rewires coherent).coherent coherent, fun block isBlock => ?_⟩
  rw [isBlock_eq_of_blockFunction? ((rewires coherent).owners block)]
  exact isBlock

/-! ## The links of the uses -/

section UseLinks

variable {store : Store} (used : store.useLinks.Traces store.usesOf)

include used

/-- Linking a use that is in no use-list keeps the links along the use-lists. -/
theorem used_link
    {operand : Option Ref}
    {use : Use}
    (unused : ∀ value, use ∉ store.usesOf value)
    (present : ∀ value, operand = some value → (store.value? value).isSome) :
    (store.link operand use).useLinks.Traces (store.link operand use).usesOf := by
  have detached : store.useLinks.owner use = none := by
    cases holds : store.useLinks.owner use with
    | none => rfl
    | some value => exact absurd ((used.owner use value).1 holds) (unused value)
  cases operand with
  | none => exact used
  | some target =>
      refine used.push detached ?_ fun other different => ?_
      · rw [usesOf_link _ _ (present target), if_pos rfl]
      · have elsewhere : some target ≠ some other := fun same =>
          different (Option.some.inj same).symm
        rw [usesOf_link _ _ fun same => absurd same elsewhere, if_neg elsewhere, List.append_nil]

/-- Unlinking a use from the one value that may have it keeps the links along the use-lists. -/
theorem used_unlink
    {operand : Option Ref}
    {use : Use}
    (there : ∀ value, use ∈ store.usesOf value → operand = some value) :
    (store.unlink operand use).useLinks.Traces (store.unlink operand use).usesOf := by
  cases operand with
  | none => exact used
  | some target =>
      refine used.unlink_erase fun other => ?_
      rw [usesOf_unlink]
      split
      · rfl
      · rename_i elsewhere
        rw [List.erase_of_not_mem fun member => elsewhere (there other member)]

theorem used_linkAll
    {user : Ref}
    {slots : List Slot}
    (distinct : (slots.map (·.key)).Nodup)
    (unused : ∀ slot ∈ slots, ∀ value, (⟨user, slot.key⟩ : Use) ∉ store.usesOf value)
    (present : ∀ slot ∈ slots, ∀ value, slot.value = some value → (store.value? value).isSome) :
    (store.linkAll user slots).useLinks.Traces (store.linkAll user slots).usesOf := by
  induction slots generalizing store with
  | nil => exact used
  | cons slot rest induction =>
      rw [List.forall_mem_cons] at unused present
      rw [List.map_cons, List.nodup_cons] at distinct
      simp only [linkAll, List.foldl_cons] at induction ⊢
      refine induction (used_link used unused.1 present.1) distinct.2 ?_ ?_
      · intro later member value listed
        rw [usesOf_link _ _ fun same => present.1 value same, List.mem_append] at listed
        rcases listed with old | new
        · exact unused.2 later member value old
        · split at new
          · have sameKey : later.key = slot.key :=
              congrArg (fun use : Use => use.slot) (List.mem_singleton.1 new)
            exact distinct.1 (sameKey ▸ List.mem_map_of_mem member)
          · cases new
      · intro later member value holds
        rw [value?_isSome_link]
        exact present.2 later member value holds

theorem used_unlinkAll
    {user : Ref}
    {slots : List Slot}
    (there : ∀ slot ∈ slots, ∀ value, (⟨user, slot.key⟩ : Use) ∈ store.usesOf value →
      slot.value = some value) :
    (store.unlinkAll user slots).useLinks.Traces (store.unlinkAll user slots).usesOf := by
  induction slots generalizing store with
  | nil => exact used
  | cons slot rest induction =>
      rw [List.forall_mem_cons] at there
      simp only [unlinkAll, List.foldl_cons] at induction ⊢
      refine induction (used_unlink used there.1) fun later member value listed => ?_
      rw [usesOf_unlink] at listed
      refine there.2 later member value ?_
      split at listed
      · exact List.mem_of_mem_erase listed
      · exact listed

end UseLinks

section Slots

theorem mem_append_if
    {condition : Prop}
    [Decidable condition]
    {uses : List Use}
    {use added : Use} :
    use ∈ uses ++ (if condition then [added] else []) ↔
      use ∈ uses ∨ (use = added ∧ condition) := by
  by_cases holds : condition <;> simp [holds]

variable {store : Store} {user : Ref} {entry : Instruction}

/-- Slots of one instruction with the same key are the same slot. -/
theorem Coherent.slot_unique
    (coherent : store.Coherent)
    (found : store.instruction? user = some entry)
    {slot other : Slot}
    (member : slot ∈ entry.operands)
    (otherMember : other ∈ entry.operands)
    (sameKey : slot.key = other.key) :
    slot = other :=
  List.inj_on_of_nodup_map (coherent.keysDistinct found) member otherMember sameKey

theorem Coherent.mem_usesOf_self
    (coherent : store.Coherent)
    (found : store.instruction? user = some entry)
    {use : Use}
    {value : Ref}
    (own : use.user = user) :
    use ∈ store.usesOf value ↔
      entry.block.isSome ∧ (⟨use.slot, some value⟩ : Slot) ∈ entry.operands := by
  rw [coherent.mem_uses]
  unfold Uses
  rw [own, found]
  simp

/-- Unlinking slots of an instruction takes out exactly the uses by their keys. -/
theorem Coherent.mem_usesOf_unlinkAll
    (coherent : store.Coherent)
    (found : store.instruction? user = some entry)
    {slots : List Slot}
    (included : ∀ slot ∈ slots, slot ∈ entry.operands)
    (value : Ref)
    (use : Use) :
    use ∈ (store.unlinkAll user slots).usesOf value ↔
      use ∈ store.usesOf value ∧ ¬ (use.user = user ∧ use.slot ∈ slots.map (·.key)) := by
  rw [usesOf_unlinkAll, (coherent.usesDistinct value).mem_sdiff_iff]
  refine and_congr_right fun member => not_congr ?_
  rw [mem_usesAmong]
  refine and_congr_right fun own => ?_
  rw [List.mem_map]
  constructor
  · intro held
    exact ⟨_, held, rfl⟩
  · rintro ⟨slot, held, sameKey⟩
    have recorded := ((coherent.mem_usesOf_self found own).1 member).2
    have same := coherent.slot_unique found (included slot held) recorded sameKey
    exact same ▸ held

theorem Coherent.used_unlinkAll
    (coherent : store.Coherent)
    (found : store.instruction? user = some entry)
    {slots : List Slot}
    (included : ∀ slot ∈ slots, slot ∈ entry.operands) :
    (store.unlinkAll user slots).useLinks.Traces (store.unlinkAll user slots).usesOf := by
  refine Store.used_unlinkAll coherent.used fun slot member value listed => ?_
  have held := ((coherent.mem_usesOf_self found rfl).1 listed).2
  rw [coherent.slot_unique found (included slot member) held rfl]

theorem value?_isSome_of_moduleOf?
    {value : Ref}
    (found : store.instruction? user = some entry)
    (pool : store.moduleOf? value = store.moduleOf? user) :
    (store.value? value).isSome := by
  rw [← moduleOf?_isSome_iff, pool, moduleOf?_isSome_iff]
  exact value?_isSome_of_instruction? found

/--
A change of the operands and the opcode of an instruction that stays in its
block is a rewiring when the use-lists follow.
-/
theorem Coherent.rewires_of_entry
    (coherent : store.Coherent)
    (found : store.instruction? user = some entry)
    {left : Store}
    {changed : Instruction}
    (stays : changed.block = entry.block)
    (contents : ∀ ref,
      left.content? ref = (store.modifyInstruction user fun _ => changed).content? ref)
    (pools : ∀ ref, left.moduleOf? ref = store.moduleOf? ref)
    (modules : left.modules = store.modules)
    (slots : store.nextSlot ≤ left.nextSlot)
    (keysDistinct : (changed.operands.map (·.key)).Nodup)
    (keysBelow : ∀ slot ∈ changed.operands, slot.key < left.nextSlot)
    (casesDistinct : changed.opcode.caseValues.Nodup)
    (operandPool : ∀ slot ∈ changed.operands, ∀ value, slot.value = some value →
      store.moduleOf? value = store.moduleOf? user)
    (links : left.links = store.links)
    (edged : ∀ slot ∈ changed.operands, left.edges slot.key = some ⟨user, slot.value⟩)
    (edgesKept : ∀ key edge, key < store.nextSlot → store.edges key = some edge →
      edge.user ≠ user → left.edges key = some edge)
    (used : left.useLinks.Traces left.usesOf)
    (mem_uses : ∀ value use, use ∈ left.usesOf value ↔
      if use.user = user then
        changed.block.isSome ∧ (⟨use.slot, some value⟩ : Slot) ∈ changed.operands
      else use ∈ store.usesOf value) :
    store.Rewires user changed left where
  others := by
    intro ref different
    rw [instruction?_congr (contents ref), instruction?_modifyInstruction,
      if_neg (Ne.symm different)]
  functions := by
    intro ref
    rw [function?_congr (contents ref), function?_modifyInstruction]
  owners := by
    intro ref
    rw [blockFunction?_congr (contents ref), blockFunction?_modifyInstruction]
  pools := pools
  modules := modules
  slots := slots
  self := by
    rw [instruction?_congr (contents user), instruction?_modifyInstruction, if_pos rfl, found]
    rfl
  keysDistinct := keysDistinct
  keysBelow := keysBelow
  casesDistinct := casesDistinct
  operandPool := operandPool
  edged := edged
  edgesKept := edgesKept
  used := used
  mem_uses := mem_uses
  linked := by
    rw [links]
    refine coherent.linked.congr fun block => ?_
    rw [instructions_congr (contents block), instructions_modifyInstruction]
  mem_members := by
    intro block ref
    rw [instructions_congr (contents block), instructions_modifyInstruction]
    split
    · rename_i same
      subst same
      rw [coherent.mem_members, stays, blockOf?, found]
      rfl
    · rfl
  memberPool := by
    intro block linked
    refine coherent.memberPool ?_
    rw [blockOf?, found]
    exact stays.symm.trans linked

end Slots

/-- An instruction has the slot of a use among its operands. -/
def HasSlot (store : Store) (use : Use) : Prop :=
  ∃ entry, store.instruction? use.user = some entry ∧
    ∃ slot ∈ entry.operands, slot.key = use.slot

theorem Coherent.hasSlot_of_mem_usesOf
    {store : Store}
    (coherent : store.Coherent)
    {use : Use}
    {value : Ref}
    (member : use ∈ store.usesOf value) :
    store.HasSlot use := by
  obtain ⟨entry, found, -, slot⟩ := (coherent.mem_uses value use).1 member
  exact ⟨entry, found, _, slot, rfl⟩

/-- A change that takes no slot from an instruction. -/
def KeepsSlots (store left : Store) : Prop :=
  ∀ use, store.HasSlot use → left.HasSlot use

instance : Edit.Lasting KeepsSlots where
  refl := fun _ _ hasSlot => hasSlot
  trans := fun first second use hasSlot => second use (first use hasSlot)

theorem keepsSlots_of_instruction?
    {store left : Store}
    (same : ∀ ref, left.instruction? ref = store.instruction? ref) :
    store.KeepsSlots left := by
  rintro use ⟨entry, found, slot⟩
  exact ⟨entry, (same use.user).trans found, slot⟩

theorem keepsSlots_modifyInstruction
    (store : Store)
    (user : Ref)
    {change : Instruction → Instruction}
    (keys : ∀ entry, (change entry).operands.map (·.key) = entry.operands.map (·.key)) :
    store.KeepsSlots (store.modifyInstruction user change) := by
  rintro use ⟨entry, found, slot, member, sameKey⟩
  rw [HasSlot, instruction?_modifyInstruction, found]
  split
  · have listed : use.slot ∈ (change entry).operands.map (·.key) := by
      rw [keys]
      exact List.mem_map.2 ⟨slot, member, sameKey⟩
    obtain ⟨slot', member', sameKey'⟩ := List.mem_map.1 listed
    exact ⟨change entry, rfl, slot', member', sameKey'⟩
  · exact ⟨entry, rfl, slot, member, sameKey⟩

/-- The edge of a slot that an instruction has is that slot. -/
theorem Coherent.edge?_of_mem
    {store : Store}
    (coherent : store.Coherent)
    {user : Ref}
    {entry : Instruction}
    {slot : Slot}
    (found : store.instruction? user = some entry)
    (member : slot ∈ entry.operands) :
    store.edge? ⟨user, slot.key⟩ = some ⟨user, slot.value⟩ := by
  simp [edge?, coherent.edged found slot member]

/-- A use of a slot is only linked while its instruction is. -/
theorem Coherent.attached_or_linked
    {store : Store}
    (coherent : store.Coherent)
    {user : Ref}
    {entry : Instruction}
    (found : store.instruction? user = some entry)
    (key : Nat) :
    (store.isAttached ⟨user, key⟩ || entry.block.isSome) = entry.block.isSome := by
  rw [Bool.or_eq_right_iff_imp, isAttached, Option.isSome_iff_exists]
  rintro ⟨value, holds⟩
  exact ((coherent.mem_usesOf_self found rfl).1 ((coherent.used.owner _ value).1 holds)).1

/-! ## Pointing a slot at another value -/

section SetSlot

variable {store : Store} {user : Ref} {entry : Instruction} {slot : Slot}

/-- The entry of an instruction whose slot with a key holds another operand. -/
def pointed (entry : Instruction) (key : Nat) (operand : Option Ref) : Instruction :=
  { entry with
    operands := entry.operands.map fun slot =>
      if slot.key == key then { slot with value := operand } else slot }

theorem keys_pointed (entry : Instruction) (key : Nat) (operand : Option Ref) :
    (pointed entry key operand).operands.map (·.key) = entry.operands.map (·.key) := by
  simp only [pointed, List.map_map]
  refine List.map_congr_left fun slot _ => ?_
  simp only [Function.comp]
  split <;> rfl

theorem mem_pointed
    {operand : Option Ref}
    {other : Slot}
    (member : slot ∈ entry.operands) :
    other ∈ (pointed entry slot.key operand).operands ↔
      other = ⟨slot.key, operand⟩ ∨ (other ∈ entry.operands ∧ other.key ≠ slot.key) := by
  simp only [pointed, List.mem_map]
  constructor
  · rintro ⟨old, oldMember, rfl⟩
    by_cases same : old.key = slot.key
    · left
      simp [same]
    · right
      simp [same, oldMember]
  · rintro (rfl | ⟨otherMember, different⟩)
    · exact ⟨slot, member, by simp⟩
    · exact ⟨other, otherMember, by simp [different]⟩

/-- Unlinking a slot, changing it and linking it again is a rewiring. -/
theorem Coherent.rewires_pointed
    (coherent : store.Coherent)
    (found : store.instruction? user = some entry)
    (member : slot ∈ entry.operands)
    {operand : Option Ref}
    (pool : ∀ value, operand = some value → store.moduleOf? value = store.moduleOf? user)
    {unlinked changed left : Store}
    (unlinks : unlinked = store.unlink slot.value ⟨user, slot.key⟩)
    (changes : changed = (unlinked.putEdge slot.key ⟨user, operand⟩).modifyInstruction user
      fun entry => pointed entry slot.key operand)
    (reached : left =
      changed.link (if entry.block.isSome then operand else none) ⟨user, slot.key⟩) :
    store.Rewires user (pointed entry slot.key operand) left := by
  have included : ∀ other ∈ [slot], other ∈ entry.operands := by simpa using member
  have kept : ∀ value use, use ∈ changed.usesOf value ↔
      use ∈ store.usesOf value ∧ ¬ (use.user = user ∧ use.slot = slot.key) := by
    intro value use
    rw [changes, unlinks, usesOf_modifyInstruction, usesOf_record]
    simpa [unlinkAll] using coherent.mem_usesOf_unlinkAll found included value use
  have present : ∀ value, (if entry.block.isSome then operand else none) = some value →
      (changed.value? value).isSome := by
    intro value holds
    rw [← moduleOf?_isSome_iff, changes, unlinks, moduleOf?_modifyInstruction, moduleOf?_record,
      moduleOf?_unlink, moduleOf?_isSome_iff]
    split at holds
    · exact value?_isSome_of_moduleOf? found (pool value holds)
    · cases holds
  have usedBetween : changed.useLinks.Traces changed.usesOf := by
    have traces := coherent.used_unlinkAll found included
    subst unlinks changes
    exact traces.congr fun value => usesOf_modifyInstruction ..
  have unused : ∀ value, (⟨user, slot.key⟩ : Use) ∉ changed.usesOf value :=
    fun value listed => ((kept value _).1 listed).2 ⟨rfl, rfl⟩
  have usedAfter := used_link usedBetween unused present
  have linkedUses : ∀ value, left.usesOf value = changed.usesOf value ++
      if (if entry.block.isSome then operand else none) = some value
        then [⟨user, slot.key⟩] else [] := by
    intro value
    rw [reached, usesOf_link _ _ (present value)]
  refine coherent.rewires_of_entry found rfl ?contents ?pools ?modules ?slots ?keysDistinct
    ?keysBelow (coherent.casesDistinct found : entry.opcode.caseValues.Nodup) ?operandPool ?links
    ?edged ?edgesKept (by rw [reached]; exact usedAfter) ?mem_uses
  case contents =>
    intro ref
    rw [reached, changes, unlinks]
    simp only [content?_link, content?_modifyInstruction, content?_record, content?_unlink]
    by_cases same : user = ref
    · subst same
      simp [instruction?_eq_some_iff.1 found, Content.mapInstruction]
    · simp [same]
  case pools =>
    intro ref
    simp [reached, changes, unlinks]
  case modules => simp [reached, changes, unlinks]
  case slots => simp [reached, changes, unlinks]
  case keysDistinct =>
    rw [keys_pointed]
    exact coherent.keysDistinct found
  case keysBelow =>
    intro other otherMember
    rcases (mem_pointed member).1 otherMember with rfl | ⟨old, _⟩
    · simpa [reached, changes, unlinks] using coherent.keysBelow found slot member
    · simpa [reached, changes, unlinks] using coherent.keysBelow found other old
  case operandPool =>
    intro other otherMember value holds
    rcases (mem_pointed member).1 otherMember with rfl | ⟨old, _⟩
    · exact pool value holds
    · exact coherent.operandPool found other old value holds
  case links => simp [reached, changes, unlinks]
  case edged =>
    intro other otherMember
    have edges : left.edges = redefine store.edges slot.key (some ⟨user, operand⟩) := by
      simp [reached, changes, unlinks]
    rw [edges, redefine_apply]
    rcases (mem_pointed member).1 otherMember with rfl | ⟨old, different⟩
    · exact if_pos rfl
    · rw [if_neg different]
      exact coherent.edged found other old
  case edgesKept =>
    intro key edge below held foreign
    have edges : left.edges = redefine store.edges slot.key (some ⟨user, operand⟩) := by
      simp [reached, changes, unlinks]
    rw [edges, redefine_apply, if_neg]
    · exact held
    · rintro rfl
      rw [coherent.edged found slot member] at held
      cases held
      exact foreign rfl
  case mem_uses =>
    intro value use
    rw [linkedUses, mem_append_if, kept]
    by_cases own : use.user = user
    · simp only [own, coherent.mem_usesOf_self found own, mem_pointed member, if_true]
      cases use
      subst own
      cases linked : entry.block with
      | none => simp [pointed, linked]
      | some block =>
          simp [pointed, linked]
          grind
    · have foreign : use ≠ ⟨user, slot.key⟩ := fun equal => own (by rw [equal])
      simp [own, foreign]

end SetSlot

/-! ## Adding and dropping slots, changing the opcode -/

section Lists

variable {store : Store} {user : Ref} {entry : Instruction}

/-- Adding a slot under a new key and linking it is a rewiring. -/
theorem Coherent.rewires_extended
    (coherent : store.Coherent)
    (found : store.instruction? user = some entry)
    {operand : Option Ref}
    (pool : ∀ value, operand = some value → store.moduleOf? value = store.moduleOf? user)
    {changed left : Store}
    (changes : changed =
      (store.makeSlot ⟨user, operand⟩).modifyInstruction user fun entry =>
        { entry with operands := entry.operands ++ [⟨store.nextSlot, operand⟩] })
    (reached : left =
      changed.link (if entry.block.isSome then operand else none) ⟨user, store.nextSlot⟩) :
    store.Rewires user
      { entry with operands := entry.operands ++ [⟨store.nextSlot, operand⟩] } left := by
  have fresh : ∀ slot ∈ entry.operands, slot.key ≠ store.nextSlot :=
    fun slot member => Nat.ne_of_lt (coherent.keysBelow found slot member)
  have sameUses : ∀ value, changed.usesOf value = store.usesOf value := by
    intro value
    rw [changes, usesOf_modifyInstruction, usesOf_makeSlot]
  have unused : ∀ value, (⟨user, store.nextSlot⟩ : Use) ∉ changed.usesOf value := by
    intro value member
    rw [sameUses] at member
    exact fresh _ ((coherent.mem_usesOf_self found rfl).1 member).2 rfl
  have present : ∀ value, (if entry.block.isSome then operand else none) = some value →
      (changed.value? value).isSome := by
    intro value holds
    rw [← moduleOf?_isSome_iff, changes, moduleOf?_modifyInstruction, moduleOf?_makeSlot]
    split at holds
    · exact moduleOf?_isSome_iff.2 (value?_isSome_of_moduleOf? found (pool value holds))
    · cases holds
  have usedBetween : changed.useLinks.Traces changed.usesOf := by
    have traces := coherent.used.congr sameUses
    subst changes
    exact traces
  have usedAfter := used_link usedBetween unused present
  have linkedUses : ∀ value, left.usesOf value =
      store.usesOf value ++ if (if entry.block.isSome then operand else none) = some value
        then [⟨user, store.nextSlot⟩] else [] := by
    intro value
    rw [reached, usesOf_link _ _ (present value), sameUses]
  have edges : left.edges = redefine store.edges store.nextSlot (some ⟨user, operand⟩) := by
    simp [reached, changes]
  have nextSlot : left.nextSlot = store.nextSlot + 1 := by simp [reached, changes]
  refine coherent.rewires_of_entry found rfl ?contents ?pools ?modules ?slots ?keysDistinct
    ?keysBelow (coherent.casesDistinct found : entry.opcode.caseValues.Nodup) ?operandPool ?links
    ?edged ?edgesKept (by rw [reached]; exact usedAfter) ?mem_uses
  case contents =>
    intro ref
    rw [reached, changes]
    simp only [content?_link, content?_modifyInstruction, content?_makeSlot]
    by_cases same : user = ref
    · subst same
      simp [instruction?_eq_some_iff.1 found, Content.mapInstruction]
    · simp [same]
  case pools =>
    intro ref
    simp [reached, changes]
  case modules => simp [reached, changes]
  case slots => omega
  case keysDistinct => simpa [List.nodup_append, coherent.keysDistinct found] using fresh
  case keysBelow =>
    intro slot member
    rw [nextSlot]
    rcases List.mem_append.1 member with old | new
    · exact Nat.lt_succ_of_lt (coherent.keysBelow found slot old)
    · simp [List.mem_singleton.1 new]
  case operandPool =>
    intro slot member value holds
    rcases List.mem_append.1 member with old | new
    · exact coherent.operandPool found slot old value holds
    · rw [List.mem_singleton.1 new] at holds
      exact pool value holds
  case links => simp [reached, changes]
  case edged =>
    intro slot member
    rw [edges, redefine_apply]
    rcases List.mem_append.1 member with old | new
    · rw [if_neg (fresh slot old)]
      exact coherent.edged found slot old
    · rw [List.mem_singleton.1 new, if_pos rfl]
  case edgesKept =>
    intro key edge below held _
    rw [edges, redefine_apply, if_neg (Nat.ne_of_lt below)]
    exact held
  case mem_uses =>
    intro value use
    rw [linkedUses, mem_append_if]
    by_cases own : use.user = user
    · simp only [own, coherent.mem_usesOf_self found own, if_true]
      cases use
      subst own
      cases linked : entry.block <;> simp [eq_comm]
    · have foreign : use ≠ ⟨user, store.nextSlot⟩ := fun equal => own (by rw [equal])
      simp [own, foreign]

/-- Unlinking slots and keeping the others is a rewiring. -/
theorem Coherent.rewires_dropped
    (coherent : store.Coherent)
    (found : store.instruction? user = some entry)
    (keep : List Slot → List Slot)
    (sublist : (keep entry.operands).Sublist entry.operands)
    {dropped : List Slot}
    (included : ∀ slot ∈ dropped, slot ∈ entry.operands)
    (split : ∀ slot ∈ entry.operands, slot ∈ keep entry.operands ↔ slot ∉ dropped) :
    store.Rewires user { entry with operands := keep entry.operands }
      ((store.unlinkAll user dropped).modifyInstruction user fun entry =>
        { entry with operands := keep entry.operands }) := by
  refine coherent.rewires_of_entry found rfl ?contents (by simp) (by simp) (by simp) ?keysDistinct
    ?keysBelow (coherent.casesDistinct found : entry.opcode.caseValues.Nodup) ?operandPool
    (by simp) ?edged ?edgesKept ?used ?mem_uses
  case contents =>
    intro ref
    simp only [content?_modifyInstruction, content?_unlinkAll]
    by_cases same : user = ref
    · subst same
      simp [instruction?_eq_some_iff.1 found, Content.mapInstruction]
    · simp [same]
  case keysDistinct => exact (coherent.keysDistinct found).sublist (sublist.map _)
  case keysBelow =>
    intro slot member
    simpa using coherent.keysBelow found slot (sublist.subset member)
  case operandPool =>
    intro slot member
    exact coherent.operandPool found slot (sublist.subset member)
  case edged =>
    intro slot member
    simpa using coherent.edged found slot (sublist.subset member)
  case edgesKept =>
    intro key edge _ held _
    simpa using held
  case used =>
    exact (coherent.used_unlinkAll found included).congr fun value => usesOf_modifyInstruction ..
  case mem_uses =>
    intro value use
    rw [usesOf_modifyInstruction, coherent.mem_usesOf_unlinkAll found included]
    by_cases own : use.user = user
    · simp only [own, coherent.mem_usesOf_self found own, if_true, true_and, and_assoc]
      refine and_congr_right fun linked => ?_
      constructor
      · rintro ⟨member, keyKept⟩
        refine (split _ member).2 fun droppedMember => keyKept ?_
        exact List.mem_map_of_mem (f := Slot.key) droppedMember
      · intro member
        refine ⟨sublist.subset member, fun keyDropped => ?_⟩
        obtain ⟨slot, droppedMember, sameKey⟩ := List.mem_map.1 keyDropped
        have same := coherent.slot_unique found (included slot droppedMember)
          (sublist.subset member) sameKey
        exact (split _ (sublist.subset member)).1 member (same ▸ droppedMember)
    · simp [own]

theorem Coherent.nodup_operands
    (coherent : store.Coherent)
    (found : store.instruction? user = some entry) :
    entry.operands.Nodup :=
  (coherent.keysDistinct found).of_map _

/-- Changing the opcode of an instruction is a rewiring. -/
theorem Coherent.rewires_opcode
    (coherent : store.Coherent)
    (found : store.instruction? user = some entry)
    {opcode : Opcode}
    (casesDistinct : opcode.caseValues.Nodup) :
    store.Rewires user { entry with opcode }
      (store.modifyInstruction user fun entry => { entry with opcode }) := by
  have distinct := coherent.keysDistinct found
  have below := coherent.keysBelow found
  have pool := coherent.operandPool found
  have edged := coherent.edged found
  refine coherent.rewires_of_entry found rfl ?contents (by simp) rfl (Nat.le_refl _) distinct below
    casesDistinct pool rfl edged (fun _ _ _ held _ => held)
    (coherent.used.congr fun value => usesOf_modifyInstruction ..) ?mem_uses
  case contents =>
    intro ref
    simp only [content?_modifyInstruction]
    by_cases same : user = ref
    · subst same
      simp [instruction?_eq_some_iff.1 found, Content.mapInstruction]
    · simp [same]
  case mem_uses =>
    intro value use
    rw [usesOf_modifyInstruction]
    split
    · rename_i own
      exact coherent.mem_usesOf_self found own
    · rfl

end Lists

end Store

namespace Edit

open Store

theorem setSlot_keepsSlots (user : Ref) (key : Nat) (operand : Option Ref) :
    Respects KeepsSlots (setSlot user key operand) :=
  Respects.bind (Respects.requireSamePool user operand) fun _ =>
    Respects.bind (Respects.instruction user) fun _ =>
      Respects.bind (Respects.see _) fun _ =>
        Respects.bind (Respects.demand _) fun _ =>
          Respects.bind (Respects.see _) fun _ =>
            Respects.bind (fun _ => keepsSlots_of_instruction? fun _ =>
              instruction?_congr (content?_unlink ..)) fun _ =>
              Respects.bind (fun _ => keepsSlots_of_instruction? fun _ => rfl) fun _ =>
                Respects.bind (fun store => keepsSlots_modifyInstruction store user fun entry =>
                  keys_pointed entry key operand) fun _ =>
                  Respects.ifThen (fun _ => keepsSlots_of_instruction? fun _ =>
                    instruction?_congr (content?_link ..)) (Respects.pure ())

/-- Pointing a slot that an instruction has at an operand keeps the store coherent. -/
theorem setSlot_keeps
    {user : Ref}
    {key : Nat}
    {store : Store}
    (operand : Option Ref)
    (hasSlot : store.HasSlot ⟨user, key⟩) :
    store.Keeps (outcome (setSlot user key operand) store).2 := by
  obtain ⟨entry, found, slot, member, rfl⟩ := hasSlot
  refine Respects.bindAt (Respects.requireSamePool user operand store) fun _ left given => ?_
  obtain ⟨pool, rfl⟩ := gives_requireSamePool_iff.1 given
  refine Respects.bindInstruction fun entry' found' => ?_
  cases found.symm.trans found'
  refine Respects.bindAt (Respects.see _ left) fun held left given => ?_
  obtain ⟨rfl, rfl⟩ := gives_see_iff.1 given
  refine Respects.bindAt (Respects.demand _ left) fun edge left given => ?_
  obtain ⟨held, rfl⟩ := gives_demand_iff.1 given
  intro coherent
  cases (coherent.edge?_of_mem found member).symm.trans held
  refine Rewires.keeps (fun coherent => coherent.rewires_pointed found member pool rfl rfl ?_)
    coherent
  simp only [outcome_bind, outcome_see, outcome_modify, coherent.attached_or_linked found]
  cases linked : entry.block <;> rfl

theorem addOperand_keeps (user : Ref) (operand : Option Ref) :
    Respects Keeps (addOperand user operand) := by
  intro store
  refine Respects.bindAt (Respects.requireSamePool user operand store) fun _ left given => ?_
  obtain ⟨pool, rfl⟩ := gives_requireSamePool_iff.1 given
  refine Respects.bindInstruction fun entry found => ?_
  refine Rewires.keeps fun coherent => coherent.rewires_extended found pool rfl ?_
  cases linked : entry.block <;> simp [link]

theorem addOperands_keeps (user : Ref) (operands : List (Option Ref)) :
    Respects Keeps (addOperands user operands) := by
  induction operands with
  | nil => exact Respects.pure ()
  | cons operand rest induction =>
      exact Respects.bind (addOperand_keeps user operand) fun _ => induction

theorem truncateOperands_keeps (user : Ref) (count : Nat) :
    Respects Keeps (truncateOperands user count) := by
  intro store
  refine Respects.bindInstruction fun entry found => ?_
  refine Rewires.keeps fun coherent => coherent.rewires_dropped found (·.take count)
    (List.take_sublist count entry.operands) ?_ ?_
  · intro slot member
    exact List.mem_of_mem_drop (List.mem_reverse.1 member)
  · intro slot member
    have distinct := coherent.nodup_operands found
    rw [← List.take_append_drop count entry.operands] at distinct member
    have apart := List.disjoint_of_nodup_append distinct
    rw [List.mem_reverse]
    constructor
    · exact fun taken dropped => apart taken dropped
    · exact fun notDropped => (List.mem_append.1 member).resolve_right notDropped

theorem removeOperand_keeps (user : Ref) (position : Int) :
    Respects Keeps (removeOperand user position) := by
  refine Respects.ifThen Respects.stuck fun store => ?_
  refine Respects.bindInstruction fun entry found => ?_
  refine Respects.bindAt (Respects.demand _ store) fun slot left given => ?_
  obtain ⟨placed, rfl⟩ := gives_demand_iff.1 given
  have included : ∀ other ∈ [slot], other ∈ entry.operands := by
    simpa using List.mem_of_getElem? placed
  refine Rewires.keeps fun coherent => coherent.rewires_dropped found
    (·.eraseIdx position.toNat) (List.eraseIdx_sublist entry.operands position.toNat) included ?_
  intro other member
  have distinct := coherent.nodup_operands found
  obtain ⟨bound, rfl⟩ := List.getElem?_eq_some_iff.1 placed
  rw [← List.Nodup.erase_getElem distinct position.toNat bound, distinct.mem_erase_iff]
  simp [member]

theorem setOpcode_keeps
    {ref : Ref}
    {opcode : Opcode}
    {store : Store}
    {entry : Instruction}
    (found : store.instruction? ref = some entry)
    (casesDistinct : store.Coherent → opcode.caseValues.Nodup) :
    store.Keeps (outcome (setOpcode ref opcode) store).2 :=
  Rewires.keeps fun coherent => coherent.rewires_opcode found (casesDistinct coherent)

/-! ## Edits made of the ones above -/

theorem setOperand_keeps (user : Ref) (position : Int) (operand : Option Ref) :
    Respects Keeps (setOperand user position operand) := by
  refine Respects.ifThen Respects.stuck fun store => ?_
  refine Respects.bindInstruction fun entry found => ?_
  refine Respects.bindAt (Respects.demand _ store) fun slot left given => ?_
  obtain ⟨placed, rfl⟩ := gives_demand_iff.1 given
  exact setSlot_keeps operand ⟨entry, found, slot, List.mem_of_getElem? placed, rfl⟩

theorem setOperands_keeps (user : Ref) (operands : List (Option Ref)) :
    Respects Keeps (setOperands user operands) :=
  Respects.bind (truncateOperands_keeps user 0) fun _ => addOperands_keeps user operands

theorem setOperandCount_keeps (user : Ref) (count : Nat) :
    Respects Keeps (setOperandCount user count) :=
  Respects.bind (truncateOperands_keeps user count) fun _ =>
    Respects.bind (Respects.instruction user) fun _ => addOperands_keeps user _

theorem redirect_keeps
    (operand : Option Ref)
    {uses : List Use}
    {store : Store}
    (owned : ∀ use ∈ uses, store.HasSlot use) :
    store.Keeps (outcome (redirect operand uses) store).2 := by
  induction uses generalizing store with
  | nil => exact Respects.pure () store
  | cons use rest induction =>
      obtain ⟨first, later⟩ := List.forall_mem_cons.1 owned
      refine Respects.bindAt (setSlot_keeps operand first) fun _ between given => ?_
      refine induction fun other member => ?_
      have kept := setSlot_keepsSlots use.user use.slot operand store other (later other member)
      rwa [given] at kept

theorem replaceUses_keeps (old : Ref) (new : Option Ref) :
    Respects Keeps (replaceUses old new) := by
  intro store coherent
  exact redirect_keeps new (fun _ member => coherent.hasSlot_of_mem_usesOf member) coherent

theorem replaceUsesWith_keeps (old : Ref) (new : Option Ref) :
    Respects Keeps (replaceUsesWith old new) :=
  Respects.ifThen (Respects.pure ()) (replaceUses_keeps old new)

end Edit

end ShaderIR

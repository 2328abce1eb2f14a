import Mathlib.Data.List.Nodup
import Mathlib.Data.List.Perm.Subperm
import ShaderIR.Edit

/-!
# Reading a changed store

Every edit changes the store through a handful of updates: a value is modified
in place, a module is modified, a value is added.  This module says what each
observation of the store answers after each update, so that later proofs never
open an update again.

Most observations look at the content of one value only.  They are stated
through `content?`, and the updates are described by what they do to contents,
use-lists and modules.
-/

namespace ShaderIR

theorem Ref.index_injective {left right : Ref} (equal : left.index = right.index) :
    left = right := by
  cases left
  cases right
  exact congrArg Ref.mk equal

theorem Ref.index_eq_iff {left right : Ref} : left.index = right.index ↔ left = right :=
  ⟨Ref.index_injective, congrArg Ref.index⟩

/-- Change the instruction in a content; other contents stay as they are. -/
def Content.mapInstruction (change : Instruction → Instruction) : Content → Content
  | .instruction entry => .instruction (change entry)
  | other => other

/-- Change the instruction list in a content; other contents stay as they are. -/
def Content.mapBlock (change : List Ref → List Ref) : Content → Content
  | .block owner members => .block owner (change members)
  | other => other

/-- Change the function in a content; other contents stay as they are. -/
def Content.mapFunction (change : Function → Function) : Content → Content
  | .function entry => .function (change entry)
  | other => other

namespace Store

/-! ## Values -/

theorem value?_modifyValue
    (store : Store)
    (ref other : Ref)
    (change : Value → Value) :
    (store.modifyValue ref change).value? other =
      if ref = other then (store.value? other).map change else store.value? other := by
  simp only [value?, modifyValue, Array.getElem?_modify, Ref.index_eq_iff]

/-- An observation of values that a change respects is not affected by the change. -/
theorem map_value?_modifyValue
    {α : Type}
    (store : Store)
    (ref other : Ref)
    {change : Value → Value}
    {observe : Value → α}
    (respected : ∀ value, observe (change value) = observe value) :
    ((store.modifyValue ref change).value? other).map observe =
      (store.value? other).map observe := by
  rw [value?_modifyValue]
  split
  · rw [Option.map_map]
    exact congrArg (Option.map · (store.value? other)) (funext respected)
  · rfl

@[simp]
theorem modules_modifyValue
    (store : Store)
    (ref : Ref)
    (change : Value → Value) :
    (store.modifyValue ref change).modules = store.modules :=
  rfl

@[simp]
theorem nextSlot_modifyValue
    (store : Store)
    (ref : Ref)
    (change : Value → Value) :
    (store.modifyValue ref change).nextSlot = store.nextSlot :=
  rfl

@[simp]
theorem size_modifyValue
    (store : Store)
    (ref : Ref)
    (change : Value → Value) :
    (store.modifyValue ref change).values.size = store.values.size := by
  simp [modifyValue]

@[simp]
theorem value?_record (store : Store) (change : Records → Records) (ref : Ref) :
    (store.record change).value? ref = store.value? ref :=
  rfl

@[simp]
theorem content?_record (store : Store) (change : Records → Records) (ref : Ref) :
    (store.record change).content? ref = store.content? ref :=
  rfl

@[simp]
theorem modules_record (store : Store) (change : Records → Records) :
    (store.record change).modules = store.modules :=
  rfl

@[simp]
theorem nextSlot_record (store : Store) (change : Records → Records) :
    (store.record change).nextSlot = store.nextSlot :=
  rfl

@[simp]
theorem toRecords_record (store : Store) (change : Records → Records) :
    (store.record change).toRecords = change store.toRecords :=
  rfl

@[simp]
theorem instruction?_record (store : Store) (change : Records → Records) (ref : Ref) :
    (store.record change).instruction? ref = store.instruction? ref :=
  rfl

@[simp]
theorem function?_record (store : Store) (change : Records → Records) (ref : Ref) :
    (store.record change).function? ref = store.function? ref :=
  rfl

@[simp]
theorem blockFunction?_record (store : Store) (change : Records → Records) (ref : Ref) :
    (store.record change).blockFunction? ref = store.blockFunction? ref :=
  rfl

@[simp]
theorem instructions_record (store : Store) (change : Records → Records) (ref : Ref) :
    (store.record change).instructions ref = store.instructions ref :=
  rfl

@[simp]
theorem moduleOf?_record (store : Store) (change : Records → Records) (ref : Ref) :
    (store.record change).moduleOf? ref = store.moduleOf? ref :=
  rfl

@[simp]
theorem usesOf_record (store : Store) (change : Records → Records) (ref : Ref) :
    (store.record change).usesOf ref = store.usesOf ref :=
  rfl

@[simp]
theorem content?_makeSlot (store : Store) (edge : Edge) (ref : Ref) :
    (store.makeSlot edge).content? ref = store.content? ref :=
  rfl

@[simp]
theorem instruction?_makeSlot (store : Store) (edge : Edge) (ref : Ref) :
    (store.makeSlot edge).instruction? ref = store.instruction? ref :=
  rfl

@[simp]
theorem moduleOf?_makeSlot (store : Store) (edge : Edge) (ref : Ref) :
    (store.makeSlot edge).moduleOf? ref = store.moduleOf? ref :=
  rfl

@[simp]
theorem usesOf_makeSlot (store : Store) (edge : Edge) (ref : Ref) :
    (store.makeSlot edge).usesOf ref = store.usesOf ref :=
  rfl

@[simp]
theorem modules_makeSlot (store : Store) (edge : Edge) :
    (store.makeSlot edge).modules = store.modules :=
  rfl

@[simp]
theorem nextSlot_makeSlot (store : Store) (edge : Edge) :
    (store.makeSlot edge).nextSlot = store.nextSlot + 1 :=
  rfl

@[simp]
theorem toRecords_makeSlot (store : Store) (edge : Edge) :
    (store.makeSlot edge).toRecords =
      { store.toRecords with edges := redefine store.edges store.nextSlot (some edge) } :=
  rfl

theorem link_some (store : Store) (ref : Ref) (use : Use) :
    store.link (some ref) use =
      (store.modifyValue ref fun value => { value with uses := value.uses ++ [use] }).relinkUses
        (·.push ref use) :=
  rfl

theorem unlink_some (store : Store) (ref : Ref) (use : Use) :
    store.unlink (some ref) use =
      (store.modifyValue ref fun value => { value with uses := value.uses.erase use }).relinkUses
        (·.unlink use) :=
  rfl

/-! ## The records after updates -/

@[simp]
theorem toRecords_modifyValue (store : Store) (ref : Ref) (change : Value → Value) :
    (store.modifyValue ref change).toRecords = store.toRecords :=
  rfl

@[simp]
theorem toRecords_modifyInstruction
    (store : Store)
    (ref : Ref)
    (change : Instruction → Instruction) :
    (store.modifyInstruction ref change).toRecords = store.toRecords :=
  rfl

@[simp]
theorem toRecords_modifyBlock (store : Store) (ref : Ref) (change : List Ref → List Ref) :
    (store.modifyBlock ref change).toRecords = store.toRecords :=
  rfl

@[simp]
theorem toRecords_modifyFunction (store : Store) (ref : Ref) (change : Function → Function) :
    (store.modifyFunction ref change).toRecords = store.toRecords :=
  rfl

@[simp]
theorem toRecords_modifyModule (store : Store) (module : Nat) (change : Module → Module) :
    (store.modifyModule module change).toRecords = store.toRecords :=
  rfl

@[simp]
theorem links_link (store : Store) (operand : Option Ref) (use : Use) :
    (store.link operand use).links = store.links := by
  cases operand <;> rfl

@[simp]
theorem links_unlink (store : Store) (operand : Option Ref) (use : Use) :
    (store.unlink operand use).links = store.links := by
  cases operand <;> rfl

@[simp]
theorem links_linkAll (store : Store) (user : Ref) (slots : List Slot) :
    (store.linkAll user slots).links = store.links := by
  induction slots generalizing store with
  | nil => rfl
  | cons slot rest induction =>
      simp only [linkAll, List.foldl_cons] at induction ⊢
      rw [induction, links_link]

@[simp]
theorem links_unlinkAll (store : Store) (user : Ref) (slots : List Slot) :
    (store.unlinkAll user slots).links = store.links := by
  induction slots generalizing store with
  | nil => rfl
  | cons slot rest induction =>
      simp only [unlinkAll, List.foldl_cons] at induction ⊢
      rw [induction, links_unlink]

@[simp]
theorem edges_link (store : Store) (operand : Option Ref) (use : Use) :
    (store.link operand use).edges = store.edges := by
  cases operand <;> rfl

@[simp]
theorem edges_unlink (store : Store) (operand : Option Ref) (use : Use) :
    (store.unlink operand use).edges = store.edges := by
  cases operand <;> rfl

@[simp]
theorem edges_linkAll (store : Store) (user : Ref) (slots : List Slot) :
    (store.linkAll user slots).edges = store.edges := by
  induction slots generalizing store with
  | nil => rfl
  | cons slot rest induction =>
      simp only [linkAll, List.foldl_cons] at induction ⊢
      rw [induction, edges_link]

@[simp]
theorem edges_unlinkAll (store : Store) (user : Ref) (slots : List Slot) :
    (store.unlinkAll user slots).edges = store.edges := by
  induction slots generalizing store with
  | nil => rfl
  | cons slot rest induction =>
      simp only [unlinkAll, List.foldl_cons] at induction ⊢
      rw [induction, edges_unlink]

/-! ## Observations through contents -/

section Contents

variable {store other : Store} {ref : Ref}

theorem instruction?_congr (same : store.content? ref = other.content? ref) :
    store.instruction? ref = other.instruction? ref := by
  simp only [instruction?, same]

theorem function?_congr (same : store.content? ref = other.content? ref) :
    store.function? ref = other.function? ref := by
  simp only [function?, same]

theorem isBlock_congr (same : store.content? ref = other.content? ref) :
    store.isBlock ref = other.isBlock ref := by
  simp only [isBlock, same]

theorem instructions_congr (same : store.content? ref = other.content? ref) :
    store.instructions ref = other.instructions ref := by
  simp only [instructions, same]

theorem blockFunction?_congr (same : store.content? ref = other.content? ref) :
    store.blockFunction? ref = other.blockFunction? ref := by
  simp only [blockFunction?, same]

theorem instruction?_eq_some_iff {instruction : Instruction} :
    store.instruction? ref = some instruction ↔
      store.content? ref = some (.instruction instruction) := by
  unfold instruction?
  split <;> simp_all

theorem function?_eq_some_iff {function : Function} :
    store.function? ref = some function ↔
      store.content? ref = some (.function function) := by
  unfold function?
  split <;> simp_all

theorem blockFunction?_eq_some_iff {function : Ref} :
    store.blockFunction? ref = some function ↔
      ∃ instructions, store.content? ref = some (.block function instructions) := by
  unfold blockFunction?
  split <;> simp_all

theorem isBlock_iff :
    store.isBlock ref = true ↔
      ∃ function instructions, store.content? ref = some (.block function instructions) := by
  unfold isBlock
  split <;> simp_all

theorem isBlock_iff_blockFunction? :
    store.isBlock ref = true ↔ (store.blockFunction? ref).isSome := by
  unfold isBlock blockFunction?
  split <;> simp

theorem isBlock_of_mem_instructions
    {instruction : Ref}
    (member : instruction ∈ store.instructions ref) :
    store.isBlock ref = true := by
  unfold instructions at member
  unfold isBlock
  split at member
  · simp_all
  · simp at member

theorem instructions_eq_nil
    (other : ∀ function members, store.content? ref ≠ some (.block function members)) :
    store.instructions ref = [] := by
  unfold instructions
  split
  · rename_i function members found
    exact absurd found (other function members)
  · rfl

/-- The instructions of a block are the same where the blocks are. -/
theorem instructions_eq_of_blocks
    (same : ∀ function members, store.content? ref = some (.block function members) ↔
      other.content? ref = some (.block function members)) :
    store.instructions ref = other.instructions ref := by
  by_cases block : ∃ function members, other.content? ref = some (.block function members)
  · obtain ⟨function, members, found⟩ := block
    rw [instructions, instructions, found, (same function members).2 found]
  · push Not at block
    rw [instructions_eq_nil block,
      instructions_eq_nil fun function members => mt (same function members).1 (block _ _)]

theorem content?_isSome_iff : (store.content? ref).isSome ↔ (store.value? ref).isSome := by
  simp [content?]

theorem moduleOf?_isSome_iff : (store.moduleOf? ref).isSome ↔ (store.value? ref).isSome := by
  simp [moduleOf?]

theorem value?_isSome_of_instruction?
    {instruction : Instruction}
    (found : store.instruction? ref = some instruction) :
    (store.value? ref).isSome := by
  rw [← content?_isSome_iff, instruction?_eq_some_iff.1 found]
  rfl

theorem blockOf?_eq_some_iff {block : Ref} :
    store.blockOf? ref = some block ↔
      ∃ instruction, store.instruction? ref = some instruction ∧
        instruction.block = some block := by
  simp [blockOf?, Option.bind_eq_some_iff]

theorem isInstruction_of_linked (linked : (store.blockOf? ref).isSome) :
    store.isInstruction ref = true := by
  obtain ⟨block, linked⟩ := Option.isSome_iff_exists.1 linked
  obtain ⟨entry, found, -⟩ := blockOf?_eq_some_iff.1 linked
  simp [isInstruction, found]

theorem index_lt_of_value? (present : (store.value? ref).isSome) :
    ref.index < store.values.size := by
  obtain ⟨value, found⟩ := Option.isSome_iff_exists.1 present
  exact (Array.getElem?_eq_some_iff.1 found).1

theorem value?_isSome_of_blockOf? (linked : (store.blockOf? ref).isSome) :
    (store.value? ref).isSome := by
  obtain ⟨block, linked⟩ := Option.isSome_iff_exists.1 linked
  obtain ⟨entry, found, -⟩ := blockOf?_eq_some_iff.1 linked
  exact value?_isSome_of_instruction? found

end Contents

/-! ## Contents after updates -/

section Updates

variable (store : Store) (ref other : Ref)

theorem content?_modifyValue
    {change : Value → Value}
    {changeContent : Content → Content}
    (respected : ∀ value, (change value).content = changeContent value.content) :
    (store.modifyValue ref change).content? other =
      if ref = other then (store.content? other).map changeContent
      else store.content? other := by
  simp only [content?, value?_modifyValue]
  split
  · rw [Option.map_map, Option.map_map]
    exact congrArg (Option.map · (store.value? other)) (funext respected)
  · rfl

theorem content?_modifyInstruction (change : Instruction → Instruction) :
    (store.modifyInstruction ref change).content? other =
      if ref = other then (store.content? other).map (.mapInstruction change)
      else store.content? other := by
  refine content?_modifyValue store ref other fun value => ?_
  unfold Content.mapInstruction
  split <;> simp_all

theorem content?_modifyBlock (change : List Ref → List Ref) :
    (store.modifyBlock ref change).content? other =
      if ref = other then (store.content? other).map (.mapBlock change)
      else store.content? other := by
  refine content?_modifyValue store ref other fun value => ?_
  unfold Content.mapBlock
  split <;> simp_all

theorem content?_modifyFunction (change : Function → Function) :
    (store.modifyFunction ref change).content? other =
      if ref = other then (store.content? other).map (.mapFunction change)
      else store.content? other := by
  refine content?_modifyValue store ref other fun value => ?_
  unfold Content.mapFunction
  split <;> simp_all

theorem instruction?_modifyInstruction (change : Instruction → Instruction) :
    (store.modifyInstruction ref change).instruction? other =
      if ref = other then (store.instruction? other).map change
      else store.instruction? other := by
  simp only [instruction?, content?_modifyInstruction]
  by_cases same : ref = other
  · rw [if_pos same]
    rcases store.content? other with _ | content
    · simp
    · cases content <;> simp [Content.mapInstruction, same]
  · simp [same]

@[simp]
theorem function?_modifyInstruction (change : Instruction → Instruction) :
    (store.modifyInstruction ref change).function? other = store.function? other := by
  simp only [function?, content?_modifyInstruction]
  by_cases same : ref = other
  · rw [if_pos same]
    rcases store.content? other with _ | content
    · simp
    · cases content <;> simp [Content.mapInstruction]
  · simp [same]

@[simp]
theorem blockFunction?_modifyInstruction (change : Instruction → Instruction) :
    (store.modifyInstruction ref change).blockFunction? other = store.blockFunction? other := by
  simp only [blockFunction?, content?_modifyInstruction]
  by_cases same : ref = other
  · rw [if_pos same]
    rcases store.content? other with _ | content
    · simp
    · cases content <;> simp [Content.mapInstruction]
  · simp [same]

@[simp]
theorem instructions_modifyInstruction (change : Instruction → Instruction) :
    (store.modifyInstruction ref change).instructions other = store.instructions other := by
  simp only [instructions, content?_modifyInstruction]
  by_cases same : ref = other
  · rw [if_pos same]
    rcases store.content? other with _ | content
    · simp
    · cases content <;> simp [Content.mapInstruction]
  · simp [same]

@[simp]
theorem instruction?_modifyBlock (change : List Ref → List Ref) :
    (store.modifyBlock ref change).instruction? other = store.instruction? other := by
  simp only [instruction?, content?_modifyBlock]
  by_cases same : ref = other
  · rw [if_pos same]
    rcases store.content? other with _ | content
    · simp
    · cases content <;> simp [Content.mapBlock]
  · simp [same]

@[simp]
theorem function?_modifyBlock (change : List Ref → List Ref) :
    (store.modifyBlock ref change).function? other = store.function? other := by
  simp only [function?, content?_modifyBlock]
  by_cases same : ref = other
  · rw [if_pos same]
    rcases store.content? other with _ | content
    · simp
    · cases content <;> simp [Content.mapBlock]
  · simp [same]

@[simp]
theorem blockFunction?_modifyBlock (change : List Ref → List Ref) :
    (store.modifyBlock ref change).blockFunction? other = store.blockFunction? other := by
  simp only [blockFunction?, content?_modifyBlock]
  by_cases same : ref = other
  · rw [if_pos same]
    rcases store.content? other with _ | content
    · simp
    · cases content <;> simp [Content.mapBlock]
  · simp [same]

theorem instructions_modifyBlock
    {change : List Ref → List Ref}
    (isBlock : store.isBlock ref = true) :
    (store.modifyBlock ref change).instructions other =
      if ref = other then change (store.instructions other) else store.instructions other := by
  obtain ⟨owner, members, found⟩ := isBlock_iff.1 isBlock
  simp only [instructions, content?_modifyBlock]
  by_cases same : ref = other
  · subst same
    simp [found, Content.mapBlock]
  · simp [same]

@[simp]
theorem instruction?_modifyFunction (change : Function → Function) :
    (store.modifyFunction ref change).instruction? other = store.instruction? other := by
  simp only [instruction?, content?_modifyFunction]
  by_cases same : ref = other
  · rw [if_pos same]
    rcases store.content? other with _ | content
    · simp
    · cases content <;> simp [Content.mapFunction]
  · simp [same]

@[simp]
theorem blockFunction?_modifyFunction (change : Function → Function) :
    (store.modifyFunction ref change).blockFunction? other = store.blockFunction? other := by
  simp only [blockFunction?, content?_modifyFunction]
  by_cases same : ref = other
  · rw [if_pos same]
    rcases store.content? other with _ | content
    · simp
    · cases content <;> simp [Content.mapFunction]
  · simp [same]

@[simp]
theorem instructions_modifyFunction (change : Function → Function) :
    (store.modifyFunction ref change).instructions other = store.instructions other := by
  simp only [instructions, content?_modifyFunction]
  by_cases same : ref = other
  · rw [if_pos same]
    rcases store.content? other with _ | content
    · simp
    · cases content <;> simp [Content.mapFunction]
  · simp [same]

theorem function?_modifyFunction (change : Function → Function) :
    (store.modifyFunction ref change).function? other =
      if ref = other then (store.function? other).map change else store.function? other := by
  simp only [function?, content?_modifyFunction]
  by_cases same : ref = other
  · rw [if_pos same]
    rcases store.content? other with _ | content
    · simp
    · cases content <;> simp [Content.mapFunction, same]
  · simp [same]

@[simp]
theorem content?_link (operand : Option Ref) (use : Use) :
    (store.link operand use).content? other = store.content? other := by
  cases operand with
  | none => rfl
  | some value => exact map_value?_modifyValue store value other fun _ => rfl

@[simp]
theorem content?_unlink (operand : Option Ref) (use : Use) :
    (store.unlink operand use).content? other = store.content? other := by
  cases operand with
  | none => rfl
  | some value => exact map_value?_modifyValue store value other fun _ => rfl

@[simp]
theorem content?_linkAll (user : Ref) (slots : List Slot) :
    (store.linkAll user slots).content? other = store.content? other := by
  induction slots generalizing store with
  | nil => rfl
  | cons slot rest induction =>
      simp only [linkAll, List.foldl_cons] at induction ⊢
      rw [induction, content?_link]

@[simp]
theorem content?_unlinkAll (user : Ref) (slots : List Slot) :
    (store.unlinkAll user slots).content? other = store.content? other := by
  induction slots generalizing store with
  | nil => rfl
  | cons slot rest induction =>
      simp only [unlinkAll, List.foldl_cons] at induction ⊢
      rw [induction, content?_unlink]

/-! ## Modules after updates -/

theorem moduleOf?_modifyValue
    {change : Value → Value}
    (respected : ∀ value, (change value).module = value.module) :
    (store.modifyValue ref change).moduleOf? other = store.moduleOf? other :=
  map_value?_modifyValue store ref other respected

@[simp]
theorem moduleOf?_modifyInstruction (change : Instruction → Instruction) :
    (store.modifyInstruction ref change).moduleOf? other = store.moduleOf? other := by
  refine moduleOf?_modifyValue store ref other fun value => ?_
  split <;> rfl

@[simp]
theorem moduleOf?_modifyBlock (change : List Ref → List Ref) :
    (store.modifyBlock ref change).moduleOf? other = store.moduleOf? other := by
  refine moduleOf?_modifyValue store ref other fun value => ?_
  split <;> rfl

@[simp]
theorem moduleOf?_modifyFunction (change : Function → Function) :
    (store.modifyFunction ref change).moduleOf? other = store.moduleOf? other := by
  refine moduleOf?_modifyValue store ref other fun value => ?_
  split <;> rfl

@[simp]
theorem moduleOf?_link (operand : Option Ref) (use : Use) :
    (store.link operand use).moduleOf? other = store.moduleOf? other := by
  cases operand with
  | none => rfl
  | some value => exact moduleOf?_modifyValue store value other fun _ => rfl

@[simp]
theorem moduleOf?_unlink (operand : Option Ref) (use : Use) :
    (store.unlink operand use).moduleOf? other = store.moduleOf? other := by
  cases operand with
  | none => rfl
  | some value => exact moduleOf?_modifyValue store value other fun _ => rfl

@[simp]
theorem moduleOf?_linkAll (user : Ref) (slots : List Slot) :
    (store.linkAll user slots).moduleOf? other = store.moduleOf? other := by
  induction slots generalizing store with
  | nil => rfl
  | cons slot rest induction =>
      simp only [linkAll, List.foldl_cons] at induction ⊢
      rw [induction, moduleOf?_link]

@[simp]
theorem moduleOf?_unlinkAll (user : Ref) (slots : List Slot) :
    (store.unlinkAll user slots).moduleOf? other = store.moduleOf? other := by
  induction slots generalizing store with
  | nil => rfl
  | cons slot rest induction =>
      simp only [unlinkAll, List.foldl_cons] at induction ⊢
      rw [induction, moduleOf?_unlink]

/-! ## The module table and the slot counter -/

@[simp]
theorem modules_link (operand : Option Ref) (use : Use) :
    (store.link operand use).modules = store.modules := by
  cases operand <;> rfl

@[simp]
theorem modules_unlink (operand : Option Ref) (use : Use) :
    (store.unlink operand use).modules = store.modules := by
  cases operand <;> rfl

@[simp]
theorem modules_linkAll (user : Ref) (slots : List Slot) :
    (store.linkAll user slots).modules = store.modules := by
  induction slots generalizing store with
  | nil => rfl
  | cons slot rest induction =>
      simp only [linkAll, List.foldl_cons] at induction ⊢
      rw [induction, modules_link]

@[simp]
theorem modules_unlinkAll (user : Ref) (slots : List Slot) :
    (store.unlinkAll user slots).modules = store.modules := by
  induction slots generalizing store with
  | nil => rfl
  | cons slot rest induction =>
      simp only [unlinkAll, List.foldl_cons] at induction ⊢
      rw [induction, modules_unlink]

@[simp]
theorem nextSlot_link (operand : Option Ref) (use : Use) :
    (store.link operand use).nextSlot = store.nextSlot := by
  cases operand <;> rfl

@[simp]
theorem nextSlot_unlink (operand : Option Ref) (use : Use) :
    (store.unlink operand use).nextSlot = store.nextSlot := by
  cases operand <;> rfl

@[simp]
theorem nextSlot_linkAll (user : Ref) (slots : List Slot) :
    (store.linkAll user slots).nextSlot = store.nextSlot := by
  induction slots generalizing store with
  | nil => rfl
  | cons slot rest induction =>
      simp only [linkAll, List.foldl_cons] at induction ⊢
      rw [induction, nextSlot_link]

@[simp]
theorem nextSlot_unlinkAll (user : Ref) (slots : List Slot) :
    (store.unlinkAll user slots).nextSlot = store.nextSlot := by
  induction slots generalizing store with
  | nil => rfl
  | cons slot rest induction =>
      simp only [unlinkAll, List.foldl_cons] at induction ⊢
      rw [induction, nextSlot_unlink]

@[simp]
theorem modules_modifyInstruction (change : Instruction → Instruction) :
    (store.modifyInstruction ref change).modules = store.modules :=
  rfl

@[simp]
theorem modules_modifyBlock (change : List Ref → List Ref) :
    (store.modifyBlock ref change).modules = store.modules :=
  rfl

@[simp]
theorem modules_modifyFunction (change : Function → Function) :
    (store.modifyFunction ref change).modules = store.modules :=
  rfl

@[simp]
theorem nextSlot_modifyInstruction (change : Instruction → Instruction) :
    (store.modifyInstruction ref change).nextSlot = store.nextSlot :=
  rfl

@[simp]
theorem nextSlot_modifyBlock (change : List Ref → List Ref) :
    (store.modifyBlock ref change).nextSlot = store.nextSlot :=
  rfl

@[simp]
theorem nextSlot_modifyFunction (change : Function → Function) :
    (store.modifyFunction ref change).nextSlot = store.nextSlot :=
  rfl

/-! ## Use-lists after updates -/

theorem usesOf_modifyValue
    {change : Value → Value}
    (respected : ∀ value, (change value).uses = value.uses) :
    (store.modifyValue ref change).usesOf other = store.usesOf other :=
  congrArg (·.getD []) (map_value?_modifyValue store ref other respected)

@[simp]
theorem usesOf_modifyInstruction (change : Instruction → Instruction) :
    (store.modifyInstruction ref change).usesOf other = store.usesOf other := by
  refine usesOf_modifyValue store ref other fun value => ?_
  split <;> rfl

@[simp]
theorem usesOf_modifyBlock (change : List Ref → List Ref) :
    (store.modifyBlock ref change).usesOf other = store.usesOf other := by
  refine usesOf_modifyValue store ref other fun value => ?_
  split <;> rfl

@[simp]
theorem usesOf_modifyFunction (change : Function → Function) :
    (store.modifyFunction ref change).usesOf other = store.usesOf other := by
  refine usesOf_modifyValue store ref other fun value => ?_
  split <;> rfl

theorem value?_isSome_congr (same : store.moduleOf? other = store.moduleOf? ref) :
    (store.value? other).isSome = (store.value? ref).isSome := by
  simpa [moduleOf?] using congrArg Option.isSome same

/-- Linking a use appends it to the use-list of its value. -/
theorem usesOf_link
    {operand : Option Ref}
    {use : Use}
    (present : operand = some other → (store.value? other).isSome) :
    (store.link operand use).usesOf other =
      store.usesOf other ++ if operand = some other then [use] else [] := by
  cases operand with
  | none => simp [link]
  | some target =>
      by_cases equal : target = other
      · subst equal
        obtain ⟨value, found⟩ := Option.isSome_iff_exists.1 (present rfl)
        simp [link, usesOf, value?_modifyValue, found]
      · simp [link, usesOf, value?_modifyValue, equal]

/-- Unlinking a use takes it out of the use-list of its value. -/
theorem usesOf_unlink {operand : Option Ref} {use : Use} :
    (store.unlink operand use).usesOf other =
      if operand = some other then (store.usesOf other).erase use
      else store.usesOf other := by
  cases operand with
  | none => rfl
  | some target =>
      by_cases equal : target = other
      · cases found : store.value? other <;>
          simp [unlink, usesOf, value?_modifyValue, equal, found]
      · simp [unlink, usesOf, value?_modifyValue, equal]

theorem value?_isSome_link (operand : Option Ref) (use : Use) :
    ((store.link operand use).value? other).isSome = (store.value? other).isSome := by
  rw [Bool.eq_iff_iff, ← moduleOf?_isSome_iff, ← moduleOf?_isSome_iff, moduleOf?_link]

/-- The uses of a value among the slots of an instruction, in slot order. -/
def usesAmong (user value : Ref) (slots : List Slot) : List Use :=
  (slots.filter (·.value == some value)).map fun slot => ⟨user, slot.key⟩

theorem mem_usesAmong {user value : Ref} {slots : List Slot} {use : Use} :
    use ∈ usesAmong user value slots ↔
      use.user = user ∧ (⟨use.slot, some value⟩ : Slot) ∈ slots := by
  unfold usesAmong
  simp only [List.mem_map, List.mem_filter, beq_iff_eq]
  constructor
  · rintro ⟨⟨key, held⟩, ⟨member, holds⟩, rfl⟩
    subst holds
    exact ⟨rfl, member⟩
  · rintro ⟨rfl, member⟩
    exact ⟨_, ⟨member, rfl⟩, rfl⟩

theorem nodup_usesAmong
    (user value : Ref)
    {slots : List Slot}
    (distinct : (slots.map (·.key)).Nodup) :
    (usesAmong user value slots).Nodup := by
  have kept : ((slots.filter (·.value == some value)).map (·.key)).Nodup :=
    distinct.sublist (List.filter_sublist.map _)
  refine List.Nodup.of_map (fun use : Use => use.slot) ?_
  simpa [usesAmong, Function.comp_def] using kept

theorem usesOf_linkAll
    {user : Ref}
    {slots : List Slot}
    (present : ∀ slot ∈ slots, slot.value = some other → (store.value? other).isSome) :
    (store.linkAll user slots).usesOf other =
      store.usesOf other ++ usesAmong user other slots := by
  induction slots generalizing store with
  | nil => simp [linkAll, usesAmong]
  | cons slot rest induction =>
      simp only [linkAll, List.foldl_cons] at induction ⊢
      rw [List.forall_mem_cons] at present
      rw [induction _ (by simpa only [value?_isSome_link] using present.2),
        usesOf_link _ _ present.1, List.append_assoc]
      by_cases holds : slot.value = some other <;> simp [usesAmong, holds]

theorem usesOf_unlinkAll {user : Ref} {slots : List Slot} :
    (store.unlinkAll user slots).usesOf other =
      (store.usesOf other).diff (usesAmong user other slots) := by
  induction slots generalizing store with
  | nil => simp [unlinkAll, usesAmong]
  | cons slot rest induction =>
      simp only [unlinkAll, List.foldl_cons] at induction ⊢
      rw [induction, usesOf_unlink]
      by_cases holds : slot.value = some other <;> simp [usesAmong, holds]

/-! ## Fresh values -/

theorem value?_allocate (module : Nat) (type : Option Ty) (content : Content) :
    (store.allocate module type content).2.value? other =
      if other = (store.allocate module type content).1 then
        some
          { module
            id := (store.modules[module]?.map (·.pool.size)).getD 0
            type
            content }
      else store.value? other := by
  simp only [allocate, value?, modifyModule, Array.getElem?_push, ← Ref.index_eq_iff]

theorem value?_allocate_fst (module : Nat) (type : Option Ty) (content : Content) :
    store.value? (store.allocate module type content).1 = none := by
  simp [allocate, value?]

@[simp]
theorem nextSlot_allocate (module : Nat) (type : Option Ty) (content : Content) :
    (store.allocate module type content).2.nextSlot = store.nextSlot :=
  rfl

theorem modules_allocate (module : Nat) (type : Option Ty) (content : Content) :
    (store.allocate module type content).2.modules =
      store.modules.modify module fun entry =>
        { entry with pool := entry.pool.push (store.allocate module type content).1 } :=
  rfl

@[simp]
theorem value?_modifyModule (module : Nat) (change : Module → Module) :
    (store.modifyModule module change).value? other = store.value? other :=
  rfl

/-- A change of a module is seen by no observation of values. -/
theorem content?_modifyModule (module : Nat) (change : Module → Module) :
    (store.modifyModule module change).content? other = store.content? other :=
  rfl

end Updates

/-- Distinct values of a store are no more than the store has. -/
theorem length_le_size
    {store : Store}
    {refs : List Ref}
    (distinct : refs.Nodup)
    (present : ∀ ref ∈ refs, (store.value? ref).isSome) :
    refs.length ≤ store.values.size := by
  have indices : (refs.map (·.index)).Nodup :=
    distinct.map fun first second equal => Ref.index_injective equal
  have inside : refs.map (·.index) ⊆ List.range store.values.size := by
    intro index indexed
    obtain ⟨ref, member, rfl⟩ := List.mem_map.1 indexed
    exact List.mem_range.2 (index_lt_of_value? (present ref member))
  simpa using (List.subperm_of_subset indices inside).length_le

end Store

end ShaderIR

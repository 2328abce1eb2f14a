import ShaderIR.Proofs.Coherence.Edges
import ShaderIR.Proofs.Coherence.Session

/-!
# Predecessors and successors

Successors are read off the operands of the terminator of a block, predecessors off the
use-list of a block.  In the state after any operations the two agree, as long as a block
holds no terminator before its last instruction; such a terminator counts for
predecessors alone.

Instructions also name blocks that are no operands: merge blocks, the body and the update
block of a loop, the incoming blocks of a phi.  Forgetting all of these changes neither
successors nor predecessors.
-/

namespace ShaderIR

/-! ## Blocks that are only named -/

/-- A kind of instruction without the blocks that it names besides its operands. -/
def Opcode.unnamed : Opcode → Opcode
  | .loop _ _ _ => .loop none none none
  | .phi _ => .phi []
  | opcode => opcode.withMerge none

/-- An instruction without the blocks that it names besides its operands. -/
def Instruction.unnamed (instruction : Instruction) : Instruction :=
  { instruction with opcode := instruction.opcode.unnamed }

/-- What a value is, without the blocks that it names besides its operands. -/
def Content.unnamed : Content → Content
  | .instruction entry => .instruction entry.unnamed
  | content => content

/-- The store in which instructions name no blocks besides their operands. -/
def Store.unnamed (store : Store) : Store :=
  { store with
    values := store.values.map fun value => { value with content := value.content.unnamed } }

theorem Opcode.isTerminator_unnamed (opcode : Opcode) :
    opcode.unnamed.isTerminator = opcode.isTerminator := by
  cases opcode <;> rfl

namespace Store

variable {store : Store} {source target ref : Ref}

section Unnamed

theorem content?_unnamed (ref : Ref) :
    store.unnamed.content? ref = (store.content? ref).map Content.unnamed := by
  simp [content?, value?, unnamed, Function.comp_def]

theorem usesOf_unnamed (ref : Ref) : store.unnamed.usesOf ref = store.usesOf ref := by
  simp [usesOf, value?, unnamed, Function.comp_def]

theorem instruction?_unnamed (ref : Ref) :
    store.unnamed.instruction? ref = (store.instruction? ref).map Instruction.unnamed := by
  rw [instruction?, instruction?, content?_unnamed]
  rcases store.content? ref with _ | ⟨_ | _⟩ <;> rfl

theorem isBlock_unnamed (ref : Ref) : store.unnamed.isBlock ref = store.isBlock ref := by
  rw [isBlock, isBlock, content?_unnamed]
  rcases store.content? ref with _ | ⟨_ | _⟩ <;> rfl

theorem blockFunction?_unnamed (ref : Ref) :
    store.unnamed.blockFunction? ref = store.blockFunction? ref := by
  rw [blockFunction?, blockFunction?, content?_unnamed]
  rcases store.content? ref with _ | ⟨_ | _⟩ <;> rfl

theorem instructions_unnamed (ref : Ref) :
    store.unnamed.instructions ref = store.instructions ref := by
  rw [instructions, instructions, content?_unnamed]
  rcases store.content? ref with _ | ⟨_ | _⟩ <;> rfl

theorem blockOf?_unnamed (ref : Ref) : store.unnamed.blockOf? ref = store.blockOf? ref := by
  rw [blockOf?, blockOf?, instruction?_unnamed]
  cases store.instruction? ref <;> rfl

theorem operands_unnamed (ref : Ref) : store.unnamed.operands ref = store.operands ref := by
  rw [operands, operands, instruction?_unnamed]
  cases store.instruction? ref <;> rfl

theorem isTerminator_unnamed (ref : Ref) :
    store.unnamed.isTerminator ref = store.isTerminator ref := by
  rw [isTerminator, isTerminator, opcode?, opcode?, instruction?_unnamed]
  cases store.instruction? ref with
  | none => rfl
  | some entry => exact entry.opcode.isTerminator_unnamed

theorem successors_unnamed (block : Ref) :
    store.unnamed.successors block = store.successors block := by
  have asBlock : store.unnamed.asBlock = store.asBlock := by
    funext operand
    rw [asBlock, asBlock, funext isBlock_unnamed]
  have last : store.unnamed.terminator? block = store.terminator? block := by
    rw [terminator?, terminator?, instructions_unnamed, funext isTerminator_unnamed]
  rw [successors, successors, last, asBlock]
  simp only [operands_unnamed]

theorem predecessors_unnamed (block : Ref) :
    store.unnamed.predecessors block = store.predecessors block := by
  simp only [predecessors, usesOf_unnamed, isTerminator_unnamed, blockOf?_unnamed,
    blockFunction?_unnamed]

end Unnamed

/-! ## The two views of an edge -/

theorem Coherent.mem_predecessors_iff_mem_successors
    (coherent : store.Coherent)
    (owner : store.blockFunction? source = store.blockFunction? target)
    (isBlock : store.isBlock target = true)
    (single : ∀ ref ∈ (store.instructions source).dropLast, store.isTerminator ref = false) :
    source ∈ store.predecessors target ↔ target ∈ store.successors source := by
  constructor
  · intro member
    obtain ⟨terminator, linked, ends, operand, -⟩ := coherent.mem_predecessors_iff.1 member
    have last := terminator?_of_linked single ((coherent.mem_members source terminator).2 linked)
      ends
    exact mem_successors_iff.2 ⟨terminator, last, operand, isBlock⟩
  · intro edge
    exact coherent.mem_predecessors_of_successor edge owner

theorem isBlock_of_blockFunction?
    {function : Ref}
    (owned : store.blockFunction? ref = some function) :
    store.isBlock ref = true := by
  unfold blockFunction? at owned
  unfold isBlock
  split at owned
  · rfl
  · cases owned

end Store

namespace Session

/--
After any operations, refused ones among them: of two blocks of one function the first is a
predecessor of the second exactly when the second is a successor of the first, provided that
the first holds no terminator before its last instruction; neither list repeats a block; and
merge blocks, the body and update blocks of loops and the incoming blocks of phis make no
difference to either list.
-/
theorem predecessors_agree (operations : List Operation) :
    let store := (after operations).store
    (∀ function source target,
      store.blockFunction? source = some function →
      store.blockFunction? target = some function →
      (∀ ref ∈ (store.instructions source).dropLast, store.isTerminator ref = false) →
      (source ∈ store.predecessors target ↔ target ∈ store.successors source)) ∧
    (∀ block, (store.predecessors block).Nodup ∧ (store.successors block).Nodup) ∧
    ∀ block, store.unnamed.predecessors block = store.predecessors block ∧
      store.unnamed.successors block = store.successors block := by
  intro store
  have coherent : store.Coherent := (after_coherent operations).store
  refine ⟨fun function source target owned owned' single => ?_, fun block => ?_, fun block => ?_⟩
  · exact coherent.mem_predecessors_iff_mem_successors (owned.trans owned'.symm)
      (Store.isBlock_of_blockFunction? owned') single
  · constructor
    · exact Store.nodup_distinct _
    · cases last : store.terminator? block with
      | none =>
          rw [Store.successors, last]
          exact List.nodup_nil
      | some terminator =>
          rw [Store.successors, last]
          exact Store.nodup_distinct _
  · exact ⟨Store.predecessors_unnamed block, Store.successors_unnamed block⟩

/--
A loop with all its blocks, whose body goes round once more by way of the update block, and
a phi at its head that has the body for an incoming block although control comes from the
update block.
-/
def rounding : List Operation :=
  [.edit (.addModule "rounding"),
    .edit (.createFunction 0 .callable none),
    .edit (.createBody ⟨0⟩),
    .edit (.requestType 0 "i32" (.scalar (.signed 4))),
    .edit (.undefined 0 (some (.scalar ⟨0, 0, "i32"⟩ (.signed 4)))),
    .moveToEnd ⟨1⟩, .emit (.loop none none none) none [none] (.refl true),
    .edit (.createBlockAt ⟨3⟩ (.operand 0)),
    .edit (.createBlockAt ⟨3⟩ .body),
    .edit (.createBlockAt ⟨3⟩ .update),
    .edit (.createBlockAt ⟨3⟩ .merge),
    .moveToEnd ⟨4⟩, .phi (some (.scalar ⟨0, 0, "i32"⟩ (.signed 4))) [(some ⟨2⟩, some ⟨5⟩)],
    .condBranch none (some ⟨5⟩) (some ⟨7⟩),
    .moveToEnd ⟨5⟩, .emit .branch none [some ⟨6⟩] (.refl true),
    .moveToEnd ⟨6⟩, .emit .branch none [some ⟨4⟩] (.refl true),
    .moveToEnd ⟨7⟩, .emit .ret none [] (.refl true)]

/-- Control comes to the head of the loop from the update block, and not from the body. -/
theorem predecessors_agree_rounding :
    (⟨6⟩ ∈ (after rounding).store.predecessors ⟨4⟩ ∧
      ⟨4⟩ ∈ (after rounding).store.successors ⟨6⟩) ∧
    (⟨5⟩ ∉ (after rounding).store.predecessors ⟨4⟩ ∧
      ⟨4⟩ ∉ (after rounding).store.successors ⟨5⟩) ∧
    (⟨1⟩ ∉ (after rounding).store.predecessors ⟨7⟩ ∧
      ⟨7⟩ ∉ (after rounding).store.successors ⟨1⟩) := by
  have agree := (predecessors_agree rounding).1
  have goesBack := agree ⟨0⟩ ⟨6⟩ ⟨4⟩ (by decide +kernel) (by decide +kernel) (by decide +kernel)
  have passesOn := agree ⟨0⟩ ⟨5⟩ ⟨4⟩ (by decide +kernel) (by decide +kernel) (by decide +kernel)
  have merges := agree ⟨0⟩ ⟨1⟩ ⟨7⟩ (by decide +kernel) (by decide +kernel) (by decide +kernel)
  have edge : ⟨4⟩ ∈ (after rounding).store.successors ⟨6⟩ := by decide +kernel
  have noEdge : ⟨4⟩ ∉ (after rounding).store.successors ⟨5⟩ := by decide +kernel
  have noMerge : ⟨7⟩ ∉ (after rounding).store.successors ⟨1⟩ := by decide +kernel
  exact ⟨⟨goesBack.2 edge, edge⟩, ⟨fun member => noEdge (passesOn.1 member), noEdge⟩,
    fun member => noMerge (merges.1 member), noMerge⟩

end Session

end ShaderIR

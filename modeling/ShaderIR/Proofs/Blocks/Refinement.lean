import ShaderIR.Proofs.Blocks.Editing

/-!
# Block editing refines list editing

In every state that a session can reach, editing the instructions of blocks comes to editing
lists: moves put an instruction between its new neighbours and touch nothing else, building at
a cursor writes from there on, and no other edit has any effect on the lists.  The links
between instructions follow, and reading along them gives the lists again.
-/

namespace ShaderIR

open Store Edit Build

/-- Edits of the instructions of blocks do to their lists and links what they are to do. -/
structure Store.EditsLists (store : Store) : Prop where
  /-- An instruction moves right before another one. -/
  insertBefore : ∀ ref target block,
    store.isInstruction ref = true →
    store.blockOf? target = some block → target ≠ ref →
    store.moduleOf? ref = store.moduleOf? target →
    ∃ left front back, Gives (Edit.insertBefore ref (some target)) store () left ∧
      store.Moves ref block front (target :: back) left ∧
      left.links = store.links.insertBefore ref target
  /-- An instruction moves right after another one. -/
  insertBehind : ∀ ref target block,
    store.isInstruction ref = true →
    store.blockOf? target = some block → target ≠ ref →
    store.moduleOf? ref = store.moduleOf? target →
    ∃ left front back, Gives (Edit.insertBehind ref (some target)) store () left ∧
      store.Moves ref block (front ++ [target]) back left ∧
      left.links = store.links.insertBehind ref target
  /-- A move next to itself changes nothing, whether it is refused or not. -/
  itself : ∀ ref,
    (Edit.outcome (Edit.insertBefore ref (some ref)) store).2 = store ∧
    (Edit.outcome (Edit.insertBehind ref (some ref)) store).2 = store
  /-- An instruction moves to the end of a block. -/
  append : ∀ block ref,
    store.isBlock block = true → store.isInstruction ref = true →
    store.moduleOf? ref = store.moduleOf? block →
    ∃ left, Gives (Edit.append block ref) store () left ∧
      store.Moves ref block ((store.instructions block).erase ref) [] left ∧
      left.links = store.links.append block ref
  /-- An instruction moves to the front of a block. -/
  prepend : ∀ block ref,
    store.isBlock block = true → store.isInstruction ref = true →
    store.moduleOf? ref = store.moduleOf? block →
    ∃ left, Gives (Edit.prepend block ref) store () left ∧
      store.Moves ref block [] ((store.instructions block).erase ref) left ∧
      left.links = store.links.prepend block ref
  /-- An instruction leaves its block. -/
  remove : ∀ ref, store.isInstruction ref = true →
    ∃ left, Gives (Edit.remove ref) store () left ∧ store.Loses ref left
  /-- An instruction that is in no block is left alone. -/
  detached : ∀ ref, store.isInstruction ref = true → store.blockOf? ref = none →
    Gives (Edit.remove ref) store () store
  /-- All other edits leave the lists, and thereby the links, as they are. -/
  settled : ∀ change : Change, change.moves = false →
    store.SameOrder (Edit.outcome change.perform store).2
  /-- The links to the neighbours, to the ends and to the block, and the count, fit the list. -/
  chained : ∀ block, store.links.Chain block (store.instructions block)
  /-- Going along the links from an end of a block gives its list, and comes to an end. -/
  readable : ∀ block steps, (store.instructions block).length ≤ steps →
    store.links.forward steps (store.links.first block) = store.instructions block ∧
    store.links.backward steps (store.links.last block) = (store.instructions block).reverse
  /-- A cursor can be put right after and right before an instruction, and at both ends. -/
  points : ∀ cursor block front ref back, store.instructions block = front ++ ref :: back →
    Build.Yields (moveAfter (some ref)) cursor store () ⟨some block, (front ++ [ref]).getLast?⟩
      store ∧
    Build.Yields (moveBefore (some ref)) cursor store () ⟨some block, front.getLast?⟩ store ∧
    Build.Yields (moveToHead block) cursor store () ⟨some block, none⟩ store ∧
    Build.Yields (moveToEnd block) cursor store () ⟨some block, (front ++ ref :: back).getLast?⟩
      store
  /-- Instructions built one after the other stand behind the cursor in their order. -/
  creations : ∀ (builds : List (Build Ref)) block front back refs moved left,
    (∀ build ∈ builds, build.IsCreation) →
    store.isBlock block = true → store.instructions block = front ++ back →
    Build.Yields (all builds) ⟨some block, front.getLast?⟩ store refs moved left →
    refs.length = builds.length ∧ moved = ⟨some block, (front ++ refs).getLast?⟩ ∧
      store.JoinsAll block front refs back left

namespace Store

variable {store : Store}

theorem exists_of_isInstruction {ref : Ref} (isInstruction : store.isInstruction ref = true) :
    ∃ entry, store.instruction? ref = some entry :=
  Option.isSome_iff_exists.1 isInstruction

theorem Coherent.yields_points
    (coherent : store.Coherent)
    (cursor : Cursor)
    {block ref : Ref}
    {front back : List Ref}
    (split : store.instructions block = front ++ ref :: back) :
    Build.Yields (moveAfter (some ref)) cursor store () ⟨some block, (front ++ [ref]).getLast?⟩
      store ∧
    Build.Yields (moveBefore (some ref)) cursor store () ⟨some block, front.getLast?⟩ store ∧
    Build.Yields (moveToHead block) cursor store () ⟨some block, none⟩ store ∧
    Build.Yields (moveToEnd block) cursor store () ⟨some block, (front ++ ref :: back).getLast?⟩
      store := by
  have linked : store.blockOf? ref = some block :=
    (coherent.mem_members block ref).1 (by simp [split])
  have previous := (coherent.chained block front ref back split).1
  have located : ∀ violation,
      Build.Yields (liftM (linkedBlock (some ref) violation)) cursor store (ref, block) cursor
        store :=
    fun violation => yields_lift_iff.2 ⟨gives_linkedBlock_iff.2 ⟨rfl, linked, rfl⟩, rfl⟩
  refine ⟨?_, ?_, yields_set_iff.2 ⟨rfl, rfl⟩, ?_⟩
  · rw [List.getLast?_concat]
    exact yields_bind_iff.2 ⟨_, _, _, located _, yields_set_iff.2 ⟨rfl, rfl⟩⟩
  · rw [← previous]
    exact yields_bind_iff.2 ⟨_, _, _, located _,
      yields_see_bind_iff.2 (yields_set_iff.2 ⟨rfl, rfl⟩)⟩
  · rw [← split]
    exact yields_see_bind_iff.2 (yields_set_iff.2 ⟨rfl, rfl⟩)

theorem Coherent.editsLists (coherent : store.Coherent) : store.EditsLists where
  insertBefore := by
    intro ref target block isInstruction linked different pool
    obtain ⟨entry, found⟩ := exists_of_isInstruction isInstruction
    exact coherent.exists_gives_insertBefore found linked different pool
  insertBehind := by
    intro ref target block isInstruction linked different pool
    obtain ⟨entry, found⟩ := exists_of_isInstruction isInstruction
    exact coherent.exists_gives_insertBehind found linked different pool
  itself := outcome_next_to_itself store
  append := by
    intro block ref isBlock isInstruction pool
    obtain ⟨entry, found⟩ := exists_of_isInstruction isInstruction
    exact coherent.exists_gives_append found isBlock pool
  prepend := by
    intro block ref isBlock isInstruction pool
    obtain ⟨entry, found⟩ := exists_of_isInstruction isInstruction
    exact coherent.exists_gives_prepend found isBlock pool
  remove := by
    intro ref isInstruction
    obtain ⟨entry, found⟩ := exists_of_isInstruction isInstruction
    exact coherent.exists_gives_loses found
  detached := by
    intro ref isInstruction detached
    obtain ⟨entry, found⟩ := exists_of_isInstruction isInstruction
    rw [blockOf?, found] at detached
    refine gives_instruction_bind_iff.2 ⟨entry, found, ?_⟩
    rw [show entry.block = none from detached]
    exact rfl
  settled := fun _ settled => Change.perform_sameOrder settled store
  chained := coherent.linked.chain
  readable := by
    intro block steps enough
    constructor
    · exact coherent.linked.forward_first block enough
    · exact coherent.linked.backward_last block enough
  points := fun cursor _ _ _ _ split => coherent.yields_points cursor split
  creations := by
    intro builds block front back refs moved left creations isBlock split yields
    exact all_joins creations coherent isBlock split yields

end Store

namespace Session

/--
After any operations, refused ones among them: every edit of the instructions of blocks does
to the lists of the blocks, and to the links between instructions, what it is to do.
-/
theorem edits_refine_lists (operations : List Operation) :
    (after operations).store.EditsLists :=
  (after_coherent operations).store.editsLists

/-- A block with three instructions, and an empty one. -/
def lined : List Operation :=
  [.edit (.addModule "lined"),
    .edit (.createFunction 0 .callable none),
    .edit (.createBody ⟨0⟩),
    .edit (.createBlock ⟨0⟩),
    .moveToEnd ⟨1⟩,
    .emit (.outline none) none [none] (.refl true),
    .emit (.autodiffScope none) none [none] (.refl true),
    .emit .ret none [] (.refl true)]

/-- The last of three instructions moves in front of the first, and another one to a new block. -/
theorem edits_refine_lists_lined :
    let store := (after lined).store
    store.instructions ⟨1⟩ = [⟨3⟩, ⟨4⟩, ⟨5⟩] ∧
    (∃ left front back, Gives (Edit.insertBefore ⟨5⟩ (some ⟨3⟩)) store () left ∧
      store.Moves ⟨5⟩ ⟨1⟩ front (⟨3⟩ :: back) left ∧
      left.links = store.links.insertBefore ⟨5⟩ ⟨3⟩) ∧
    (∃ left, Gives (Edit.append ⟨2⟩ ⟨4⟩) store () left ∧
      store.Moves ⟨4⟩ ⟨2⟩ [] [] left ∧ left.links = store.links.append ⟨2⟩ ⟨4⟩) ∧
    (after (lined ++ [.edit (.insertBefore ⟨5⟩ (some ⟨3⟩)),
      .edit (.append ⟨2⟩ ⟨4⟩)])).store.instructions
      ⟨1⟩ = [⟨5⟩, ⟨3⟩] := by
  refine ⟨by decide +kernel, ?_, ?_, by decide +kernel⟩
  · exact (edits_refine_lists lined).insertBefore ⟨5⟩ ⟨3⟩ ⟨1⟩ (by decide +kernel)
      (by decide +kernel) (by decide) (by decide +kernel)
  · have empty : (after lined).store.instructions ⟨2⟩ = [] := by decide +kernel
    have appended := (edits_refine_lists lined).append ⟨2⟩ ⟨4⟩ (by decide +kernel)
      (by decide +kernel) (by decide +kernel)
    rw [empty] at appended
    exact appended

end Session

end ShaderIR

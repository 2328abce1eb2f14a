import Mathlib.Data.List.Induction
import ShaderIR.Proofs.Coherence.Report
import ShaderIR.Proofs.Edit.Kinds
import ShaderIR.Proofs.Edit.Creations
import ShaderIR.Proofs.Pass.Success
import ShaderIR.Proofs.Revision.Copying
import ShaderIR.Proofs.Revision.Revises

/-!
# Editing the instructions of blocks

Moving an instruction takes it out of the list of its block and puts it between two neighbours
of a list, or at an end of one; nothing else happens to the lists.  Instructions built one
after the other at a cursor come to stand there one after the other.
-/

namespace ShaderIR

open Store Edit Build

/-- A list with an element put right after another one of it. -/
theorem insertAfter_append
    {position : Ref}
    (new : Ref)
    {front : List Ref}
    (back : List Ref)
    (outside : position ∉ front) :
    insertAfter position new (front ++ position :: back) = front ++ position :: new :: back := by
  induction front with
  | nil => rw [List.nil_append, insertAfter, if_pos rfl, List.nil_append]
  | cons first rest induction =>
      obtain ⟨different, later⟩ := not_or.1 (List.mem_cons.not.1 outside)
      rw [List.cons_append, insertAfter, if_neg (Ne.symm different), induction later,
        List.cons_append]

namespace Store

/-! ## Edits that move nothing -/

/-- Instructions are in the blocks they were in, in the same order and with the same links. -/
structure SameOrder (store left : Store) : Prop where
  blocks : ∀ ref, left.blockOf? ref = store.blockOf? ref
  lists : ∀ block, left.instructions block = store.instructions block
  links : left.links = store.links

instance : Lasting SameOrder where
  refl := fun _ => ⟨fun _ => rfl, fun _ => rfl, rfl⟩
  trans := fun same same' =>
    ⟨fun ref => (same'.blocks ref).trans (same.blocks ref),
      fun block => (same'.lists block).trans (same.lists block), same'.links.trans same.links⟩

section SameOrder

variable {store : Store}

theorem sameOrder_allocate
    (module : Nat)
    (type : Option Ty)
    {content : Content}
    (unplaced : content.Unplaced) :
    store.SameOrder (store.allocate module type content).2 := by
  have contents : ∀ ref, (store.allocate module type content).2.content? ref =
      if ref = (store.allocate module type content).1 then some content
      else store.content? ref := by
    intro ref
    rw [content?, value?_allocate]
    split <;> rfl
  have absent : store.content? (store.allocate module type content).1 = none := by
    rw [content?, value?_allocate_fst]
    rfl
  refine ⟨?blocks, ?lists, rfl⟩
  case blocks =>
    intro ref
    by_cases new : ref = (store.allocate module type content).1
    · rw [blockOf?, blockOf?, instruction?, instruction?, contents, if_pos new, new, absent]
      cases content <;> first | rfl | exact unplaced
    · rw [blockOf?, blockOf?, instruction?_congr ((contents ref).trans (if_neg new))]
  case lists =>
    intro ref
    by_cases new : ref = (store.allocate module type content).1
    · rw [instructions, instructions, contents, if_pos new, new, absent]
      cases content <;> first | rfl | exact unplaced
    · exact instructions_congr ((contents ref).trans (if_neg new))

theorem sameOrder_modifyModule (module : Nat) (change : Module → Module) :
    store.SameOrder (store.modifyModule module change) :=
  ⟨fun _ => rfl, fun _ => rfl, rfl⟩

theorem sameOrder_modifyFunction (function : Ref) (change : Function → Function) :
    store.SameOrder (store.modifyFunction function change) := by
  refine ⟨fun ref => ?_, fun block => ?_, rfl⟩
  · rw [blockOf?, blockOf?, instruction?_modifyFunction]
  · rw [instructions_modifyFunction]

end SameOrder

end Store

namespace Edit

instance : Still SameOrder :=
  Still.of_updates (fun amends => ⟨amends.blockOf?, amends.instructions, amends.links⟩)
    (fun _ _ => ⟨fun _ => rfl, fun _ => rfl, rfl⟩)
    (fun _ module _ _ _ _ => sameOrder_modifyModule module _)
    (fun _ module _ => sameOrder_modifyModule module _)
    (fun _ module type _ unplaced _ => sameOrder_allocate module type unplaced)
    (fun _ => sameOrder_modifyFunction)

instance : Interning SameOrder := by
  refine .of_intern fun store module type content note interned _ => ?_
  have unplaced : content.Unplaced := by
    cases content <;> trivial
  exact Lasting.trans (sameOrder_allocate module type unplaced)
    (sameOrder_modifyModule module note)

end Edit

/-- An operation that is no move leaves all instructions where they are. -/
theorem Change.perform_sameOrder {change : Change} (settled : change.moves = false) :
    Edit.Respects SameOrder change.perform :=
  Change.perform_respects (fun moves => by rw [settled] at moves; cases moves) fun _ =>
    inferInstance

namespace Store

variable {store left : Store} {ref block : Ref} {front back : List Ref} {entry : Instruction}

/-- What is put after the last of some first elements comes before the others. -/
theorem received_append (new : Ref) (distinct : (front ++ back).Nodup) :
    received front.getLast? new (front ++ back) = front ++ new :: back := by
  cases front using List.reverseRecOn with
  | nil => rfl
  | append_singleton front last _ =>
      rw [List.append_assoc, List.singleton_append] at distinct ⊢
      have outside : last ∉ front := fun member =>
        List.disjoint_of_nodup_append distinct member List.mem_cons_self
      rw [List.getLast?_concat, received, insertAfter_append new back outside]
      simp

/-- The links name the block of an instruction. -/
theorem Coherent.owner_links (coherent : store.Coherent) (ref : Ref) :
    store.links.owner ref = store.blockOf? ref := by
  refine Option.ext fun block => ?_
  rw [coherent.linked.owner, coherent.mem_members]

/-! ## Putting an instruction between others -/

/--
An instruction that was in no block is now in a block between some of its instructions and
the others.
-/
structure Joins (store : Store) (block : Ref) (front : List Ref) (ref : Ref) (back : List Ref)
    (left : Store) : Prop where
  before : store.Coherent
  after : left.Coherent
  detached : store.blockOf? ref = none
  joined : left.instructions block = front ++ ref :: back
  split : store.instructions block = front ++ back
  others : ∀ other, other ≠ block → left.instructions other = store.instructions other
  links : left.links = store.links.insertAfter block ref front.getLast?

namespace Joins

variable (joins : store.Joins block front ref back left)

include joins

theorem not_mem (other : Ref) : ref ∉ store.instructions other := by
  rw [joins.before.mem_members, joins.detached]
  simp

theorem linked : left.blockOf? ref = some block :=
  (joins.after.mem_members block ref).1 (by simp [joins.joined])

theorem blockOf?_of_ne {other : Ref} (different : other ≠ ref) :
    left.blockOf? other = store.blockOf? other := by
  refine Option.ext fun home => ?_
  rw [← joins.after.mem_members, ← joins.before.mem_members]
  by_cases same : home = block
  · rw [same, joins.joined, joins.split]
    simp [different]
  · rw [joins.others home same]

end Joins

/-! ## Unlinking -/

/-- An instruction was taken out of the block it was in, if it was in one. -/
structure Loses (store : Store) (ref : Ref) (left : Store) : Prop where
  coherent : left.Coherent
  detached : ∃ entry, left.instruction? ref = some entry ∧ entry.block = none
  others : ∀ other, other ≠ ref → left.blockOf? other = store.blockOf? other
  lists : ∀ block, left.instructions block = (store.instructions block).erase ref
  pools : ∀ other, left.moduleOf? other = store.moduleOf? other
  owners : ∀ other, left.isBlock other = store.isBlock other
  links : left.links = store.links.unlink ref

theorem Coherent.loses_of_detached
    (coherent : store.Coherent)
    (found : store.instruction? ref = some entry)
    (detached : entry.block = none) :
    store.Loses ref store where
  coherent := coherent
  detached := ⟨entry, found, detached⟩
  others := fun _ _ => rfl
  lists := by
    intro block
    have outside : ref ∉ store.instructions block := by
      rw [coherent.mem_members, blockOf?, found]
      simp [detached]
    rw [List.erase_of_not_mem outside]
  pools := fun _ => rfl
  owners := fun _ => rfl
  links := by
    have unlinked : store.links.owner ref = none := by
      rw [coherent.owner_links, blockOf?, found]
      exact detached
    rw [Links.unlink, unlinked]

/-- Taking a linked instruction out of its block unlinks it. -/
theorem links_of_gives_remove
    {home : Ref}
    (found : store.instruction? ref = some entry)
    (linked : entry.block = some home)
    (gives : Gives (Edit.remove ref) store () left) :
    left.links = store.links.unlink ref := by
  obtain ⟨entry', found', rest⟩ := gives_instruction_bind_iff.1 gives
  obtain rfl := Option.some.inj (found'.symm.trans found)
  rw [linked] at rest
  obtain ⟨_, _, given, rest⟩ := gives_bind_iff.1 rest
  obtain rfl := gives_modify_iff.1 given
  obtain ⟨_, _, given, rest⟩ := gives_bind_iff.1 rest
  obtain rfl := gives_modify_iff.1 given
  obtain ⟨_, _, given, rest⟩ := gives_bind_iff.1 rest
  obtain rfl := gives_modify_iff.1 given
  rw [gives_modify_iff.1 rest, links_unlinkAll]
  rfl

theorem Coherent.exists_gives_loses
    (coherent : store.Coherent)
    (found : store.instruction? ref = some entry) :
    ∃ left, Gives (Edit.remove ref) store () left ∧ store.Loses ref left := by
  cases linked : entry.block with
  | none =>
      refine ⟨store, gives_instruction_bind_iff.2 ⟨entry, found, ?_⟩,
        coherent.loses_of_detached found linked⟩
      rw [linked]
      exact rfl
  | some home =>
      obtain ⟨left, gives, rewires⟩ := exists_gives_remove coherent found linked
      have takes := coherent.takes_remove gives
      have coherent' := rewires.coherent coherent
      have lists : ∀ block, left.instructions block = (store.instructions block).erase ref := by
        intro block
        rw [takes.instructions, (coherent.membersDistinct block).erase_eq_filter]
        refine List.filter_congr fun other _ => ?_
        by_cases same : other = ref <;> simp [same]
      have others : ∀ other, other ≠ ref → left.blockOf? other = store.blockOf? other := by
        intro other different
        rw [blockOf?, blockOf?, rewires.others other different]
      exact ⟨left, gives, coherent', ⟨_, rewires.self, rfl⟩, others, lists, rewires.pools,
        rewires.isBlock, links_of_gives_remove found linked gives⟩

/-! ## Linking -/

theorem detached_of_gives_insertInto
    {after : Option Ref}
    (gives : Gives (insertInto block ref after) store () left) :
    store.blockOf? ref = none := by
  obtain ⟨_, _, given, rest⟩ := gives_bind_iff.1 (gives_see_bind_iff.1 gives)
  obtain ⟨-, unchanged⟩ := gives_require_iff.1 given
  rw [unchanged] at rest
  obtain ⟨entry, found, rest⟩ := gives_instruction_bind_iff.1 rest
  obtain ⟨_, _, given, -⟩ := gives_bind_iff.1 rest
  obtain ⟨detached, -⟩ := gives_require_iff.1 given
  rw [blockOf?, found]
  exact Option.isNone_iff_eq_none.1 detached

/-- Linking an instruction after edits that moved nothing puts it where it was to come. -/
theorem SameOrder.joins
    {between : Store}
    (same : store.SameOrder between)
    (before : store.Coherent)
    (after : left.Coherent)
    (split : store.instructions block = front ++ back)
    (gives : Gives (insertInto block ref front.getLast?) between () left) :
    store.Joins block front ref back left := by
  have detached := detached_of_gives_insertInto gives
  obtain ⟨entry, found, -, -, result⟩ := gives_insertInto gives
  have linked : left.blockOf? ref = some block := by
    rw [result, blockOf?, instruction?_congr (content?_linkAll ..),
      instruction?_modifyInstruction, if_pos rfl, instruction?_record,
      instruction?_modifyBlock, found]
    rfl
  have isBlock : between.isBlock block = true := by
    have isBlock := after.isBlock_of_blockOf? linked
    have owner : left.blockFunction? block = between.blockFunction? block := by
      rw [result, blockFunction?_congr (content?_linkAll ..), blockFunction?_modifyInstruction,
        blockFunction?_record, blockFunction?_modifyBlock]
    rwa [isBlock_eq_of_blockFunction? owner] at isBlock
  have lists : ∀ other, left.instructions other =
      if block = other then received front.getLast? ref (store.instructions other)
      else store.instructions other := by
    intro other
    rw [result, instructions_congr (content?_linkAll ..), instructions_modifyInstruction,
      instructions_record, instructions_modifyBlock _ _ _ isBlock, same.lists]
  have distinct := before.membersDistinct block
  rw [split] at distinct
  exact {
    before, after, split
    detached := (same.blocks ref).symm.trans detached
    joined := by rw [lists, if_pos rfl, split, received_append ref distinct]
    others := fun other different => by rw [lists, if_neg (Ne.symm different)]
    links := by
      rw [result, links_linkAll, ← same.links]
      rfl }

/--
An instruction left the block it was in, if any, and is now in a block between some of the
other instructions there and the rest of them.
-/
structure Moves (store : Store) (ref block : Ref) (front back : List Ref) (left : Store) :
    Prop where
  split : (store.instructions block).erase ref = front ++ back
  placed : left.instructions block = front ++ ref :: back
  elsewhere : ∀ other, other ≠ block →
    left.instructions other = (store.instructions other).erase ref
  home : left.blockOf? ref = some block
  others : ∀ other, other ≠ ref → left.blockOf? other = store.blockOf? other
  order : ∀ other, (left.instructions other).erase ref = (store.instructions other).erase ref

theorem Loses.exists_gives_moves
    {between : Store}
    (loses : store.Loses ref between)
    (isBlock : store.isBlock block = true)
    (pool : store.moduleOf? ref = store.moduleOf? block)
    (split : (store.instructions block).erase ref = front ++ back) :
    ∃ left, Gives (insertInto block ref front.getLast?) between () left ∧
      store.Moves ref block front back left ∧
      left.links = (store.links.unlink ref).insertAfter block ref front.getLast? := by
  obtain ⟨entry, found, detached⟩ := loses.detached
  have members : between.instructions block = front ++ back := (loses.lists block).trans split
  have isBlock' : between.isBlock block = true := (loses.owners block).trans isBlock
  have pool' : between.moduleOf? ref = between.moduleOf? block := by
    rw [loses.pools, loses.pools, pool]
  have position : ∀ previous ∈ front.getLast?, between.blockOf? previous = some block := by
    intro previous last
    rw [← loses.coherent.mem_members, members]
    exact List.mem_append_left back (List.mem_of_mem_getLast? last)
  obtain ⟨left, gives, -⟩ := exists_gives_insertInto loses.coherent found detached isBlock' pool'
    position
  have keeps : between.Keeps (Edit.outcome (insertInto block ref front.getLast?) between).2 :=
    insertInto_keeps isBlock'
  rw [gives] at keeps
  have joins := SameOrder.joins (Lasting.refl between) loses.coherent (keeps loses.coherent).1
    members gives
  have outside : ref ∉ front := by
    intro member
    refine joins.not_mem block ?_
    rw [members]
    exact List.mem_append_left back member
  have elsewhere : ∀ other, other ≠ block →
      left.instructions other = (store.instructions other).erase ref := by
    intro other different
    rw [joins.others other different, loses.lists]
  refine ⟨left, gives, ⟨split, joins.joined, elsewhere, joins.linked, ?_, ?_⟩, ?_⟩
  · intro other different
    rw [joins.blockOf?_of_ne different, loses.others other different]
  · intro other
    by_cases same : other = block
    · rw [same, joins.joined, List.erase_append_right _ outside, List.erase_cons_head, split]
    · rw [elsewhere other same, ← loses.lists, List.erase_of_not_mem (joins.not_mem other)]
  · rw [joins.links, loses.links]

/-! ## Moving -/

section Moving

variable {target : Ref}

theorem Coherent.exists_gives_append
    (coherent : store.Coherent)
    (found : store.instruction? ref = some entry)
    (isBlock : store.isBlock block = true)
    (pool : store.moduleOf? ref = store.moduleOf? block) :
    ∃ left, Gives (Edit.append block ref) store () left ∧
      store.Moves ref block ((store.instructions block).erase ref) [] left ∧
      left.links = store.links.append block ref := by
  obtain ⟨between, removes, loses⟩ := coherent.exists_gives_loses found
  obtain ⟨left, inserts, moves, links⟩ :=
    loses.exists_gives_moves isBlock pool (List.append_nil _).symm
  refine ⟨left, gives_bind_iff.2 ⟨(), between, removes, gives_see_bind_iff.2 ?_⟩, moves, ?_⟩
  · rw [loses.lists]
    exact inserts
  · rw [links, Links.append, ← loses.links, loses.coherent.linked.last, loses.lists]

theorem Coherent.exists_gives_prepend
    (coherent : store.Coherent)
    (found : store.instruction? ref = some entry)
    (isBlock : store.isBlock block = true)
    (pool : store.moduleOf? ref = store.moduleOf? block) :
    ∃ left, Gives (Edit.prepend block ref) store () left ∧
      store.Moves ref block [] ((store.instructions block).erase ref) left ∧
      left.links = store.links.prepend block ref := by
  obtain ⟨between, removes, loses⟩ := coherent.exists_gives_loses found
  obtain ⟨left, inserts, moves, links⟩ :=
    loses.exists_gives_moves isBlock pool (List.nil_append _).symm
  exact ⟨left, gives_bind_iff.2 ⟨(), between, removes, inserts⟩, moves, links⟩

/-- A linked instruction can be found again in the list without another one. -/
theorem Coherent.exists_split
    (coherent : store.Coherent)
    (linked : store.blockOf? target = some block)
    (different : target ≠ ref) :
    ∃ front back, (store.instructions block).erase ref = front ++ target :: back := by
  refine List.append_of_mem ?_
  rw [List.mem_erase_of_ne different, coherent.mem_members]
  exact linked

theorem Coherent.exists_gives_insertBefore
    (coherent : store.Coherent)
    (found : store.instruction? ref = some entry)
    (linked : store.blockOf? target = some block)
    (different : target ≠ ref)
    (pool : store.moduleOf? ref = store.moduleOf? target) :
    ∃ left front back, Gives (Edit.insertBefore ref (some target)) store () left ∧
      store.Moves ref block front (target :: back) left ∧
      left.links = store.links.insertBefore ref target := by
  have isBlock := coherent.isBlock_of_blockOf? linked
  obtain ⟨front, back, split⟩ := coherent.exists_split linked different
  obtain ⟨between, removes, loses⟩ := coherent.exists_gives_loses found
  obtain ⟨left, inserts, moves, links⟩ :=
    loses.exists_gives_moves isBlock (pool.trans (coherent.memberPool linked)) split
  have previous : between.previous? target = front.getLast? :=
    (loses.coherent.chained block front target back ((loses.lists block).trans split)).1
  refine ⟨left, front, back, ?_, moves, ?_⟩
  · refine gives_bind_iff.2 ⟨(target, block), store,
      gives_linkedBlock_iff.2 ⟨rfl, linked, rfl⟩, ?_⟩
    simp only [different, if_false]
    refine gives_bind_iff.2 ⟨(), between, removes, gives_see_bind_iff.2 ?_⟩
    rw [previous]
    exact inserts
  · have atTarget : store.links.owner target = some block :=
      (coherent.owner_links target).trans linked
    simp only [Links.insertBefore, atTarget, different, if_false]
    rw [links, ← loses.links, ← previous, previous?]

theorem Coherent.exists_gives_insertBehind
    (coherent : store.Coherent)
    (found : store.instruction? ref = some entry)
    (linked : store.blockOf? target = some block)
    (different : target ≠ ref)
    (pool : store.moduleOf? ref = store.moduleOf? target) :
    ∃ left front back, Gives (Edit.insertBehind ref (some target)) store () left ∧
      store.Moves ref block (front ++ [target]) back left ∧
      left.links = store.links.insertBehind ref target := by
  have isBlock := coherent.isBlock_of_blockOf? linked
  obtain ⟨front, back, split⟩ := coherent.exists_split linked different
  rw [← List.singleton_append, ← List.append_assoc] at split
  obtain ⟨between, removes, loses⟩ := coherent.exists_gives_loses found
  obtain ⟨left, inserts, moves, links⟩ :=
    loses.exists_gives_moves isBlock (pool.trans (coherent.memberPool linked)) split
  rw [List.getLast?_concat] at inserts links
  refine ⟨left, front, back, ?_, moves, ?_⟩
  · refine gives_bind_iff.2 ⟨(target, block), store,
      gives_linkedBlock_iff.2 ⟨rfl, linked, rfl⟩, ?_⟩
    simp only [different, if_false]
    exact gives_bind_iff.2 ⟨(), between, removes, inserts⟩
  · have atTarget : store.links.owner target = some block :=
      (coherent.owner_links target).trans linked
    simp only [Links.insertBehind, atTarget, different, if_false]
    exact links

/-- Moving an instruction next to itself is refused or does nothing. -/
theorem outcome_next_to_itself (store : Store) (ref : Ref) :
    (Edit.outcome (Edit.insertBefore ref (some ref)) store).2 = store ∧
      (Edit.outcome (Edit.insertBehind ref (some ref)) store).2 = store := by
  cases linked : store.blockOf? ref with
  | none => simp [Edit.insertBefore, Edit.insertBehind, linkedBlock, Edit.outcome_bind, linked]
  | some block =>
      simp [Edit.insertBefore, Edit.insertBehind, linkedBlock, Edit.outcome_bind, linked]

end Moving

end Store

/-! ## Building one instruction after the other -/

/-- An operation whose resolver, if it has one, moves no instruction. -/
def Operation.IsSettled (operation : Operation) : Prop :=
  ∀ source choose, operation = .clone source choose →
    ∀ ref store, ∀ change ∈ (choose ref store).1, change.moves = false

/-- Building steps by which an operation builds an instruction without moving others. -/
def Build.IsCreation (build : Build Ref) : Prop :=
  ∃ operation : Operation, operation.creation? = some build ∧ operation.IsSettled

/-- Take several building steps for an instruction, and answer all instructions. -/
def Build.all : List (Build Ref) → Build (List Ref)
  | [] => pure []
  | build :: rest => do
    let ref ← build
    return ref :: (← all rest)

namespace Build

variable {store left : Store} {block : Ref} {front back : List Ref} {moved : Cursor}

theorem IsCreation.creates {build : Build Ref} (creation : build.IsCreation) :
    Creates SameOrder build := by
  obtain ⟨operation, builds, settled⟩ := creation
  refine Operation.creation?_creates builds fun source choose same ref => ?_
  exact Resolver.choosing_respects fun store change chosen =>
    Change.perform_sameOrder (settled source choose same ref store change chosen)

theorem IsCreation.coherent
    {build : Build Ref}
    (creation : build.IsCreation)
    {cursor : Cursor}
    {new : Ref}
    (coherent : store.Coherent)
    (stands : cursor.Stands store)
    (yields : Yields build cursor store new moved left) :
    left.Coherent := by
  obtain ⟨operation, builds, -⟩ := creation
  have performs : Yields operation.perform cursor store () moved left := by
    rw [Operation.perform_eq_of_creation? builds]
    exact yields_bind_iff.2 ⟨new, moved, left, yields, yields_pure_iff.2 ⟨rfl, rfl, rfl⟩⟩
  have leaves := operation.perform_sound cursor store coherent stands
  rw [show outcome operation.perform cursor store = (.ok ((), moved), left) from performs] at leaves
  exact leaves.coherent

/-- A new instruction stands right behind the cursor, and then the cursor right behind it. -/
theorem IsCreation.joins
    {build : Build Ref}
    {new : Ref}
    (creation : build.IsCreation)
    (coherent : store.Coherent)
    (isBlock : store.isBlock block = true)
    (split : store.instructions block = front ++ back)
    (yields : Yields build ⟨some block, front.getLast?⟩ store new moved left) :
    store.Joins block front new back left ∧ moved = ⟨some block, some new⟩ := by
  have stands : Cursor.Stands ⟨some block, front.getLast?⟩ store := by
    intro other holds
    cases holds
    exact isBlock
  have coherent' := creation.coherent coherent stands yields
  obtain ⟨between, same, placed⟩ := creation.creates.yields yields
  obtain ⟨_, atBlock, moves, inserted⟩ := yields_place placed
  cases atBlock
  exact ⟨same.joins coherent coherent' split inserted, moves⟩

end Build

namespace Store

/-- Instructions were put into a block in their order, behind some of the instructions there. -/
structure JoinsAll (store : Store) (block : Ref) (front refs back : List Ref) (left : Store) :
    Prop where
  joined : left.instructions block = front ++ refs ++ back
  elsewhere : ∀ other, other ≠ block → left.instructions other = store.instructions other
  others : ∀ other, other ∉ refs → left.blockOf? other = store.blockOf? other
  links : left.links = store.links.insertAll block front.getLast? refs

theorem JoinsAll.nil
    {store : Store}
    {block : Ref}
    {front back : List Ref}
    (split : store.instructions block = front ++ back) :
    store.JoinsAll block front [] back store where
  joined := by rw [List.append_nil, split]
  elsewhere := fun _ _ => rfl
  others := fun _ _ => rfl
  links := rfl

theorem JoinsAll.cons
    {store between left : Store}
    {block ref : Ref}
    {front refs back : List Ref}
    (joins : store.Joins block front ref back between)
    (rest : between.JoinsAll block (front ++ [ref]) refs back left) :
    store.JoinsAll block front (ref :: refs) back left where
  joined := by
    rw [rest.joined]
    simp
  elsewhere := by
    intro other different
    rw [rest.elsewhere other different, joins.others other different]
  others := by
    intro other outside
    obtain ⟨different, later⟩ := not_or.1 (List.mem_cons.not.1 outside)
    rw [rest.others other later, joins.blockOf?_of_ne different]
  links := by
    rw [rest.links, List.getLast?_concat, joins.links, Links.insertAll]

end Store

/-- Instructions built one after the other stand behind the cursor in the order of their making. -/
theorem Build.all_joins
    {builds : List (Build Ref)}
    {store left : Store}
    {block : Ref}
    {front back refs : List Ref}
    {moved : Cursor}
    (creations : ∀ build ∈ builds, build.IsCreation)
    (coherent : store.Coherent)
    (isBlock : store.isBlock block = true)
    (split : store.instructions block = front ++ back)
    (yields : Build.Yields (all builds) ⟨some block, front.getLast?⟩ store refs moved left) :
    refs.length = builds.length ∧ moved = ⟨some block, (front ++ refs).getLast?⟩ ∧
      store.JoinsAll block front refs back left := by
  induction builds generalizing store front refs with
  | nil =>
      obtain ⟨rfl, rfl, rfl⟩ := yields_pure_iff.1 yields
      exact ⟨rfl, by rw [List.append_nil], .nil split⟩
  | cons build rest induction =>
      obtain ⟨creation, creations⟩ := List.forall_mem_cons.1 creations
      obtain ⟨ref, between, middle, built, others⟩ := yields_bind_iff.1 yields
      obtain ⟨later, _, _, others, done⟩ := yields_bind_iff.1 others
      obtain ⟨rfl, rfl, rfl⟩ := yields_pure_iff.1 done
      obtain ⟨joins, rfl⟩ := creation.joins coherent isBlock split built
      have isBlock' := joins.after.isBlock_of_blockOf? joins.linked
      have split' : middle.instructions block = (front ++ [ref]) ++ back := by
        rw [joins.joined]
        simp
      rw [show some ref = (front ++ [ref]).getLast? from List.getLast?_concat.symm] at others
      obtain ⟨count, moves, joinsAll⟩ := induction creations joins.after isBlock' split' others
      refine ⟨congrArg (· + 1) count, ?_, .cons joins joinsAll⟩
      rw [moves, List.append_assoc, List.singleton_append]

end ShaderIR

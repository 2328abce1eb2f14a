import ShaderIR.Proofs.Elimination.Doomed
import ShaderIR.Proofs.Pass.Success

/-!
# Cutting off blocks

Nothing refuses to neutralize blocks of a coherent store.  Where the last instruction of a
block is its only terminator, if it has one, neutralizing leaves a lone unreachable end and
counts the block, unless it was a lone unreachable end already.  Other blocks stay as they
are, so some blocks can be neutralized one after the other.
-/

namespace ShaderIR

open Store Edit Build

variable {store left : Store} {block : Ref}

/-! ## Neutralizing succeeds -/

/-- An instruction without operands can be built in a block. -/
theorem exists_yields_emit
    {opcode : Opcode}
    {after : Option Ref}
    (coherent : store.Coherent)
    (casesDistinct : opcode.caseValues.Nodup)
    (isBlock : store.isBlock block = true)
    (position : ∀ previous ∈ after, store.blockOf? previous = some block)
    (type : Option Ty) :
    ∃ new moved left,
      Yields (emit opcode type []) ⟨some block, after⟩ store new moved left := by
  obtain ⟨owner, members, present⟩ := isBlock_iff.1 isBlock
  have value : (store.value? block).isSome := content?_isSome_iff.1 (by rw [present]; rfl)
  obtain ⟨module, located⟩ := Option.isSome_iff_exists.1 (moduleOf?_isSome_iff.2 value)
  have gains := gains_allocate store module type (.instruction { opcode })
  generalize allocated : store.allocate module type (.instruction { opcode }) = made at gains
  obtain ⟨new, reserved⟩ := made
  have coherent' : reserved.Coherent := gains.coherent ⟨rfl, rfl, casesDistinct⟩ coherent
  have found : reserved.instruction? new = some { opcode } := by
    rw [instruction?_eq_some_iff, gains.content?_new]
  obtain ⟨pointed, cleared, cut⟩ : ∃ pointed, Gives (setOperands new []) reserved () pointed ∧
      reserved.Rewires new { opcode } pointed :=
    ⟨_, gives_bind_iff.2 ⟨(), _, gives_instruction_bind_iff.2 ⟨_, found, rfl⟩,
      gives_pure_iff.2 ⟨rfl, rfl⟩⟩,
      coherent'.rewires_dropped found (·.take 0) (List.Sublist.refl []) (by simp) (by simp)⟩
  have placed : reserved.isBlock block = true := by
    rw [isBlock_congr (gains.content?_eq_of_isSome (by rw [present]; rfl))]
    exact isBlock
  have position' : ∀ previous ∈ after, pointed.blockOf? previous = some block := by
    intro previous isAfter
    obtain ⟨entry, held, linked⟩ := blockOf?_eq_some_iff.1 (position previous isAfter)
    have old : previous ≠ new := gains.ne_new (value?_isSome_of_instruction? held)
    rw [blockOf?, cut.others previous old, gains.instruction?_old held]
    exact linked
  obtain ⟨left, inserted, -⟩ := exists_gives_insertInto (cut.coherent coherent') cut.self rfl
    ((cut.isBlock block).trans placed)
    (by rw [cut.pools, cut.pools, gains.moduleOf?_old value, located, gains.pools, if_pos rfl])
    position'
  refine ⟨new, ⟨some block, some new⟩, left, ?_⟩
  refine yields_bind_iff.2 ⟨new, ⟨some block, after⟩, reserved, ?_, ?_⟩
  · refine yields_bind_iff.2 ⟨module, ⟨some block, after⟩, store, ?_, ?_⟩
    · refine yields_bind_iff.2 ⟨block, _, store, yields_cursorBlock block after store, ?_⟩
      refine yields_see_bind_iff.2 (yields_lift_iff.2 ⟨?_, rfl⟩)
      exact gives_demand_iff.2 ⟨located, rfl⟩
    · refine yields_lift_iff.2 ⟨?_, rfl⟩
      rw [Gives, outcome_allocate, allocated]
  · refine yields_bind_iff.2 ⟨(), _, pointed, yields_lift_iff.2 ⟨cleared, rfl⟩, ?_⟩
    refine yields_bind_iff.2 ⟨(), ⟨some block, some new⟩, left, ?_,
      yields_pure_iff.2 ⟨rfl, rfl, rfl⟩⟩
    refine yields_bind_iff.2 ⟨block, _, pointed, yields_cursorBlock block after pointed, ?_⟩
    refine yields_bind_iff.2 ⟨_, _, pointed, yields_get_iff.2 ⟨rfl, rfl, rfl⟩, ?_⟩
    exact yields_bind_iff.2 ⟨(), _, left, yields_lift_iff.2 ⟨inserted, rfl⟩,
      yields_modify_iff.2 ⟨rfl, rfl⟩⟩

theorem exists_gives_unreachable
    (coherent : store.Coherent)
    (isBlock : store.isBlock block = true) :
    ∃ left, Gives
      (Build.run do
        moveToEnd block
        let _ ← unreachable "") store () left := by
  have position : ∀ previous ∈ (store.instructions block).getLast?,
      store.blockOf? previous = some block := by
    intro previous last
    exact (coherent.mem_members block previous).1 (List.mem_of_getLast? last)
  have noCases : (Opcode.unreachable "").caseValues.Nodup := List.nodup_nil
  obtain ⟨new, moved, left, emits⟩ : ∃ new moved left, Yields (unreachable "")
      ⟨some block, (store.instructions block).getLast?⟩ store new moved left :=
    exists_yields_emit coherent noCases isBlock position none
  refine ⟨left, yields_run_iff.2 ⟨moved, ?_⟩⟩
  refine yields_bind_iff.2 ⟨(), ⟨some block, (store.instructions block).getLast?⟩, store, ?_, ?_⟩
  · exact yields_see_bind_iff.2 (yields_set_iff.2 ⟨rfl, rfl⟩)
  · exact yields_bind_iff.2 ⟨new, moved, left, emits, yields_pure_iff.2 ⟨rfl, rfl, rfl⟩⟩

namespace Pass

variable {report report' : Elimination} {function : Ref}

theorem exists_gives_drop
    (coherent : store.Coherent)
    {ref : Ref}
    (report : Elimination)
    (present : (store.instruction? ref).isSome) :
    ∃ report' left, Gives (report.drop ref) store report' left := by
  obtain ⟨entry, found⟩ := Option.isSome_iff_exists.1 present
  obtain ⟨left, removed⟩ : ∃ left, Gives (Edit.remove ref) store () left := by
    cases linked : entry.block with
    | none =>
        refine ⟨store, gives_instruction_bind_iff.2 ⟨entry, found, ?_⟩⟩
        rw [linked]
        exact rfl
    | some home =>
        obtain ⟨left, removed, -⟩ := exists_gives_remove coherent found linked
        exact ⟨left, removed⟩
  exact ⟨_, left, gives_bind_iff.2 ⟨(), left, removed, gives_pure_iff.2 ⟨rfl, rfl⟩⟩⟩

theorem exists_gives_emptyBlock
    {refs : List Ref}
    (coherent : store.Coherent)
    (report : Elimination)
    (present : ∀ ref ∈ refs, (store.instruction? ref).isSome) :
    ∃ report' left, Gives (emptyBlock report refs) store report' left := by
  induction refs generalizing report store with
  | nil => exact ⟨report, store, gives_pure_iff.2 ⟨rfl, rfl⟩⟩
  | cons ref rest induction =>
      obtain ⟨here, later⟩ := List.forall_mem_cons.1 present
      by_cases isEnd : (store.opcode? ref).any Opcode.isUnreachable = true
      · obtain ⟨report', left, gives⟩ := induction coherent report later
        refine ⟨report', left, gives_see_bind_iff.2 ?_⟩
        rw [if_pos isEnd]
        exact gives
      · obtain ⟨between, middle, dropped⟩ := exists_gives_drop coherent report here
        obtain ⟨takes, coherent', -⟩ := Elimination.takes_drop coherent dropped
        have present' : ∀ other ∈ rest, (middle.instruction? other).isSome := by
          intro other member
          rw [takes.instruction?, Option.isSome_map]
          exact later other member
        obtain ⟨report', left, gives⟩ := induction coherent' between present'
        refine ⟨report', left, gives_see_bind_iff.2 ?_⟩
        rw [if_neg isEnd]
        exact gives_bind_iff.2 ⟨between, middle, dropped, gives⟩

/-- Every block can be neutralized. -/
theorem exists_gives_neutralize
    (coherent : store.Coherent)
    (report : Elimination)
    (isBlock : store.isBlock block = true) :
    ∃ report' left, Gives (neutralize report block) store report' left := by
  by_cases neutral : store.IsNeutral block
  · exact ⟨report, store, gives_neutralize_of_isNeutral report neutral⟩
  · have present : ∀ ref ∈ store.instructions block, (store.instruction? ref).isSome := by
      intro ref member
      obtain ⟨entry, found, -⟩ := blockOf?_eq_some_iff.1 ((coherent.mem_members block ref).1 member)
      exact Option.isSome_of_eq_some found
    obtain ⟨between, middle, emptied⟩ := exists_gives_emptyBlock coherent report present
    obtain ⟨takes, coherent', -⟩ := takes_emptyBlock coherent emptied
    have isBlock' : middle.isBlock block = true := by
      rw [takes.ages.isBlock]
      exact isBlock
    obtain ⟨closed, closing⟩ := exists_gives_unreachable coherent' isBlock'
    have notAlone : ¬(store.endsUnreachable block &&
        (store.instructions block).length == 1) = true := by
      simpa [isNeutral_iff] using neutral
    by_cases empty : (middle.instructions block).isEmpty = true
    · refine ⟨{ between with neutralized := between.neutralized + 1 }, closed,
        gives_see_bind_iff.2 (gives_see_bind_iff.2 ?_)⟩
      rw [if_neg notAlone]
      refine gives_bind_iff.2 ⟨between, middle, emptied, gives_see_bind_iff.2 ?_⟩
      rw [if_pos empty]
      exact gives_bind_iff.2 ⟨(), closed, closing, gives_pure_iff.2 ⟨rfl, rfl⟩⟩
    · refine ⟨{ between with neutralized := between.neutralized + 1 }, middle,
        gives_see_bind_iff.2 (gives_see_bind_iff.2 ?_)⟩
      rw [if_neg notAlone]
      refine gives_bind_iff.2 ⟨between, middle, emptied, gives_see_bind_iff.2 ?_⟩
      rw [if_neg empty]
      exact gives_pure_iff.2 ⟨rfl, rfl⟩

end Pass

/-! ## What neutralizing leaves -/

namespace Store

/-- No instruction of a block but the last one is a terminator. -/
def EndsOnce (store : Store) (block : Ref) : Prop :=
  ∀ before ref after, store.instructions block = before ++ ref :: after →
    store.isTerminator ref = true → after = []

variable {other : Ref}

theorem endsOnce_iff :
    store.EndsOnce block ↔
      ∀ ref ∈ (store.instructions block).dropLast, store.isTerminator ref = false := by
  constructor
  · intro endsOnce ref member
    obtain ⟨last, ending⟩ : ∃ last, (store.instructions block).getLast? = some last := by
      rw [← Option.isSome_iff_exists, List.getLast?_isSome]
      rintro empty
      rw [empty] at member
      cases member
    obtain ⟨before, after, split⟩ := List.append_of_mem member
    have whole : store.instructions block = before ++ ref :: (after ++ [last]) := by
      rw [← List.dropLast_append_getLast? last ending, split]
      simp
    refine Bool.eq_false_iff.2 fun ends => ?_
    have nothing := endsOnce _ _ _ whole ends
    simp at nothing
  · intro none before ref after split ends
    by_contra more
    have member : ref ∈ (store.instructions block).dropLast := by
      rw [split, List.dropLast_append_cons, List.dropLast_cons_of_ne_nil more]
      exact List.mem_append_right _ List.mem_cons_self
    rw [none ref member] at ends
    cases ends

theorem isTerminator_of_isDeadEnd {ref : Ref} (isEnd : store.isDeadEnd ref = true) :
    store.isTerminator ref = true := by
  obtain ⟨opcode, found, isUnreachable⟩ := (Option.any_eq_true _ _).1 isEnd
  rw [isTerminator, found, Option.any_some]
  cases opcode <;> first | rfl | cases isUnreachable

theorem EndsOnce.filter_isDeadEnd (endsOnce : store.EndsOnce block) :
    ((store.instructions block).filter store.isDeadEnd).length ≤ 1 := by
  rcases List.eq_nil_or_concat (store.instructions block) with empty | ⟨first, last, split⟩
  · simp [empty]
  · have none : first.filter store.isDeadEnd = [] := by
      refine List.filter_eq_nil_iff.2 fun ref member isEnd => ?_
      obtain ⟨before, after, rfl⟩ := List.append_of_mem member
      have more := endsOnce _ _ _ (by rw [split, List.concat_eq_append, List.append_assoc]; rfl)
        (isTerminator_of_isDeadEnd isEnd)
      simp at more
    rw [split, List.concat_eq_append, List.filter_append, none, List.nil_append]
    exact (List.length_filter_le _ _)

theorem Neutralizes.isNeutral
    (neutralizes : store.Neutralizes block left)
    (endsOnce : store.EndsOnce block) :
    left.IsNeutral block := by
  rcases neutralizes.instructions with kept | ⟨-, new, -, alone, found⟩
  · have few := endsOnce.filter_isDeadEnd
    have some := neutralizes.nonempty
    rw [← kept] at few
    obtain ⟨deadEnd, alone⟩ : ∃ deadEnd, left.instructions block = [deadEnd] :=
      List.length_eq_one_iff.1 (Nat.le_antisymm few (List.length_pos_iff.2 some))
    have isEnd : store.isDeadEnd deadEnd = true :=
      List.of_mem_filter (kept ▸ alone ▸ List.mem_cons_self)
    refine ⟨deadEnd, alone, ?_⟩
    rw [isDeadEnd, opcode?, neutralizes.kept isEnd]
    exact isEnd
  · refine ⟨new, alone, ?_⟩
    rw [isDeadEnd, opcode?, found]
    rfl

/-- Neutralizing a block leaves the opcodes in other blocks. -/
theorem Neutralizes.opcode?
    (neutralizes : store.Neutralizes block left)
    (coherent : store.Coherent)
    (different : other ≠ block)
    {ref : Ref}
    (member : ref ∈ store.instructions other) :
    left.opcode? ref = store.opcode? ref := by
  have linked := (coherent.mem_members other ref).1 member
  obtain ⟨entry, found, -⟩ := blockOf?_eq_some_iff.1 linked
  rw [Store.opcode?, neutralizes.elsewhere (value?_isSome_of_instruction? found)]
  · rfl
  · rw [linked]
    exact fun same => different (Option.some.inj same)

/-- Some distinct blocks have been neutralized, one after the other. -/
structure CutsOff (store : Store) (report : Pass.Elimination) (blocks : List Ref)
    (report' : Pass.Elimination) (left : Store) : Prop where
  coherent : left.Coherent
  neutral : ∀ block ∈ blocks, left.IsNeutral block
  instructions : ∀ other, other ∉ blocks → left.instructions other = store.instructions other
  isBlock : ∀ other, store.isBlock other = true → left.isBlock other = true
  isNeutral : ∀ other, other ∉ blocks → (left.IsNeutral other ↔ store.IsNeutral other)
  endsOnce : ∀ other, other ∉ blocks → store.EndsOnce other → left.EndsOnce other
  counted : ∃ cut : List Ref, cut.Nodup ∧
    (∀ block, block ∈ cut ↔ block ∈ blocks ∧ ¬store.IsNeutral block) ∧
    report'.neutralized = report.neutralized + cut.length

namespace CutsOff

variable {report between report' : Pass.Elimination} {middle : Store} {rest : List Ref}

theorem nil (coherent : store.Coherent) (report : Pass.Elimination) :
    store.CutsOff report [] report store where
  coherent := coherent
  neutral := by simp
  instructions := fun _ _ => rfl
  isBlock := fun _ isBlock => isBlock
  isNeutral := fun _ _ => Iff.rfl
  endsOnce := fun _ _ endsOnce => endsOnce
  counted := ⟨[], List.nodup_nil, by simp, rfl⟩

/-- Two blocks are neutralized independently of each other. -/
theorem cons
    (first : store.CutsOff report [block] between middle)
    (later : middle.CutsOff between rest report' left)
    (fresh : block ∉ rest) :
    store.CutsOff report (block :: rest) report' left where
  coherent := later.coherent
  neutral := by
    intro other member
    rcases List.mem_cons.1 member with rfl | inRest
    · exact (later.isNeutral other fresh).2 (first.neutral other List.mem_cons_self)
    · exact later.neutral other inRest
  instructions := by
    intro other outside
    obtain ⟨different, notInRest⟩ := not_or.1 (mt List.mem_cons.2 outside)
    rw [later.instructions other notInRest, first.instructions other (by simpa using different)]
  isBlock := fun other isBlock => later.isBlock other (first.isBlock other isBlock)
  isNeutral := by
    intro other outside
    obtain ⟨different, notInRest⟩ := not_or.1 (mt List.mem_cons.2 outside)
    rw [later.isNeutral other notInRest, first.isNeutral other (by simpa using different)]
  endsOnce := by
    intro other outside endsOnce
    obtain ⟨different, notInRest⟩ := not_or.1 (mt List.mem_cons.2 outside)
    exact later.endsOnce other notInRest (first.endsOnce other (by simpa using different) endsOnce)
  counted := by
    obtain ⟨cut, distinct, members, count⟩ := first.counted
    obtain ⟨cut', distinct', members', count'⟩ := later.counted
    have apart : ∀ other ∈ rest, (middle.IsNeutral other ↔ store.IsNeutral other) := by
      intro other inRest
      exact first.isNeutral other (by rintro (_ | ⟨_, ⟨⟩⟩); exact fresh inRest)
    refine ⟨cut ++ cut', List.nodup_append'.2 ⟨distinct, distinct', ?_⟩, ?_, ?_⟩
    · intro other inFirst inRest
      have same := List.mem_singleton.1 ((members other).1 inFirst).1
      exact fresh (same ▸ ((members' other).1 inRest).1)
    · intro other
      rw [List.mem_append, members, members', List.mem_singleton, List.mem_cons, or_and_right]
      exact or_congr_right (and_congr_right fun inRest => not_congr (apart other inRest))
    · rw [count', count, List.length_append, Nat.add_assoc]

end CutsOff

end Store

namespace Pass

variable {report report' : Elimination} {function : Ref}

theorem cutsOff_neutralize
    (coherent : store.Coherent)
    (isBlock : store.isBlock block = true)
    (endsOnce : store.EndsOnce block)
    (gives : Gives (neutralize report block) store report' left) :
    store.CutsOff report [block] report' left := by
  by_cases neutral : store.IsNeutral block
  · cases gives.symm.trans (gives_neutralize_of_isNeutral report neutral)
    refine
      { CutsOff.nil coherent report with
        neutral := by simpa using neutral
        instructions := fun _ _ => rfl
        isNeutral := fun _ _ => Iff.rfl
        endsOnce := fun _ _ endsOnce => endsOnce
        counted := ⟨[], List.nodup_nil, by simpa using neutral, rfl⟩ }
  · obtain ⟨coherent', ⟨single, isEnd, -⟩ | ⟨neutralizes, between, notes, rfl⟩⟩ :=
      neutralizes_neutralize coherent isBlock gives
    · exact absurd (isNeutral_iff.2 ⟨isEnd, single⟩) neutral
    · have others : ∀ {other}, other ∉ [block] → other ≠ block := fun outside same =>
        outside (List.mem_singleton.2 same)
      refine
        { coherent := coherent'
          neutral := by simpa using neutralizes.isNeutral endsOnce
          instructions := fun other outside => neutralizes.instructions_elsewhere (others outside)
          isBlock := ?_
          isNeutral := ?_
          endsOnce := ?_
          counted := ⟨[block], List.nodup_singleton block, ?_, ?_⟩ }
      · intro other isBlock'
        rw [neutralizes.ages.isBlock]
        exact isBlock'
      · intro other outside
        have same := neutralizes.instructions_elsewhere (others outside)
        unfold IsNeutral
        rw [same]
        refine exists_congr fun deadEnd => and_congr_right fun alone => ?_
        rw [isDeadEnd, neutralizes.opcode? coherent (others outside)
          (alone ▸ List.mem_cons_self)]
        rfl
      · intro other outside endsOnce before ref after split ends
        have same := neutralizes.instructions_elsewhere (others outside)
        rw [same] at split
        refine endsOnce before ref after split ?_
        rw [isTerminator, neutralizes.opcode? coherent (others outside)
          (split ▸ List.mem_append_right _ List.mem_cons_self)] at ends
        exact ends
      · intro other
        rw [List.mem_singleton]
        constructor
        · rintro rfl
          exact ⟨rfl, neutral⟩
        · exact And.left
      · rw [notes.neutralized]
        rfl

/-- Blocks without terminators but their last instructions can be neutralized. -/
theorem exists_cutsOff
    {blocks : List Ref}
    (coherent : store.Coherent)
    (report : Elimination)
    (distinct : blocks.Nodup)
    (isBlock : ∀ block ∈ blocks, store.isBlock block = true)
    (endsOnce : ∀ block ∈ blocks, store.EndsOnce block) :
    ∃ report' left, Gives (blocks.foldlM neutralize report) store report' left ∧
      store.CutsOff report blocks report' left := by
  induction blocks generalizing store report with
  | nil => exact ⟨report, store, gives_pure_iff.2 ⟨rfl, rfl⟩, .nil coherent report⟩
  | cons block rest induction =>
      obtain ⟨fresh, distinct⟩ := List.nodup_cons.1 distinct
      obtain ⟨isBlock, areBlocks⟩ := List.forall_mem_cons.1 isBlock
      obtain ⟨endsOnce, endOnce⟩ := List.forall_mem_cons.1 endsOnce
      obtain ⟨between, middle, gives⟩ := exists_gives_neutralize coherent report isBlock
      have first := cutsOff_neutralize coherent isBlock endsOnce gives
      obtain ⟨report', left, later, cutsOff⟩ := induction first.coherent between distinct
        (fun other member => first.isBlock other (areBlocks other member))
        (fun other member => first.endsOnce other
          (fun same => fresh (List.mem_singleton.1 same ▸ member)) (endOnce other member))
      exact ⟨report', left, gives_bind_iff.2 ⟨between, middle, gives, later⟩,
        first.cons cutsOff fresh⟩

end Pass

end ShaderIR

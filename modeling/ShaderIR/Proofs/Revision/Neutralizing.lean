import ShaderIR.Pass.DeadCode.Unreachable
import ShaderIR.Proofs.Revision.Emitting

/-!
# Neutralizing a block

A neutralized block holds unreachable ends only, and at least one.  Nothing
changes outside of the block, except that the instructions taken out of it are
linked nowhere.
-/

namespace ShaderIR

namespace Store

/-- An end that control never reaches. -/
def deadEnd (block : Ref) : Instruction :=
  { opcode := .unreachable "", operands := [], block := some block }

/-- Whether a reference denotes an unreachable end. -/
def isDeadEnd (store : Store) (ref : Ref) : Bool :=
  (store.opcode? ref).any Opcode.isUnreachable

/-- A block has lost all but its unreachable ends and has one in any case. -/
structure Neutralizes (store : Store) (block : Ref) (left : Store) : Prop where
  ages : store.Ages left
  elsewhere : ∀ {ref}, (store.value? ref).isSome → store.blockOf? ref ≠ some block →
    left.instruction? ref = store.instruction? ref
  kept : ∀ {ref}, store.isDeadEnd ref = true → left.instruction? ref = store.instruction? ref
  taken : ∀ {ref}, store.blockOf? ref = some block → store.isDeadEnd ref = false →
    left.instruction? ref = (store.instruction? ref).map fun entry => { entry with block := none }
  added : ∀ {ref entry}, store.value? ref = none → left.instruction? ref = some entry →
    entry = deadEnd block
  instructions_elsewhere : ∀ {other}, other ≠ block →
    left.instructions other = store.instructions other
  instructions : left.instructions block = (store.instructions block).filter store.isDeadEnd ∨
    (store.instructions block).filter store.isDeadEnd = [] ∧
      ∃ new, store.value? new = none ∧ left.instructions block = [new] ∧
        left.instruction? new = some (deadEnd block)
  nonempty : left.instructions block ≠ []
  undefineds : ∀ module : Nat, (left.modules[module]?).map Module.undefineds =
    (store.modules[module]?).map Module.undefineds

end Store

open Store Edit

/-- Building an unreachable end in an empty block adds it there. -/
theorem Build.receives_unreachable
    {store left : Store}
    {block : Ref}
    {answer : Unit}
    (coherent : store.Coherent)
    (isBlock : store.isBlock block = true)
    (empty : store.instructions block = [])
    (gives : Gives
      (Build.run do
        moveToEnd block
        let _ ← unreachable "") store answer left) :
    ∃ new, store.Receives block none new (deadEnd block) left := by
  obtain ⟨_, yields⟩ := yields_run_iff.1 gives
  obtain ⟨_, _, _, first, rest⟩ := yields_bind_iff.1 yields
  obtain ⟨_, _, _, seen, first⟩ := yields_bind_iff.1 first
  obtain ⟨seen, same⟩ := yields_lift_iff.1 seen
  obtain ⟨members, unchanged⟩ := gives_see_iff.1 seen
  rw [same, unchanged, members, empty] at first
  obtain ⟨atBlock, unchanged⟩ := yields_set_iff.1 first
  rw [atBlock, unchanged] at rest
  obtain ⟨new, _, _, emitted, rest⟩ := yields_bind_iff.1 rest
  obtain ⟨-, -, rfl⟩ := yields_pure_iff.1 rest
  have stands : ({ block := some block } : Cursor).Stands store := by
    rintro _ ⟨⟩
    exact isBlock
  have noCases : (Opcode.unreachable "").caseValues.Nodup := List.nodup_nil
  obtain ⟨_, entry, ⟨⟩, -, opcode, values, receives⟩ :=
    receives_emit coherent stands noCases emitted
  have dead : entry = deadEnd block := by
    have linked := receives.linked
    have noOperands : entry.operands = [] := List.map_eq_nil_iff.1 values
    cases entry
    cases opcode
    cases linked
    cases noOperands
    rfl
  exact ⟨new, dead ▸ receives⟩

namespace Pass

variable {store left : Store} {report report' : Elimination}

theorem takes_emptyBlock
    (coherent : store.Coherent)
    {refs : List Ref}
    (gives : Gives (emptyBlock report refs) store report' left) :
    store.Takes (refs.filter fun ref => !store.isDeadEnd ref) left ∧ left.Coherent ∧
      report.Notes (refs.filter fun ref => !store.isDeadEnd ref) report' := by
  induction refs generalizing store report with
  | nil =>
      obtain ⟨rfl, rfl⟩ := gives_pure_iff.1 gives
      exact ⟨Takes.refl left, coherent, .refl report'⟩
  | cons ref rest induction =>
      obtain ⟨_, _, seen, gives⟩ := gives_bind_iff.1 gives
      obtain ⟨rfl, unchanged⟩ := gives_see_iff.1 seen
      rw [unchanged] at gives
      by_cases isEnd : store.isDeadEnd ref = true
      · have isEnd' : (store.opcode? ref).any Opcode.isUnreachable = true := isEnd
        rw [if_pos isEnd'] at gives
        rw [List.filter_cons_of_neg (by simp [isEnd])]
        exact induction coherent gives
      · have isEnd' : ¬(store.opcode? ref).any Opcode.isUnreachable = true := isEnd
        rw [if_neg isEnd'] at gives
        obtain ⟨between, middle, dropped, gives⟩ := gives_bind_iff.1 gives
        obtain ⟨takes, coherent', notes⟩ := Elimination.takes_drop coherent dropped
        have sameEnds : middle.isDeadEnd = store.isDeadEnd := by
          funext other
          rw [isDeadEnd, isDeadEnd, takes.opcode?]
        obtain ⟨takes', coherent'', notes'⟩ := induction coherent' gives
        rw [sameEnds] at takes' notes'
        have same : ∀ other, other ∈ (ref :: rest).filter (fun ref => !store.isDeadEnd ref) ↔
            other ∈ rest.filter (fun ref => !store.isDeadEnd ref) ++ [ref] := by
          intro other
          rw [List.filter_cons_of_pos (by simpa using isEnd)]
          simp [or_comm]
        exact ⟨(takes.trans takes').of_mem_iff same, coherent'',
          (notes.trans notes').of_mem_iff same⟩

/--
Neutralizing changes nothing, or leaves the block with nothing but unreachable ends, notes
what it took out and counts the block.
-/
theorem neutralizes_neutralize
    (coherent : store.Coherent)
    {block : Ref}
    (isBlock : store.isBlock block = true)
    (gives : Gives (neutralize report block) store report' left) :
    left.Coherent ∧
      ((store.instructions block).length = 1 ∧ store.endsUnreachable block = true ∧
          report' = report ∧ left = store ∨
        store.Neutralizes block left ∧ ∃ between,
          report.Notes ((store.instructions block).filter fun ref => !store.isDeadEnd ref) between ∧
            report' = { between with neutralized := between.neutralized + 1 }) := by
  obtain ⟨_, _, seen, gives⟩ := gives_bind_iff.1 gives
  obtain ⟨rfl, unchanged⟩ := gives_see_iff.1 seen
  rw [unchanged] at gives
  obtain ⟨_, _, seen, gives⟩ := gives_bind_iff.1 gives
  obtain ⟨rfl, unchanged⟩ := gives_see_iff.1 seen
  rw [unchanged] at gives
  split at gives
  · rename_i alone
    obtain ⟨rfl, rfl⟩ := gives_pure_iff.1 gives
    simp only [Bool.and_eq_true, beq_iff_eq] at alone
    exact ⟨coherent, .inl ⟨alone.2, alone.1, rfl, rfl⟩⟩
  · obtain ⟨between, middle, emptied, gives⟩ := gives_bind_iff.1 gives
    obtain ⟨takes, coherent', notes⟩ := takes_emptyBlock coherent emptied
    obtain ⟨_, _, seen, gives⟩ := gives_bind_iff.1 gives
    obtain ⟨rfl, unchanged⟩ := gives_see_iff.1 seen
    rw [unchanged] at gives
    have member : ∀ ref,
        ref ∈ (store.instructions block).filter (fun ref => !store.isDeadEnd ref) ↔
          store.blockOf? ref = some block ∧ store.isDeadEnd ref = false := by
      intro ref
      simp [coherent.mem_members block ref]
    have members : middle.instructions block =
        (store.instructions block).filter store.isDeadEnd := by
      rw [takes.instructions]
      refine List.filter_congr fun ref inside => ?_
      have linked := (coherent.mem_members block ref).1 inside
      simp [member, linked]
    have elsewhere : ∀ {other}, other ≠ block →
        middle.instructions other = store.instructions other := by
      intro other different
      rw [takes.instructions]
      refine List.filter_eq_self.2 fun ref inside => ?_
      have linked := (coherent.mem_members other ref).1 inside
      simp [member, linked, different]
    have sameOutside : ∀ {ref}, store.blockOf? ref ≠ some block →
        middle.instruction? ref = store.instruction? ref := by
      intro ref outside
      exact takes.instruction?_kept fun inside => outside ((member ref).1 inside).1
    have sameEnds : ∀ {ref}, store.isDeadEnd ref = true →
        middle.instruction? ref = store.instruction? ref := by
      intro ref isEnd
      refine takes.instruction?_kept fun inside => ?_
      simp [((member ref).1 inside).2] at isEnd
    have detached : ∀ {ref}, store.blockOf? ref = some block → store.isDeadEnd ref = false →
        middle.instruction? ref =
          (store.instruction? ref).map fun entry => { entry with block := none } := by
      intro ref inside notEnd
      rw [takes.instruction?]
      simp [inside, notEnd, coherent.mem_members block ref]
    by_cases empty : middle.instructions block = []
    · dsimp only at gives
      rw [if_pos (by simp [empty])] at gives
      obtain ⟨_, closedStore, closed, gives⟩ := gives_bind_iff.1 gives
      obtain ⟨counted, equal⟩ := gives_pure_iff.1 gives
      have isBlock' : middle.isBlock block = true := by
        rw [takes.ages.isBlock]
        exact isBlock
      obtain ⟨new, receives⟩ := Build.receives_unreachable coherent' isBlock' empty closed
      rw [← equal] at receives
      have fresh : store.value? new = none := by
        have absent := receives.fresh
        rw [← Option.not_isSome_iff_eq_none] at absent ⊢
        exact fun present => absent (takes.ages.value?_isSome present)
      have old : ∀ {ref}, (store.value? ref).isSome → ref ≠ new := by
        rintro ref present rfl
        simp [fresh] at present
      refine ⟨receives.coherent, .inr ⟨
        { ages := Lasting.trans takes.ages receives.ages
          elsewhere := fun present outside =>
            (receives.instruction?_old (old present)).trans (sameOutside outside)
          kept := ?_
          taken := ?_
          added := ?_
          instructions_elsewhere := ?_
          instructions := ?_
          nonempty := ?_
          undefineds := ?_ }, between, notes, counted⟩⟩
      · intro ref isEnd
        refine (receives.instruction?_old (old ?_)).trans (sameEnds isEnd)
        cases found : store.instruction? ref with
        | none => simp [isDeadEnd, opcode?, found] at isEnd
        | some entry => exact value?_isSome_of_instruction? found
      · intro ref inside notEnd
        refine (receives.instruction?_old (old ?_)).trans (detached inside notEnd)
        obtain ⟨entry, found, -⟩ := blockOf?_eq_some_iff.1 inside
        exact value?_isSome_of_instruction? found
      · intro ref entry absent found
        by_cases same : ref = new
        · subst same
          exact (Option.some.inj (receives.instruction?_new.symm.trans found)).symm
        · rw [receives.instruction?_old same, takes.instruction?] at found
          have nothing : store.instruction? ref = none := by
            simp [Store.instruction?, content?, absent]
          simp [nothing] at found
      · intro other different
        rw [receives.instructions isBlock' other, if_neg (Ne.symm different)]
        exact elsewhere different
      · refine .inr ⟨members.symm.trans empty, new, fresh, ?_, receives.instruction?_new⟩
        rw [receives.instructions isBlock', if_pos rfl, empty]
        rfl
      · rw [receives.instructions isBlock', if_pos rfl, empty]
        simp [received]
      · intro module
        rw [receives.undefineds, Revises.modules takes]
    · dsimp only at gives
      rw [if_neg (by simpa using empty)] at gives
      obtain ⟨counted, same⟩ := gives_pure_iff.1 gives
      rw [same]
      refine ⟨coherent', .inr ⟨
        { ages := takes.ages
          elsewhere := fun _ outside => sameOutside outside
          kept := sameEnds
          taken := detached
          added := ?_
          instructions_elsewhere := elsewhere
          instructions := .inl members
          nonempty := empty
          undefineds := fun module => by rw [Revises.modules takes] }, between, notes, counted⟩⟩
      intro ref entry absent found
      rw [takes.instruction?] at found
      have nothing : store.instruction? ref = none := by
        simp [Store.instruction?, content?, absent]
      simp [nothing] at found

end Pass

end ShaderIR

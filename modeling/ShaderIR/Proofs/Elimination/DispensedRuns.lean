import ShaderIR.Proofs.Elimination.MergedRuns
import ShaderIR.Proofs.Elimination.Reducing
import ShaderIR.Proofs.Layout.Typing
import ShaderIR.Proofs.Machine.Ending
import ShaderIR.Proofs.Machine.Parts

/-!
# Runs without dispensable code

A program can do without instructions that have no effect and that nothing uses afterwards.
It can do without stores, too, where these write through pointers that it does without: the
cells that such pointers lead to are made by the first run alone, and nothing is linked with
them.
-/

namespace ShaderIR

theorem Machine.isPlain_of_isPure {opcode : Opcode} (isPure : Pass.isPure opcode = true) :
    IsPlain opcode := by
  cases opcode <;> simp_all [IsPlain, Pass.isPure, Opcode.isTerminator]

namespace Store.Dispensable

open Machine

variable {store : Store} {gone : List Ref} {pointers : Ref → Prop} {ref pointer : Ref}
  {entry : Instruction} (dispensable : store.Dispensable gone pointers)

include dispensable

theorem isPlain (lost : ref ∈ gone) (found : store.instruction? ref = some entry) :
    IsPlain entry.opcode := by
  rcases dispensable.kinds ref lost with isPure | ⟨isStore, -⟩
  · rw [opcode?, found] at isPure
    exact isPlain_of_isPure isPure
  · rw [opcode?, found, Option.map_some, Option.some.injEq] at isStore
    simp [isStore, IsPlain, Opcode.isTerminator]

/-- A pointer is an instruction without an effect. -/
theorem opcode (isPointer : pointers pointer) :
    (∃ space, store.opcode? pointer = some (.alloca space)) ∨
      store.opcode? pointer = some .gep := by
  rcases (dispensable.pointers pointer isPointer).2 with isVariable | ⟨isGep, -⟩
  · exact .inl (isVariable_iff.1 isVariable)
  · exact .inr (isGep_iff.1 isGep)

theorem isLValue (isPointer : pointers pointer) :
    store.isLValue pointer = true := by
  rcases dispensable.opcode isPointer with ⟨space, opcode⟩ | opcode
  · exact isLValue_iff.2 (.inl ⟨_, opcode, rfl⟩)
  · exact isLValue_iff.2 (.inl ⟨_, opcode, rfl⟩)

end Store.Dispensable

namespace Machine

open Exec

/-- A reference to a cell that only the first heap has. -/
def IsOwn (link : Link) (datum : Datum) : Prop :=
  ∃ serial cell path, datum = .reference serial cell path ∧ link.own cell

/--
A state from which a run is definite, whose frames are in blocks that a program keeps, and
whose pointers lead to cells of the first heap alone.
-/
structure State.Sheds (program left : Store) (settings : Settings) (gone : List Ref)
    (pointers : Ref → Prop) (link : Link) (state : State) : Prop where
  inside : Frame.AllInside program state.frames
  tracked : ∀ frame ∈ state.frames,
    Tracked (fun ref => decide (ref ∈ gone)) program left frame.block
  owned : ∀ frame ∈ state.frames, ∀ pointer, pointers pointer →
    ∀ datum, frame.values[pointer]? = some datum → IsOwn link datum
  definite : ∀ visited, State.Visits program settings state visited →
    Definite program settings visited

variable {program left : Store} {settings settings' : Settings} {gone : List Ref}
  {pointers : Ref → Prop} {base link larger : Link} {state next : State} {ref pointer : Ref}
  {rest : List Ref} {entry : Instruction} {heap : Heap}

/-! ## Blocks that lose instructions -/

/-- Where a run comes to its end, plain instructions do not lead to a phi. -/
theorem isPhi_of_finishes
    {before : List Ref}
    (finishes : Finishes program settings state)
    (behind : state.frame.rest = before ++ ref :: rest)
    (plain : ∀ other ∈ before, ∀ entry, program.instruction? other = some entry →
      IsPlain entry.opcode) :
    program.isPhi ref = false := by
  induction before generalizing state with
  | nil =>
      obtain ⟨_, _, entry, atRef, found, within⟩ := State.exists_next finishes.goesOn
      cases behind.symm.trans atRef
      by_contra isPhi
      rw [Bool.not_eq_false, Store.isPhi, Store.opcode?, found] at isPhi
      have isPhi : entry.opcode.isPhi = true := isPhi
      obtain ⟨blocks, opcode⟩ : ∃ blocks, entry.opcode = .phi blocks := by
        cases opcode : entry.opcode <;> simp_all [Opcode.isPhi]
      have goesOn := finishes.goesOn
      rw [State.step_eq_perform behind found within,
        State.perform_of_isPlain (isPlain_of_isPhi isPhi), Scene.execute, opcode] at goesOn
      exact goesOn _ _ rfl
  | cons other before induction =>
      obtain ⟨here, later⟩ := List.forall_mem_cons.1 plain
      obtain ⟨_, _, entry, atOther, found, within⟩ := State.exists_next finishes.goesOn
      cases behind.symm.trans atOther
      have plainHere := here entry found
      cases ran : state.step program settings with
      | halted halt left => exact absurd ran (finishes.goesOn halt left)
      | finished result left =>
          rw [State.step_eq_perform behind found within, State.perform_of_isPlain plainHere,
            State.after_eq] at ran
          split at ran <;> cases ran
      | running next =>
          obtain ⟨result, heap, -, rfl⟩ := State.eq_of_step_of_isPlain behind found plainHere ran
          refine induction (finishes.step ran) ?_ later
          cases result <;> rfl

/-- Where a run has come to a block and goes on to its end, the block is kept. -/
theorem tracked_of_finishes
    (condenses : program.Condenses gone id left)
    (coherent : program.Coherent)
    (plain : ∀ ref ∈ gone, ∀ entry, program.instruction? ref = some entry → IsPlain entry.opcode)
    (finishes : Finishes program settings state)
    (start : state.frame.rest = program.afterPhis state.frame.block) :
    Tracked (fun ref => decide (ref ∈ gone)) program left state.frame.block := by
  refine condenses.tracked coherent fun ref first => ?_
  rw [Option.mem_def, List.head?_filter, List.find?_eq_some_iff_append] at first
  obtain ⟨-, before, rest, split, skipped⟩ := first
  refine isPhi_of_finishes finishes (start.trans split) fun other member => plain other ?_
  simpa using skipped other member

/-! ## Steps -/

section

variable (dispensable : program.Dispensable gone pointers) (regular : program.Regular)
  (coherent : program.Coherent) (condenses : program.Condenses gone id left)

include dispensable regular coherent condenses

/-- Whatever is executed, pointers go on to lead to cells of the first heap alone. -/
theorem State.Sheds.step
    (sheds : state.Sheds program left settings gone pointers link)
    (grows : link ≤ larger)
    (ran : state.step program settings = .running next)
    (finishes : Finishes program settings next)
    (made : ∀ {pointer rest}, pointers pointer → state.frame.rest = pointer :: rest →
      ∀ datum, next.frame.values[pointer]? = some datum → IsOwn larger datum) :
    next.Sheds program left settings gone pointers larger := by
  have shifts := State.frames_of_step ran
  refine ⟨shifts.inside sheds.inside, ?_, ?_,
    fun visited visits => sheds.definite visited (.head ran visits)⟩
  · intro frame isFrame
    rcases shifts.blocks frame isFrame with ⟨former, isFormer, same⟩ | ⟨top, start⟩
    · rw [same]
      exact sheds.tracked former isFormer
    · obtain rfl : next.frame = frame := Option.some.inj top
      exact tracked_of_finishes condenses coherent
        (fun _ lost _ => dispensable.isPlain lost) finishes
        start
  · intro frame isFrame pointer isPointer datum held
    obtain ⟨entry, found⟩ : ∃ entry, program.instruction? pointer = some entry := by
      rcases dispensable.opcode isPointer with ⟨_, opcode⟩ | opcode <;>
        exact (Option.map_eq_some_iff.1 opcode).imp fun _ => And.left
    have notPhi : program.isPhi pointer = false := by
      rcases dispensable.opcode isPointer with ⟨_, opcode⟩ | opcode <;>
        exact Store.isPhi_eq_false_of_opcode? opcode rfl
    have plain := dispensable.isPlain (dispensable.pointers pointer isPointer).1 found
    rcases shifts.held coherent regular sheds.inside found plain notPhi frame isFrame with
      none | ⟨former, isFormer, same⟩ | ⟨top, _, ⟨⟩, rest, atPointer⟩
    · rw [none] at held
      cases held
    · rw [same] at held
      obtain ⟨serial, cell, path, equal, isOwn⟩ :=
        sheds.owned former isFormer pointer isPointer _ held
      exact ⟨serial, cell, path, equal, grows.1.own isOwn⟩
    · obtain rfl : next.frame = frame := Option.some.inj top
      exact made isPointer atPointer datum held

omit regular coherent condenses in
/-- A pointer that comes next makes a cell of the first heap, or refers to a part of one. -/
theorem State.Sheds.exists_own
    (sheds : state.Sheds program left settings gone pointers link)
    (isPointer : pointers pointer)
    (atPointer : state.frame.rest = pointer :: rest)
    (found : program.instruction? pointer = some entry)
    (ran : state.step program settings = .running next)
    {heap' : Heap}
    (heaps : link.Heaps state.heap heap') :
    ∃ larger, link ≤ larger ∧ larger.Heaps next.heap heap' ∧
      ∀ datum, next.frame.values[pointer]? = some datum → IsOwn larger datum := by
  obtain ⟨lost, kind⟩ := dispensable.pointers pointer isPointer
  have plain := dispensable.isPlain lost found
  obtain ⟨result, heap, executes, rfl⟩ := State.eq_of_step_of_isPlain atPointer found plain ran
  rcases kind with isVariable | ⟨isGep, base, isBase, head⟩
  · obtain ⟨space, opcode⟩ := Store.isVariable_iff.1 isVariable
    rw [Store.opcode?, found, Option.map_some, Option.some.injEq] at opcode
    rw [Scene.execute, opcode] at executes
    obtain ⟨content, between, zeroes, makes⟩ := outcome_bind_eq_ok.1 executes
    obtain ⟨datum, _, makes, equal⟩ := outcome_bind_eq_ok.1 makes
    cases makes
    cases equal
    have grows := growing_zeroOf _ _ _ _ zeroes
    have grown := grows.trans (.newVariable between content)
    refine ⟨link.addOwn between.cells.size, link.le_addOwn _, ?_, ?_⟩
    · refine (heaps.growLeft grown).addOwn (by simp [Heap.newVariable]) fun cell' linked => ?_
      exact absurd (heaps.cell_lt linked).1 (Nat.not_lt.2 grows.size_le)
    · intro datum held
      have made : some (between.newVariable content).1 = some datum := by
        rw [← held]
        exact Std.HashMap.getElem?_insert_self.symm
      exact ⟨between.serial, between.cells.size, [], (Option.some.inj made).symm, .inr rfl⟩
  · have opcode := Store.isGep_iff.1 isGep
    rw [Store.opcode?, found, Option.map_some, Option.some.injEq] at opcode
    obtain ⟨indices, operands⟩ := List.head?_eq_some_iff.1 head
    rw [Store.operands, found] at operands
    obtain ⟨serial, cell, below, path, steady, -, rfl, rfl⟩ :=
      (Scene.execute_gep opcode operands).1 executes
    refine ⟨link, le_refl link, heaps.growLeft (.newReference _ cell (below ++ path)),
      fun datum held => ?_⟩
    obtain ⟨_, _, _, ⟨⟩, isOwn⟩ := sheds.owned _ List.mem_cons_self base isBase _
      (steady.getElem?_of_isLValue (dispensable.isLValue isBase))
    have made : some (state.heap.newReference cell (below ++ path)).1 = some datum := by
      rw [← held]
      exact Std.HashMap.getElem?_insert_self.symm
    exact ⟨state.heap.serial, cell, below ++ path, (Option.some.inj made).symm, isOwn⟩

omit regular coherent condenses in
/-- What is left out changes nothing that is linked. -/
theorem State.Sheds.heaps
    (sheds : state.Sheds program left settings gone pointers link)
    (lost : ref ∈ gone)
    (atRef : state.frame.rest = ref :: rest)
    (found : program.instruction? ref = some entry)
    (ran : state.step program settings = .running next)
    {heap' : Heap}
    (heaps : link.Heaps state.heap heap') :
    link.Heaps next.heap heap' := by
  have plain := dispensable.isPlain lost found
  rcases dispensable.kinds ref lost with isPure | ⟨isStore, pointer, stored, isPointer, operands⟩
  · rw [Store.opcode?, found] at isPure
    exact heaps.growLeft (State.grows_of_step atRef found plain
      (fun _ => Scene.growing_execute _ _ _ _ isPure) ran)
  · obtain ⟨result, heap, executes, rfl⟩ := State.eq_of_step_of_isPlain atRef found plain ran
    rw [Store.opcode?, found, Option.map_some, Option.some.injEq] at isStore
    rw [Store.operands, found] at operands
    have first : entry.operand? 0 = some (some pointer) := by
      rw [Instruction.operand?, ← List.getElem?_map]
      exact congrArg (·[0]?) operands
    rw [Scene.execute, isStore] at executes
    obtain ⟨address, _, taken, executes⟩ := outcome_bind_eq_ok.1 executes
    obtain ⟨known, rfl⟩ := outcome_demand_eq_ok.1 taken
    cases first.symm.trans known
    obtain ⟨place, _, refers, executes⟩ := outcome_bind_eq_ok.1 executes
    obtain ⟨datum, _, evaluates, refers⟩ := outcome_bind_eq_ok.1 refers
    obtain ⟨new, between, given, executes⟩ := outcome_bind_eq_ok.1 executes
    obtain ⟨_, _, stores, equal⟩ := outcome_bind_eq_ok.1 executes
    cases equal
    cases datum with
    | reference serial cell below =>
        obtain ⟨steady, rfl⟩ := Scene.steady_of_reference evaluates
        cases refers
        obtain ⟨_, _, _, ⟨⟩, isOwn⟩ := sheds.owned _ List.mem_cons_self pointer isPointer _
          (steady.getElem?_of_isLValue (dispensable.isLValue isPointer))
        have grown := heaps.growLeft (Scene.growing_evalAt _ _ _ _ _ _ given)
        obtain ⟨_, _, got, stores⟩ := outcome_bind_eq_ok.1 stores
        cases got
        obtain ⟨written, _, demanded, sets⟩ := outcome_bind_eq_ok.1 stores
        obtain ⟨stores, rfl⟩ := outcome_demand_eq_ok.1 demanded
        cases sets
        exact grown.storeOwn isOwn stores
    | _ => cases refers

/-! ## Runs -/

/-- What a run has to say of its states, so that it goes on without what is dispensable. -/
theorem carries_of_dispensable (exact : base.exact) :
    Carries gone id base program left settings settings'
      (State.Sheds program left settings gone pointers) where
  tracked := fun sheds => sheds.tracked _ List.mem_cons_self
  inside := fun sheds => sheds.inside
  timeless := fun sheds => (sheds.definite _ .refl).1
  compares := fun _ _ _ _ _ => exact
  uses := fun _ _ _ _ different => absurd rfl different
  merges := fun _ _ _ _ _ different => absurd rfl different
  dropped := by
    intro link state ref rest entry sheds atRef found lost
    refine ⟨dispensable.isPlain lost found, fun {next heap'} ran finishes heaps => ?_⟩
    by_cases isPointer : pointers ref
    · obtain ⟨larger, grows, heaps', owned⟩ :=
        sheds.exists_own dispensable isPointer atRef found ran heaps
      refine ⟨larger, grows, heaps', sheds.step dispensable regular coherent condenses grows ran
        finishes fun _ atPointer => ?_⟩
      cases atRef.symm.trans atPointer
      exact owned
    · refine ⟨link, le_refl link, sheds.heaps dispensable lost atRef found ran heaps,
        sheds.step dispensable regular coherent condenses (le_refl link) ran finishes
        fun isPointer' atPointer => ?_⟩
      cases atRef.symm.trans atPointer
      exact absurd isPointer' isPointer
  preserved := by
    intro link larger state next ref rest sheds atRef kept ran finishes grows
    refine sheds.step dispensable regular coherent condenses grows ran finishes
      fun isPointer atPointer => ?_
    cases atRef.symm.trans atPointer
    exact absurd (dispensable.pointers _ isPointer).1 kept

/-- A run is repeated without what is dispensable. -/
theorem refines_of_dispensable : Refines Definite program left := by
  refine condenses.refines coherent regular True
    (fun settings => State.Sheds program left settings gone pointers)
    (fun _ exact _ => carries_of_dispensable dispensable regular coherent condenses
      (exact ▸ trivial)) ?_ ?_
  · intro settings settings' base link state state' alongside carries matched
    exact (matched.held.definite _ .refl).condensed condenses coherent regular alongside carries
      matched fun _ _ _ different => absurd rfl different
  · intro settings function arguments heap frame begun link called finishes definite
    have starts : frame.Starts program settings function := ⟨arguments, heap, begun, called⟩
    obtain ⟨inside, waits, -⟩ := starts.inside
    refine ⟨⟨?_, ?_⟩, ?_, ?_, definite⟩
    · simpa [State.frames] using inside
    · simpa [State.frames] using waits
    · intro other isFrame
      cases List.mem_singleton.1 isFrame
      refine tracked_of_finishes condenses coherent
        (fun _ lost _ => dispensable.isPlain lost) finishes
        ?_
      obtain ⟨entry, body, values, -, -, -, -, -, rfl⟩ := callFrame_eq_ok.1 called
      rfl
    · intro other isFrame pointer isPointer datum held
      cases List.mem_singleton.1 isFrame
      have isInstruction : program.isInstruction pointer = true := by
        rcases dispensable.opcode isPointer with ⟨_, opcode⟩ | opcode <;>
          exact Store.isInstruction_of_opcode? opcode
      rw [starts.getElem?_of_isInstruction regular isInstruction] at held
      cases held

end

end Machine

namespace Store

open Machine

variable {store left : Store} {module : Nat} {function : Ref}

/-- Each step of the removal of useless code keeps what runs do. -/
theorem Reduces.refines
    (reduces : Reduces function store left)
    (tame : store.Tame module function) :
    Refines Definite store left := by
  cases reduces with
  | dispenses dispensable condenses =>
      exact refines_of_dispensable dispensable tame.regular tame.coherent condenses
  | @folds block phi value reached member folds yields condenses =>
      have ages := condenses.trims.ages
      apply folds.refines condenses tame.toSound reached member tame.numeric
      · rw [ages.typeOf yields.present, yields.sameType]
      · rw [ages.isBlock, yields.notBlock]
      · -- A phi that gives way to a function would have merged it.
        rw [ages.isFunction]
        by_contra isFunction
        rw [Bool.not_eq_false] at isFunction
        rw [tame.plain.merged reached member (yields.callee isFunction)] at isFunction
        cases isFunction

end Store

namespace Session

open Machine Exec

end Session

end ShaderIR

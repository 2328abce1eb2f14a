import ShaderIR.Proofs.Layout.Regular
import ShaderIR.Proofs.Machine.Settling

/-!
# What frames hold of a function

A run may come to a function in any way: validation looks neither at the callers of a function
nor at all the terminators that lead into it.  Still, what a frame holds of the instructions
of a function it has got in the blocks of the function.  Where an instruction is executed,
the frame holds the results of what it uses.
-/

namespace ShaderIR.Machine

open Exec

/-- Outside of a function, a frame holds no results of the instructions of the function. -/
def Frame.Apart (program : Store) (function : Ref) (frame : Frame) : Prop :=
  ¬program.Reached function frame.block → ∀ {block ref}, program.Reached function block →
    ref ∈ program.instructions block → frame.values[ref]? = none

variable {program : Store} {settings : Settings} {functions sources : List Ref}
  {function owner block home source ref operand user other : Ref} {rest : List Ref}
  {holds : Std.HashMap Ref Datum → Prop} {values values' : Std.HashMap Ref Datum}
  {pending : Pending} {frame : Frame} {entry : Instruction}

/-! ## Frames that start -/

theorem getElem?_of_bind
    {index : Nat}
    {parameters : List Ref}
    {arguments : List Datum}
    {heap left : Heap}
    (binds : outcome (Scene.bind program function index parameters arguments values) heap =
      (.ok values', left))
    (other : ref ∉ parameters) :
    values'[ref]? = values[ref]? := by
  induction parameters generalizing index arguments values with
  | nil =>
      unfold Scene.bind at binds
      cases binds
      rfl
  | cons parameter parameters induction =>
      cases arguments with
      | nil =>
          unfold Scene.bind at binds
          cases binds
      | cons argument arguments =>
          have binds : outcome (Scene.bind program function (index + 1) parameters arguments
              (values.insert parameter argument)) heap = (.ok values', left) := by
            unfold Scene.bind at binds
            dsimp only at binds
            split at binds
            all_goals
              split at binds
              · cases binds
              · exact binds
          rw [List.mem_cons, not_or] at other
          rw [induction binds other.2]
          simp [Std.HashMap.getElem?_insert, Ne.symm other.1]

/-- A function starts with its arguments and no results. -/
theorem Frame.Starts.getElem?_of_isInstruction
    (starts : frame.Starts program settings owner)
    (regular : program.Regular)
    (isInstruction : program.isInstruction ref = true) :
    frame.values[ref]? = none := by
  obtain ⟨arguments, heap, left, called⟩ := starts
  obtain ⟨entry, body, values, found, -, -, -, binds, rfl⟩ := callFrame_eq_ok.1 called
  rw [getElem?_of_bind binds]
  · simp
  · intro isParameter
    obtain ⟨passing, owner, position, isArgument⟩ := regular.arguments found ref isParameter
    obtain ⟨entry, found⟩ := Option.isSome_iff_exists.1 isInstruction
    cases (Store.instruction?_eq_some_iff.1 found).symm.trans isArgument

/-- Steps keep what frames hold of a function inside of the function. -/
theorem Frame.Shifts.apart
    {heap : Heap}
    {frames frames' : List Frame}
    (shifts : Frame.Shifts program settings heap frames frames')
    (coherent : program.Coherent)
    (regular : program.Regular)
    (ordered : program.Ordered functions)
    (listed : function ∈ functions)
    (allInside : Frame.AllInside program frames)
    (apart : ∀ frame ∈ frames, frame.Apart program function) :
    ∀ frame ∈ frames', frame.Apart program function := by
  have each := allInside.each
  have started {owner : Ref} {frame : Frame} (starts : frame.Starts program settings owner) :
      frame.Apart program function := by
    intro _ block ref _ member
    exact starts.getElem?_of_isInstruction regular (Store.isInstruction_of_linked
      (Option.isSome_of_eq_some ((coherent.mem_members block ref).1 member)))
  -- What is executed outside is no instruction of the function.
  have kept {place executed : Ref} {rest : List Ref} {values values' : Std.HashMap Ref Datum}
      (outside : ¬program.Reached function place)
      (inside : executed :: rest <:+ program.afterPhis place)
      (results : Results executed values values')
      {block ref : Ref} (reached : program.Reached function block)
      (member : ref ∈ program.instructions block) :
      values'[ref]? = values[ref]? := by
    refine results.getElem?_of_ne ?_
    rintro rfl
    have here := (coherent.mem_members place ref).1
      (mem_instructions_of_mem_afterPhis (inside.subset List.mem_cons_self))
    cases here.symm.trans ((coherent.mem_members block ref).1 member)
    exact outside reached
  cases shifts with
  | @next place values values' executed rest pending entry below found continues results =>
      obtain ⟨here, below⟩ := List.forall_mem_cons.1 apart
      refine List.forall_mem_cons.2 ⟨fun outside block ref reached member => ?_, below⟩
      rw [kept outside (each _ List.mem_cons_self).inside results reached member]
      exact here outside reached member
  | call found continues calls leaves starts =>
      obtain ⟨here, below⟩ := List.forall_mem_cons.1 apart
      exact List.forall_mem_cons.2 ⟨started starts, List.forall_mem_cons.2 ⟨here, below⟩⟩
  | @jump place values values' executed rest pending entry below target left left'
      found ends answers
      enters =>
      obtain ⟨here, below⟩ := List.forall_mem_cons.1 apart
      refine List.forall_mem_cons.2 ⟨fun outside block ref reached member => ?_, below⟩
      have outside' : ¬program.Reached function place := fun inside =>
        outside (inside.tail (mem_successors_of_terminate ordered listed inside
          (each _ List.mem_cons_self).inside found ends answers))
      have distinct : (program.phis target).Nodup :=
        (coherent.membersDistinct target).sublist (List.takeWhile_sublist _)
      obtain ⟨unchanged, -⟩ := Scene.values_of_enter distinct enters
      have notPhi : ref ∉ program.phis target := by
        intro isPhi
        have there := (coherent.mem_members target ref).1 (Store.mem_instructions_of_mem_phis isPhi)
        cases there.symm.trans ((coherent.mem_members block ref).1 member)
        exact outside reached
      rw [unchanged ref notPhi]
      exact here outside' reached member
  | @back top returned rest place values values' rest' pending below atRef returns resumes =>
      obtain ⟨caller, below⟩ := List.forall_mem_cons.1 (List.forall_mem_cons.1 apart).2
      refine List.forall_mem_cons.2 ⟨fun outside block ref reached member => ?_, below⟩
      obtain rfl | ⟨result, datum, waits, rfl⟩ := resumes
      · exact caller outside reached member
      · obtain ⟨waiting, -⟩ := List.forall_mem_cons.1 (List.forall_mem_cons.1 each).2
        obtain ⟨inside, -⟩ := waiting.awaited result waits
        rw [kept outside inside (.inr ⟨datum, rfl⟩) reached member]
        exact caller outside reached member
  | handler atRef returns hands starts =>
      exact List.forall_mem_cons.2 ⟨started starts, (List.forall_mem_cons.1 apart).2⟩

/-- What a frame holds of a plain instruction that is no phi changes only when that is executed. -/
theorem Frame.Shifts.held
    {heap : Heap}
    {frames frames' : List Frame}
    (shifts : Frame.Shifts program settings heap frames frames')
    (coherent : program.Coherent)
    (regular : program.Regular)
    (allInside : Frame.AllInside program frames)
    (found : program.instruction? ref = some entry)
    (plain : IsPlain entry.opcode)
    (notPhi : program.isPhi ref = false) :
    ∀ frame ∈ frames', frame.values[ref]? = none ∨
      (∃ former ∈ frames, frame.values[ref]? = former.values[ref]?) ∨
      frames'.head? = some frame ∧ ∃ top ∈ frames.head?, ∃ rest, top.rest = ref :: rest := by
  have isInstruction : program.isInstruction ref = true := Option.isSome_of_eq_some found
  have below {top : Frame} {others : List Frame} : ∀ frame ∈ others,
      frame.values[ref]? = none ∨ (∃ former ∈ top :: others,
        frame.values[ref]? = former.values[ref]?) ∨
      frames'.head? = some frame ∧ ∃ top ∈ frames.head?, ∃ rest, top.rest = ref :: rest :=
    fun frame member => .inr (.inl ⟨frame, List.mem_cons_of_mem _ member, rfl⟩)
  cases shifts with
  | @next place values values' executed rest pending entry' others found' continues results =>
      refine List.forall_mem_cons.2 ⟨?_, below⟩
      by_cases same : ref = executed
      · subst same
        exact .inr (.inr ⟨rfl, _, rfl, rest, rfl⟩)
      · exact .inr (.inl ⟨_, List.mem_cons_self, results.getElem?_of_ne same⟩)
  | call found' continues calls leaves starts =>
      refine List.forall_mem_cons.2 ⟨?_, List.forall_mem_cons.2 ⟨?_, below⟩⟩
      · exact .inl (starts.getElem?_of_isInstruction regular isInstruction)
      · exact .inr (.inl ⟨_, List.mem_cons_self, rfl⟩)
  | @jump place values values' executed rest pending entry' others target left left' found' ends
      answers enters =>
      refine List.forall_mem_cons.2 ⟨.inr (.inl ⟨_, List.mem_cons_self, ?_⟩), below⟩
      have distinct : (program.phis target).Nodup :=
        (coherent.membersDistinct target).sublist (List.takeWhile_sublist _)
      refine (Scene.values_of_enter distinct enters).1 ref fun isPhi => ?_
      rw [Store.isPhi_of_mem_phis isPhi] at notPhi
      cases notPhi
  | @back top returned rest place values values' rest' pending others atRef returns resumes =>
      refine List.forall_mem_cons.2 ⟨.inr (.inl
        ⟨_, List.mem_cons_of_mem _ List.mem_cons_self, ?_⟩), fun frame member => .inr (.inl
        ⟨frame, List.mem_cons_of_mem _ (List.mem_cons_of_mem _ member), rfl⟩)⟩
      obtain rfl | ⟨result, datum, waits, rfl⟩ := resumes
      · rfl
      · -- The result that a frame waits for is not that of a plain instruction.
        obtain ⟨waiting, -⟩ := List.forall_mem_cons.1 (List.forall_mem_cons.1 allInside.each).2
        obtain ⟨-, entry', found', calls⟩ := waiting.awaited result waits
        have different : ref ≠ result := by
          rintro rfl
          cases found.symm.trans found'
          exact calls plain
        exact Results.getElem?_of_ne (.inr ⟨datum, rfl⟩) different
  | handler atRef returns hands starts =>
      refine List.forall_mem_cons.2 ⟨?_, below⟩
      exact .inl (starts.getElem?_of_isInstruction regular isInstruction)

/-- Frames stay in their blocks, unless control has just come to one. -/
theorem Frame.Shifts.blocks
    {heap : Heap}
    {frames frames' : List Frame}
    (shifts : Frame.Shifts program settings heap frames frames') :
    ∀ frame ∈ frames', (∃ former ∈ frames, frame.block = former.block) ∨
      frames'.head? = some frame ∧ frame.rest = program.afterPhis frame.block := by
  have starting {owner : Ref} {frame : Frame} (starts : frame.Starts program settings owner) :
      frame.rest = program.afterPhis frame.block := by
    obtain ⟨arguments, heap, left, called⟩ := starts
    obtain ⟨entry, body, values, -, -, -, -, -, rfl⟩ := callFrame_eq_ok.1 called
    rfl
  have below {top : Frame} {others : List Frame} : ∀ frame ∈ others,
      (∃ former ∈ top :: others, frame.block = former.block) ∨
      frames'.head? = some frame ∧ frame.rest = program.afterPhis frame.block :=
    fun frame member => .inl ⟨frame, List.mem_cons_of_mem _ member, rfl⟩
  cases shifts with
  | next found continues results =>
      exact List.forall_mem_cons.2 ⟨.inl ⟨_, List.mem_cons_self, rfl⟩, below⟩
  | call found continues calls leaves starts =>
      exact List.forall_mem_cons.2 ⟨.inr ⟨rfl, starting starts⟩,
        List.forall_mem_cons.2 ⟨.inl ⟨_, List.mem_cons_self, rfl⟩, below⟩⟩
  | jump found ends answers enters =>
      exact List.forall_mem_cons.2 ⟨.inr ⟨rfl, rfl⟩, below⟩
  | back atRef returns resumes =>
      exact List.forall_mem_cons.2 ⟨.inl ⟨_, List.mem_cons_of_mem _ List.mem_cons_self, rfl⟩,
        fun frame member => .inl
          ⟨frame, List.mem_cons_of_mem _ (List.mem_cons_of_mem _ member), rfl⟩⟩
  | handler atRef returns hands starts =>
      exact List.forall_mem_cons.2 ⟨.inr ⟨rfl, starting starts⟩, below⟩

/-- A state whose frames are in order, and hold what they hold of a function inside of it. -/
structure State.Contained (program : Store) (function : Ref) (state : State) : Prop where
  inside : Frame.AllInside program state.frames
  apart : ∀ frame ∈ state.frames, frame.Apart program function

namespace State.Contained

theorem start
    {arguments : List Datum}
    {heap left : Heap}
    (coherent : program.Coherent)
    (regular : program.Regular)
    (called : outcome (callFrame program settings owner arguments) heap = (.ok frame, left)) :
    State.Contained program function { frame, heap := left } := by
  have starts : frame.Starts program settings owner := ⟨arguments, heap, left, called⟩
  obtain ⟨inside, waits, -⟩ := starts.inside
  refine ⟨⟨?_, ?_⟩, ?_⟩
  · simpa [State.frames] using inside
  · simpa [State.frames] using waits
  · intro other isFrame _ block ref _ member
    cases List.mem_singleton.1 isFrame
    exact starts.getElem?_of_isInstruction regular (Store.isInstruction_of_linked
      (Option.isSome_of_eq_some ((coherent.mem_members block ref).1 member)))

theorem step
    {state next : State}
    (coherent : program.Coherent)
    (regular : program.Regular)
    (ordered : program.Ordered functions)
    (listed : function ∈ functions)
    (contained : State.Contained program function state)
    (ran : state.step program settings = .running next) :
    State.Contained program function next where
  inside := (State.frames_of_step ran).inside contained.inside
  apart := (State.frames_of_step ran).apart coherent regular ordered listed contained.inside
    contained.apart

end State.Contained

/-! ## Laws of instructions -/

/--
A law of an instruction that says something only where a frame holds a result of it goes on
to hold, whatever leads into the function, if it holds when the instruction is executed.
-/
theorem Law.shifts_of_apart
    {heap : Heap}
    {frames frames' : List Frame}
    (law : Law program function ref sources holds)
    (vacuous : ∀ {values : Std.HashMap Ref Datum}, values[ref]? = none → holds values)
    (coherent : program.Coherent)
    (regular : program.Regular)
    (ordered : program.Ordered functions)
    (listed : function ∈ functions)
    (reached : program.Reached function home)
    (member : ref ∈ program.instructions home)
    (notPhi : program.isPhi ref = false)
    (shifts : Frame.Shifts program settings heap frames frames')
    (allInside : Frame.AllInside program frames)
    (apart : ∀ frame ∈ frames, frame.Apart program function)
    (made : ∀ {block values values' rest pending below},
      frames = ⟨block, values, ref :: rest, pending⟩ :: below →
      frames' = ⟨block, values', rest, pending⟩ :: below →
      program.Reached function block → holds values')
    (held : ∀ frame ∈ frames, frame.Has program function ref → holds frame.values) :
    ∀ frame ∈ frames', frame.Has program function ref → holds frame.values := by
  have noPhi {target : Ref} : ref ∉ program.phis target := by
    intro isPhi
    rw [Store.isPhi_of_mem_phis isPhi] at notPhi
    cases notPhi
  refine law.shifts coherent ordered listed shifts allInside ?_ ?_ made ?_ held
  · intro owner frame _ starts _
    refine vacuous (starts.getElem?_of_isInstruction regular ?_)
    exact Store.isInstruction_of_linked
      (Option.isSome_of_eq_some ((coherent.mem_members home ref).1 member))
  · intro block target values values' executed rest pending entry below left left' same outside _ _
      _ _ enters
    have distinct : (program.phis target).Nodup :=
      (coherent.membersDistinct target).sublist (List.takeWhile_sublist _)
    refine vacuous ?_
    rw [(Scene.values_of_enter distinct enters).1 ref noPhi]
    exact apart _ (same ▸ List.mem_cons_self) outside reached member
  · intro block target values values' executed rest pending entry below left left' _ _ _ isPhi
    exact absurd isPhi noPhi

/-! ## What a frame has where it is used -/

/-- A frame has what comes before the instruction that comes next. -/
theorem Frame.has_of_precedes
    (coherent : program.Coherent)
    (reached : program.Reached function block)
    (inside : user :: rest <:+ program.instructions block)
    (precedes : program.Precedes function operand user)
    (placed : program.blockOf? operand = some home) :
    Frame.Has program function operand ⟨block, values, user :: rest, pending⟩ := by
  obtain ⟨before, split⟩ := inside
  have linked := (coherent.mem_members block user).1 (split ▸ by simp)
  obtain ⟨dominates, order⟩ := precedes linked placed
  refine ⟨reached, home, placed, dominates, fun here ahead => ?_⟩
  have distinct := coherent.membersDistinct block
  rw [← split] at distinct
  exact List.disjoint_of_nodup_append distinct (order here split.symm) ahead

/-- A frame that has a result has what comes before it. -/
theorem Frame.Has.of_precedes
    (has : frame.Has program function ref)
    (coherent : program.Coherent)
    (inside : frame.rest <:+ program.instructions frame.block)
    (precedes : program.Precedes function source ref)
    (placed : program.blockOf? source = some other) :
    frame.Has program function source := by
  obtain ⟨home, placed', dominates, -⟩ := has.passed
  obtain ⟨dominates', -⟩ := precedes placed' placed
  exact ⟨has.reached, other, placed, dominates'.trans dominates, fun _ =>
    has.not_mem_rest coherent inside precedes⟩

/-- Where control moves on, a frame has what is available in its block. -/
theorem Frame.has_of_available
    (ordered : program.Ordered functions)
    (listed : function ∈ functions)
    (reached : program.Reached function block)
    (inside : ref :: rest <:+ program.instructions block)
    (ends : program.isTerminator ref = true)
    (notTerminator : program.isTerminator operand = false)
    (available : program.AvailableIn function block operand)
    (placed : program.blockOf? operand = some home) :
    Frame.Has program function operand ⟨block, values, ref :: rest, pending⟩ := by
  obtain ⟨before, split⟩ := inside
  cases ordered.single listed reached split.symm ends
  refine ⟨reached, home, placed, available home placed, fun _ ahead => ?_⟩
  rw [List.mem_singleton.1 ahead, ends] at notTerminator
  cases notTerminator

end ShaderIR.Machine

import ShaderIR.Proofs.Machine.Control

/-!
# Where the control of a run is

Each frame of a state is at a place: a block and what is left of its instructions.
A step moves the place of the current frame to the next instruction or over an edge to
another block, puts the place of a function on top that is called, or takes off the
place of a function that returns.  That holds of every program, also of one in which
control is not in order, so a property of places that these moves keep, and that
excludes the return of the last function, is one that no successful run has.
-/

namespace ShaderIR.Machine

open Exec

/-- Where a frame is in its function. -/
structure Place where
  block : Ref
  rest : List Ref

/-- Where a frame is. -/
def Frame.place (frame : Frame) : Place := ⟨frame.block, frame.rest⟩

/-- Where the frames of a state are, the current one first. -/
def State.places (state : State) : List Place :=
  state.frame.place :: state.callers.map Frame.place

/-- Where a block begins for control, behind its phis. -/
def Place.start (program : Store) (block : Ref) : Place := ⟨block, program.afterPhis block⟩

/-- How a step changes where control is. -/
inductive Place.Shifts (program : Store) : List Place → List Place → Prop
  | next {block ref rest below} (continues : program.isTerminator ref = false) :
      Shifts program (⟨block, ref :: rest⟩ :: below) (⟨block, rest⟩ :: below)
  | call {block ref rest below} (body : Ref) (continues : program.isTerminator ref = false) :
      Shifts program (⟨block, ref :: rest⟩ :: below)
        (.start program body :: ⟨block, rest⟩ :: below)
  | jump {block ref rest below target} (ends : program.isTerminator ref = true)
      (alive : (program.opcode? ref).any Opcode.isUnreachable = false)
      (listed : some target ∈ program.operands ref)
      (isBlock : program.isBlock target = true) :
      Shifts program (⟨block, ref :: rest⟩ :: below) (.start program target :: below)
  | back {block ref rest caller below} (returns : program.opcode? ref = some .ret) :
      Shifts program (⟨block, ref :: rest⟩ :: caller :: below) (caller :: below)
  | handler {block ref rest caller below} (body : Ref)
      (returns : program.opcode? ref = some .ret) :
      Shifts program (⟨block, ref :: rest⟩ :: caller :: below)
        (.start program body :: caller :: below)

variable {program : Store} {settings : Settings} {state next left : State} {ref : Ref}
  {entry : Instruction}

/-! ## Steps -/

theorem Frame.Starts.place
    {frame : Frame}
    {function : Ref}
    (starts : frame.Starts program settings function) :
    frame.place = .start program frame.block := by
  obtain ⟨arguments, heap, heap', called⟩ := starts
  obtain ⟨_, body, _, -, -, -, -, -, rfl⟩ := callFrame_eq_ok.1 called
  rfl

/-- The places of frames shift as the frames do. -/
theorem Frame.Shifts.places
    {heap : Heap}
    {frames frames' : List Frame}
    (shifts : Frame.Shifts program settings heap frames frames') :
    Place.Shifts program (frames.map Frame.place) (frames'.map Frame.place) := by
  have opcode {ref entry} (found : program.instruction? ref = some entry) :
      program.opcode? ref = some entry.opcode := by
    rw [Store.opcode?, found]
    rfl
  cases shifts with
  | next found continues results =>
      refine .next ?_
      rw [Store.isTerminator, opcode found, Option.any_some, continues]
  | call found continues calls leaves starts =>
      rw [List.map_cons, List.map_cons, List.map_cons, starts.place]
      refine .call _ ?_
      rw [Store.isTerminator, opcode found, Option.any_some, continues]
  | jump found ends answers enters =>
      obtain ⟨alive, ⟨operand, listed, equal⟩ | ⟨-, result, equal⟩⟩ :=
        Scene.terminate_eq_ok answers
      · obtain ⟨rfl, isBlock⟩ := Store.asBlock_eq_some_iff.1 (Scene.Transfer.jump.inj equal).symm
        refine .jump ?_ ?_ ?_ isBlock
        · rw [Store.isTerminator, opcode found, Option.any_some, ends]
        · rw [opcode found, Option.any_some, alive]
        · rw [Store.operands, found]
          exact listed
      · cases equal
  | @back top ref rest block values values' rest' pending below atRef returns resumes =>
      have here : top.place = ⟨top.block, ref :: rest⟩ := by rw [Frame.place, atRef]
      rw [List.map_cons, here]
      exact .back returns
  | @handler top ref rest caller below function frame atRef returns hands starts =>
      have here : top.place = ⟨top.block, ref :: rest⟩ := by rw [Frame.place, atRef]
      rw [List.map_cons, here, List.map_cons, List.map_cons, List.map_cons, starts.place]
      exact .handler _ returns

theorem State.shifts_of_step (ran : state.step program settings = .running next) :
    Place.Shifts program state.places next.places :=
  (frames_of_step ran).places

namespace State

/-! ## The end -/

theorem after_eq_finished
    {α : Type}
    {work : Exec α}
    {rest : α → State → Progress}
    {result : Datum}
    (ran : state.after work rest = .finished result left) :
    ∃ found heap, outcome work state.heap = (.ok found, heap) ∧
      rest found { state with heap := heap } = .finished result left := by
  rw [State.after_eq] at ran
  rcases answered : outcome work state.heap with ⟨halt | found, heap⟩
  · rw [answered] at ran
    cases ran
  · rw [answered] at ran
    exact ⟨found, heap, rfl, ran⟩

theorem call_ne_finished
    {pending : Pending}
    {function : Ref}
    {arguments : List Datum}
    {result : Datum} :
    state.call program settings pending function arguments ≠ .finished result left := by
  intro ran
  obtain ⟨frame, heap, -, equal⟩ := after_eq_finished ran
  cases equal

theorem dispatch_ne_finished
    {query : Nat}
    {onSurface onProcedural : Option Ref}
    {arguments : List Datum}
    {result : Datum} :
    state.dispatch program settings query onSurface onProcedural arguments ≠
      .finished result left := by
  intro ran
  obtain ⟨handler, heap, -, ran⟩ := after_eq_finished ran
  cases handler with
  | none => cases ran
  | some handler => exact call_ne_finished ran

theorem perform_ne_finished {result : Datum} (continues : entry.opcode.isTerminator = false) :
    state.perform program settings ref entry ≠ .finished result left := by
  intro ran
  by_cases plain : IsPlain entry.opcode
  · rw [perform_of_isPlain plain] at ran
    obtain ⟨result, heap, -, equal⟩ := after_eq_finished ran
    cases equal
  · unfold State.perform at ran
    simp only [continues, Bool.false_eq_true, if_false] at ran
    cases opcode : entry.opcode <;> rw [opcode] at ran
    case call =>
      unfold State.performCall at ran
      obtain ⟨⟨callee, arguments⟩, heap, -, ran⟩ := after_eq_finished ran
      exact call_ne_finished ran
    case rayQueryPipeline =>
      unfold State.performPipeline at ran
      obtain ⟨⟨address, arguments⟩, heap, -, ran⟩ := after_eq_finished ran
      exact dispatch_ne_finished ran
    case print format =>
      unfold State.performPrint at ran
      obtain ⟨line, heap, -, equal⟩ := after_eq_finished ran
      cases equal
    all_goals exact absurd ⟨continues, by simp [opcode], by simp [opcode], by simp [opcode]⟩ plain

theorem callers_of_back
    {result result' : Datum}
    (ran : state.back program settings result = .finished result' left) :
    state.callers = [] := by
  unfold State.back at ran
  split at ran
  · assumption
  · dsimp only at ran
    split at ran
    · cases ran
    · split at ran <;> cases ran
    · exact absurd ran dispatch_ne_finished

/-- A run ends with a result when the only function left returns. -/
theorem places_of_finished
    {result : Datum}
    (ran : state.step program settings = .finished result left) :
    ∃ block ref rest, state.places = [⟨block, ref :: rest⟩] ∧
      program.opcode? ref = some .ret := by
  unfold State.step at ran
  split at ran
  · cases ran
  · rename_i ref rest atRef
    dsimp only at ran
    split at ran
    · cases ran
    · split at ran
      · cases ran
      · rename_i entry found
        cases ends : entry.opcode.isTerminator with
        | false => exact absurd ran (perform_ne_finished ends)
        | true =>
            unfold State.perform at ran
            simp only [ends, if_true] at ran
            obtain ⟨transfer, heap, answers, ran⟩ := after_eq_finished ran
            obtain ⟨-, ⟨operand, -, rfl⟩ | ⟨returns, result, rfl⟩⟩ :=
              Scene.terminate_eq_ok answers
            · dsimp only at ran
              unfold State.jump at ran
              split at ran
              · cases ran
              · obtain ⟨values, left, -, equal⟩ := after_eq_finished ran
                cases equal
            · have callers := callers_of_back ran
              change state.callers = [] at callers
              refine ⟨state.frame.block, ref, rest, ?_, ?_⟩
              · rw [places, callers, ← atRef]
                rfl
              · rw [Store.opcode?, found, ← returns]
                rfl

/-! ## Runs -/

/-- A run keeps a property of places that the moves of control keep. -/
theorem places_of_visits
    {holds : List Place → Prop}
    (step : ∀ places places', holds places → Place.Shifts program places places' → holds places')
    (start : holds state.places)
    (visited : Visits program settings state next) :
    holds next.places := by
  induction visited with
  | refl => exact start
  | tail _ ran induction => exact step _ _ induction (shifts_of_step ran)

theorem finishes_of_visits
    (visited : Visits program settings state next)
    (finishes : Finishes program settings state) :
    Finishes program settings next := by
  induction visited with
  | refl => exact finishes
  | tail _ ran induction => exact induction.step ran

/--
A state cannot finish when its places have a property that the moves of control keep
and that no last function has that returns.
-/
theorem not_finishes_of_places
    {holds : List Place → Prop}
    (step : ∀ places places', holds places → Place.Shifts program places places' → holds places')
    (ends : ∀ block ref rest, program.opcode? ref = some .ret → ¬holds [⟨block, ref :: rest⟩])
    (start : holds state.places) :
    ¬Finishes program settings state := by
  rintro ⟨bound, result, left, ran⟩
  induction bound generalizing state with
  | zero => cases ran
  | succ bound induction =>
      unfold State.run at ran
      cases stepped : state.step program settings with
      | running next =>
          rw [stepped] at ran
          exact induction (step _ _ start (shifts_of_step stepped)) ran
      | finished result' left' =>
          obtain ⟨block, ref, rest, alone, returns⟩ := places_of_finished stepped
          exact ends block ref rest returns (alone ▸ start)
      | halted halt left' =>
          rw [stepped] at ran
          cases ran

end State

end ShaderIR.Machine

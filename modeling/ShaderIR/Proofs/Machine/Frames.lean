import ShaderIR.Proofs.Coherence.Edges
import ShaderIR.Proofs.Machine.Simulation

/-!
# How a step changes the frames

A step concerns the frame on top and, when that one returns, the frame below it.  The
frame on top goes on in its block or moves to another one, or it leaves a note and
gives way to the frame of a function that it calls.  Frames further below stay as they
are.

All that is said of the frames of a run follows from the cases given here.
-/

namespace ShaderIR.Machine

open Exec

/-- The frames of a state, the current one first. -/
def State.frames (state : State) : List Frame := state.frame :: state.callers

/-- The values of a frame after an instruction, which may have a result. -/
def Results (ref : Ref) (values values' : Std.HashMap Ref Datum) : Prop :=
  values' = values ∨ ∃ datum, values' = values.insert ref datum

/-- The values of a frame that is resumed with the result that it waits for, if it needs one. -/
def Pending.Resumes (pending : Pending) (values values' : Std.HashMap Ref Datum) : Prop :=
  values' = values ∨ ∃ ref datum, pending = .result ref ∧ values' = values.insert ref datum

/-- The function calls that a note leads to may begin with a handler. -/
def Pending.Hands (pending : Pending) (handler : Ref) : Prop :=
  ∃ query onSurface onProcedural arguments,
    pending = .pipeline query onSurface onProcedural arguments ∧
      (onSurface = some handler ∨ onProcedural = some handler)

/-- A frame is the one in which a function starts. -/
def Frame.Starts (program : Store) (settings : Settings) (function : Ref) (frame : Frame) : Prop :=
  ∃ arguments heap left,
    outcome (callFrame program settings function arguments) heap = (.ok frame, left)

/-- The note that an instruction leaves when it calls a function. -/
inductive Pending.Leaves (program : Store) (ref : Ref) (entry : Instruction) (function : Ref) :
    Pending → Prop
  | call (listed : some function ∈ entry.values) (isFunction : program.isFunction function = true) :
      Leaves program ref entry function (.result ref)
  | pipeline {query onSurface onProcedural arguments}
      (handlers : ∀ handler, onSurface = some handler ∨ onProcedural = some handler →
        some handler ∈ entry.values ∧ program.isFunction handler = true)
      (called : onSurface = some function ∨ onProcedural = some function) :
      Leaves program ref entry function (.pipeline query onSurface onProcedural arguments)

/-- How a step changes the frames, given the heap that it starts from. -/
inductive Frame.Shifts (program : Store) (settings : Settings) (heap : Heap) :
    List Frame → List Frame → Prop
  | next {block values values' ref rest pending entry below}
      (found : program.instruction? ref = some entry)
      (continues : entry.opcode.isTerminator = false)
      (results : Results ref values values') :
      Shifts program settings heap (⟨block, values, ref :: rest, pending⟩ :: below)
        (⟨block, values', rest, pending⟩ :: below)
  | call {block values ref rest pending pending' entry below function frame}
      (found : program.instruction? ref = some entry)
      (continues : entry.opcode.isTerminator = false)
      (calls : ¬IsPlain entry.opcode)
      (leaves : pending'.Leaves program ref entry function)
      (starts : Frame.Starts program settings function frame) :
      Shifts program settings heap (⟨block, values, ref :: rest, pending⟩ :: below)
        (frame :: ⟨block, values, rest, pending'⟩ :: below)
  | jump {block values values' ref rest pending entry below target left left'}
      (found : program.instruction? ref = some entry)
      (ends : entry.opcode.isTerminator = true)
      (answers : outcome (Scene.terminate ⟨program, settings, values⟩ entry) heap =
        (.ok (.jump (some target)), left))
      (enters : outcome (Scene.enter ⟨program, settings, values⟩ target (some block)) left =
        (.ok values', left')) :
      Shifts program settings heap (⟨block, values, ref :: rest, pending⟩ :: below)
        (⟨target, values', program.afterPhis target, pending⟩ :: below)
  | back {top ref rest block values values' rest' pending below}
      (atRef : Frame.rest top = ref :: rest)
      (returns : program.opcode? ref = some .ret)
      (resumes : pending.Resumes values values') :
      Shifts program settings heap (top :: ⟨block, values, rest', pending⟩ :: below)
        (⟨block, values', rest', .nothing⟩ :: below)
  | handler {top ref rest caller below function frame}
      (atRef : Frame.rest top = ref :: rest)
      (returns : program.opcode? ref = some .ret)
      (hands : (Frame.pending caller).Hands function)
      (starts : Frame.Starts program settings function frame) :
      Shifts program settings heap (top :: caller :: below) (frame :: caller :: below)

variable {program : Store} {settings : Settings} {state next left : State} {ref : Ref}
  {entry : Instruction}

/-! ## Computations that answer -/

/-- A handler that a query gets to is the handler of some candidate. -/
theorem Scene.exists_of_dispatch
    {handler : Candidate → Option Ref}
    {bound : Nat}
    {query left : RayQuery}
    {function : Ref}
    (dispatched : Scene.dispatch handler bound query = (some function, left)) :
    ∃ candidate, handler candidate = some function := by
  induction bound generalizing query with
  | zero => cases dispatched
  | succ bound induction =>
      unfold Scene.dispatch at dispatched
      split at dispatched
      · cases dispatched
      · rename_i candidate query' _
        split at dispatched
        · rename_i found handles
          cases dispatched
          exact ⟨candidate, handles⟩
        · exact induction dispatched

theorem Scene.eq_of_nextHandler
    {address : Nat}
    {onSurface onProcedural : Option Ref}
    {heap left : Heap}
    {handler : Ref}
    (answers : outcome (Scene.nextHandler address onSurface onProcedural) heap =
      (.ok (some handler), left)) :
    onSurface = some handler ∨ onProcedural = some handler := by
  obtain ⟨query, between, -, answers⟩ := outcome_bind_eq_ok.1 answers
  dsimp only at answers
  obtain ⟨_, _, -, equal⟩ := outcome_bind_eq_ok.1 answers
  rw [outcome_pure] at equal
  have found := Except.ok.inj (Prod.mk.inj equal).1
  obtain ⟨candidate, handles⟩ := Scene.exists_of_dispatch (Prod.ext found rfl)
  cases candidate with
  | triangle => exact .inl handles
  | procedural => exact .inr handles

theorem mem_values_of_operand?
    {entry : Instruction}
    {position : Nat}
    {operand : Option Ref}
    (held : entry.operand? position = some operand) :
    operand ∈ entry.values :=
  List.mem_of_getElem? (i := position) (by rw [Instruction.values, List.getElem?_map, ← held]; rfl)

theorem mem_values_of_join
    {entry : Instruction}
    {position : Nat}
    {operand : Ref}
    (held : (entry.operand? position).join = some operand) :
    some operand ∈ entry.values :=
  mem_values_of_operand? (Option.join_eq_some_iff.1 held)

/-! ## Terminators -/

theorem Scene.target_eq_jump
    {scene : Scene}
    {position : Nat}
    {heap heap' : Heap}
    {transfer : Transfer}
    (answers : outcome (scene.target entry position) heap = (.ok transfer, heap')) :
    ∃ operand ∈ entry.values, transfer = .jump (scene.program.asBlock operand) := by
  obtain ⟨operand, between, demanded, equal⟩ := outcome_bind_eq_ok.1 answers
  cases equal
  exact ⟨operand, mem_values_of_operand? (outcome_demand_eq_ok.1 demanded).1, rfl⟩

/-- A terminator that has an outcome returns, or sends control to one of its operands. -/
theorem Scene.terminate_eq_ok
    {scene : Scene}
    {heap heap' : Heap}
    {transfer : Transfer}
    (answers : outcome (scene.terminate entry) heap = (.ok transfer, heap')) :
    entry.opcode.isUnreachable = false ∧
      ((∃ operand ∈ entry.values, transfer = .jump (scene.program.asBlock operand)) ∨
        entry.opcode = .ret ∧ ∃ result, transfer = .back result) := by
  unfold Scene.terminate at answers
  cases opcode : entry.opcode <;> rw [opcode] at answers
  case ifElse | condBranch =>
    obtain ⟨truth, between, -, answers⟩ := outcome_bind_eq_ok.1 answers
    refine ⟨rfl, .inl ?_⟩
    split at answers
    · exact target_eq_jump answers
    · exact target_eq_jump answers
  case switch merge cases =>
    obtain ⟨datum, _, -, answers⟩ := outcome_bind_eq_ok.1 answers
    obtain ⟨selector, _, -, answers⟩ := outcome_bind_eq_ok.1 answers
    exact ⟨rfl, .inl (target_eq_jump answers)⟩
  case loop | simpleLoop | branch | breakTo | continueTo | outline | autodiffScope | rayQueryLoop =>
    exact ⟨rfl, .inl (target_eq_jump answers)⟩
  case rayQueryDispatch =>
    obtain ⟨query, _, -, answers⟩ := outcome_bind_eq_ok.1 answers
    obtain ⟨address, _, -, answers⟩ := outcome_bind_eq_ok.1 answers
    obtain ⟨handler, _, handled, answers⟩ := outcome_bind_eq_ok.1 answers
    refine ⟨rfl, .inl ?_⟩
    cases handler with
    | none => exact target_eq_jump answers
    | some block =>
        cases answers
        rcases eq_of_nextHandler handled with found | found <;>
          exact ⟨_, mem_values_of_join (Store.asBlock_eq_some_iff.1 found).1,
            congrArg Transfer.jump
              (Store.asBlock_eq_some_iff.2 ⟨rfl, (Store.asBlock_eq_some_iff.1 found).2⟩).symm⟩
  case ret =>
    refine ⟨rfl, .inr ⟨rfl, ?_⟩⟩
    dsimp only at answers
    split at answers
    · obtain ⟨datum, _, -, equal⟩ := outcome_bind_eq_ok.1 answers
      cases equal
      exact ⟨_, rfl⟩
    · cases answers
      exact ⟨_, rfl⟩
  case unreachable =>
    obtain ⟨block, _, -, equal⟩ := outcome_bind_eq_ok.1 answers
    cases equal
  all_goals cases answers

namespace State

/-! ## Calls and returns -/

theorem frames_proceed (state : State) (ref : Ref) (result : Option Datum) :
    ∃ values', Results ref state.frame.values values' ∧
      (state.proceed ref result).frames = { state.frame with values := values' } ::
        state.callers := by
  cases result with
  | none => exact ⟨state.frame.values, .inl rfl, rfl⟩
  | some datum => exact ⟨_, .inr ⟨datum, rfl⟩, rfl⟩

theorem frames_of_call
    {pending : Pending}
    {function : Ref}
    {arguments : List Datum}
    (ran : state.call program settings pending function arguments = .running next) :
    ∃ frame, frame.Starts program settings function ∧
      next.frames = frame :: { state.frame with pending := pending } :: state.callers := by
  obtain ⟨frame, heap, called, equal⟩ := after_eq_running ran
  cases equal
  exact ⟨frame, ⟨arguments, state.heap, heap, called⟩, rfl⟩

theorem frames_of_dispatch
    {query : Nat}
    {onSurface onProcedural : Option Ref}
    {arguments : List Datum}
    (ran : state.dispatch program settings query onSurface onProcedural arguments =
      .running next) :
    next.frames = state.frames ∨ ∃ function frame,
      (onSurface = some function ∨ onProcedural = some function) ∧
        frame.Starts program settings function ∧
        next.frames = frame ::
          { state.frame with pending := .pipeline query onSurface onProcedural arguments } ::
          state.callers := by
  obtain ⟨handler, heap, found, ran⟩ := after_eq_running ran
  cases handler with
  | none =>
      cases ran
      exact .inl rfl
  | some handler =>
      obtain ⟨frame, starts, frames⟩ := frames_of_call ran
      exact .inr ⟨handler, frame, Scene.eq_of_nextHandler found, starts, frames⟩

/-- A frame that is returned to goes on, or runs another handler. -/
theorem frames_of_back
    {result : Datum}
    (ran : state.back program settings result = .running next) :
    ∃ caller below, state.callers = caller :: below ∧
      ((∃ values', caller.pending.Resumes caller.values values' ∧
        next.frames = { caller with values := values', pending := .nothing } :: below) ∨
      ∃ function frame, caller.pending.Hands function ∧
        frame.Starts program settings function ∧ next.frames = frame :: caller :: below) := by
  unfold State.back at ran
  split at ran
  · cases ran
  · rename_i caller below equal
    refine ⟨caller, below, equal, ?_⟩
    dsimp only at ran
    split at ran
    · cases ran
      exact .inl ⟨caller.values, .inl rfl, rfl⟩
    · rename_i ref pending
      split at ran
      · cases ran
        exact .inl ⟨_, .inr ⟨ref, result, pending, rfl⟩, rfl⟩
      · cases ran
        exact .inl ⟨caller.values, .inl rfl, rfl⟩
    · rename_i query onSurface onProcedural arguments pending
      rcases frames_of_dispatch ran with same | ⟨function, frame, called, starts, frames⟩
      · exact .inl ⟨caller.values, .inl rfl, same⟩
      · refine .inr ⟨function, frame, ⟨_, _, _, _, pending, called⟩, starts, frames.trans ?_⟩
        rw [← pending]

/-! ## Instructions -/

theorem frames_of_performCall
    (ran : state.performCall program settings ref entry = .running next) :
    ∃ function frame, (Pending.result ref).Leaves program ref entry function ∧
      frame.Starts program settings function ∧
      next.frames = frame :: { state.frame with pending := .result ref } :: state.callers := by
  unfold State.performCall at ran
  obtain ⟨⟨callee, arguments⟩, heap, work, ran⟩ := after_eq_running ran
  obtain ⟨data, _, -, work⟩ := outcome_bind_eq_ok.1 work
  obtain ⟨operand, _, taken, work⟩ := outcome_bind_eq_ok.1 work
  obtain ⟨function, _, demanded, equal⟩ := outcome_bind_eq_ok.1 work
  cases equal
  obtain ⟨held, -⟩ := outcome_demand_eq_ok.1 taken
  obtain ⟨rfl, isFunction⟩ := Option.filter_eq_some_iff.1 (outcome_demand_eq_ok.1 demanded).1
  obtain ⟨frame, starts, frames⟩ := frames_of_call ran
  exact ⟨callee, frame, .call (mem_values_of_operand? held) isFunction, starts, frames⟩

theorem frames_of_performPipeline
    (ran : state.performPipeline program settings entry = .running next) :
    next.frames = state.frames ∨ ∃ pending' function frame,
      pending'.Leaves program ref entry function ∧ frame.Starts program settings function ∧
        next.frames = frame :: { state.frame with pending := pending' } :: state.callers := by
  unfold State.performPipeline at ran
  obtain ⟨⟨address, arguments⟩, heap, -, ran⟩ := after_eq_running ran
  have handlers : ∀ position handler,
      program.asFunction (entry.operand? position).join = some handler →
        some handler ∈ entry.values ∧ program.isFunction handler = true := by
    intro position handler found
    obtain ⟨held, isFunction⟩ := Option.filter_eq_some_iff.1 found
    exact ⟨mem_values_of_join held, isFunction⟩
  rcases frames_of_dispatch ran with same | ⟨function, frame, called, starts, frames⟩
  · exact .inl same
  · refine .inr ⟨_, function, frame, .pipeline ?_ called, starts, frames⟩
    rintro handler (found | found)
    · exact handlers 1 handler found
    · exact handlers 2 handler found

/-- An instruction that is no terminator moves control on, perhaps into a function. -/
theorem frames_of_perform
    (continues : entry.opcode.isTerminator = false)
    (ran : state.perform program settings ref entry = .running next) :
    (∃ values', Results ref state.frame.values values' ∧
      next.frames = { state.frame with values := values' } :: state.callers) ∨
    ∃ pending' function frame, ¬IsPlain entry.opcode ∧
      pending'.Leaves program ref entry function ∧ frame.Starts program settings function ∧
      next.frames = frame :: { state.frame with pending := pending' } :: state.callers := by
  by_cases plain : IsPlain entry.opcode
  · rw [perform_of_isPlain plain] at ran
    obtain ⟨result, heap, -, equal⟩ := after_eq_running ran
    cases equal
    exact .inl (frames_proceed { state with heap := heap } ref result)
  · unfold State.perform at ran
    simp only [continues, Bool.false_eq_true, if_false] at ran
    cases opcode : entry.opcode <;> rw [opcode] at ran
    case call =>
      obtain ⟨function, frame, called⟩ := frames_of_performCall ran
      exact .inr ⟨_, function, frame, opcode ▸ plain, called⟩
    case rayQueryPipeline =>
      rcases frames_of_performPipeline ran with same | ⟨pending', function, frame, called⟩
      · exact .inl ⟨state.frame.values, .inl rfl, same⟩
      · exact .inr ⟨pending', function, frame, opcode ▸ plain, called⟩
    case print format =>
      unfold State.performPrint at ran
      obtain ⟨line, heap, -, equal⟩ := after_eq_running ran
      cases equal
      exact .inl ⟨state.frame.values, .inl rfl, rfl⟩
    all_goals exact absurd ⟨continues, by simp [opcode], by simp [opcode], by simp [opcode]⟩ plain

/-! ## Steps -/

/-- A step that goes on executes the instruction that comes next. -/
theorem exists_perform_of_step (ran : state.step program settings = .running next) :
    ∃ ref rest entry, state.frame.rest = ref :: rest ∧ program.instruction? ref = some entry ∧
      (state.advanced rest).perform program settings ref entry = .running next := by
  unfold State.step at ran
  split at ran
  · cases ran
  · rename_i ref rest atRef
    dsimp only at ran
    split at ran
    · cases ran
    · split at ran
      · cases ran
      · rename_i entry found
        exact ⟨ref, rest, entry, atRef, found, ran⟩

theorem frames_of_step (ran : state.step program settings = .running next) :
    Frame.Shifts program settings state.heap state.frames next.frames := by
  obtain ⟨ref, rest, entry, atRef, found, ran⟩ := exists_perform_of_step ran
  rcases state with ⟨⟨block, values, atFrame, pending⟩, callers, heap, output, steps⟩
  change atFrame = ref :: rest at atRef
  subst atRef
  cases ends : entry.opcode.isTerminator with
  | false =>
      rcases frames_of_perform ends ran with ⟨values', results, frames⟩ |
        ⟨pending', function, frame, calls, leaves, starts, frames⟩
      · rw [frames]
        exact .next found ends results
      · rw [frames]
        exact .call found ends calls leaves starts
  | true =>
      unfold State.perform at ran
      simp only [ends, if_true] at ran
      obtain ⟨transfer, between, answers, ran⟩ := after_eq_running ran
      cases transfer with
      | jump target =>
          cases target with
          | none => cases ran
          | some target =>
              unfold State.jump at ran
              obtain ⟨values', left, enters, equal⟩ := after_eq_running ran
              cases equal
              exact .jump found ends answers enters
      | back result =>
          obtain ⟨-, ⟨operand, -, equal⟩ | ⟨returns, -⟩⟩ := Scene.terminate_eq_ok answers
          · cases equal
          have isReturn : program.opcode? ref = some .ret := by
            rw [Store.opcode?, found, ← returns]
            rfl
          obtain ⟨caller, below, callers', ⟨values', resumes, frames⟩ |
            ⟨function, frame, hands, starts, frames⟩⟩ := frames_of_back ran
          · change callers = caller :: below at callers'
            rw [frames, callers']
            exact .back rfl isReturn resumes
          · change callers = caller :: below at callers'
            rw [frames, callers']
            exact .handler rfl isReturn hands starts

end State

end ShaderIR.Machine

import Mathlib.Logic.Relation
import ShaderIR.Proofs.Coherence.Session
import ShaderIR.Proofs.Machine.Showing
import ShaderIR.Proofs.Machine.Simulation
import ShaderIR.Proofs.Machine.Steady
import ShaderIR.Validation

/-!
# Runs come to an end

Every step counts one instruction, and nothing is counted beyond the step limit.  What is not
counted has to come to an end by itself: looking for a candidate with a handler, entering a
block, returning, and showing the values of a print.  Only the last of these can go on for ever,
and only when references lead from a value into a circle.

A run is described here without the bounds that make it computable: its prints show values as
far as it takes.  Such a run comes to an end after at most one instruction more than the limit,
or comes to a print of a circular value.
-/

namespace ShaderIR.Machine

open Exec

/-! ## Counting -/

/-- The state that a step leads to. -/
def Progress.state : Progress → State
  | .running state => state
  | .finished _ state => state
  | .halted _ state => state

namespace State

section Counting

variable {program : Store} {settings : Settings} {state : State}

theorem after_steps
    {α : Type}
    {work : Exec α}
    {next : α → State → Progress}
    (keeps : ∀ found state, (next found state).state.steps = state.steps) :
    (state.after work next).state.steps = state.steps := by
  rw [after_eq]
  split
  · exact keeps _ _
  · rfl

theorem call_steps (pending : Pending) (function : Ref) (arguments : List Datum) :
    (state.call program settings pending function arguments).state.steps = state.steps :=
  after_steps fun _ _ => rfl

theorem dispatch_steps
    (query : Nat)
    (onSurface onProcedural : Option Ref)
    (arguments : List Datum) :
    (state.dispatch program settings query onSurface onProcedural arguments).state.steps =
      state.steps := by
  refine after_steps fun handler state => ?_
  cases handler with
  | none => rfl
  | some function => exact call_steps _ _ _

theorem back_steps (result : Datum) :
    (state.back program settings result).state.steps = state.steps := by
  unfold back
  split
  · rfl
  · dsimp only
    split
    · rfl
    · split <;> rfl
    · exact dispatch_steps _ _ _ _

theorem jump_steps (target : Option Ref) :
    (state.jump program settings target).state.steps = state.steps := by
  cases target with
  | none => rfl
  | some block =>
      unfold jump
      exact after_steps fun values state => rfl

/-- Performing an instruction counts nothing. -/
theorem perform_steps (ref : Ref) (entry : Instruction) :
    (state.perform program settings ref entry).state.steps = state.steps := by
  unfold perform
  dsimp only
  split
  · refine after_steps fun transfer state => ?_
    cases transfer with
    | jump target => exact jump_steps target
    | back result => exact back_steps result
  · split
    · exact after_steps fun _ _ => call_steps _ _ _
    · exact after_steps fun _ _ => dispatch_steps _ _ _ _
    · unfold performPrint
      exact after_steps fun line state => rfl
    · refine after_steps fun result state => ?_
      cases result <;> rfl

/-- A step counts one instruction at most. -/
theorem step_steps_le : (state.step program settings).state.steps ≤ state.steps + 1 := by
  unfold step
  split
  · exact Nat.le_succ _
  · dsimp only
    split
    · exact Nat.le_refl _
    · split
      · exact Nat.le_refl _
      · exact (perform_steps _ _).le

/-- A step after which the run goes on counts one instruction within the limit. -/
theorem steps_of_running
    {next : State}
    (stepped : state.step program settings = .running next) :
    next.steps = state.steps + 1 ∧ state.steps < settings.limit := by
  have goesOn : ∀ halt left, state.step program settings ≠ .halted halt left := by
    intro halt left halted
    rw [stepped] at halted
    cases halted
  obtain ⟨ref, rest, entry, atRef, found, within⟩ := exists_next goesOn
  rw [step_eq_perform atRef found within] at stepped
  have counted : ((state.advanced rest).perform program settings ref entry).state.steps =
      (state.advanced rest).steps := perform_steps ref entry
  rw [stepped] at counted
  exact ⟨counted, within⟩

end Counting

end State

/-! ## Looking for a candidate -/

namespace Scene

/-- Looking for a candidate with a handler, one candidate after another, comes to a result. -/
inductive Seeks (handler : Candidate → Option Ref) :
    RayQuery → Option Ref × RayQuery → Prop
  | exhausted {query : RayQuery} :
      query.advance? = none → Seeks handler query (none, query)
  | found {query next : RayQuery} {candidate : Candidate} {block : Ref} :
      query.advance? = some (candidate, next) → handler candidate = some block →
      Seeks handler query (some block, next)
  | passed {query next : RayQuery} {candidate : Candidate} {result : Option Ref × RayQuery} :
      query.advance? = some (candidate, next) → handler candidate = none →
      Seeks handler next result → Seeks handler query result

/-- Moving on leaves the candidates as they are and one fewer to come. -/
theorem advance?_eq_some
    {query next : RayQuery}
    {candidate : Candidate}
    (advanced : query.advance? = some (candidate, next)) :
    next.candidates = query.candidates ∧ next.next = query.next + 1 ∧
      query.next < query.candidates.length := by
  unfold RayQuery.advance? at advanced
  split at advanced
  · cases advanced
  · obtain ⟨found, inside, equal⟩ := Option.map_eq_some_iff.1 advanced
    cases equal
    exact ⟨rfl, rfl, (List.getElem?_eq_some_iff.1 inside).1⟩

/-- Looking comes to its result within one more move than there are candidates to come. -/
theorem seeks_dispatch
    {handler : Candidate → Option Ref}
    {left : Nat}
    {query : RayQuery}
    (enough : query.candidates.length - query.next < left) :
    Seeks handler query (dispatch handler left query) := by
  induction left generalizing query with
  | zero => omega
  | succ left induction =>
      rw [dispatch]
      cases advanced : query.advance? with
      | none => exact .exhausted advanced
      | some answer =>
          obtain ⟨candidate, next⟩ := answer
          obtain ⟨same, later, inside⟩ := advance?_eq_some advanced
          dsimp only
          cases handled : handler candidate with
          | some block => exact .found advanced handled
          | none => exact .passed advanced handled (induction (by rw [same]; omega))

end Scene

/-! ## Prints -/

/-- The values that a print shows: as many as the format has places for. -/
def shownValues (format : String) (data : List Datum) : List Datum :=
  data.take ((format.splitOn "\x7b\x7d").length - 1)

namespace State

variable {program : Store} {settings : Settings} {state : State}

/-- The next instruction is a print within the limit, and these are its data and the heap. -/
def Prints
    (program : Store)
    (settings : Settings)
    (state : State)
    (format : String)
    (data : List Datum)
    (heap : Heap) : Prop :=
  ∃ ref rest entry, state.frame.rest = ref :: rest ∧ state.steps < settings.limit ∧
    program.instruction? ref = some entry ∧ entry.opcode = .print format ∧
    outcome (Scene.evalAll ⟨program, settings, state.frame.values⟩ entry.values) state.heap =
      (.ok data, heap)

/-- Count the print that comes next and print the texts of its values, if they have some. -/
def printing (state : State) (format : String) (heap : Heap) : Option (List Line) → Progress
  | some texts =>
    .running
      { state.advanced state.frame.rest.tail with
        heap
        output := fillFormat format.toList texts :: state.output }
  | none => .halted .stuck { state.advanced state.frame.rest.tail with heap }

/-- A print prints the texts that the bounded search finds. -/
theorem Prints.step_eq
    {format : String}
    {data : List Datum}
    {heap : Heap}
    (prints : state.Prints program settings format data heap) :
    state.step program settings =
      state.printing format heap ((shownValues format data).mapM (formatLine? heap)) := by
  obtain ⟨ref, rest, entry, atRef, within, found, opcode, evaluated⟩ := prints
  have line : printLine? heap format data = ((shownValues format data).mapM (formatLine? heap)).map
      (fillFormat format.toList) := by
    rw [printLine?, Option.map_eq_bind]
    rfl
  have plain : entry.opcode.isTerminator = false := by
    rw [opcode]
    rfl
  rw [step_eq_perform atRef found within]
  unfold perform
  rw [plain, opcode]
  dsimp only
  rw [if_neg Bool.false_ne_true]
  unfold performPrint
  have work : outcome (do
        let data ← Scene.evalAll ⟨program, settings, (state.advanced rest).frame.values⟩
          entry.values
        Exec.demand (printLine? (← get) format data)) (state.advanced rest).heap =
      outcome (Exec.demand (printLine? heap format data)) heap := by
    have answer : outcome (Scene.evalAll ⟨program, settings, (state.advanced rest).frame.values⟩
        entry.values) (state.advanced rest).heap = (.ok data, heap) := evaluated
    rw [outcome_bind, answer]
    dsimp only
    rw [outcome_bind, outcome_get]
  rw [outcome_demand, line] at work
  rw [after_eq, work]
  cases (shownValues format data).mapM (formatLine? heap) with
  | none =>
    rw [printing, atRef]
    rfl
  | some texts =>
    rw [printing, atRef]
    rfl

theorem Prints.unique
    {format format' : String}
    {data data' : List Datum}
    {heap heap' : Heap}
    (prints : state.Prints program settings format data heap)
    (prints' : state.Prints program settings format' data' heap') :
    format' = format ∧ data' = data ∧ heap' = heap := by
  obtain ⟨ref, rest, entry, atRef, -, found, opcode, evaluated⟩ := prints
  obtain ⟨ref', rest', entry', atRef', -, found', opcode', evaluated'⟩ := prints'
  cases atRef.symm.trans atRef'
  cases found.symm.trans found'
  cases opcode.symm.trans opcode'
  cases evaluated.symm.trans evaluated'
  exact ⟨rfl, rfl, rfl⟩

/-! ## Steps without a bound -/

/--
What a step leads to when its print shows values as far as it takes.  A step that never comes to
an end leads to nothing.
-/
inductive Goes (program : Store) (settings : Settings) (state : State) : Progress → Prop
  | other :
      (∀ format data heap, ¬state.Prints program settings format data heap) →
      Goes program settings state (state.step program settings)
  | print {format : String} {data : List Datum} {heap : Heap} {texts : Option (List Line)} :
      state.Prints program settings format data heap →
      ShowsAll heap (shownValues format data) texts →
      Goes program settings state (state.printing format heap texts)

/-- A step without a bound leads to one thing at most. -/
theorem Goes.unique
    {progress progress' : Progress}
    (goes : state.Goes program settings progress)
    (goes' : state.Goes program settings progress') : progress' = progress := by
  cases goes with
  | other notPrint =>
      cases goes' with
      | other _ => rfl
      | print prints _ => exact absurd prints (notPrint _ _ _)
  | print prints shown =>
      cases goes' with
      | other notPrint => exact absurd prints (notPrint _ _ _)
      | print prints' shown' =>
          obtain ⟨rfl, rfl, rfl⟩ := prints.unique prints'
          rw [shown.unique shown']

/-- The print that comes next shows a value from which references lead into a circle. -/
def ShowsCircular (program : Store) (settings : Settings) (state : State) : Prop :=
  ∃ format data heap, state.Prints program settings format data heap ∧
    ∃ datum ∈ shownValues format data, heap.Circular datum

/-- A step comes to an end unless it shows a circular value. -/
theorem exists_goes (notCircular : ¬state.ShowsCircular program settings) :
    ∃ progress, state.Goes program settings progress := by
  by_cases prints : ∃ format data heap, state.Prints program settings format data heap
  · obtain ⟨format, data, heap, prints⟩ := prints
    obtain ⟨texts, shown⟩ := exists_showsAll_of_not_circular fun datum member circular =>
      notCircular ⟨format, data, heap, prints, datum, member, circular⟩
    exact ⟨_, .print prints shown⟩
  · exact ⟨_, .other fun format data heap is => prints ⟨format, data, heap, is⟩⟩

theorem showsAll_of_mapM
    {heap : Heap}
    {data : List Datum}
    {texts : List Line}
    (found : data.mapM (formatLine? heap) = some texts) : ShowsAll heap data (some texts) := by
  induction data generalizing texts with
  | nil =>
      cases found
      exact .nil
  | cons first rest induction =>
      rw [List.mapM_cons] at found
      obtain ⟨text, textFound, found⟩ := Option.bind_eq_some_iff.1 found
      obtain ⟨others, othersFound, equal⟩ := Option.bind_eq_some_iff.1 found
      cases equal
      exact .cons (shows_of_formatTo? textFound) (induction othersFound)

/-- A bounded step that is not stuck is a step without a bound. -/
theorem goes_step (notStuck : ∀ left, state.step program settings ≠ .halted .stuck left) :
    state.Goes program settings (state.step program settings) := by
  by_cases prints : ∃ format data heap, state.Prints program settings format data heap
  · obtain ⟨format, data, heap, prints⟩ := prints
    rw [prints.step_eq] at notStuck ⊢
    cases found : (shownValues format data).mapM (formatLine? heap) with
    | none =>
        rw [found] at notStuck
        exact absurd rfl (notStuck _)
    | some texts => exact .print prints (showsAll_of_mapM found)
  · exact .other fun format data heap is => prints ⟨format, data, heap, is⟩

theorem Prints.steps_lt
    {format : String}
    {data : List Datum}
    {heap : Heap}
    (prints : state.Prints program settings format data heap) : state.steps < settings.limit := by
  obtain ⟨ref, rest, entry, -, within, -⟩ := prints
  exact within

/-- A step without a bound counts one instruction at most. -/
theorem Goes.steps_le {progress : Progress} (goes : state.Goes program settings progress) :
    progress.state.steps ≤ state.steps + 1 := by
  cases goes with
  | other notPrint => exact step_steps_le
  | @print format data heap texts prints shown => cases texts <;> exact Nat.le_refl _

/-- A step without a bound after which the run goes on counts one instruction within the limit. -/
theorem Goes.steps_of_running {next : State} (goes : state.Goes program settings (.running next)) :
    next.steps = state.steps + 1 ∧ state.steps < settings.limit := by
  generalize isRunning : Progress.running next = progress at goes
  cases goes with
  | other notPrint => exact State.steps_of_running isRunning.symm
  | @print format data heap texts prints shown =>
      cases texts with
      | none => cases isRunning
      | some texts =>
          cases isRunning
          exact ⟨rfl, prints.steps_lt⟩

/-! ## Runs without a bound -/

/-- Going step by step comes to an ending, in a state. -/
inductive ComesTo (program : Store) (settings : Settings) : State → Ending → State → Prop
  | finished {state left : State} {result : Datum} :
      state.Goes program settings (.finished result left) →
      ComesTo program settings state (.finished result) left
  | halted {state left : State} {halt : Halt} :
      state.Goes program settings (.halted halt left) →
      ComesTo program settings state (.halted halt) left
  | running {state next left : State} {ending : Ending} :
      state.Goes program settings (.running next) →
      ComesTo program settings next ending left → ComesTo program settings state ending left

/-- Going step by step passes through a state. -/
def Passes (program : Store) (settings : Settings) : State → State → Prop :=
  Relation.ReflTransGen fun state next => state.Goes program settings (.running next)

theorem ComesTo.exists_goes
    {ending : Ending}
    {left : State}
    (comes : state.ComesTo program settings ending left) :
    ∃ progress, state.Goes program settings progress := by
  cases comes with
  | finished goes => exact ⟨_, goes⟩
  | halted goes => exact ⟨_, goes⟩
  | running goes _ => exact ⟨_, goes⟩

/-- Going on comes to one ending at most. -/
theorem ComesTo.unique
    {ending ending' : Ending}
    {left left' : State}
    (comes : state.ComesTo program settings ending left)
    (comes' : state.ComesTo program settings ending' left') : ending' = ending ∧ left' = left := by
  induction comes with
  | finished goes =>
      cases comes' with
      | finished goes' =>
          cases goes.unique goes'
          exact ⟨rfl, rfl⟩
      | halted goes' => cases goes.unique goes'
      | running goes' _ => cases goes.unique goes'
  | halted goes =>
      cases comes' with
      | finished goes' => cases goes.unique goes'
      | halted goes' =>
          cases goes.unique goes'
          exact ⟨rfl, rfl⟩
      | running goes' _ => cases goes.unique goes'
  | running goes _ induction =>
      cases comes' with
      | finished goes' => cases goes.unique goes'
      | halted goes' => cases goes.unique goes'
      | running goes' rest' =>
          cases goes.unique goes'
          exact induction rest'

/-- Within the limit, going on comes to an ending or to a print of a circular value. -/
theorem comesTo_or_showsCircular (within : state.steps ≤ settings.limit) :
    (∃ ending left, state.ComesTo program settings ending left ∧
        left.steps ≤ settings.limit + 1) ∨
      ∃ later, state.Passes program settings later ∧ later.ShowsCircular program settings := by
  -- every step that goes on takes the count one instruction nearer to the limit
  induction left : settings.limit - state.steps using Nat.strong_induction_on
    generalizing state with
  | _ distance induction =>
      by_cases circular : state.ShowsCircular program settings
      · exact .inr ⟨state, .refl, circular⟩
      obtain ⟨progress, goes⟩ := exists_goes circular
      cases progress with
      | running next =>
          obtain ⟨counted, inside⟩ := goes.steps_of_running
          have nearer : settings.limit - next.steps < distance := by omega
          have within' : next.steps ≤ settings.limit := by omega
          rcases induction _ nearer within' rfl with
            ⟨ending, left, comes, count⟩ | ⟨later, passes, circular⟩
          · exact .inl ⟨ending, left, .running goes comes, count⟩
          · exact .inr ⟨later, .head goes passes, circular⟩
      | finished result left =>
          exact .inl ⟨_, left, .finished goes, goes.steps_le.trans (Nat.succ_le_succ within)⟩
      | halted halt left =>
          exact .inl ⟨_, left, .halted goes, goes.steps_le.trans (Nat.succ_le_succ within)⟩

/-- A bounded run that does not get stuck is a run without a bound. -/
theorem comesTo_run
    {bound : Nat}
    (enough : settings.limit - state.steps < bound)
    (notStuck : (state.run program settings bound).1 ≠ .halted .stuck) :
    state.ComesTo program settings (state.run program settings bound).1
      (state.run program settings bound).2 := by
  induction bound generalizing state with
  | zero => omega
  | succ bound induction =>
      rw [State.run] at notStuck ⊢
      have goes : state.Goes program settings (state.step program settings) := by
        refine goes_step fun left stuck => ?_
        rw [stuck] at notStuck
        exact notStuck rfl
      cases stepped : state.step program settings with
      | running next =>
          obtain ⟨counted, within⟩ := steps_of_running stepped
          rw [stepped] at goes notStuck
          exact .running goes (induction (by omega) notStuck)
      | finished result left =>
          rw [stepped] at goes
          exact .finished goes
      | halted halt left =>
          rw [stepped] at goes
          exact .halted goes

end State

/-- A call, without a bound on what its prints show, comes to an ending in a state. -/
def CallComesTo
    (program : Store)
    (settings : Settings)
    (heap : Heap)
    (function : Ref)
    (arguments : List Datum)
    (ending : Ending)
    (left : State) : Prop :=
  match outcome (callFrame program settings function arguments) heap with
  | (.ok frame, heap) => State.ComesTo program settings { frame, heap } ending left
  | (.error halt, heap) =>
    ending = .halted halt ∧ left = { frame := { block := function, rest := [] }, heap }

/-- A call, without a bound on what its prints show, passes through a state. -/
def CallPasses
    (program : Store)
    (settings : Settings)
    (heap : Heap)
    (function : Ref)
    (arguments : List Datum)
    (state : State) : Prop :=
  ∃ frame entered,
    outcome (callFrame program settings function arguments) heap = (.ok frame, entered) ∧
    State.Passes program settings { frame, heap := entered } state

theorem CallComesTo.unique
    {program : Store}
    {settings : Settings}
    {heap : Heap}
    {function : Ref}
    {arguments : List Datum}
    {ending ending' : Ending}
    {left left' : State}
    (comes : CallComesTo program settings heap function arguments ending left)
    (comes' : CallComesTo program settings heap function arguments ending' left') :
    ending' = ending ∧ left' = left := by
  unfold CallComesTo at comes comes'
  cases called : outcome (callFrame program settings function arguments) heap with
  | mk answer entered =>
      rw [called] at comes comes'
      cases answer with
      | error halt => exact ⟨comes'.1.trans comes.1.symm, comes'.2.trans comes.2.symm⟩
      | ok frame => exact State.ComesTo.unique comes comes'

/--
Every run comes to an end, unless it comes to a print of a circular value.  For every program,
settings, heap, function and arguments:

* without a bound on what its prints show, the run comes to an ending after counting at most one
  instruction more than the limit, or it comes, within the limit, to a print that shows a value
  from which references lead into a circle;
* it comes to one ending at most;
* the bounded run, unless it gets stuck, is that run;
* looking for the next candidate with a handler comes to its result by itself.
-/
theorem run_ends_or_shows_circular
    (program : Store)
    (settings : Settings)
    (heap : Heap)
    (function : Ref)
    (arguments : List Datum) :
    ((∃ ending left, CallComesTo program settings heap function arguments ending left ∧
        left.steps ≤ settings.limit + 1) ∨
      ∃ state, CallPasses program settings heap function arguments state ∧
        state.ShowsCircular program settings) ∧
    (∀ ending left ending' left',
      CallComesTo program settings heap function arguments ending left →
      CallComesTo program settings heap function arguments ending' left' →
        ending' = ending ∧ left' = left) ∧
    ((runFrom program settings heap function arguments).1 ≠ .halted .stuck →
      CallComesTo program settings heap function arguments
        (runFrom program settings heap function arguments).1
        (runFrom program settings heap function arguments).2) ∧
    ∀ handler query, Scene.Seeks handler query
      (Scene.dispatch handler (query.candidates.length + 1) query) := by
  refine ⟨?ends, fun _ _ _ _ => CallComesTo.unique, ?bounded,
    fun handler query => Scene.seeks_dispatch (by omega)⟩
  case ends =>
    cases called : outcome (callFrame program settings function arguments) heap with
    | mk answer entered =>
        cases answer with
        | error halt =>
            let left : State := { frame := { block := function, rest := [] }, heap := entered }
            refine .inl ⟨.halted halt, left, ?_, Nat.zero_le _⟩
            unfold CallComesTo
            rw [called]
            exact ⟨rfl, rfl⟩
        | ok frame =>
            let state : State := { frame, heap := entered }
            have within : state.steps ≤ settings.limit := Nat.zero_le _
            rcases State.comesTo_or_showsCircular within with
              ⟨ending, left, comes, count⟩ | ⟨later, passes, circular⟩
            · refine .inl ⟨ending, left, ?_, count⟩
              unfold CallComesTo
              rw [called]
              exact comes
            · exact .inr ⟨later, ⟨frame, entered, called, passes⟩, circular⟩
  case bounded =>
    intro notStuck
    unfold runFrom at notStuck ⊢
    unfold CallComesTo
    cases called : outcome (callFrame program settings function arguments) heap with
    | mk answer entered =>
        have called' : (callFrame program settings function arguments).run.run heap =
            (answer, entered) := called
        rw [called'] at notStuck ⊢
        cases answer with
        | error halt => exact ⟨rfl, rfl⟩
        | ok frame => exact State.comesTo_run (Nat.lt_succ_of_le (Nat.sub_le _ _)) notStuck

/-! ## A run that never ends -/

theorem Heap.getElem?_newVariable (heap : Heap) (content : Datum) :
    (heap.newVariable content).2.cells[heap.cells.size]? = some content := by
  simp [Heap.newVariable]

namespace State

variable {program : Store} {settings : Settings} {state : State}

theorem shownValues_braces (data : List Datum) :
    shownValues "\x7b\x7d" data = data.take 1 := by
  have start : String.Pos.Raw.atEnd "\x7b\x7d" 0 = false := by decide
  have first : String.Pos.Raw.next "\x7b\x7d" 0 = ⟨1⟩ := by decide
  have middle : String.Pos.Raw.atEnd "\x7b\x7d" ⟨1⟩ = false := by decide
  have second : String.Pos.Raw.next "\x7b\x7d" ⟨1⟩ = ⟨2⟩ := by decide
  have last : String.Pos.Raw.atEnd "\x7b\x7d" ⟨2⟩ = true := by decide
  have count : ("\x7b\x7d".splitOn "\x7b\x7d").length = 2 := by
    rw [String.splitOn, if_neg (by decide), String.splitOnAux]
    simp only [start, first, middle, beq_self_eq_true, if_true, Bool.false_eq_true, if_false]
    rw [String.splitOnAux]
    simp only [second, middle, last, beq_self_eq_true, if_true, Bool.false_eq_true, if_false]
    rw [String.splitOnAux]
    simp [last]
  rw [shownValues, count]

/-- Going on from a step that is no print, a run comes to what it comes to after the step. -/
theorem ComesTo.of_step
    {ref : Ref}
    {rest : List Ref}
    {entry : Instruction}
    {next left : State}
    {ending : Ending}
    (comes : state.ComesTo program settings ending left)
    (atRef : state.frame.rest = ref :: rest)
    (found : program.instruction? ref = some entry)
    (notPrint : ∀ format, entry.opcode ≠ .print format)
    (stepped : state.step program settings = .running next) :
    next.ComesTo program settings ending left := by
  have goesOn : ∀ progress, state.Goes program settings progress → progress = .running next := by
    intro progress goes
    cases goes with
    | other _ => exact stepped
    | print prints _ =>
        obtain ⟨ref', rest', entry', atRef', -, found', opcode, -⟩ := prints
        cases atRef.symm.trans atRef'
        cases found.symm.trans found'
        exact absurd opcode (notPrint _)
  cases comes with
  | finished goes => cases goesOn _ goes
  | halted goes => cases goesOn _ goes
  | running goes rest =>
      cases goesOn _ goes
      exact rest

/-- A step that makes a variable. -/
theorem step_alloca
    {ref : Ref}
    {rest : List Ref}
    {entry : Instruction}
    {space : Space}
    {type : Ty}
    (atRef : state.frame.rest = ref :: rest)
    (found : program.instruction? ref = some entry)
    (opcode : entry.opcode = .alloca space)
    (typed : program.typeOf ref = some type)
    (within : state.steps < settings.limit) :
    state.step program settings =
      .running (State.proceed
        { state.advanced rest with
          heap := ((zero type state.heap).2.newVariable (zero type state.heap).1).2 }
        ref (some ((zero type state.heap).2.newVariable (zero type state.heap).1).1)) := by
  have plain : IsPlain entry.opcode := by
    rw [opcode]
    exact ⟨rfl, Opcode.noConfusion, Opcode.noConfusion, fun _ => Opcode.noConfusion⟩
  rw [step_eq_perform atRef found within, perform_of_isPlain plain, after_eq]
  unfold Scene.execute
  dsimp only
  rw [opcode, typed]
  rfl

/-- A step that stores a datum where a pointer leads to. -/
theorem step_of_store
    {block ref pointer stored : Ref}
    {rest : List Ref}
    {entry : Instruction}
    {values : Std.HashMap Ref Datum}
    {pending : Pending}
    {callers : List Frame}
    {heap left : Heap}
    {output : List Line}
    {steps serial cell : Nat}
    {path : List Int}
    {datum : Datum}
    (found : program.instruction? ref = some entry)
    (opcode : entry.opcode = .store)
    (operands : entry.values = [some pointer, some stored])
    (within : steps < settings.limit)
    (leads : Scene.Steady ⟨program, settings, values⟩ pointer (.reference serial cell path))
    (steady : Scene.Steady ⟨program, settings, values⟩ stored datum)
    (stores : heap.store? cell path datum = some left) :
    State.step program settings ⟨⟨block, values, ref :: rest, pending⟩, callers, heap,
      output, steps⟩ =
      .running ⟨⟨block, values, rest, pending⟩, callers, left, output, steps + 1⟩ := by
  have plain : IsPlain entry.opcode := by
    rw [opcode]
    exact ⟨rfl, Opcode.noConfusion, Opcode.noConfusion, fun _ => Opcode.noConfusion⟩
  have operand? (position : Nat) : entry.operand? position = entry.values[position]? :=
    (List.getElem?_map ..).symm
  have first : entry.operand? 0 = some (some pointer) := by rw [operand?, operands]; rfl
  have second : entry.operand? 1 = some (some stored) := by rw [operand?, operands]; rfl
  have work : outcome (Scene.execute ⟨program, settings, values⟩ ref entry (steps + 1)) heap =
      (.ok none, left) := by
    unfold Scene.execute
    dsimp only
    rw [opcode]
    simp only [Scene.reference, Scene.evalAt, Scene.evalPresent, Scene.operand, Scene.store, first,
      second, demand, pure_bind, outcome_bind, leads heap, steady heap, outcome_pure, outcome_get,
      stores, outcome_set]
  rw [step_eq_perform rfl found within, perform_of_isPlain plain, after_eq]
  dsimp only [State.advanced]
  rw [work]
  rfl

/-- A step that stores a variable into itself. -/
theorem step_store_self
    {ref made : Ref}
    {rest : List Ref}
    {entry : Instruction}
    {serial cell : Nat}
    {content : Datum}
    (atRef : state.frame.rest = ref :: rest)
    (found : program.instruction? ref = some entry)
    (opcode : entry.opcode = .store)
    (values : entry.values = [some made, some made])
    (isInstruction : program.isInstruction made = true)
    (held : state.frame.values[made]? = some (.reference serial cell []))
    (present : state.heap.cells[cell]? = some content)
    (within : state.steps < settings.limit) :
    state.step program settings =
      .running { state.advanced rest with
        heap := { state.heap with
          cells := state.heap.cells.setIfInBounds cell (.reference serial cell []) } } := by
  obtain ⟨⟨block, values', _, pending⟩, callers, heap, output, steps⟩ := state
  cases atRef
  have steady : Scene.Steady ⟨program, settings, values'⟩ made (.reference serial cell []) :=
    Scene.steady_of_isInstruction isInstruction held
  refine step_of_store found opcode values within steady steady ?_
  rw [Heap.store?, present]
  rfl

/-- A print of a variable that holds itself leads to nothing. -/
theorem not_goes_of_self
    {ref made : Ref}
    {rest : List Ref}
    {entry : Instruction}
    {serial serial' cell : Nat}
    (atRef : state.frame.rest = ref :: rest)
    (found : program.instruction? ref = some entry)
    (opcode : entry.opcode = .print "\x7b\x7d")
    (values : entry.values = [some made])
    (isInstruction : program.isInstruction made = true)
    (held : state.frame.values[made]? = some (.reference serial cell []))
    (holdsItself : state.heap.cells[cell]? = some (.reference serial' cell []))
    (within : state.steps < settings.limit)
    (progress : Progress) :
    ¬state.Goes program settings progress := by
  let scene : Scene := ⟨program, settings, state.frame.values⟩
  have steady : scene.Steady made (.reference serial cell []) :=
    Scene.steady_of_isInstruction isInstruction held
  have evaluated : outcome (scene.evalAll entry.values) state.heap =
      (.ok [.reference serial cell []], state.heap) := by
    rw [values]
    simp only [Scene.evalAll, outcome_bind, steady state.heap, outcome_pure]
  have prints : state.Prints program settings "\x7b\x7d" [.reference serial cell []] state.heap :=
    ⟨ref, rest, entry, atRef, within, found, opcode, evaluated⟩
  have loaded : state.heap.load? cell [] = some (.reference serial' cell []) := by
    rw [Heap.load?, holdsItself, Option.bind_some, Datum.read?]
  have endless (text : Option Line) :
      ¬Shows state.heap (.reference serial cell []) text := by
    intro shows
    refine not_shows_of_self (fun content held => ⟨serial', ?_⟩) (by simp [loaded]) shows serial rfl
    exact Option.some.inj (held.symm.trans loaded)
  intro goes
  cases goes with
  | other notPrint => exact notPrint _ _ _ prints
  | @print format data heap texts prints' shown =>
      obtain ⟨rfl, rfl, rfl⟩ := prints.unique prints'
      rw [shownValues_braces] at shown
      cases shown with
      | fails shows => exact endless _ shows
      | cons shows _ => exact endless _ shows

/-- A run that makes a variable, stores it into itself and prints it comes to no ending. -/
theorem not_comesTo_of_store_self
    {made stored printed : Ref}
    {rest : List Ref}
    {making storing printing : Instruction}
    {space : Space}
    {type : Ty}
    (ahead : state.frame.rest = made :: stored :: printed :: rest)
    (isMaking : program.instruction? made = some making)
    (makes : making.opcode = .alloca space)
    (typed : program.typeOf made = some type)
    (isStoring : program.instruction? stored = some storing)
    (stores : storing.opcode = .store)
    (storedValues : storing.values = [some made, some made])
    (isPrinting : program.instruction? printed = some printing)
    (prints : printing.opcode = .print "\x7b\x7d")
    (printedValues : printing.values = [some made])
    (within : state.steps + 2 < settings.limit)
    (ending : Ending)
    (left : State) :
    ¬state.ComesTo program settings ending left := by
  have isInstruction : program.isInstruction made = true := by
    rw [Store.isInstruction, isMaking]
    rfl
  have notPrint : ∀ format, making.opcode ≠ .print format := by
    rw [makes]
    exact fun _ => Opcode.noConfusion
  have notPrint' : ∀ format, storing.opcode ≠ .print format := by
    rw [stores]
    exact fun _ => Opcode.noConfusion
  intro comes
  have made' := comes.of_step ahead isMaking notPrint
    (step_alloca ahead isMaking makes typed (by omega))
  have stored' := made'.of_step rfl isStoring notPrint'
    (step_store_self rfl isStoring stores storedValues isInstruction
      Std.HashMap.getElem?_insert_self (Heap.getElem?_newVariable _ _)
      (Nat.lt_of_succ_lt within))
  have grown : (zero type state.heap).2.cells.size <
      ((zero type state.heap).2.newVariable (zero type state.heap).1).2.cells.size := by
    simp [Heap.newVariable]
  -- the cell of the variable now holds a reference to that cell, and the print follows it
  obtain ⟨progress, goes⟩ := stored'.exists_goes
  exact absurd goes (not_goes_of_self rfl isPrinting prints printedValues isInstruction
    Std.HashMap.getElem?_insert_self (Array.getElem?_setIfInBounds_self_of_lt grown) within
    progress)

end State

/-- A call comes to no ending when the state after it comes to none. -/
theorem not_callComesTo_of_ok
    {program : Store}
    {settings : Settings}
    {heap entered : Heap}
    {function : Ref}
    {arguments : List Datum}
    {frame : Frame}
    (called : outcome (callFrame program settings function arguments) heap = (.ok frame, entered))
    (endless : ∀ ending left,
      ¬State.ComesTo program settings { frame, heap := entered } ending left) :
    ¬∃ ending left, CallComesTo program settings heap function arguments ending left := by
  rintro ⟨ending, left, comes⟩
  unfold CallComesTo at comes
  rw [called] at comes
  exact endless ending left comes

/-- A function that stores a variable into itself and prints it. -/
def selfHolding : Store :=
  (Session.after [.edit (.addModule "circle"),
    .edit (.createFunction 0 .callable none),
    .edit (.createBody ⟨0⟩),
    .edit (.requestType 0 "i32" (.scalar (.signed 4))),
    .moveToEnd ⟨1⟩, .alloca (some (.scalar ⟨0, 0, "i32"⟩ (.signed 4))) .local,
    .store (some ⟨2⟩) (some ⟨2⟩),
    .emit (.print "\x7b\x7d") none [some ⟨2⟩] (.refl true),
    .emit .ret none [] (.refl true)]).store

/--
Validation accepts a module in which a variable is stored into itself and printed, and within a
limit of ten steps a run of it comes to no ending: its third instruction never ends.
-/
theorem not_callComesTo_selfHolding :
    selfHolding.validate? 0 = some [] ∧ ⟨0⟩ ∈ selfHolding.definitions 0 ∧
      ¬∃ ending left, CallComesTo selfHolding ⟨limitOf 10, []⟩ {} ⟨0⟩ [] ending left := by
  refine ⟨by decide +kernel, by decide +kernel, ?_⟩
  have enters : (match outcome (callFrame selfHolding ⟨limitOf 10, []⟩ ⟨0⟩ []) {} with
      | (.ok frame, _) => decide (frame.rest = [⟨2⟩, ⟨3⟩, ⟨4⟩, ⟨5⟩])
      | _ => false) = true := by
    decide +kernel
  obtain ⟨making, isMaking, makes⟩ := Option.map_eq_some_iff.1 (show
    (selfHolding.instruction? ⟨2⟩).map (·.opcode) = some (.alloca .local) by decide +kernel)
  obtain ⟨storing, isStoring, stores⟩ := Option.map_eq_some_iff.1 (show
    (selfHolding.instruction? ⟨3⟩).map (fun entry => (entry.opcode, entry.values)) =
      some (.store, [some ⟨2⟩, some ⟨2⟩]) by decide +kernel)
  obtain ⟨printing, isPrinting, prints⟩ := Option.map_eq_some_iff.1 (show
    (selfHolding.instruction? ⟨4⟩).map (fun entry => (entry.opcode, entry.values)) =
      some (.print "\x7b\x7d", [some ⟨2⟩]) by decide +kernel)
  have typed : selfHolding.typeOf ⟨2⟩ = some (.scalar ⟨0, 0, "i32"⟩ (.signed 4)) := by
    decide +kernel
  split at enters
  · rename_i frame heap called
    exact not_callComesTo_of_ok called fun ending left =>
      State.not_comesTo_of_store_self (of_decide_eq_true enters) isMaking makes typed
        isStoring (congrArg Prod.fst stores) (congrArg Prod.snd stores) isPrinting
        (congrArg Prod.fst prints) (congrArg Prod.snd prints)
        (show 0 + 2 < limitOf 10 by decide) ending left
  · cases enters

end ShaderIR.Machine

import ShaderIR.Proofs.Machine.Entry

/-!
# Following a run

A program shadows another one when it has lost instructions whose work nobody
needs, and otherwise executes instructions that resemble those of the other one.
Then every run of the first program that returns is followed by a run of the
second one, step by step, except that the second run skips what is gone.

Which instructions resemble each other may depend on an invariant of the states
that the first run passes through.  The invariant may speak of the link, too: what is
gone may change cells that the first heap has of its own.
-/

namespace ShaderIR.Machine

open Exec

/-- Some number of steps ends a run with a result. -/
def Finishes (program : Store) (settings : Settings) (state : State) : Prop :=
  ∃ bound result left, state.run program settings bound = (.finished result, left)

/-- The states that a run goes through from some state on. -/
def State.Visits (program : Store) (settings : Settings) : State → State → Prop :=
  Relation.ReflTransGen fun state next => state.step program settings = .running next

theorem Finishes.goesOn
    {program : Store}
    {settings : Settings}
    {state : State}
    (finishes : Finishes program settings state) :
    ∀ halt left, state.step program settings ≠ .halted halt left := by
  intro halt left stepped
  obtain ⟨bound, result, final, ran⟩ := finishes
  cases bound with
  | zero => cases ran
  | succ bound =>
      rw [State.run, stepped] at ran
      cases ran

theorem Finishes.step
    {program : Store}
    {settings : Settings}
    {state next : State}
    (finishes : Finishes program settings state)
    (stepped : state.step program settings = .running next) :
    Finishes program settings next := by
  obtain ⟨bound, result, final, ran⟩ := finishes
  cases bound with
  | zero => cases ran
  | succ bound =>
      rw [State.run, stepped] at ran
      exact ⟨bound, result, final, ran⟩

/-- The terminator that comes next sends control to a block. -/
def Moves (program : Store) (settings : Settings) (state : State) (target : Ref) : Prop :=
  ∃ ref rest entry left, state.frame.rest = ref :: rest ∧
    program.instruction? ref = some entry ∧ entry.opcode.isTerminator = true ∧
    outcome (Scene.terminate ⟨program, settings, state.frame.values⟩ entry) state.heap =
      (.ok (.jump (some target)), left)

/-- An instruction that neither calls, prints nor ends its block. -/
def IsPlain (opcode : Opcode) : Prop :=
  opcode.isTerminator = false ∧ opcode ≠ .call ∧ opcode ≠ .rayQueryPipeline ∧
    ∀ format, opcode ≠ .print format

theorem State.perform_of_isPlain
    {program : Store}
    {settings : Settings}
    {state : State}
    {ref : Ref}
    {entry : Instruction}
    (plain : IsPlain entry.opcode) :
    state.perform program settings ref entry =
      state.after (Scene.execute ⟨program, settings, state.frame.values⟩ ref entry state.steps)
        fun result state => .running (state.proceed ref result) := by
  rcases plain with ⟨plain, notCall, notPipeline, notPrint⟩
  unfold State.perform
  dsimp only
  rw [plain]
  cases opcode : entry.opcode with
  | call => exact absurd opcode notCall
  | rayQueryPipeline => exact absurd opcode notPipeline
  | print format => exact absurd opcode (notPrint format)
  | _ => rfl

/-- The state in which the next instruction is performed. -/
def State.advanced (state : State) (rest : List Ref) : State :=
  { state with steps := state.steps + 1, frame := { state.frame with rest := rest } }

/-- A step that does not halt at once performs the next instruction. -/
theorem State.step_eq_perform
    {program : Store}
    {settings : Settings}
    {state : State}
    {ref : Ref}
    {rest : List Ref}
    {entry : Instruction}
    (atRef : state.frame.rest = ref :: rest)
    (found : program.instruction? ref = some entry)
    (within : state.steps < settings.limit) :
    state.step program settings =
      (state.advanced rest).perform program settings ref entry := by
  unfold State.step
  rw [atRef]
  dsimp only
  rw [if_neg (by omega), found]
  rfl

/-- A step that does not halt has an instruction to perform within the limit. -/
theorem State.exists_next
    {program : Store}
    {settings : Settings}
    {state : State}
    (goesOn : ∀ halt left, state.step program settings ≠ .halted halt left) :
    ∃ ref rest entry, state.frame.rest = ref :: rest ∧ program.instruction? ref = some entry ∧
      state.steps < settings.limit := by
  unfold State.step at goesOn
  split at goesOn
  · exact absurd rfl (goesOn _ _)
  · rename_i ref rest atRef
    dsimp only at goesOn
    split at goesOn
    · exact absurd rfl (goesOn _ _)
    · split at goesOn
      · exact absurd rfl (goesOn _ _)
      · rename_i within _ entry found
        exact ⟨ref, rest, entry, atRef, found, by omega⟩

/-- An instruction that does the same as another one, which may have different operands. -/
def Scene.Mirrors (scene : Scene) (ref : Ref) (entry twin : Instruction) : Prop :=
  twin = entry ∨ IsPlain entry.opcode ∧ twin.opcode = entry.opcode ∧
    ∀ heap steps result left, outcome (scene.execute ref entry steps) heap = (.ok result, left) →
      outcome (scene.execute ref twin steps) heap = (.ok result, left)

theorem Scene.Mirrors.opcode
    {scene : Scene}
    {ref : Ref}
    {entry twin : Instruction}
    (mirrors : scene.Mirrors ref entry twin) :
    twin.opcode = entry.opcode := by
  rcases mirrors with rfl | ⟨-, same, -⟩
  · rfl
  · exact same

theorem Scene.Mirrors.eq_of_isTerminator
    {scene : Scene}
    {ref : Ref}
    {entry twin : Instruction}
    (mirrors : scene.Mirrors ref entry twin)
    (ends : entry.opcode.isTerminator = true) :
    twin = entry := by
  refine mirrors.resolve_right fun plain => ?_
  rw [plain.1.1] at ends
  cases ends

/-- A run that goes on does so with either of two instructions that do the same. -/
theorem State.perform_of_mirrors
    {program : Store}
    {settings : Settings}
    {state : State}
    {ref : Ref}
    {entry twin : Instruction}
    (mirrors : Scene.Mirrors ⟨program, settings, state.frame.values⟩ ref entry twin)
    (goesOn : ∀ halt left, state.perform program settings ref entry ≠ .halted halt left) :
    state.perform program settings ref twin = state.perform program settings ref entry := by
  rcases mirrors with rfl | ⟨plain, same, executes⟩
  · rfl
  · have plain' : IsPlain twin.opcode := same ▸ plain
    rw [State.perform_of_isPlain plain, State.after_eq] at goesOn ⊢
    rw [State.perform_of_isPlain plain', State.after_eq]
    cases run : outcome (Scene.execute ⟨program, settings, state.frame.values⟩ ref
      entry state.steps)
        state.heap with
    | mk answer heap =>
        cases answer with
        | error halt =>
            rw [run] at goesOn
            exact absurd rfl (goesOn _ _)
        | ok result => rw [executes _ _ _ _ run]

/--
The second program follows the first one through the states that satisfy an invariant.  It
has instructions that resemble those of the first one, or others that do the same.
-/
structure Shadows (gone : Ref → Bool) (base : Link) (program program' : Store)
    (settings settings' : Settings) (holds : Link → State → Prop) : Prop where
  limit : settings.limit ≤ settings'.limit
  functions : ∀ function, program'.function? function = program.function? function
  parameters : ∀ {function entry}, program.function? function = some entry →
    ∀ parameter ∈ entry.arguments, program'.isLValue parameter = program.isLValue parameter
  tracked : ∀ {link state}, holds link state →
    Tracked gone program program' state.frame.block
  executed : ∀ {link state ref rest entry}, holds link state → state.frame.rest = ref :: rest →
    program.instruction? ref = some entry → gone ref = false →
    entry.opcode ≠ .clock ∧ program'.typeOf ref = program.typeOf ref ∧
      ∃ twin entry', Scene.Mirrors ⟨program, settings, state.frame.values⟩ ref entry twin ∧
        program'.instruction? ref = some entry' ∧
        ∀ {larger values'}, base ≤ larger → ValuesLinked gone larger state.frame.values values' →
          Resembles larger ⟨program, settings, state.frame.values⟩
            ⟨program', settings', values'⟩ twin entry'
  incoming : ∀ {link state target phi}, holds link state → Moves program settings state target →
    Tracked gone program program' target → phi ∈ program.phis target → gone phi = false →
    ∀ {larger values'}, base ≤ larger → ValuesLinked gone larger state.frame.values values' →
      IncomingAgrees larger ⟨program, settings, state.frame.values⟩
        ⟨program', settings', values'⟩ state.frame.block phi
  dropped : ∀ {link state ref rest entry}, holds link state → state.frame.rest = ref :: rest →
    program.instruction? ref = some entry → gone ref = true →
    IsPlain entry.opcode ∧
      ∀ {next heap'}, state.step program settings = .running next →
        Finishes program settings next → link.Heaps state.heap heap' →
        ∃ larger, link ≤ larger ∧ larger.Heaps next.heap heap' ∧ holds larger next
  preserved : ∀ {link larger state next ref rest}, holds link state →
    state.frame.rest = ref :: rest → gone ref = false →
    state.step program settings = .running next → Finishes program settings next →
    link ≤ larger → holds larger next

variable {gone : Ref → Bool} {base link larger : Link} {program program' : Store}
  {settings settings' : Settings} {holds : Link → State → Prop} {state state' : State}

/-- A plain instruction is executed, and the run goes on behind it. -/
theorem State.eq_of_step_of_isPlain
    {next : State}
    {ref : Ref}
    {rest : List Ref}
    {entry : Instruction}
    (atRef : state.frame.rest = ref :: rest)
    (found : program.instruction? ref = some entry)
    (plain : IsPlain entry.opcode)
    (ran : state.step program settings = .running next) :
    ∃ result heap,
      outcome (Scene.execute ⟨program, settings, state.frame.values⟩ ref entry (state.steps + 1))
        state.heap = (.ok result, heap) ∧
      next = State.proceed { state.advanced rest with heap := heap } ref result := by
  obtain ⟨other, others, entry', atOther, found', within⟩ := State.exists_next
    (show ∀ halt left, state.step program settings ≠ .halted halt left by simp [ran])
  cases atRef.symm.trans atOther
  rw [State.step_eq_perform atRef found within, State.perform_of_isPlain plain] at ran
  obtain ⟨result, heap, run, equal⟩ := State.after_eq_running ran
  cases equal
  exact ⟨result, heap, run, rfl⟩

/-- An instruction that leaves the heap as it is at most adds to it. -/
theorem State.grows_of_step
    {next : State}
    {ref : Ref}
    {rest : List Ref}
    {entry : Instruction}
    (atRef : state.frame.rest = ref :: rest)
    (found : program.instruction? ref = some entry)
    (plain : IsPlain entry.opcode)
    (grows : ∀ steps,
      Growing (Scene.execute ⟨program, settings, state.frame.values⟩ ref entry steps))
    (ran : state.step program settings = .running next) :
    state.heap.Grows next.heap := by
  obtain ⟨result, heap, run, rfl⟩ := State.eq_of_step_of_isPlain atRef found plain ran
  cases result <;> exact grows _ _ _ _ run

/-- Where a terminator comes next, a step that does not halt sends control somewhere. -/
theorem State.exists_transfer
    {ref : Ref}
    {rest : List Ref}
    {entry : Instruction}
    (atRef : state.frame.rest = ref :: rest)
    (found : program.instruction? ref = some entry)
    (ends : entry.opcode.isTerminator = true)
    (goesOn : ∀ halt left, state.step program settings ≠ .halted halt left) :
    ∃ transfer left, outcome (Scene.terminate ⟨program, settings, state.frame.values⟩ entry)
      state.heap = (.ok transfer, left) := by
  obtain ⟨_, _, _, atRef', found', within⟩ := State.exists_next goesOn
  cases atRef.symm.trans atRef'
  cases found.symm.trans found'
  rw [State.step_eq_perform atRef found within] at goesOn
  unfold State.perform at goesOn
  dsimp only at goesOn
  rw [if_pos ends, State.after_eq] at goesOn
  rcases run : outcome (Scene.terminate ⟨program, settings, state.frame.values⟩ entry) state.heap
    with ⟨halt | transfer, left⟩
  · have run : outcome
      (Scene.terminate ⟨program, settings, (state.advanced rest).frame.values⟩ entry)
        (state.advanced rest).heap = (.error halt, left) := run
    rw [run] at goesOn
    exact absurd rfl (goesOn _ _)
  · exact ⟨transfer, left, rfl⟩

namespace Shadows

/-! ## Calls -/

theorem callFrame
    (shadows : Shadows gone base program program' settings settings' holds)
    {heap heap' left : Heap}
    {function : Ref}
    {arguments arguments' : List Datum}
    {frame : Frame}
    (heaps : link.Heaps heap heap')
    (linkedArguments : AllLinked link arguments arguments')
    (run : outcome (Machine.callFrame program settings function arguments) heap =
      (.ok frame, left))
    (tracked : Tracked gone program program' frame.block) :
    ∃ larger frame' left', link ≤ larger ∧
      outcome (Machine.callFrame program' settings' function arguments') heap' =
        (.ok frame', left') ∧
      larger.Heaps left left' ∧ FramesLinked gone program program' larger frame frame' := by
  rcases callFrame_eq_ok.1 run with
    ⟨entry, body, values, found, defined, hasBody, phis, bound, rfl⟩
  have parameters := shadows.parameters found
  have empty : ValuesLinked gone link
      ({} : Std.HashMap Ref Datum) ({} : Std.HashMap Ref Datum) :=
    fun _ _ _ found => by simp at found
  have binds := follows_bind function entry.arguments parameters linkedArguments 0 empty
  rcases binds heap heap' heaps values left bound with
    ⟨larger, values', left', grows, bound', heaps', linkedValues⟩
  have phis' : program'.phis body = [] := by
    have := tracked.phis
    rw [phis] at this
    exact this
  refine ⟨larger, { block := body, values := values', rest := program'.afterPhis body }, left',
    grows, ?_, heaps', rfl, tracked.afterPhis, linkedValues, .nothing⟩
  exact callFrame_eq_ok.2 ⟨entry, body, values', (shadows.functions function).trans found,
    defined, hasBody, phis', bound', rfl⟩

theorem call
    (shadows : Shadows gone base program program' settings settings' holds)
    (linked : StatesLinked gone program program' link state state')
    {pending pending' : Pending}
    {function : Ref}
    {arguments arguments' : List Datum}
    (pendings : PendingLinked program program' link pending pending')
    (linkedArguments : AllLinked link arguments arguments')
    (tracked : ∀ next, state.call program settings pending function arguments = .running next →
      Tracked gone program program' next.frame.block) :
    KeepsUp gone program program' link
      (state.call program settings pending function arguments)
      (state'.call program' settings' pending' function arguments') := by
  unfold State.call at tracked ⊢
  rw [State.after_eq] at tracked ⊢
  rw [State.after_eq]
  cases run : outcome (Machine.callFrame program settings function arguments) state.heap with
  | mk answer heap =>
      cases answer with
      | error halt => trivial
      | ok frame =>
          rw [run] at tracked
          have tracked := tracked _ rfl
          rcases shadows.callFrame linked.heap linkedArguments run tracked with
            ⟨larger, frame', heap', grows, run', heaps, frames⟩
          rw [run']
          refine ⟨_, larger, rfl, grows, ?_⟩
          have caller := linked.frame.mono grows
          exact ⟨frames, .cons ⟨caller.block, caller.rest, caller.values, pendings.mono grows⟩
            (linked.callers_mono grows), heaps, linked.output, linked.steps⟩

theorem dispatch
    (shadows : Shadows gone base program program' settings settings' holds)
    (linked : StatesLinked gone program program' link state state')
    {query query' : Nat}
    {onSurface onProcedural : Option Ref}
    {arguments arguments' : List Datum}
    (queries : link.queries query query')
    (linkedArguments : AllLinked link arguments arguments')
    (tracked : ∀ next,
      state.dispatch program settings query onSurface onProcedural arguments = .running next →
        Tracked gone program program' next.frame.block) :
    KeepsUp gone program program' link
      (state.dispatch program settings query onSurface onProcedural arguments)
      (state'.dispatch program' settings' query' onSurface onProcedural arguments') := by
  unfold State.dispatch at tracked ⊢
  refine keepsUp_after linked (follows_nextHandler queries onSurface onProcedural) ?_
  intro larger handler _ heap heap' grows same run linked'
  cases same
  cases handler with
  | none => exact ⟨_, larger, rfl, le_refl larger, linked'⟩
  | some function =>
      refine shadows.call linked' (.pipeline (grows.1.queries queries)
        (AllLinked.mono grows linkedArguments)) (AllLinked.mono grows linkedArguments) ?_
      intro next called
      refine tracked next ?_
      rw [State.after_eq, run]
      exact called

/-! ## Returning and jumping -/

theorem proceed
    (linked : StatesLinked gone program program' link state state')
    (ref : Ref)
    {result result' : Option Datum}
    (linkedResult : MaybeLinked link result result') :
    StatesLinked gone program program' link (state.proceed ref result)
      (state'.proceed ref result') := by
  cases linkedResult with
  | none => exact linked
  | some linkedDatum =>
      have frame := linked.frame
      exact ⟨⟨frame.block, frame.rest, frame.values.insert ref linkedDatum, frame.pending⟩,
        linked.callers, linked.heap, linked.output, linked.steps⟩

theorem back
    (shadows : Shadows gone base program program' settings settings' holds)
    (linked : StatesLinked gone program program' link state state')
    {result result' : Datum}
    (linkedResult : Linked link result result')
    (tracked : ∀ next, state.back program settings result = .running next →
      Tracked gone program program' next.frame.block) :
    KeepsUp gone program program' link (state.back program settings result)
      (state'.back program' settings' result') := by
  rcases state with ⟨frame, callers, heap, output, steps⟩
  rcases state' with ⟨frame', callers', heap', output', steps'⟩
  have linkedCallers := linked.callers
  have heaps := linked.heap
  have sameOutput := linked.output
  cases linkedCallers with
  | nil => exact ⟨_, _, link, rfl, le_refl link, heaps, linkedResult, sameOutput⟩
  | @cons caller caller' callers callers' linkedCaller linkedCallers =>
      rcases caller with ⟨block, values, rest, pending⟩
      rcases caller' with ⟨block', values', rest', pending'⟩
      have resumed : StatesLinked gone program program' link
          ⟨⟨block, values, rest, .nothing⟩, callers, heap, output, steps⟩
          ⟨⟨block', values', rest', .nothing⟩, callers', heap', output', steps'⟩ :=
        ⟨⟨linkedCaller.block, linkedCaller.rest, linkedCaller.values, .nothing⟩, linkedCallers,
          heaps, sameOutput, linked.steps⟩
      have pendings := linkedCaller.pending
      cases pendings with
      | nothing => exact ⟨_, link, rfl, le_refl link, resumed⟩
      | result ref sameType =>
          unfold State.back
          dsimp only
          rw [sameType]
          split
          · exact ⟨_, link, rfl, le_refl link, proceed resumed ref (.some linkedResult)⟩
          · exact ⟨_, link, rfl, le_refl link, resumed⟩
      | pipeline queries arguments => exact shadows.dispatch resumed queries arguments tracked

theorem jump
    (linked : StatesLinked gone program program' link state state')
    {target : Option Ref}
    (tracked : ∀ next, state.jump program settings target = .running next →
      Tracked gone program program' next.frame.block)
    (incoming : ∀ block, target = some block → Tracked gone program program' block →
      ∀ phi ∈ program.phis block, gone phi = false →
      IncomingAgrees link ⟨program, settings, state.frame.values⟩
        ⟨program', settings', state'.frame.values⟩ state.frame.block phi) :
    KeepsUp gone program program' link (state.jump program settings target)
      (state'.jump program' settings' target) := by
  cases target with
  | none => trivial
  | some block =>
      unfold State.jump at tracked ⊢
      dsimp only at tracked ⊢
      rw [State.after_eq] at tracked ⊢
      rw [State.after_eq, linked.frame.block]
      cases run : outcome (Scene.enter ⟨program, settings, state.frame.values⟩ block
          (some state.frame.block)) state.heap with
      | mk answer heap =>
          cases answer with
          | error halt => trivial
          | ok values =>
              rw [run] at tracked
              have tracked := tracked _ rfl
              have enters := follows_enter ⟨program, settings, state.frame.values⟩
                ⟨program', settings', state'.frame.values⟩ tracked linked.frame.values
                (incoming block rfl tracked)
              rcases enters state.heap state'.heap linked.heap values heap run with
                ⟨larger, values', heap', grows, run', heaps, linkedValues⟩
              rw [run']
              refine ⟨_, larger, rfl, grows, ?_⟩
              exact ⟨⟨rfl, tracked.afterPhis, linkedValues, linked.frame.pending.mono grows⟩,
                linked.callers_mono grows, heaps, linked.output, linked.steps⟩

/-! ## Instructions -/

section Execution

variable {ref : Ref} {rest : List Ref} {entry entry' : Instruction}

theorem performCall
    (shadows : Shadows gone base program program' settings settings' holds)
    (linked : StatesLinked gone program program' link state state')
    (resembles : Resembles link ⟨program, settings, state.frame.values⟩
      ⟨program', settings', state'.frame.values⟩ entry entry')
    (sameType : program'.typeOf ref = program.typeOf ref)
    (tracked : ∀ next, state.performCall program settings ref entry = .running next →
      Tracked gone program program' next.frame.block) :
    KeepsUp gone program program' link (state.performCall program settings ref entry)
      (state'.performCall program' settings' ref entry') := by
  unfold State.performCall at tracked ⊢
  dsimp only at tracked ⊢
  have works : Follows
      (fun link (call call' : Ref × List Datum) => call'.1 = call.1 ∧ AllLinked link call.2 call'.2)
      link
      (do
        let data ← Scene.evalAll ⟨program, settings, state.frame.values⟩ entry.values
        let callee := program.asFunction (← Scene.operand entry 0)
        return (← Exec.demand callee, data.drop 1))
      (do
        let data ← Scene.evalAll ⟨program', settings', state'.frame.values⟩ entry'.values
        let callee := program'.asFunction (← Scene.operand entry' 0)
        return (← Exec.demand callee, data.drop 1)) := by
    refine Follows.bind (follows_evalAll resembles.operands link (le_refl link)) ?_
    intro first data data' _ linkedData
    refine Follows.bind (resembles.follows_operand 0) ?_
    intro second callee callee' grows agrees
    have sameFunction : program'.asFunction callee' = program.asFunction callee := agrees.function
    dsimp only
    rw [sameFunction]
    refine Follows.bind (Follows.demandSame _) ?_
    intro third function _ grows' same
    cases same
    exact Follows.pure
      ⟨rfl, AllLinked.mono (le_trans grows grows') (List.forall₂_drop 1 linkedData)⟩
  refine keepsUp_after linked works ?_
  rintro larger ⟨function, arguments⟩ ⟨_, arguments'⟩ heap heap' grows ⟨same, linkedArguments⟩ run
    linked'
  cases same
  refine shadows.call linked' (.result ref sameType) linkedArguments ?_
  intro next called
  refine tracked next ?_
  rw [State.after_eq, run]
  exact called

theorem performPipeline
    (shadows : Shadows gone base program program' settings settings' holds)
    (linked : StatesLinked gone program program' link state state')
    (resembles : Resembles link ⟨program, settings, state.frame.values⟩
      ⟨program', settings', state'.frame.values⟩ entry entry')
    (tracked : ∀ next, state.performPipeline program settings entry = .running next →
      Tracked gone program program' next.frame.block) :
    KeepsUp gone program program' link (state.performPipeline program settings entry)
      (state'.performPipeline program' settings' entry') := by
  unfold State.performPipeline at tracked ⊢
  dsimp only at tracked ⊢
  refine keepsUp_after linked resembles.pipelineStart ?_
  rintro larger ⟨address, arguments⟩ ⟨address', arguments'⟩ heap heap' grows
    ⟨queries, linkedArguments⟩ run linked'
  have onSurface := resembles.asFunction 1
  have onProcedural := resembles.asFunction 2
  dsimp only at onSurface onProcedural ⊢
  rw [onSurface, onProcedural]
  refine shadows.dispatch linked' queries linkedArguments ?_
  intro next dispatched
  refine tracked next ?_
  rw [State.after_eq, run]
  exact dispatched

theorem performPrint
    (linked : StatesLinked gone program program' link state state')
    (resembles : Resembles link ⟨program, settings, state.frame.values⟩
      ⟨program', settings', state'.frame.values⟩ entry entry')
    (format : String) :
    KeepsUp gone program program' link (state.performPrint program settings format entry)
      (state'.performPrint program' settings' format entry') := by
  unfold State.performPrint
  have works : Follows (fun _ line line' => Line.Alike line line') link
      (do
        let data ← Scene.evalAll ⟨program, settings, state.frame.values⟩ entry.values
        Exec.demand (printLine? (← get) format data))
      (do
        let data ← Scene.evalAll ⟨program', settings', state'.frame.values⟩ entry'.values
        Exec.demand (printLine? (← get) format data)) := by
    refine Follows.bind (follows_evalAll resembles.operands link (le_refl link)) ?_
    intro first data data' _ linkedData heap heap' heaps line left run
    rcases outcome_bind_eq_ok.1 run with ⟨_, _, equal, demanded⟩
    cases equal
    rcases outcome_demand_eq_ok.1 demanded with ⟨printed, rfl⟩
    obtain ⟨line', printed', alike⟩ := printLine?_linked heaps format linkedData printed
    refine ⟨first, line', heap', le_refl first, ?_, heaps, alike⟩
    refine outcome_bind_eq_ok.2 ⟨heap', heap', rfl, ?_⟩
    rw [outcome_demand, printed']
  refine keepsUp_after linked works ?_
  intro larger line line' heap heap' _ alike _ linked'
  refine ⟨_, larger, rfl, le_refl larger, ?_⟩
  refine ⟨linked'.frame, linked'.callers, linked'.heap, ?_, linked'.steps⟩
  rw [List.map_cons, List.map_cons, alike.text, linked'.output]

/-- The second run performs a kept instruction as the first one does. -/
theorem perform
    (shadows : Shadows gone base program program' settings settings' holds)
    (linked : StatesLinked gone program program' link state state')
    (resembles : Resembles link ⟨program, settings, state.frame.values⟩
      ⟨program', settings', state'.frame.values⟩ entry entry')
    (timeless : entry.opcode ≠ .clock)
    (sameType : program'.typeOf ref = program.typeOf ref)
    (tracked : ∀ next, state.perform program settings ref entry = .running next →
      Tracked gone program program' next.frame.block)
    (incoming : ∀ {larger left block}, link ≤ larger → entry.opcode.isTerminator = true →
      outcome (Scene.terminate ⟨program, settings, state.frame.values⟩ entry) state.heap =
        (.ok (.jump (some block)), left) →
      Tracked gone program program' block →
      ∀ phi ∈ program.phis block, gone phi = false →
      IncomingAgrees larger ⟨program, settings, state.frame.values⟩
        ⟨program', settings', state'.frame.values⟩ state.frame.block phi) :
    KeepsUp gone program program' link (state.perform program settings ref entry)
      (state'.perform program' settings' ref entry') := by
  have sameEnd : entry'.opcode.isTerminator = entry.opcode.isTerminator := by
    rw [← Opcode.isTerminator_withMerge entry'.opcode none, resembles.opcode,
      Opcode.isTerminator_withMerge]
  unfold State.perform at tracked ⊢
  dsimp only at tracked ⊢
  rw [sameEnd]
  cases ends : entry.opcode.isTerminator with
  | true =>
      rw [ends] at tracked
      simp only [if_true] at tracked ⊢
      refine keepsUp_after linked resembles.terminate ?_
      intro larger transfer transfer' heap heap' grows linkedTransfer run linked'
      rw [State.after_eq, run] at tracked
      cases linkedTransfer with
      | jump target =>
          refine jump linked' tracked ?_
          rintro block rfl trackedBlock phi member kept
          exact incoming grows ends run trackedBlock phi member kept
      | back linkedResult => exact shadows.back linked' linkedResult tracked
  | false =>
      have sameOpcode := Opcode.eq_of_withMerge_eq resembles.opcode ends
      rw [ends] at tracked
      rw [sameOpcode]
      simp only [Bool.false_eq_true, if_false] at tracked ⊢
      have executes : KeepsUp gone program program' link
          (state.after (Scene.execute ⟨program, settings, state.frame.values⟩ ref entry state.steps)
            fun result state => .running (state.proceed ref result))
          (state'.after
            (Scene.execute ⟨program', settings', state'.frame.values⟩ ref entry' state'.steps)
            fun result state => .running (state.proceed ref result)) := by
        refine keepsUp_after linked (resembles.execute ends timeless sameType) ?_
        intro larger result result' heap heap' _ linkedResult _ linked'
        exact ⟨_, larger, rfl, le_refl larger, proceed linked' ref linkedResult⟩
      cases found : entry.opcode with
      | call =>
          rw [found] at tracked
          exact shadows.performCall linked resembles sameType tracked
      | rayQueryPipeline =>
          rw [found] at tracked
          exact shadows.performPipeline linked resembles tracked
      | print format => exact performPrint linked resembles format
      | _ => exact executes

/-- An instruction that is gone is executed by the first run alone. -/
theorem skip
    (shadows : Shadows gone base program program' settings settings' holds)
    (held : holds link state)
    (linked : StatesLinked gone program program' link state state')
    (atRef : state.frame.rest = ref :: rest)
    (found : program.instruction? ref = some entry)
    (lost : gone ref = true)
    (within : state.steps < settings.limit)
    {next : State}
    (stepped : state.step program settings = .running next)
    (finishes : Finishes program settings next) :
    ∃ larger, link ≤ larger ∧ holds larger next ∧
      StatesLinked gone program program' larger next state' := by
  obtain ⟨plain, drops⟩ := shadows.dropped held atRef found lost
  obtain ⟨larger, grows, heaps, held'⟩ := drops stepped finishes linked.heap
  refine ⟨larger, grows, held', ?_⟩
  rw [State.step_eq_perform atRef found within, State.perform_of_isPlain plain] at stepped
  obtain ⟨result, heap, run, equal⟩ := State.after_eq_running stepped
  cases equal
  have frame := linked.frame.mono grows
  have restSame : state'.frame.rest = rest.filter (!gone ·) := by
    rw [frame.rest, atRef]
    simp [lost]
  have stepsSame : state'.steps ≤ state.steps + 1 := Nat.le_succ_of_le linked.steps
  cases result with
  | none =>
      exact ⟨⟨frame.block, restSame, frame.values, frame.pending⟩, linked.callers_mono grows, heaps,
        linked.output, stepsSame⟩
  | some datum =>
      exact ⟨⟨frame.block, restSame, frame.values.insertLeft lost datum, frame.pending⟩,
        linked.callers_mono grows, heaps, linked.output, stepsSame⟩

end Execution

/--
Of a state of the second run: it is linked with a state of the first one, where an
instruction comes next that both programs have, and the first run goes on from there.
-/
structure Matches (gone : Ref → Bool) (base : Link) (program program' : Store)
    (settings : Settings) (holds : Link → State → Prop) (state' state : State) (link : Link) :
    Prop where
  held : holds link state
  above : base ≤ link
  linked : StatesLinked gone program program' link state state'
  kept : ∃ ref rest entry, state.frame.rest = ref :: rest ∧
    program.instruction? ref = some entry ∧ gone ref = false
  goesOn : ∀ halt left, state.step program settings ≠ .halted halt left
  ahead : ∀ next, state.step program settings = .running next → holds link next

/--
A step of the first run that does not halt is skipped by the second one, or it keeps up
with it.
-/
theorem step
    (shadows : Shadows gone base program program' settings settings' holds)
    (held : holds link state)
    (above : base ≤ link)
    (linked : StatesLinked gone program program' link state state')
    (goesOn : ∀ halt left, state.step program settings ≠ .halted halt left)
    (finishes : ∀ next, state.step program settings = .running next →
      Finishes program settings next) :
    (∃ next larger, state.step program settings = .running next ∧ link ≤ larger ∧
      holds larger next ∧ StatesLinked gone program program' larger next state') ∨
    Matches gone base program program' settings holds state' state link ∧
      KeepsUp gone program program' link (state.step program settings)
        (state'.step program' settings') := by
  obtain ⟨ref, rest, entry, atRef, found, within⟩ := State.exists_next goesOn
  have performed := State.step_eq_perform atRef found within
  cases lost : gone ref with
  | true =>
      left
      have plain := (shadows.dropped held atRef found lost).1
      cases stepped : state.step program settings with
      | running next =>
          obtain ⟨larger, grows, held', linked'⟩ :=
            shadows.skip held linked atRef found lost within stepped (finishes next stepped)
          exact ⟨next, larger, rfl, grows, held', linked'⟩
      | halted halt left => exact absurd stepped (goesOn halt left)
      | finished result left =>
          rw [performed, State.perform_of_isPlain plain, State.after_eq] at stepped
          split at stepped
          · cases stepped
          · cases stepped
  | false =>
      right
      have ahead (next : State) (stepped : state.step program settings = .running next) :
          holds link next :=
        shadows.preserved held atRef lost stepped (finishes next stepped) (le_refl link)
      refine ⟨⟨held, above, linked, ⟨ref, rest, entry, atRef, found, lost⟩, goesOn, ahead⟩, ?_⟩
      rcases shadows.executed held atRef found lost with
        ⟨timeless, sameType, twin, entry', mirrors, found', resembles⟩
      have atRef' : state'.frame.rest = ref :: rest.filter (!gone ·) := by
        rw [linked.frame.rest, atRef]
        simp [lost]
      have within' : state'.steps < settings'.limit :=
        Nat.lt_of_le_of_lt linked.steps (Nat.lt_of_lt_of_le within shadows.limit)
      have performed : state.step program settings =
          (state.advanced rest).perform program settings ref twin := by
        have mirrors : Scene.Mirrors ⟨program, settings, (state.advanced rest).frame.values⟩ ref
            entry twin := mirrors
        rw [State.perform_of_mirrors mirrors (by rwa [← performed]), performed]
      have tracked : ∀ next,
          (state.advanced rest).perform program settings ref twin = .running next →
            Tracked gone program program' next.frame.block := by
        exact fun next stepped => shadows.tracked (ahead next (performed.trans stepped))
      have frame := linked.frame
      have advanced : StatesLinked gone program program' link (state.advanced rest)
          (state'.advanced (rest.filter (!gone ·))) :=
        ⟨⟨frame.block, rfl, frame.values, frame.pending⟩, linked.callers, linked.heap,
          linked.output, Nat.succ_le_succ linked.steps⟩
      rw [performed, State.step_eq_perform atRef' found' within']
      refine shadows.perform advanced (resembles above frame.values) (mirrors.opcode ▸ timeless)
        sameType tracked ?_
      intro larger left block grows ends run trackedBlock phi member kept
      rw [mirrors.opcode] at ends
      rw [mirrors.eq_of_isTerminator ends] at run
      have moves : Moves program settings state block :=
        ⟨ref, rest, entry, left, atRef, found, ends, run⟩
      exact shadows.incoming held moves trackedBlock member kept (le_trans above grows)
        (frame.values.mono grows)

/-- Where the second run does not look at the clock, neither does the first one. -/
theorem Matches.timeless
    (shadows : Shadows gone base program program' settings settings' holds)
    (matched : Matches gone base program program' settings holds state' state link)
    {ref : Ref}
    {rest : List Ref}
    (atRef' : state'.frame.rest = ref :: rest) :
    program'.opcode? ref ≠ some .clock := by
  obtain ⟨other, others, entry, atRef, found, lost⟩ := matched.kept
  obtain ⟨timeless, -, twin, entry', mirrors, found', resembles⟩ :=
    shadows.executed matched.held atRef found lost
  have same : other = ref := by
    rw [matched.linked.frame.rest, atRef] at atRef'
    simpa [lost] using (List.cons.inj (by simpa [lost] using atRef')).1
  rw [Store.opcode?, ← same, found', Option.map_some, Ne, Option.some.injEq]
  intro isClock
  have opcode := (resembles matched.above matched.linked.frame.values).opcode
  rw [isClock, mirrors.opcode] at opcode
  exact timeless (Opcode.eq_of_withMerge_eq opcode.symm rfl)

/-- The first run sends control where the second one does. -/
theorem Matches.moves
    (shadows : Shadows gone base program program' settings settings' holds)
    (matched : Matches gone base program program' settings holds state' state link)
    {target : Ref}
    (moves : Moves program' settings' state' target) :
    Moves program settings state target := by
  obtain ⟨ref, rest, entry, atRef, found, lost⟩ := matched.kept
  obtain ⟨-, -, twin, entry', mirrors, found', resembles⟩ :=
    shadows.executed matched.held atRef found lost
  obtain ⟨other, rest', _, left', atOther, foundOther, ends', answers'⟩ := moves
  rw [matched.linked.frame.rest, atRef] at atOther
  obtain ⟨rfl, -⟩ := List.cons.inj (show ref :: rest.filter (!gone ·) = other :: rest' by
    simpa [lost] using atOther)
  cases found'.symm.trans foundOther
  have resembles := resembles matched.above matched.linked.frame.values
  have ends : entry.opcode.isTerminator = true := by
    rw [← Opcode.isTerminator_withMerge entry'.opcode none, resembles.opcode, mirrors.opcode,
      Opcode.isTerminator_withMerge] at ends'
    exact ends'
  cases mirrors.eq_of_isTerminator ends
  obtain ⟨transfer, heap, run⟩ := State.exists_transfer atRef found ends matched.goesOn
  obtain ⟨_, _, _, -, run', -, linkedTransfer⟩ :=
    resembles.terminate _ _ matched.linked.heap _ _ run
  cases answers'.symm.trans run'
  cases linkedTransfer
  exact ⟨ref, rest, entry, heap, atRef, found, ends, run⟩

end Shadows

/-! ## Runs -/

/-- More repetitions do not change a run that has ended with a result. -/
theorem State.run_of_le
    {bound bound' : Nat}
    (more : bound ≤ bound')
    {result : Datum}
    {left : State}
    (ran : state.run program settings bound = (.finished result, left)) :
    state.run program settings bound' = (.finished result, left) := by
  induction bound generalizing bound' state with
  | zero => cases ran
  | succ bound induction =>
      cases bound' with
      | zero => omega
      | succ bound' =>
          rw [State.run] at ran ⊢
          cases stepped : state.step program settings with
          | running next =>
              rw [stepped] at ran
              exact induction (by omega) ran
          | finished result left =>
              rw [stepped] at ran
              exact ran
          | halted halt left =>
              rw [stepped] at ran
              cases ran

namespace Shadows

/--
A run that returns is followed by one that returns a linked result, and all states of that
one are matched.
-/
theorem run
    (shadows : Shadows gone base program program' settings settings' holds)
    {bound : Nat}
    {result : Datum}
    {left : State}
    (held : holds link state)
    (above : base ≤ link)
    (linked : StatesLinked gone program program' link state state')
    (ran : state.run program settings bound = (.finished result, left)) :
    ∃ result' left' larger,
      state'.run program' settings' bound = (.finished result', left') ∧ link ≤ larger ∧
      larger.Heaps left.heap left'.heap ∧ Linked larger result result' ∧
      left'.output.map Line.text = left.output.map Line.text ∧
      ∀ visited', State.Visits program' settings' state' visited' →
        ∃ visited link, Matches gone base program program' settings holds visited'
          visited link := by
  induction bound generalizing state state' link with
  | zero => cases ran
  | succ bound induction =>
      rw [State.run] at ran
      have finishes : ∀ next, state.step program settings = .running next →
          Finishes program settings next := by
        intro next stepped
        rw [stepped] at ran
        exact ⟨bound, result, left, ran⟩
      have goesOn : ∀ halt left, state.step program settings ≠ .halted halt left := by
        intro halt left stepped
        rw [stepped] at ran
        cases ran
      rcases shadows.step held above linked goesOn finishes with
        ⟨next, larger, stepped, grows, held', linked'⟩ | ⟨matched, keepsUp⟩
      · rw [stepped] at ran
        rcases induction held' (le_trans above grows) linked' ran with
          ⟨result', left', last, ran', grows', rest⟩
        exact ⟨result', left', last, State.run_of_le (Nat.le_succ bound) ran',
          le_trans grows grows', rest⟩
      · cases stepped : state.step program settings with
        | running next =>
            have finish := finishes next stepped
            rw [stepped] at ran keepsUp
            rcases keepsUp with ⟨next', larger, stepped', grows, linked'⟩
            obtain ⟨ref, rest, entry, atRef, found, kept⟩ := matched.kept
            have held' := shadows.preserved held atRef kept stepped finish grows
            rcases induction held' (le_trans above grows) linked' ran with
              ⟨result', left', last, ran', grows', heaps, linkedResult, output, matched'⟩
            refine ⟨result', left', last, ?_, le_trans grows grows', heaps,
              linkedResult, output, ?_⟩
            · rw [State.run, stepped']
              exact ran'
            · intro visited' visits
              rcases Relation.ReflTransGen.cases_head visits with rfl | ⟨first, step, others⟩
              · exact ⟨state, link, matched⟩
              · cases stepped'.symm.trans step
                exact matched' visited' others
        | finished answer final =>
            rw [stepped] at ran keepsUp
            cases ran
            rcases keepsUp with ⟨result', left', larger, stepped', grows, heaps,
              linkedResult, output⟩
            refine ⟨result', left', larger, ?_, grows, heaps, linkedResult, output, ?_⟩
            · rw [State.run, stepped']
            · intro visited' visits
              rcases Relation.ReflTransGen.cases_head visits with rfl | ⟨first, step, others⟩
              · exact ⟨state, link, matched⟩
              · cases stepped'.symm.trans step
        | halted halt final => exact absurd stepped (goesOn halt final)

end Shadows

end ShaderIR.Machine

import ShaderIR.Proofs.Machine.Format
import ShaderIR.Proofs.Machine.Instruction

/-!
# States that stand for each other

The second run leaves out instructions that the first one executes.  What these
instructions compute is missing in its frames, and what they make is missing in its
heap.  Everything else is linked.
-/

namespace ShaderIR.Machine

open Exec

/-- Two frames hold linked data of everything that is not gone. -/
def ValuesLinked (gone : Ref → Bool) (link : Link) (values values' : Std.HashMap Ref Datum) :
    Prop :=
  ∀ ⦃ref datum⦄, gone ref = false → values[ref]? = some datum →
    ∃ datum', values'[ref]? = some datum' ∧ Linked link datum datum'

variable {gone : Ref → Bool} {link larger : Link}

namespace ValuesLinked

variable {values values' : Std.HashMap Ref Datum}

theorem mono (linked : ValuesLinked gone link values values') (grows : link ≤ larger) :
    ValuesLinked gone larger values values' := by
  intro ref datum kept found
  rcases linked kept found with ⟨datum', found', linkedDatum⟩
  exact ⟨datum', found', linkedDatum.mono grows⟩

/-- Both frames get linked data for a value. -/
theorem insert
    (linked : ValuesLinked gone link values values')
    (ref : Ref)
    {datum datum' : Datum}
    (linkedDatum : Linked link datum datum') :
    ValuesLinked gone link (values.insert ref datum) (values'.insert ref datum') := by
  intro other held kept found
  rw [Std.HashMap.getElem?_insert] at found ⊢
  by_cases same : ref = other
  · subst same
    simp only [beq_self_eq_true, if_true, Option.some.injEq] at found ⊢
    subst found
    exact ⟨datum', rfl, linkedDatum⟩
  · simp only [beq_iff_eq, same, if_false] at found ⊢
    exact linked kept found

/-- Only the first frame gets a datum, for a value that the second program has lost. -/
theorem insertLeft
    (linked : ValuesLinked gone link values values')
    {ref : Ref}
    (lost : gone ref = true)
    (datum : Datum) :
    ValuesLinked gone link (values.insert ref datum) values' := by
  intro other held kept found
  have different : ref ≠ other := by
    rintro rfl
    simp [lost] at kept
  rw [Std.HashMap.getElem?_insert] at found
  simp only [beq_iff_eq, different, if_false] at found
  exact linked kept found

end ValuesLinked

/-- The notes that two frames have left about the functions they called. -/
inductive PendingLinked (program program' : Store) (link : Link) : Pending → Pending → Prop
  | nothing : PendingLinked program program' link .nothing .nothing
  | result (ref : Ref) (sameType : program'.typeOf ref = program.typeOf ref) :
      PendingLinked program program' link (.result ref) (.result ref)
  | pipeline {query query' : Nat} {onSurface onProcedural : Option Ref}
      {arguments arguments' : List Datum} :
      link.queries query query' → AllLinked link arguments arguments' →
        PendingLinked program program' link
          (.pipeline query onSurface onProcedural arguments)
          (.pipeline query' onSurface onProcedural arguments')

theorem PendingLinked.mono
    {program program' : Store}
    {pending pending' : Pending}
    (linked : PendingLinked program program' link pending pending')
    (grows : link ≤ larger) :
    PendingLinked program program' larger pending pending' := by
  cases linked with
  | nothing => exact .nothing
  | result ref sameType => exact .result ref sameType
  | pipeline queries arguments =>
      exact .pipeline (grows.1.queries queries) (AllLinked.mono grows arguments)

/-- Two frames at the same point, as far as the second program still has it. -/
structure FramesLinked (gone : Ref → Bool) (program program' : Store) (link : Link)
    (frame frame' : Frame) : Prop where
  block : frame'.block = frame.block
  rest : frame'.rest = frame.rest.filter (!gone ·)
  values : ValuesLinked gone link frame.values frame'.values
  pending : PendingLinked program program' link frame.pending frame'.pending

theorem FramesLinked.mono
    {program program' : Store}
    {frame frame' : Frame}
    (linked : FramesLinked gone program program' link frame frame')
    (grows : link ≤ larger) :
    FramesLinked gone program program' larger frame frame' where
  block := linked.block
  rest := linked.rest
  values := linked.values.mono grows
  pending := linked.pending.mono grows

/-- Two states with linked frames and heaps that have printed lines of the same texts. -/
structure StatesLinked (gone : Ref → Bool) (program program' : Store) (link : Link)
    (state state' : State) : Prop where
  frame : FramesLinked gone program program' link state.frame state'.frame
  callers : List.Forall₂ (FramesLinked gone program program' link) state.callers state'.callers
  heap : link.Heaps state.heap state'.heap
  output : state'.output.map Line.text = state.output.map Line.text
  steps : state'.steps ≤ state.steps

namespace StatesLinked

variable {program program' : Store} {state state' : State}

theorem callers_mono
    (linked : StatesLinked gone program program' link state state')
    (grows : link ≤ larger) :
    List.Forall₂ (FramesLinked gone program program' larger) state.callers state'.callers :=
  linked.callers.imp fun _ _ frames => frames.mono grows

/-- Linked states stay linked when their heaps change and the link grows. -/
theorem withHeap
    (linked : StatesLinked gone program program' link state state')
    (grows : link ≤ larger)
    {heap heap' : Heap}
    (heaps : larger.Heaps heap heap') :
    StatesLinked gone program program' larger { state with heap := heap }
      { state' with heap := heap' } where
  frame := linked.frame.mono grows
  callers := linked.callers_mono grows
  heap := heaps
  output := linked.output
  steps := linked.steps

end StatesLinked

/-! ## Progress -/

/-- The second run keeps up with the progress of the first one. -/
def KeepsUp (gone : Ref → Bool) (program program' : Store) (link : Link) :
    Progress → Progress → Prop
  | .running state, progress' => ∃ state' larger, progress' = .running state' ∧
      link ≤ larger ∧ StatesLinked gone program program' larger state state'
  | .finished result state, progress' => ∃ result' state' larger,
      progress' = .finished result' state' ∧ link ≤ larger ∧
        larger.Heaps state.heap state'.heap ∧ Linked larger result result' ∧
        state'.output.map Line.text = state.output.map Line.text
  | .halted .., _ => True

theorem KeepsUp.weaken
    {program program' : Store}
    {progress progress' : Progress}
    (keepsUp : KeepsUp gone program program' larger progress progress')
    (grows : link ≤ larger) :
    KeepsUp gone program program' link progress progress' := by
  cases progress with
  | running state =>
      rcases keepsUp with ⟨state', largest, equal, grows', linked⟩
      exact ⟨state', largest, equal, le_trans grows grows', linked⟩
  | finished result state =>
      rcases keepsUp with ⟨result', state', largest, equal, grows', rest⟩
      exact ⟨result', state', largest, equal, le_trans grows grows', rest⟩
  | halted halt state => trivial

theorem State.after_eq
    {α : Type}
    (state : State)
    (work : Exec α)
    (next : α → State → Progress) :
    state.after work next =
      match outcome work state.heap with
      | (.ok found, heap) => next found { state with heap := heap }
      | (.error halt, heap) => .halted halt { state with heap := heap } :=
  rfl

theorem State.after_eq_running
    {α : Type}
    {state next : State}
    {work : Exec α}
    {rest : α → State → Progress}
    (ran : state.after work rest = .running next) :
    ∃ found heap, outcome work state.heap = (.ok found, heap) ∧
      rest found { state with heap := heap } = .running next := by
  rw [State.after_eq] at ran
  rcases answered : outcome work state.heap with ⟨halt | found, heap⟩
  · rw [answered] at ran
    cases ran
  · rw [answered] at ran
    exact ⟨found, heap, rfl, ran⟩

/-- The second run keeps up through a computation on the heap and whatever comes then. -/
theorem keepsUp_after
    {program program' : Store}
    {state state' : State}
    {α β : Type}
    {related : Link → α → β → Prop}
    {work : Exec α}
    {work' : Exec β}
    {next : α → State → Progress}
    {next' : β → State → Progress}
    (linked : StatesLinked gone program program' link state state')
    (follows : Follows related link work work')
    (rest : ∀ larger found found' heap heap', link ≤ larger → related larger found found' →
      outcome work state.heap = (.ok found, heap) →
      StatesLinked gone program program' larger { state with heap := heap }
        { state' with heap := heap' } →
      KeepsUp gone program program' larger (next found { state with heap := heap })
        (next' found' { state' with heap := heap' })) :
    KeepsUp gone program program' link (state.after work next) (state'.after work' next') := by
  rw [State.after_eq, State.after_eq]
  cases run : outcome work state.heap with
  | mk answer heap =>
      cases answer with
      | error halt => trivial
      | ok found =>
          rcases follows state.heap state'.heap linked.heap found heap run with
            ⟨larger, found', heap', grows, run', heaps, holds⟩
          rw [run']
          exact (rest larger found found' heap heap' grows holds run
            (linked.withHeap grows heaps)).weaken grows

end ShaderIR.Machine

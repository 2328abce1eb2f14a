import ShaderIR.Proofs.Machine.Growth
import ShaderIR.Proofs.Machine.Shadow

/-!
# Entering blocks and functions

Control arrives at a block over an edge, which gives its phis their data, or by
a call, which binds the arguments of a function.  The second run enters the same
block, and gives data to those phis that it still has.
-/

namespace ShaderIR.Machine

open Exec

/-- A block has its phis and its other instructions, as far as they are kept. -/
structure Tracked (gone : Ref → Bool) (program program' : Store) (block : Ref) : Prop where
  phis : program'.phis block = (program.phis block).filter (!gone ·)
  afterPhis : program'.afterPhis block = (program.afterPhis block).filter (!gone ·)

/-- The data that the phis of a block get, on both sides. -/
inductive EdgeLinked (gone : Ref → Bool) (link : Link) :
    List (Ref × Datum) → List (Ref × Datum) → Prop
  | nil : EdgeLinked gone link [] []
  | both {phi : Ref} {datum datum' : Datum} {data data' : List (Ref × Datum)} :
      Linked link datum datum' → EdgeLinked gone link data data' →
        EdgeLinked gone link ((phi, datum) :: data) ((phi, datum') :: data')
  | left {phi : Ref} {datum : Datum} {data data' : List (Ref × Datum)} :
      gone phi = true → EdgeLinked gone link data data' →
        EdgeLinked gone link ((phi, datum) :: data) data'

variable {gone : Ref → Bool} {link larger : Link} {program program' : Store}
  {settings settings' : Settings}

theorem EdgeLinked.insertAll
    {data data' : List (Ref × Datum)}
    (edge : EdgeLinked gone link data data') :
    ∀ {values values' : Std.HashMap Ref Datum}, ValuesLinked gone link values values' →
      ValuesLinked gone link
        (data.foldl (fun values (phi, datum) => values.insert phi datum) values)
        (data'.foldl (fun values (phi, datum) => values.insert phi datum) values') := by
  induction edge with
  | nil =>
      intro values values' linked
      exact linked
  | both linkedDatum _ induction =>
      intro values values' linked
      exact induction (linked.insert _ linkedDatum)
  | left lost _ induction =>
      intro values values' linked
      exact induction (linked.insertLeft lost _)

/-- Two phis take operands that agree when control comes from a block. -/
def IncomingAgrees (link : Link) (scene scene' : Scene) (source phi : Ref) : Prop :=
  ∀ entry position operand, scene.program.instruction? phi = some entry →
    entry.opcode.incomingBlocks.findIdx? (· == some source) = some position →
    entry.operand? position = some operand →
    ∃ entry' position' operand', scene'.program.instruction? phi = some entry' ∧
      entry'.opcode.incomingBlocks.findIdx? (· == some source) = some position' ∧
      entry'.operand? position' = some operand' ∧ Agrees link scene scene' operand operand'

/-- A computation that has no counterpart in the second run. -/
theorem follows_of_growing
    {α β γ : Type}
    {related : Link → β → γ → Prop}
    {work : Exec α}
    {next : α → Exec β}
    {work' : Exec γ}
    (growing : Growing work)
    (rest : ∀ answer, Follows related link (next answer) work') :
    Follows related link (work >>= next) work' := by
  intro heap heap' heaps answer left run
  rcases outcome_bind_eq_ok.1 run with ⟨found, between, run, run'⟩
  exact rest found between heap' (heaps.growLeft (growing heap found between run)) answer left run'

/-- An answer that the first run works on and the second one takes as it is. -/
theorem follows_map_left
    {α β γ : Type}
    {related : Link → α → γ → Prop}
    {after : Link → β → γ → Prop}
    {work : Exec α}
    {work' : Exec γ}
    {change : α → β}
    (follows : Follows related link work work')
    (holds : ∀ larger answer answer', related larger answer answer' →
      after larger (change answer) answer') :
    Follows after link (do return change (← work)) work' := by
  intro heap heap' heaps answer left run
  rcases outcome_bind_eq_ok.1 run with ⟨found, between, run, equal⟩
  cases equal
  rcases follows heap heap' heaps found _ run with
    ⟨larger, answer', left', grows, run', heaps', related⟩
  exact ⟨larger, answer', left', grows, run', heaps', holds larger found answer' related⟩

theorem follows_incomingData
    {scene scene' : Scene}
    (source : Ref)
    (phis : List Ref)
    (agree : ∀ phi ∈ phis, gone phi = false → IncomingAgrees link scene scene' source phi) :
    ∀ larger, link ≤ larger →
      Follows (EdgeLinked gone) larger (scene.incomingData source phis)
        (scene'.incomingData source (phis.filter (!gone ·))) := by
  induction phis with
  | nil =>
      intro larger _
      exact Follows.pure .nil
  | cons phi rest induction =>
      intro larger grows
      have others := induction fun phi member => agree phi (List.mem_cons_of_mem _ member)
      have agree := agree phi List.mem_cons_self
      cases found : scene.program.instruction? phi with
      | none =>
          simp only [Scene.incomingData, found]
          exact Follows.stuck
      | some entry =>
          cases sourced : entry.opcode.incomingBlocks.findIdx? (· == some source) with
          | none =>
              simp only [Scene.incomingData, found, demand, pure_bind, sourced]
              exact Follows.fail
          | some position =>
              cases lost : gone phi with
              | true =>
                  simp only [Scene.incomingData, found, demand, pure_bind, sourced,
                    List.filter_cons, lost, Bool.not_true, Bool.false_eq_true, if_false]
                  refine follows_of_growing (scene.growing_evalAt entry position) ?_
                  intro datum
                  exact follows_map_left (others larger grows) fun _ _ _ edge => .left lost edge
              | false =>
                  simp only [Scene.incomingData, found, demand, pure_bind, sourced,
                    List.filter_cons, lost, Bool.not_false, if_true]
                  cases taken : entry.operand? position with
                  | none =>
                      simp only [Scene.evalAt, Scene.operand, taken]
                      exact Follows.stuck
                  | some operand =>
                      rcases agree lost entry position operand found sourced taken with
                        ⟨entry', position', operand', found', sourced', taken', agrees⟩
                      simp only [found', demand, pure_bind, sourced', Scene.evalAt,
                        Scene.operand, taken, taken']
                      refine Follows.bind (agrees.eval larger grows) ?_
                      intro middle datum datum' grows' linked
                      refine Follows.bind (others middle (le_trans grows grows')) ?_
                      intro last data data' grows'' edge
                      exact Follows.pure (.both (linked.mono grows'') edge)

/-! ## Functions -/

/-- A function is entered at its body, which has no phis, with its arguments bound. -/
theorem callFrame_eq_ok
    {function : Ref}
    {arguments : List Datum}
    {heap left : Heap}
    {frame : Frame} :
    outcome (callFrame program settings function arguments) heap = (.ok frame, left) ↔
      ∃ entry body values, program.function? function = some entry ∧
        entry.isDefinition = true ∧ entry.body = some body ∧ program.phis body = [] ∧
        outcome (Scene.bind program function 0 entry.arguments arguments {}) heap =
          (.ok values, left) ∧
        frame = { block := body, values, rest := program.afterPhis body } := by
  unfold callFrame
  constructor
  · intro run
    rcases outcome_bind_eq_ok.1 run with ⟨entry, between, demanded, run⟩
    rcases outcome_demand_eq_ok.1 demanded with ⟨found, rfl⟩
    cases defined : entry.isDefinition with
    | false =>
        simp only [defined, Bool.not_false, if_true] at run
        cases run
    | true =>
        simp only [defined, Bool.not_true, Bool.false_eq_true, if_false] at run
        rcases outcome_bind_eq_ok.1 run with ⟨values, between, bound, run⟩
        rcases outcome_bind_eq_ok.1 run with ⟨body, _, demanded, run⟩
        rcases outcome_demand_eq_ok.1 demanded with ⟨hasBody, rfl⟩
        rcases outcome_bind_eq_ok.1 run with ⟨entered, _, entering, equal⟩
        cases equal
        unfold Scene.enter at entering
        dsimp only at entering
        cases phis : program.phis body with
        | nil =>
            rw [phis] at entering
            cases entering
            exact ⟨entry, body, values, found, defined, hasBody, phis, bound, rfl⟩
        | cons phi rest =>
            rw [phis] at entering
            cases entering
  · rintro ⟨entry, body, values, found, defined, hasBody, phis, bound, rfl⟩
    refine outcome_bind_eq_ok.2 ⟨entry, heap, by rw [outcome_demand, found], ?_⟩
    simp only [defined, Bool.not_true, Bool.false_eq_true, if_false]
    refine outcome_bind_eq_ok.2 ⟨values, left, bound, ?_⟩
    refine outcome_bind_eq_ok.2 ⟨body, left, by rw [outcome_demand, hasBody], ?_⟩
    refine outcome_bind_eq_ok.2 ⟨values, left, ?_, rfl⟩
    unfold Scene.enter
    dsimp only
    rw [phis]
    rfl

theorem follows_bind
    (function : Ref)
    (parameters : List Ref)
    (references : ∀ parameter ∈ parameters,
      program'.isLValue parameter = program.isLValue parameter)
    {arguments arguments' : List Datum}
    (linked : AllLinked link arguments arguments') :
    ∀ (index : Nat) {values values' : Std.HashMap Ref Datum},
      ValuesLinked gone link values values' →
      Follows (ValuesLinked gone) link
        (Scene.bind program function index parameters arguments values)
        (Scene.bind program' function index parameters arguments' values') := by
  induction parameters generalizing arguments arguments' with
  | nil =>
      intro index values values' linkedValues
      unfold Scene.bind
      exact Follows.pure linkedValues
  | cons parameter parameters induction =>
      intro index values values' linkedValues
      cases linked with
      | nil =>
          unfold Scene.bind
          exact Follows.stuck
      | @cons argument argument' rest rest' first linkedRest =>
          have step := induction
            (fun parameter member => references parameter (List.mem_cons_of_mem _ member))
            linkedRest (index + 1)
            (linkedValues.insert parameter first)
          have sameKind := references parameter List.mem_cons_self
          unfold Scene.bind
          rw [sameKind]
          cases first with
          | reference cells references' places =>
              simpa only [Bool.not_true, Bool.and_false, Bool.false_eq_true, if_false] using step
          | _ =>
              dsimp only
              split
              · exact Follows.fail
              · exact step

/-! ## Blocks -/

/-- A block is entered over an edge with the data that its phis take on it. -/
theorem Scene.enter_some (scene : Scene) (block source : Ref) :
    scene.enter block (some source) = do
      let data ← scene.incomingData source (scene.program.phis block)
      return data.foldl (fun values (phi, datum) => values.insert phi datum) scene.values := by
  unfold Scene.enter
  cases scene.program.phis block with
  | nil => rfl
  | cons phi rest => rfl

theorem follows_enter
    (scene scene' : Scene)
    {block source : Ref}
    (tracked : Tracked gone scene.program scene'.program block)
    (linked : ValuesLinked gone link scene.values scene'.values)
    (agree : ∀ phi ∈ scene.program.phis block, gone phi = false →
      IncomingAgrees link scene scene' source phi) :
    Follows (ValuesLinked gone) link (scene.enter block (some source))
      (scene'.enter block (some source)) := by
  rw [Scene.enter_some, Scene.enter_some, tracked.phis]
  refine Follows.bind (follows_incomingData source _ agree link (le_refl link)) ?_
  intro larger data data' grows edge
  exact Follows.pure (edge.insertAll (linked.mono grows))

end ShaderIR.Machine

import ShaderIR.Proofs.Elimination.Folding
import ShaderIR.Proofs.Layout.Typing
import ShaderIR.Proofs.Machine.Settling

/-!
# Runs over folded phis

A phi that gives way to a value has the datum of that value wherever the phi is there, if a
run gives it no undefined incomings.  The phi gets its datum when control comes to its
block: it is that of the value, or that of the phi itself from an earlier visit.  The value
does not change until control comes to the block again, because its own block strictly
dominates that of the phi.
-/

namespace ShaderIR

namespace Machine

open Exec

/-- The next step does not give an undefined value to a phi. -/
def Defines (program : Store) (settings : Settings) (phi : Ref) (state : State) : Prop :=
  ∀ {target incoming pairs}, Moves program settings state target → phi ∈ program.phis target →
    program.incomings? phi = some pairs → (incoming, some state.frame.block) ∈ pairs →
    program.isUndefinedOption incoming = false

/-- The states that a run goes through while a phi is not given an undefined value. -/
def State.VisitsDefining (program : Store) (settings : Settings) (phi : Ref) :
    State → State → Prop :=
  Relation.ReflTransGen fun state next =>
    Defines program settings phi state ∧ state.step program settings = .running next

/-- A phi and a value have the same datum among the values of a frame. -/
def Merges
    (program : Store)
    (settings : Settings)
    (phi value : Ref)
    (values : Std.HashMap Ref Datum) : Prop :=
  ∃ datum, values[phi]? = some datum ∧ Scene.Steady ⟨program, settings, values⟩ value datum

variable {program : Store} {settings : Settings} {functions : List Ref}
  {function block source phi value : Ref} {values values' : Std.HashMap Ref Datum}

/-- The incoming for a block is the first one that comes from there. -/
theorem Scene.Receives.exists_incoming
    {datum : Datum}
    (receives : Scene.Receives ⟨program, settings, values⟩ source phi datum)
    {pairs : List (Option Ref × Option Ref)}
    (paired : program.incomings? phi = some pairs) :
    ∃ operand heap left, (some operand, some source) ∈ pairs ∧
      outcome (Scene.eval ⟨program, settings, values⟩ operand) heap = (.ok datum, left) := by
  obtain ⟨entry, position, operand, heap, left, found, sourced, held, evaluates⟩ := receives
  have draws : Draws program source phi (some operand) := ⟨entry, position, found, sourced, held⟩
  exact ⟨operand, heap, left, draws.mem_incomings paired, evaluates⟩

theorem isPlain_of_isPhi {entry : Instruction} (isPhi : entry.opcode.isPhi = true) :
    IsPlain entry.opcode := by
  cases opcode : entry.opcode <;> simp_all [IsPlain, Opcode.isPhi, Opcode.isTerminator]

section

variable (coherent : program.Coherent) (member : phi ∈ program.phis block)
  (folds : program.Folds function block phi value)

include coherent member folds

/-- That a folded phi has the datum of its value is a law. -/
theorem law_of_folds : Law program function phi [value] (Merges program settings phi value) where
  plain := by
    intro entry found
    have isPhi := Store.isPhi_of_mem_phis member
    rw [Store.isPhi, Store.opcode?, found] at isPhi
    exact isPlain_of_isPhi isPhi
  earlier := by
    intro source isValue home place placed placed'
    cases List.mem_singleton.1 isValue
    cases placed.symm.trans
      ((coherent.mem_members block phi).1 (Store.mem_instructions_of_mem_phis member))
    obtain ⟨dominates, elsewhere⟩ := folds.strictly placed'
    exact ⟨dominates, fun here => absurd here elsewhere⟩
  congr := by
    rintro values values' same ⟨datum, found, steady⟩
    exact ⟨datum, (same phi (.inl rfl)).trans found,
      steady.congr (same value (.inr (List.mem_singleton_self value)))⟩

variable (numeric : program.NumericRegisters) (arranged : program.Arranged functions)
  (listed : function ∈ functions) (inForm : program.InSsaForm function)
  (reached : program.Reached function block)

include numeric arranged listed inForm reached

/-- A folded phi gets the datum of its value when control comes to its block. -/
theorem merges_of_enter
    {rest : List Ref}
    {pending : Pending}
    {heap left : Heap}
    (behind : Frame.Inside program ⟨source, values, rest, pending⟩)
    (sourceReached : program.Reached function source)
    (defined : ∀ {incoming pairs}, program.incomings? phi = some pairs →
      (incoming, some source) ∈ pairs → program.isUndefinedOption incoming = false)
    (held : Frame.Has program function phi ⟨source, values, rest, pending⟩ →
      Merges program settings phi value values)
    (enters : outcome (Scene.enter ⟨program, settings, values⟩ block (some source)) heap =
      (.ok values', left)) :
    Merges program settings phi value values' := by
  have distinct : (program.phis block).Nodup :=
    (coherent.membersDistinct block).sublist (List.takeWhile_sublist _)
  have linked := (coherent.mem_members block phi).1 (Store.mem_instructions_of_mem_phis member)
  obtain ⟨unchanged, given⟩ := Scene.values_of_enter distinct enters
  obtain ⟨datum, found, receives⟩ := given phi member
  obtain ⟨pairs, paired, merges⟩ := folds.merges
  obtain ⟨operand, heap', left', inside, evaluates⟩ := receives.exists_incoming paired
  have kept : values'[value]? = values[value]? := by
    refine unchanged value fun isPhi => ?_
    exact (folds.strictly ((coherent.mem_members block value).1
      (Store.mem_instructions_of_mem_phis isPhi))).2 rfl
  rcases merges _ inside with same | same | undefined
  · obtain rfl := Option.some.inj same
    have notUndefined : program.isUndefined operand = false := defined paired inside
    have steady : Scene.Steady ⟨program, settings, values⟩ operand datum :=
      (Scene.steady_of_eval numeric notUndefined evaluates).1
    exact ⟨datum, found, steady.congr kept⟩
  · -- The phi has had the datum of the value before.
    obtain rfl := Option.some.inj same
    obtain ⟨_, _, equal, -, available⟩ := inForm.exists_of_mem reached member paired inside
    cases equal
    have has : Frame.Has program function operand ⟨source, values, rest, pending⟩ := by
      refine ⟨sourceReached, block, linked, available block linked, fun here ahead => ?_⟩
      have isPhi := arranged.heads listed sourceReached (behind.inside.subset ahead)
      rw [Store.isPhi_of_mem_phis member] at isPhi
      cases isPhi
    obtain ⟨former, found', steady⟩ := held has
    have isInstruction := Store.isInstruction_of_linked (Option.isSome_of_eq_some linked)
    have same : former = datum := by
      have evaluates' : outcome (Scene.eval ⟨program, settings, values⟩ operand) heap' =
          (.ok former, heap') := Scene.steady_of_isInstruction isInstruction found' heap'
      cases evaluates'.symm.trans evaluates
      rfl
    exact ⟨datum, found, same ▸ steady.congr kept⟩
  · rw [defined paired inside] at undefined
    cases undefined

/-- A step keeps the law, unless it gives an undefined value to the phi. -/
theorem merges_of_step
    {state next : State}
    (housed : Frame.AllHoused program functions state.frames)
    (defines : Defines program settings phi state)
    (ran : state.step program settings = .running next)
    (held : ∀ frame ∈ state.frames, frame.Has program function phi →
      Merges program settings phi value frame.values) :
    ∀ frame ∈ next.frames, frame.Has program function phi →
      Merges program settings phi value frame.values := by
  refine (law_of_folds coherent member folds).shifts_of_arranged coherent arranged listed
    (State.frames_of_step ran) housed ?_ ?_ held
  · -- A phi is not executed.
    intro place values values' rest pending below same _ placeReached
    have top := housed.each _ (same ▸ List.mem_cons_self)
    have isPhi := arranged.heads listed placeReached (top.inside.subset List.mem_cons_self)
    rw [Store.isPhi_of_mem_phis member] at isPhi
    cases isPhi
  · intro source target values values' executed rest pending entry below left left' same
      sourceReached edge isPhi found ends answers enters
    have linked := (coherent.mem_members block phi).1 (Store.mem_instructions_of_mem_phis member)
    have linked' := (coherent.mem_members target phi).1 (Store.mem_instructions_of_mem_phis isPhi)
    cases linked.symm.trans linked'
    have top := housed.each _ (same ▸ List.mem_cons_self)
    have held := held _ (same ▸ List.mem_cons_self)
    obtain ⟨isFrame, -⟩ := List.cons.inj same
    have moves : Moves program settings state block := by
      refine ⟨executed, rest, entry, left, ?_, found, ends, ?_⟩
      · rw [isFrame]
      · rw [isFrame]
        exact answers
    refine merges_of_enter coherent member folds numeric arranged listed inForm reached top
      sourceReached (fun paired inside => ?_) held enters
    exact defines moves member paired (by rw [isFrame]; exact inside)

/-- A run keeps the law as long as the phi is given no undefined value. -/
theorem merges_of_visits
    {owner : Ref}
    {arguments : List Datum}
    {heap left : Heap}
    {frame : Frame}
    {state : State}
    (listed' : owner ∈ functions)
    (called : outcome (callFrame program settings owner arguments) heap = (.ok frame, left))
    (visited : State.VisitsDefining program settings phi { frame, heap := left } state) :
    Frame.AllHoused program functions state.frames ∧
      ∀ frame ∈ state.frames, frame.Has program function phi →
        Merges program settings phi value frame.values := by
  induction visited with
  | refl =>
      have starts : frame.Starts program settings owner := ⟨arguments, heap, left, called⟩
      refine ⟨starts.housed listed', fun other isFrame has => ?_⟩
      rw [List.mem_singleton.1 isFrame] at has
      exact absurd has (starts.not_has coherent arranged.toOrdered listed listed')
  | tail _ step induction =>
      obtain ⟨defines, ran⟩ := step
      obtain ⟨housed, held⟩ := induction
      exact ⟨(State.frames_of_step ran).housed arranged housed,
        merges_of_step coherent member folds numeric
        arranged listed inForm reached housed defines ran held⟩

/-- Where the block of the phi dominates, the phi and its value have the same datum. -/
theorem steady_of_visits
    {owner : Ref}
    {arguments : List Datum}
    {heap left : Heap}
    {frame : Frame}
    {state : State}
    (listed' : owner ∈ functions)
    (called : outcome (callFrame program settings owner arguments) heap = (.ok frame, left))
    (visited : State.VisitsDefining program settings phi { frame, heap := left } state) :
    ∀ frame ∈ state.frames, program.Reached function frame.block →
      program.Dominates function block frame.block →
        ∃ datum, Scene.Steady ⟨program, settings, frame.values⟩ phi datum ∧
          Scene.Steady ⟨program, settings, frame.values⟩ value datum := by
  obtain ⟨housed, held⟩ := merges_of_visits coherent member folds numeric arranged listed inForm
    reached listed' called visited
  intro frame isFrame frameReached dominates
  have linked := (coherent.mem_members block phi).1 (Store.mem_instructions_of_mem_phis member)
  have inside := (housed.each frame isFrame).inside
  have has : frame.Has program function phi := by
    refine ⟨frameReached, block, linked, dominates, fun here ahead => ?_⟩
    have isPhi := arranged.heads listed frameReached (inside.subset ahead)
    rw [Store.isPhi_of_mem_phis member] at isPhi
    cases isPhi
  obtain ⟨datum, found, steady⟩ := held frame isFrame has
  have isInstruction := Store.isInstruction_of_linked (Option.isSome_of_eq_some linked)
  exact ⟨datum, Scene.steady_of_isInstruction isInstruction found, steady⟩

end

end Machine

namespace Session

open Machine

/--
Removing a phi of a function in static single assignment form never fails.  It changes
nothing, or it takes out the phi and keeps the form.  Validation accepts what is left
unless the phi was the index of an address and merged a constant.

What used the phi has another value instead.  That value is no result of an instruction,
or its block strictly dominates that of the phi.  In a run that gives no undefined incoming
to the phi, both have the same datum wherever the block of the phi dominates, if no function
in use was taken from the module.
-/
theorem removeRedundantPhi_inSsaForm
    {operations : List Operation}
    {module : Nat}
    {function block phi : Ref}
    (accepted : (after operations).store.validate? module = some [])
    (listed : function ∈ (after operations).store.functions module)
    (inForm : (after operations).store.InSsaForm function)
    (reached : (after operations).store.Reached function block)
    (member : phi ∈ (after operations).store.phis block) :
    ∃ removed left,
      Edit.Gives (Pass.removeRedundantPhi phi) (after operations).store removed left ∧
      (removed = false → left = (after operations).store) ∧
      (removed = true → left.InSsaForm function ∧
        ((after operations).store.StaysDynamic ((after operations).store.functions module) phi →
          left.validate? module = some []) ∧
        (∀ block, left.instructions block =
          ((after operations).store.instructions block).filter (· ≠ phi)) ∧
        ((after operations).store.hasUses phi = true → ∃ value, value ≠ phi ∧
          left.typeOf value = (after operations).store.typeOf phi ∧
          (∀ user, (left.blockOf? user).isSome → left.operands user =
            ((after operations).store.operands user).map (Option.map (Ref.instead phi value))) ∧
          (∀ home, (after operations).store.blockOf? value = some home →
            (after operations).store.Dominates function home block ∧ home ≠ block) ∧
          ∀ {settings owner arguments heap start begun state},
            (after operations).store.Closed ((after operations).store.functions module) →
            owner ∈ (after operations).store.functions module →
            Exec.outcome (callFrame (after operations).store settings owner arguments) heap =
              (.ok start, begun) →
            State.VisitsDefining (after operations).store settings phi
              { frame := start, heap := begun } state →
            ∀ frame ∈ state.frames, (after operations).store.Reached function frame.block →
              (after operations).store.Dominates function block frame.block →
              ∃ datum,
                Scene.Steady ⟨(after operations).store, settings, frame.values⟩ phi datum ∧
                Scene.Steady ⟨(after operations).store, settings, frame.values⟩ value datum)) := by
  have coherent := (after_coherent operations).store
  obtain ⟨removed, left, gives, kept, gone⟩ := Store.exists_gives_removeRedundantPhi coherent
    (after_regular operations) accepted listed inForm reached member
    ((after_furnished operations).typeOf_phi member)
  refine ⟨removed, left, gives, kept, fun isRemoved => ?_⟩
  cases gone isRemoved with
  | unused unused _ condensed =>
      refine ⟨condensed.inForm, condensed.accepted, condensed.instructions, fun used => ?_⟩
      rw [unused] at used
      cases used
  | @folded value folds _ sameType condensed =>
      refine ⟨condensed.inForm, condensed.accepted, condensed.instructions, fun _ => ?_⟩
      refine ⟨value, folds.different, sameType, fun user => condensed.operands,
        fun home => folds.strictly, ?_⟩
      intro settings owner arguments heap start begun state closed owned called visited
      exact steady_of_visits coherent member folds (after_numericRegisters operations)
        ⟨ordered_of_validate coherent accepted, closed⟩ listed inForm reached owned called visited

/-- A loop with a phi that merges a constant with itself. -/
def circling : List Operation :=
  [.edit (.addModule "circling"),
    .edit (.createFunction 0 .kernel none),
    .edit (.createBody ⟨0⟩),
    .edit (.createBlock ⟨0⟩),
    .edit (.createBlock ⟨0⟩),
    .edit (.constantBool 0 false),
    .moveToEnd ⟨1⟩, .emit .branch none [some ⟨2⟩] (.refl true),
    .moveToEnd ⟨2⟩, .phi (some (.scalar ⟨0, 0, "bool"⟩ .boolean)) [(some ⟨4⟩, some ⟨1⟩)],
    .condBranch (some ⟨6⟩) (some ⟨2⟩) (some ⟨3⟩),
    .edit (.addIncoming ⟨6⟩ (some ⟨6⟩) (some ⟨2⟩)),
    .moveToEnd ⟨3⟩, .emit .ret none [] (.refl true)]

theorem removeRedundantPhi_inSsaForm_circling :
    ∃ left, Edit.Gives (Pass.removeRedundantPhi ⟨6⟩) (after circling).store true left ∧
      left.InSsaForm ⟨0⟩ ∧ left.validate? 0 = some [] ∧
      left.operands ⟨7⟩ = [some ⟨4⟩, some ⟨2⟩, some ⟨3⟩] ∧
      ∃ start begun state,
        Exec.outcome (callFrame (after circling).store { limit := 9 } ⟨0⟩ []) {} =
          (.ok start, begun) ∧
        State.VisitsDefining (after circling).store { limit := 9 } ⟨6⟩
          { frame := start, heap := begun } state ∧
        state.frame.block = ⟨2⟩ ∧ ∃ datum,
          Scene.Steady ⟨(after circling).store, { limit := 9 }, state.frame.values⟩ ⟨6⟩ datum ∧
          Scene.Steady ⟨(after circling).store, { limit := 9 }, state.frame.values⟩ ⟨4⟩ datum := by
  have coherent : (after circling).store.Coherent := (after_coherent circling).store
  have accepted : (after circling).store.validate? 0 = some [] := by decide +kernel
  have listed : ⟨0⟩ ∈ (after circling).store.functions 0 := by decide +kernel
  have hasBody : (after circling).store.body? ⟨0⟩ = some ⟨1⟩ := by decide +kernel
  have inForm : (after circling).store.InSsaForm ⟨0⟩ :=
    Store.InSsaForm.of_traversal coherent hasBody (by decide +kernel) (by decide +kernel)
      (by decide +kernel) (by decide +kernel)
  have reached : (after circling).store.Reached ⟨0⟩ ⟨2⟩ :=
    (Store.mem_reversePostOrder_iff_reached coherent).1 (by decide +kernel)
  have member : ⟨6⟩ ∈ (after circling).store.phis ⟨2⟩ := by decide +kernel
  have dynamic : (after circling).store.StaysDynamic ((after circling).store.functions 0) ⟨6⟩ := by
    have none : ∀ owner ∈ (after circling).store.functions 0,
        ∀ block ∈ (after circling).store.reversePostOrder owner,
        ∀ user ∈ (after circling).store.instructions block,
          (after circling).store.opcode? user ≠ some .gep := by
      decide +kernel
    rintro ⟨owner, owned, block, user, reached, inside, isGep, -⟩
    exact absurd isGep (none owner owned block
      ((Store.mem_reversePostOrder_iff_reached coherent).2 reached) user inside)
  have defines : ∀ state, Defines (after circling).store { limit := 9 } ⟨6⟩ state := by
    have defined : ∀ pairs ∈ (after circling).store.incomings? ⟨6⟩, ∀ pair ∈ pairs,
        (after circling).store.isUndefinedOption pair.1 = false := by
      decide +kernel
    exact fun state _ incoming pairs _ _ paired inside => defined pairs paired _ inside
  have complete : (after circling).store.Complete 0 :=
    Store.complete_of_traversal coherent (by decide +kernel)
  obtain ⟨removed, left, gives, kept, gone⟩ :=
    removeRedundantPhi_inSsaForm accepted listed inForm reached member
  have removes : (match Edit.outcome (Pass.removeRedundantPhi ⟨6⟩) (after circling).store with
      | (.ok removed, left) => removed &&
          (left.blockOf? ⟨7⟩).isSome && decide (left.operands ⟨7⟩ = [some ⟨4⟩, some ⟨2⟩, some ⟨3⟩])
      | _ => false) = true := by
    decide +kernel
  rw [gives, Bool.and_eq_true, Bool.and_eq_true, decide_eq_true_eq] at removes
  obtain ⟨⟨rfl, linked⟩, operands⟩ := removes
  obtain ⟨inForm', accepted', -, folded⟩ := gone rfl
  refine ⟨left, gives, inForm', accepted' dynamic, operands, ?_⟩
  obtain ⟨value, -, -, operands', -, steady⟩ := folded (by decide +kernel)
  have same : value = ⟨4⟩ := by
    have former : (after circling).store.operands ⟨7⟩ = [some ⟨6⟩, some ⟨2⟩, some ⟨3⟩] := by
      decide +kernel
    have becomes := (operands' ⟨7⟩ linked).symm.trans operands
    rw [former] at becomes
    exact Option.some.inj (List.cons.inj becomes).1
  subst same
  have runs : (match Exec.outcome (callFrame (after circling).store { limit := 9 } ⟨0⟩ []) {} with
      | (.ok start, begun) =>
          match State.step (after circling).store { limit := 9 }
            { frame := start, heap := begun } with
          | .running state => decide (state.frame.block = ⟨2⟩)
          | _ => false
      | _ => false) = true := by
    decide +kernel
  split at runs
  · rename_i start begun called
    split at runs
    · rename_i state ran
      have visited : State.VisitsDefining (after circling).store { limit := 9 } ⟨6⟩
          { frame := start, heap := begun } state :=
        .single ⟨defines _, ran⟩
      have inside := of_decide_eq_true runs
      refine ⟨start, begun, state, called, visited, inside, ?_⟩
      refine steady complete.callees listed called visited state.frame List.mem_cons_self
        (inside ▸ reached) ?_
      rw [inside]
      exact Store.dominates_self ⟨0⟩ ⟨2⟩
    · cases runs
  · cases runs

end Session

end ShaderIR

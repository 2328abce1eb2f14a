import Mathlib.Data.List.TakeWhile
import ShaderIR.Proofs.Control.Acceptance
import ShaderIR.Proofs.Machine.Frames

/-!
# Runs keep to the control flow

A run of a function in which control is in order stays in reached blocks of such
functions, and so do the functions that it calls.  It never comes to the end of a
block, and every jump leads to a block that is present and has an incoming for
the block that control comes from in each of its phis.
-/

namespace ShaderIR.Machine

open Exec

variable {program : Store} {settings : Settings} {functions : List Ref}

/-- Control is in order in some functions, which use no functions but themselves. -/
structure Guided (program : Store) (functions : List Ref) : Prop where
  routed : ∀ {function}, function ∈ functions → program.Routed function
  callees : program.Closed functions

/-- The handlers that a frame may still have to call are among some functions. -/
def Pending.Handled (functions : List Ref) : Pending → Prop
  | .pipeline _ onSurface onProcedural _ =>
      (∀ function ∈ onSurface, function ∈ functions) ∧
        ∀ function ∈ onProcedural, function ∈ functions
  | _ => True

/-- A frame is in a reached block of one of some functions, with something left to do. -/
structure Frame.Placed (program : Store) (functions : List Ref) (frame : Frame) : Prop where
  reached : ∃ function ∈ functions, program.Reached function frame.block
  inside : frame.rest <:+ program.instructions frame.block
  unfinished : frame.rest ≠ []
  handled : frame.pending.Handled functions

/-- All frames of a state are placed. -/
structure State.Placed (program : Store) (functions : List Ref) (state : State) : Prop where
  frame : state.frame.Placed program functions
  callers : ∀ caller ∈ state.callers, caller.Placed program functions

/--
Something is left of the current block, and if the instruction that comes next
sends control to another block, then that block is there and its phis have
incomings from the current one.
-/
def State.Steered (program : Store) (settings : Settings) (state : State) : Prop :=
  ∃ ref rest entry, state.frame.rest = ref :: rest ∧ program.instruction? ref = some entry ∧
    ∀ target left, entry.opcode.isTerminator = true →
      outcome (Scene.terminate ⟨program, settings, state.frame.values⟩ entry) state.heap =
        (.ok (.jump target), left) →
      ∃ block, target = some block ∧ program.isBlock block = true ∧
        ∀ phi ∈ program.phis block, ∃ incoming, program.instruction? phi = some incoming ∧
          some state.frame.block ∈ incoming.opcode.incomingBlocks

/-! ## Terminators -/

/-- A target that is present is a block operand of its instruction. -/
theorem Scene.eq_of_target
    {scene : Scene}
    {entry : Instruction}
    {position : Nat}
    {heap left : Heap}
    {target : Option Ref}
    (answers : outcome (scene.target entry position) heap = (.ok (.jump target), left))
    (present : scene.program.HasTarget entry position) :
    ∃ block, target = some block ∧ some block ∈ entry.values ∧
      scene.program.isBlock block = true := by
  obtain ⟨operand, between, demanded, equal⟩ := outcome_bind_eq_ok.1 answers
  obtain ⟨held, -⟩ := outcome_demand_eq_ok.1 demanded
  obtain ⟨block, held', isBlock⟩ := present
  cases held.symm.trans held'
  cases equal
  exact ⟨block, Store.asBlock_eq_some_iff.2 ⟨rfl, isBlock⟩, mem_values_of_operand? held, isBlock⟩

theorem Scene.casePosition?_getD_mem_targets
    (merge : Option Ref)
    (cases : List Int64)
    (selector : Int64) :
    (Scene.casePosition? cases selector).getD 1 ∈ (Opcode.switch merge cases).targets := by
  unfold Scene.casePosition?
  cases found : cases.findIdx? (· == selector) with
  | none => exact List.mem_cons_self
  | some index =>
      have within := (List.findIdx?_eq_some_iff_getElem.1 found).choose
      refine List.mem_cons_of_mem _ (List.mem_map.2 ⟨index, List.mem_range.2 within, ?_⟩)
      exact Nat.add_comm 2 index

/-- Where the targets of a terminator are present, it sends control to one of its operands. -/
theorem Scene.exists_of_terminate
    {scene : Scene}
    {entry : Instruction}
    {heap left : Heap}
    {target : Option Ref}
    (answers : outcome (scene.terminate entry) heap = (.ok (.jump target), left))
    (present : ∀ position ∈ entry.opcode.targets, scene.program.HasTarget entry position) :
    ∃ block, target = some block ∧ some block ∈ entry.values ∧
      scene.program.isBlock block = true := by
  unfold Scene.terminate at answers
  cases opcode : entry.opcode <;> rw [opcode] at answers present
  case ifElse | condBranch =>
    obtain ⟨truth, between, -, answers⟩ := outcome_bind_eq_ok.1 answers
    split at answers
    · exact eq_of_target answers (present 1 (by simp [Opcode.targets]))
    · exact eq_of_target answers (present 2 (by simp [Opcode.targets]))
  case switch merge cases =>
    obtain ⟨datum, _, -, answers⟩ := outcome_bind_eq_ok.1 answers
    obtain ⟨selector, _, -, answers⟩ := outcome_bind_eq_ok.1 answers
    exact eq_of_target answers (present _ (casePosition?_getD_mem_targets merge cases selector))
  case loop | simpleLoop | branch | breakTo | continueTo | outline | autodiffScope | rayQueryLoop =>
    exact eq_of_target answers (present 0 List.mem_cons_self)
  case rayQueryDispatch =>
    obtain ⟨query, _, -, answers⟩ := outcome_bind_eq_ok.1 answers
    obtain ⟨address, _, -, answers⟩ := outcome_bind_eq_ok.1 answers
    obtain ⟨handler, _, handled, answers⟩ := outcome_bind_eq_ok.1 answers
    cases handler with
    | none => exact eq_of_target answers (present 1 List.mem_cons_self)
    | some block =>
        cases answers
        rcases eq_of_nextHandler handled with found | found <;>
          obtain ⟨held, isBlock⟩ := Store.asBlock_eq_some_iff.1 found <;>
          exact ⟨block, rfl, mem_values_of_join held, isBlock⟩
  case ret =>
    dsimp only at answers
    split at answers
    · obtain ⟨datum, _, -, equal⟩ := outcome_bind_eq_ok.1 answers
      cases equal
    · cases answers
  case unreachable =>
    obtain ⟨block, _, -, equal⟩ := outcome_bind_eq_ok.1 answers
    cases equal
  all_goals cases answers

/-! ## Where a run is -/

variable {function block ref : Ref} {entry : Instruction} {state next : State}

theorem afterPhis_ne_nil
    (routed : program.Routed function)
    (reached : program.Reached function block) :
    program.afterPhis block ≠ [] := by
  intro nothing
  obtain ⟨terminator, last⟩ := Option.isSome_iff_exists.1 (routed.ends reached)
  have isPhi := List.dropWhile_eq_nil_iff.1 nothing terminator
    (Store.mem_instructions_of_terminator? last)
  have isTerminator := (Store.terminator?_eq_some_iff.1 last).2
  -- The last instruction would be a phi and a terminator at once.
  simp only [Store.isPhi, Store.isTerminator, Option.any_eq_true] at isPhi isTerminator
  obtain ⟨opcode, found, isPhi⟩ := isPhi
  obtain ⟨opcode', found', isTerminator⟩ := isTerminator
  cases found.symm.trans found'
  cases opcode <;> simp [Opcode.isPhi, Opcode.isTerminator] at isPhi isTerminator

/-- An instruction that is not a terminator is not the last one of its block. -/
theorem ne_nil_of_not_terminator
    {rest : List Ref}
    (routed : program.Routed function)
    (reached : program.Reached function block)
    (inside : ref :: rest <:+ program.instructions block)
    (continues : program.isTerminator ref = false) :
    rest ≠ [] := by
  rintro rfl
  obtain ⟨terminator, last⟩ := Option.isSome_iff_exists.1 (routed.ends reached)
  obtain ⟨ending, isTerminator⟩ := Store.terminator?_eq_some_iff.1 last
  obtain ⟨before, split⟩ := inside
  rw [← split, List.getLast?_concat] at ending
  cases ending
  rw [continues] at isTerminator
  cases isTerminator

/-- A terminator that comes next is the terminator of the block. -/
theorem terminator?_of_isTerminator
    {rest : List Ref}
    (routed : program.Routed function)
    (reached : program.Reached function block)
    (inside : ref :: rest <:+ program.instructions block)
    (ends : program.isTerminator ref = true) :
    program.terminator? block = some ref := by
  obtain ⟨before, split⟩ := inside
  cases routed.single reached split.symm ends
  exact Store.terminator?_eq_some_iff.2 ⟨by rw [← split, List.getLast?_concat], ends⟩

theorem exists_instruction_of_mem
    (coherent : program.Coherent)
    (member : ref ∈ program.instructions block) :
    ∃ entry, program.instruction? ref = some entry := by
  obtain ⟨entry, found, -⟩ := Option.bind_eq_some_iff.1 ((coherent.mem_members block ref).1 member)
  exact ⟨entry, found⟩

/-- Phis of a reached block have an incoming for each block that control may come from. -/
theorem exists_incoming_of_edge
    {source phi : Ref}
    (coherent : program.Coherent)
    (routed : program.Routed function)
    (reached : program.Reached function source)
    (edge : block ∈ program.successors source)
    (member : phi ∈ program.phis block) :
    ∃ incoming, program.instruction? phi = some incoming ∧
      some source ∈ incoming.opcode.incomingBlocks := by
  have inside : phi ∈ program.instructions block := (List.takeWhile_prefix _).subset member
  have isPhi := List.mem_takeWhile_imp member
  obtain ⟨incoming, found⟩ := exists_instruction_of_mem coherent inside
  rw [Store.isPhi, Store.opcode?, found] at isPhi
  have owners := (routed.owner reached).trans (routed.owner (reached.tail edge)).symm
  have listed := coherent.mem_predecessors_of_successor edge owners
  have each := routed.incomings (reached.tail edge) inside found isPhi
  exact ⟨incoming, found, each.mem_iff.2 (List.mem_map_of_mem listed)⟩

/-- A placed frame is in a function in which its terminators send control along an edge. -/
theorem Frame.Placed.exists_edge
    {frame : Frame}
    {rest : List Ref}
    {heap left : Heap}
    {target : Option Ref}
    (placed : frame.Placed program functions)
    (guided : Guided program functions)
    (atRef : frame.rest = ref :: rest)
    (found : program.instruction? ref = some entry)
    (ends : entry.opcode.isTerminator = true)
    (answers : outcome (Scene.terminate ⟨program, settings, frame.values⟩ entry) heap =
      (.ok (.jump target), left)) :
    ∃ function ∈ functions, program.Reached function frame.block ∧
      ∃ block, target = some block ∧ block ∈ program.successors frame.block := by
  obtain ⟨function, listed, reached⟩ := placed.reached
  have routed := guided.routed listed
  have inside := placed.inside
  rw [atRef] at inside
  have last := terminator?_of_isTerminator routed reached inside
    (by simpa [Store.isTerminator, Store.opcode?, found] using ends)
  obtain ⟨block, rfl, held, isBlock⟩ :=
    Scene.exists_of_terminate answers (routed.targets reached last found)
  refine ⟨function, listed, reached, block, rfl, ?_⟩
  exact Store.mem_successors_iff.2 ⟨ref, last, by simpa [Store.operands, found] using held, isBlock⟩

/-- Entering a reached block places a frame. -/
theorem Frame.Placed.enter
    {frame : Frame}
    (guided : Guided program functions)
    (listed : function ∈ functions)
    (reached : program.Reached function frame.block)
    (rest : frame.rest = program.afterPhis frame.block)
    (handled : frame.pending.Handled functions) :
    frame.Placed program functions where
  reached := ⟨function, listed, reached⟩
  inside := rest ▸ List.dropWhile_suffix _
  unfinished := rest ▸ afterPhis_ne_nil (guided.routed listed) reached
  handled := handled

theorem placed_of_callFrame
    {arguments : List Datum}
    {heap left : Heap}
    {frame : Frame}
    (guided : Guided program functions)
    (listed : function ∈ functions)
    (called : outcome (callFrame program settings function arguments) heap = (.ok frame, left)) :
    frame.Placed program functions := by
  obtain ⟨entry, body, values, found, -, hasBody, -, -, rfl⟩ := callFrame_eq_ok.1 called
  have reached : program.Reached function body :=
    ⟨body, by rw [Store.body?, found]; exact hasBody, .refl⟩
  exact .enter guided listed reached rfl trivial

namespace State.Placed

/-- Placed states have control in order. -/
theorem steered
    (placed : state.Placed program functions)
    (coherent : program.Coherent)
    (guided : Guided program functions) :
    state.Steered program settings := by
  obtain ⟨ref, rest, atRef⟩ := List.exists_cons_of_ne_nil placed.frame.unfinished
  have member : ref ∈ program.instructions state.frame.block :=
    placed.frame.inside.subset (by simp [atRef])
  obtain ⟨entry, found⟩ := exists_instruction_of_mem coherent member
  refine ⟨ref, rest, entry, atRef, found, ?_⟩
  intro target left ends answers
  obtain ⟨function, listed, reached, block, rfl, edge⟩ :=
    placed.frame.exists_edge guided atRef found ends answers
  have isBlock : program.isBlock block = true := by
    obtain ⟨terminator, -, -, isBlock⟩ := Store.mem_successors_iff.1 edge
    exact isBlock
  refine ⟨block, rfl, isBlock, ?_⟩
  intro phi member
  exact exists_incoming_of_edge coherent (guided.routed listed) reached edge member

/-! ## Steps -/

theorem forall_frames (placed : state.Placed program functions) :
    ∀ frame ∈ state.frames, frame.Placed program functions :=
  List.forall_mem_cons.2 ⟨placed.frame, placed.callers⟩

end State.Placed

theorem Pending.Leaves.handled
    {pending : Pending}
    (callees : ∀ callee, some callee ∈ entry.values → program.isFunction callee = true →
      callee ∈ functions)
    (leaves : pending.Leaves program ref entry function) :
    pending.Handled functions ∧ function ∈ functions := by
  cases leaves with
  | call listed isFunction => exact ⟨trivial, callees function listed isFunction⟩
  | @pipeline query onSurface onProcedural arguments handlers called =>
      have inside : ∀ handler, onSurface = some handler ∨ onProcedural = some handler →
          handler ∈ functions :=
        fun handler given => callees handler (handlers handler given).1 (handlers handler given).2
      exact ⟨⟨fun handler given => inside handler (.inl given),
        fun handler given => inside handler (.inr given)⟩, inside function called⟩

theorem Pending.Hands.mem
    {pending : Pending}
    (hands : pending.Hands function)
    (handled : pending.Handled functions) :
    function ∈ functions := by
  obtain ⟨query, onSurface, onProcedural, arguments, rfl, given⟩ := hands
  exact given.elim (handled.1 function) (handled.2 function)

theorem Frame.Starts.placed
    {frame : Frame}
    (starts : frame.Starts program settings function)
    (guided : Guided program functions)
    (listed : function ∈ functions) :
    frame.Placed program functions := by
  obtain ⟨arguments, heap, left, called⟩ := starts
  exact placed_of_callFrame guided listed called

/-- A step leaves placed frames placed. -/
theorem Frame.Shifts.placed
    {heap : Heap}
    {frames frames' : List Frame}
    (shifts : Frame.Shifts program settings heap frames frames')
    (guided : Guided program functions)
    (placed : ∀ frame ∈ frames, frame.Placed program functions) :
    ∀ frame ∈ frames', frame.Placed program functions := by
  cases shifts with
  | @next block values values' ref rest pending entry below found continues results =>
      obtain ⟨top, below⟩ := List.forall_mem_cons.1 placed
      refine List.forall_mem_cons.2 ⟨?_, below⟩
      obtain ⟨function, listed, reached⟩ := top.reached
      -- The terminator of the block is still to come.
      have more : rest ≠ [] := ne_nil_of_not_terminator (guided.routed listed) reached top.inside
        (by simpa [Store.isTerminator, Store.opcode?, found] using continues)
      exact ⟨top.reached, (List.suffix_cons ref rest).trans top.inside, more, top.handled⟩
  | @call block values ref rest pending pending' entry below function frame found continues calls
      leaves starts =>
      obtain ⟨top, below⟩ := List.forall_mem_cons.1 placed
      obtain ⟨caller, listed, reached⟩ := top.reached
      have more : rest ≠ [] := ne_nil_of_not_terminator (guided.routed listed) reached top.inside
        (by simpa [Store.isTerminator, Store.opcode?, found] using continues)
      obtain ⟨handled, called⟩ := leaves.handled fun callee held =>
        guided.callees listed reached (top.inside.subset List.mem_cons_self)
          (by simpa [Store.operands, found] using held)
      refine List.forall_mem_cons.2
        ⟨starts.placed guided called, List.forall_mem_cons.2 ⟨?_, below⟩⟩
      exact ⟨top.reached, (List.suffix_cons ref rest).trans top.inside, more, handled⟩
  | @jump block values values' ref rest pending entry below target left left' found ends answers
      enters =>
      obtain ⟨top, below⟩ := List.forall_mem_cons.1 placed
      obtain ⟨function, listed, reached, _, ⟨⟩, edge⟩ :=
        top.exists_edge guided rfl found ends answers
      exact List.forall_mem_cons.2
        ⟨.enter guided listed (reached.tail edge) rfl top.handled, below⟩
  | back _ _ _ =>
      obtain ⟨caller, below⟩ := List.forall_mem_cons.1 (List.forall_mem_cons.1 placed).2
      exact List.forall_mem_cons.2
        ⟨⟨caller.reached, caller.inside, caller.unfinished, trivial⟩, below⟩
  | handler _ _ hands starts =>
      have callers := (List.forall_mem_cons.1 placed).2
      have handled := (callers _ List.mem_cons_self).handled
      exact List.forall_mem_cons.2 ⟨starts.placed guided (hands.mem handled), callers⟩

namespace State.Placed

/-- A step leaves a placed state placed. -/
theorem step
    (placed : state.Placed program functions)
    (guided : Guided program functions)
    (ran : state.step program settings = .running next) :
    next.Placed program functions := by
  have frames := (frames_of_step ran).placed guided placed.forall_frames
  exact ⟨frames _ List.mem_cons_self, fun caller member => frames _ (List.mem_cons_of_mem _ member)⟩

/-- A run stays in placed states. -/
theorem visits
    (placed : state.Placed program functions)
    (guided : Guided program functions)
    (visited : State.Visits program settings state next) :
    next.Placed program functions := by
  induction visited with
  | refl => exact placed
  | tail _ ran induction => exact induction.step guided ran

end State.Placed

theorem mem_functions_of_definitions
    {module : Nat}
    (defined : function ∈ program.definitions module) :
    function ∈ program.functions module :=
  List.mem_of_mem_filter defined

/-- Up to what validation leaves open, control is in order in an accepted module. -/
theorem guided_of_complete
    {module : Nat}
    (coherent : program.Coherent)
    (accepted : program.validate? module = some [])
    (complete : program.Complete module) :
    Guided program (program.functions module) where
  routed := complete.routed coherent accepted
  callees := complete.callees

/--
Where a module is accepted and nothing of what validation leaves open is missing,
the targets of terminators are present and phis have one incoming for each
predecessor.  A run of a function of the module never comes to the end of a block,
always jumps to a block that is there, and finds an incoming in all of its phis.
-/
theorem steered_of_validate
    {module : Nat}
    (coherent : program.Coherent)
    (accepted : program.validate? module = some [])
    (complete : program.Complete module) :
    (∀ function ∈ program.functions module, program.Routed function) ∧
    ∀ settings heap function arguments frame left state,
      function ∈ program.definitions module →
      outcome (callFrame program settings function arguments) heap = (.ok frame, left) →
      State.Visits program settings { frame, heap := left } state →
      state.Steered program settings := by
  have guided := guided_of_complete coherent accepted complete
  refine ⟨fun function listed => guided.routed listed, ?_⟩
  intro settings heap function arguments frame left state defined called visited
  have listed := mem_functions_of_definitions defined
  have start : State.Placed program (program.functions module) { frame, heap := left } :=
    ⟨placed_of_callFrame guided listed called, by simp⟩
  exact (start.visits guided visited).steered coherent guided

/-- A loop around a block with a phi, which is left at once. -/
def turning : Store :=
  let truth : Ty := .scalar ⟨0, 0, "bool"⟩ ⟨.bool, 1⟩
  (Session.after [
    .edit (.addModule "turning"),
    .edit (.createFunction 0 .kernel none),
    .edit (.createBody ⟨0⟩),
    .edit (.createBlock ⟨0⟩),
    .edit (.createBlock ⟨0⟩),
    .edit (.constantBool 0 false),
    .moveToEnd ⟨1⟩, .emit (.simpleLoop none) none [some ⟨2⟩] (.refl true),
    .moveToEnd ⟨2⟩, .phi (some truth) [(some ⟨4⟩, some ⟨1⟩), (some ⟨4⟩, some ⟨2⟩)],
    .condBranch (some ⟨4⟩) (some ⟨2⟩) (some ⟨3⟩),
    .moveToEnd ⟨3⟩, .emit .ret none [] (.refl true)]).store

/-- The run of the loop goes to the block with the phi, and control is in order there. -/
theorem steered_turning :
    (∃ frame left state, outcome (callFrame turning { limit := 9 } ⟨0⟩ []) {} = (.ok frame, left) ∧
      State.Visits turning { limit := 9 } { frame, heap := left } state ∧
      state.frame.block = ⟨2⟩ ∧ state.Steered turning { limit := 9 }) ∧
    turning.Routed ⟨0⟩ := by
  have coherent : turning.Coherent := (Session.after_coherent _).store
  have accepted : turning.validate? 0 = some [] := by decide +kernel
  have complete : turning.Complete 0 :=
    Store.complete_of_traversal coherent (by decide +kernel)
  have defined : ⟨0⟩ ∈ turning.definitions 0 := by decide +kernel
  obtain ⟨routed, steered⟩ := steered_of_validate coherent accepted complete
  refine ⟨?_, routed ⟨0⟩ (mem_functions_of_definitions defined)⟩
  have runs : (match outcome (callFrame turning { limit := 9 } ⟨0⟩ []) {} with
      | (.ok frame, left) =>
          match State.step turning { limit := 9 } { frame, heap := left } with
          | .running state => decide (state.frame.block = ⟨2⟩)
          | _ => false
      | _ => false) = true := by
    decide +kernel
  split at runs
  · rename_i frame left called
    split at runs
    · rename_i state ran
      have visited : State.Visits turning { limit := 9 } { frame, heap := left } state :=
        .single ran
      exact ⟨frame, left, state, called, visited, of_decide_eq_true runs,
        steered _ _ _ _ _ _ _ defined called visited⟩
    · cases runs
  · cases runs

end ShaderIR.Machine

/-!
## Frames inside of functions

In every run, what a frame has still to execute is a last part of its block, behind the phis.
Where the functions of a program are arranged, every frame stays in reached blocks of these
functions.  Nothing is asked of the targets of terminators and of the incomings of phis, so a
run may well come to a halt.
-/

namespace ShaderIR.Machine

open Exec

/-- A frame is behind the phis of its block. -/
structure Frame.Inside (program : Store) (frame : Frame) : Prop where
  inside : frame.rest <:+ program.afterPhis frame.block
  /-- The result that a frame waits for is that of a call, which comes right before the rest. -/
  awaited : ∀ ref, frame.pending = .result ref →
    ref :: frame.rest <:+ program.afterPhis frame.block ∧
      ∃ entry, program.instruction? ref = some entry ∧ ¬IsPlain entry.opcode

/-- All frames are behind the phis of their blocks, and the one on top waits for nothing. -/
structure Frame.AllInside (program : Store) (frames : List Frame) : Prop where
  each : ∀ frame ∈ frames, frame.Inside program
  top : ∀ frame ∈ frames.head?, frame.pending = .nothing

/-- A frame is in a reached block of one of some functions, and so are those that it calls. -/
structure Frame.Housed (program : Store) (functions : List Ref) (frame : Frame) : Prop where
  reached : ∃ function ∈ functions, program.Reached function frame.block
  handled : frame.pending.Handled functions

/-- All frames are inside of some functions. -/
structure Frame.AllHoused (program : Store) (functions : List Ref) (frames : List Frame) : Prop
    extends Frame.AllInside program frames where
  homes : ∀ frame ∈ frames, frame.Housed program functions

variable {program : Store} {settings : Settings} {functions : List Ref}
  {function block source ref : Ref} {entry : Instruction}

/-! ## Where frames are -/

theorem mem_instructions_of_mem_afterPhis (member : ref ∈ program.afterPhis block) :
    ref ∈ program.instructions block :=
  List.dropWhile_subset _ member

/-- Control moves along edges. -/
theorem mem_successors_of_terminate
    {values : Std.HashMap Ref Datum}
    {rest : List Ref}
    {heap left : Heap}
    {target : Ref}
    (ordered : program.Ordered functions)
    (listed : function ∈ functions)
    (reached : program.Reached function block)
    (inside : ref :: rest <:+ program.afterPhis block)
    (found : program.instruction? ref = some entry)
    (ends : entry.opcode.isTerminator = true)
    (answers : outcome (Scene.terminate ⟨program, settings, values⟩ entry) heap =
      (.ok (.jump (some target)), left)) :
    target ∈ program.successors block := by
  have isTerminator : program.isTerminator ref = true := by
    simpa [Store.isTerminator, Store.opcode?, found] using ends
  obtain ⟨before, split⟩ := inside.trans (List.dropWhile_suffix _)
  cases ordered.single listed reached split.symm isTerminator
  have last : program.terminator? block = some ref :=
    Store.terminator?_eq_some_iff.2 ⟨by rw [← split, List.getLast?_concat], isTerminator⟩
  obtain ⟨-, ⟨operand, member, equal⟩ | ⟨-, result, equal⟩⟩ := Scene.terminate_eq_ok answers
  · obtain ⟨rfl, isBlock⟩ := Store.asBlock_eq_some_iff.1 (Scene.Transfer.jump.inj equal).symm
    exact Store.mem_successors_iff.2
      ⟨ref, last, by simpa [Store.operands, found] using member, isBlock⟩
  · cases equal

/-- A function starts in its body, behind the phis, and waits for nothing. -/
theorem Frame.Starts.inside {frame : Frame} (starts : frame.Starts program settings function) :
    frame.Inside program ∧ frame.pending = .nothing ∧
      program.body? function = some frame.block := by
  obtain ⟨arguments, heap, left, called⟩ := starts
  obtain ⟨entry, body, values, found, -, hasBody, -, -, rfl⟩ := callFrame_eq_ok.1 called
  refine ⟨⟨List.suffix_refl _, by simp⟩, rfl, ?_⟩
  rw [Store.body?, found]
  exact hasBody

/-- A step leaves frames behind the phis of their blocks. -/
theorem Frame.Shifts.inside
    {heap : Heap}
    {frames frames' : List Frame}
    (shifts : Frame.Shifts program settings heap frames frames')
    (allInside : Frame.AllInside program frames) :
    Frame.AllInside program frames' := by
  have each := allInside.each
  have top := allInside.top
  cases shifts with
  | @next block values values' ref rest pending entry below found continues results =>
      obtain ⟨here, below⟩ := List.forall_mem_cons.1 each
      have waits : pending = .nothing := top ⟨block, values, ref :: rest, pending⟩ rfl
      refine ⟨List.forall_mem_cons.2 ⟨⟨?_, by simp [waits]⟩, below⟩, ?_⟩
      · exact (List.suffix_cons ref rest).trans here.inside
      · rintro frame ⟨⟩
        exact waits
  | @call block values ref rest pending pending' entry below function frame found continues calls
      leaves starts =>
      obtain ⟨here, below⟩ := List.forall_mem_cons.1 each
      obtain ⟨started, waits, -⟩ := starts.inside
      refine ⟨List.forall_mem_cons.2 ⟨started, List.forall_mem_cons.2 ⟨?_, below⟩⟩, ?_⟩
      · refine ⟨(List.suffix_cons ref rest).trans here.inside, ?_⟩
        intro other pending
        cases leaves with
        | call =>
            cases pending
            exact ⟨here.inside, entry, found, calls⟩
        | pipeline => cases pending
      · rintro frame ⟨⟩
        exact waits
  | @jump block values values' ref rest pending entry below target left left' found ends answers
      enters =>
      have waits : pending = .nothing := top _ rfl
      refine ⟨List.forall_mem_cons.2 ⟨⟨List.suffix_refl _, by simp [waits]⟩, ?_⟩, ?_⟩
      · exact (List.forall_mem_cons.1 each).2
      · rintro frame ⟨⟩
        exact waits
  | back _ _ _ =>
      obtain ⟨caller, below⟩ := List.forall_mem_cons.1 (List.forall_mem_cons.1 each).2
      refine ⟨List.forall_mem_cons.2 ⟨⟨caller.inside, by simp⟩, below⟩, ?_⟩
      rintro frame ⟨⟩
      rfl
  | handler _ _ hands starts =>
      obtain ⟨started, waits, -⟩ := starts.inside
      refine ⟨List.forall_mem_cons.2 ⟨started, (List.forall_mem_cons.1 each).2⟩, ?_⟩
      rintro frame ⟨⟩
      exact waits

theorem Frame.Starts.reached {frame : Frame} (starts : frame.Starts program settings function) :
    program.Reached function frame.block :=
  ⟨frame.block, starts.inside.2.2, .refl⟩

theorem Frame.Starts.housed
    {frame : Frame}
    (starts : frame.Starts program settings function)
    (listed : function ∈ functions) :
    Frame.AllHoused program functions [frame] where
  each := by simpa using starts.inside.1
  top := by simpa using starts.inside.2.1
  homes := by simpa using ⟨⟨function, listed, starts.reached⟩, by rw [starts.inside.2.1]; trivial⟩

/-- A step leaves frames inside of the functions. -/
theorem Frame.Shifts.housed
    {heap : Heap}
    {frames frames' : List Frame}
    (shifts : Frame.Shifts program settings heap frames frames')
    (arranged : program.Arranged functions)
    (housed : Frame.AllHoused program functions frames) :
    Frame.AllHoused program functions frames' := by
  refine ⟨shifts.inside housed.toAllInside, ?_⟩
  have each := housed.each
  have homes := housed.homes
  cases shifts with
  | @next block values values' ref rest pending entry below found continues results =>
      obtain ⟨here, below⟩ := List.forall_mem_cons.1 homes
      exact List.forall_mem_cons.2 ⟨⟨here.reached, here.handled⟩, below⟩
  | @call block values ref rest pending pending' entry below function frame found continues calls
      leaves starts =>
      obtain ⟨here, below⟩ := List.forall_mem_cons.1 homes
      obtain ⟨caller, listed, reached⟩ := here.reached
      have member : ref ∈ program.afterPhis block :=
        (each _ List.mem_cons_self).inside.subset List.mem_cons_self
      obtain ⟨handled, called⟩ := leaves.handled fun callee held =>
        arranged.callees listed reached (mem_instructions_of_mem_afterPhis member)
          (by simpa [Store.operands, found] using held)
      have started := (starts.housed called).homes _ List.mem_cons_self
      exact List.forall_mem_cons.2
        ⟨started, List.forall_mem_cons.2 ⟨⟨here.reached, handled⟩, below⟩⟩
  | @jump block values values' ref rest pending entry below target left left' found ends answers
      enters =>
      obtain ⟨here, below⟩ := List.forall_mem_cons.1 homes
      obtain ⟨function, listed, reached⟩ := here.reached
      have edge := mem_successors_of_terminate arranged.toOrdered listed reached
        (each _ List.mem_cons_self).inside found ends answers
      exact List.forall_mem_cons.2
        ⟨⟨⟨function, listed, reached.tail edge⟩, here.handled⟩, below⟩
  | back _ _ _ =>
      obtain ⟨caller, below⟩ := List.forall_mem_cons.1 (List.forall_mem_cons.1 homes).2
      exact List.forall_mem_cons.2 ⟨⟨caller.reached, trivial⟩, below⟩
  | handler _ _ hands starts =>
      have callers := (List.forall_mem_cons.1 homes).2
      have handled := (callers _ List.mem_cons_self).handled
      have started := (starts.housed (hands.mem handled)).homes _ List.mem_cons_self
      exact List.forall_mem_cons.2 ⟨started, callers⟩

end ShaderIR.Machine

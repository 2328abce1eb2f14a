import ShaderIR.Clone
import ShaderIR.Proofs.Coherence.Creation

/-!
# Building steps keep the store coherent

A building step works at a cursor, and links new instructions into the block of
the cursor.  A step is sound when from a coherent store and a cursor that stands
in a block it leaves a coherent store and, unless it is refused, again a cursor
that stands in a block.
-/

namespace ShaderIR

open Store Edit

/-- A cursor with a block stands in something that is a block. -/
def Cursor.Stands (cursor : Cursor) (store : Store) : Prop :=
  ∀ block, cursor.block = some block → store.isBlock block = true

namespace Build

variable {α β : Type}

/-- What a building step leaves is coherent and has its cursor in a block. -/
structure Leaves (store : Store) (result : Except Fault (α × Cursor) × Store) : Prop where
  coherent : result.2.Coherent
  blocks : ∀ block, store.isBlock block = true → result.2.isBlock block = true
  stands : ∀ answer moved, result.1 = .ok (answer, moved) → moved.Stands result.2

/-- A building step keeps stores coherent and cursors in blocks. -/
def Sound (build : Build α) : Prop :=
  ∀ cursor store, store.Coherent → cursor.Stands store →
    Leaves store (outcome build cursor store)

theorem Leaves.bind
    {build : Build α}
    {next : α → Build β}
    {cursor : Cursor}
    {store : Store}
    (first : Leaves store (outcome build cursor store))
    (second : ∀ answer moved left, outcome build cursor store = (.ok (answer, moved), left) →
      left.Coherent → moved.Stands left → Leaves left (outcome (next answer) moved left)) :
    Leaves store (outcome (build >>= next) cursor store) := by
  rw [outcome_bind]
  rcases run : outcome build cursor store with ⟨fault | ⟨answer, moved⟩, left⟩
  · rw [run] at first
    exact ⟨first.coherent, first.blocks, fun _ _ equal => by cases equal⟩
  · rw [run] at first
    have rest := second answer moved left run first.coherent (first.stands answer moved rfl)
    exact ⟨rest.coherent, fun block isBlock => rest.blocks block (first.blocks block isBlock),
      rest.stands⟩

theorem Leaves.lift
    {edit : Edit α}
    {cursor : Cursor}
    {store : Store}
    (keeps : store.Keeps (Edit.outcome edit store).2)
    (coherent : store.Coherent)
    (stands : cursor.Stands store) :
    Leaves store (outcome (liftM edit) cursor store) := by
  obtain ⟨coherent', kept⟩ := keeps coherent
  rw [outcome_lift]
  rcases run : Edit.outcome edit store with ⟨fault | answer, left⟩
  · rw [run] at coherent' kept
    exact ⟨coherent', kept, fun _ _ equal => by cases equal⟩
  · rw [run] at coherent' kept
    refine ⟨coherent', kept, ?_⟩
    rintro _ _ equal
    cases equal
    exact fun block holds => kept block (stands block holds)

theorem Sound.pure (answer : α) : Sound (Pure.pure answer : Build α) := by
  intro cursor store coherent stands
  refine ⟨coherent, fun _ isBlock => isBlock, ?_⟩
  rintro _ _ equal
  cases equal
  exact stands

theorem Sound.bind
    {build : Build α}
    {next : α → Build β}
    (first : Sound build)
    (second : ∀ answer, Sound (next answer)) :
    Sound (build >>= next) :=
  fun cursor store coherent stands =>
    Leaves.bind (first cursor store coherent stands) fun answer moved left _ coherent' stands' =>
      second answer moved left coherent' stands'

theorem Sound.lift {edit : Edit α} (keeps : Respects Keeps edit) :
    Sound (liftM edit : Build α) :=
  fun _ store coherent stands => Leaves.lift (keeps store) coherent stands

theorem Sound.see (observe : Store → α) : Sound (liftM (Edit.see observe) : Build α) :=
  Sound.lift (Respects.see observe)

theorem Sound.require (condition : Bool) (violation : Violation) :
    Sound (liftM (Edit.require condition violation) : Build Unit) :=
  Sound.lift (Respects.require condition violation)

theorem Sound.violate (violation : Violation) :
    Sound (liftM (Edit.violate violation : Edit α) : Build α) :=
  Sound.lift (Respects.violate violation)

theorem Sound.demand (found : Option α) : Sound (liftM (Edit.demand found) : Build α) :=
  Sound.lift (Respects.demand found)

theorem Sound.get : Sound (get : Build Cursor) := by
  intro cursor store coherent stands
  refine ⟨coherent, fun _ isBlock => isBlock, ?_⟩
  rintro _ _ equal
  cases equal
  exact stands

/-- Putting the cursor into a block is sound. -/
theorem Leaves.set
    {moved cursor : Cursor}
    {store : Store}
    (coherent : store.Coherent)
    (stands : moved.Stands store) :
    Leaves store (outcome (set moved : Build PUnit) cursor store) := by
  refine ⟨coherent, fun _ isBlock => isBlock, ?_⟩
  rintro _ _ equal
  cases equal
  exact stands

/-- An edit followed by building steps that may rely on its answer. -/
theorem Leaves.liftBind
    {edit : Edit α}
    {next : α → Build β}
    {cursor : Cursor}
    {store : Store}
    (keeps : store.Keeps (Edit.outcome edit store).2)
    (coherent : store.Coherent)
    (stands : cursor.Stands store)
    (second : ∀ answer left, Gives edit store answer left → left.Coherent →
      cursor.Stands left → Leaves left (outcome (next answer) cursor left)) :
    Leaves store (outcome (liftM edit >>= next) cursor store) := by
  refine Leaves.bind (Leaves.lift keeps coherent stands) ?_
  intro answer moved left run coherent' stands'
  rw [outcome_lift] at run
  rcases gives : Edit.outcome edit store with ⟨fault | found, between⟩
  · rw [gives] at run
    cases run
  · rw [gives] at run
    cases run
    exact second answer left gives coherent' stands'

/-! ## The cursor -/

theorem moveAfter_sound (instruction : Option Ref) : Sound (moveAfter instruction) := by
  intro cursor store coherent stands
  refine Leaves.liftBind (linkedBlock_respects instruction _ store) coherent stands ?_
  rintro ⟨ref, block⟩ left given coherent' -
  obtain ⟨-, linked, rfl⟩ := gives_linkedBlock_iff.1 given
  refine Leaves.set coherent' fun other holds => ?_
  cases holds
  exact coherent'.isBlock_of_blockOf? linked

theorem moveBefore_sound (instruction : Option Ref) : Sound (moveBefore instruction) := by
  intro cursor store coherent stands
  refine Leaves.liftBind (linkedBlock_respects instruction _ store) coherent stands ?_
  rintro ⟨ref, block⟩ left given coherent' stands'
  obtain ⟨-, linked, rfl⟩ := gives_linkedBlock_iff.1 given
  refine Leaves.liftBind (Respects.see _ left) coherent' stands' ?_
  intro before left' given _ _
  obtain ⟨-, rfl⟩ := gives_see_iff.1 given
  refine Leaves.set coherent' fun other holds => ?_
  cases holds
  exact coherent'.isBlock_of_blockOf? linked

theorem moveToHead_leaves
    {block : Ref}
    {cursor : Cursor}
    {store : Store}
    (coherent : store.Coherent)
    (isBlock : store.isBlock block = true) :
    Leaves store (outcome (moveToHead block) cursor store) := by
  refine Leaves.set coherent fun other holds => ?_
  cases holds
  exact isBlock

theorem moveToEnd_leaves
    {block : Ref}
    {cursor : Cursor}
    {store : Store}
    (coherent : store.Coherent)
    (stands : cursor.Stands store)
    (isBlock : store.isBlock block = true) :
    Leaves store (outcome (moveToEnd block) cursor store) := by
  refine Leaves.liftBind (Respects.see _ store) coherent stands ?_
  intro members left given coherent' _
  obtain ⟨-, rfl⟩ := gives_see_iff.1 given
  refine Leaves.set coherent' fun other holds => ?_
  cases holds
  exact isBlock

/-- The block of the cursor is a block, and asking for it changes nothing. -/
theorem Leaves.cursorBlockBind
    {next : Ref → Build β}
    {cursor : Cursor}
    {store : Store}
    (coherent : store.Coherent)
    (stands : cursor.Stands store)
    (second : ∀ block, cursor.block = some block → store.isBlock block = true →
      Leaves store (outcome (next block) cursor store)) :
    Leaves store (outcome (cursorBlock >>= next) cursor store) := by
  rw [outcome_bind]
  simp only [cursorBlock, outcome_bind, outcome_get]
  cases holds : cursor.block with
  | none => exact ⟨coherent, fun _ isBlock => isBlock, fun _ _ equal => by cases equal⟩
  | some block => exact second block holds (stands block holds)

theorem module_sound : Sound module := by
  intro cursor store coherent stands
  refine Leaves.cursorBlockBind coherent stands fun block _ _ => ?_
  exact Sound.bind (Sound.see _) (fun _ => Sound.demand _) cursor store coherent stands

theorem reserve_sound
    {opcode : Opcode}
    (type : Option Ty)
    (casesDistinct : opcode.caseValues.Nodup) :
    Sound (reserve opcode type) :=
  Sound.bind module_sound fun module =>
    Sound.lift (allocate_keeps module type fun _ => ⟨rfl, rfl, casesDistinct⟩)

theorem place_sound (ref : Ref) : Sound (place ref) := by
  intro cursor store coherent stands
  refine Leaves.cursorBlockBind coherent stands fun block holds isBlock => ?_
  change Leaves store (outcome
    (liftM (insertInto block ref cursor.after) >>= fun _ =>
      modify fun cursor => { cursor with after := some ref }) cursor store)
  refine Leaves.liftBind (insertInto_keeps isBlock) coherent stands ?_
  intro _ left _ coherent' stands'
  refine ⟨coherent', fun _ isBlock => isBlock, ?_⟩
  rintro _ _ equal
  cases equal
  exact stands'

theorem emit_sound
    {opcode : Opcode}
    (type : Option Ty)
    (operands : List (Option Ref))
    (casesDistinct : opcode.caseValues.Nodup) :
    Sound (emit opcode type operands) :=
  Sound.bind (reserve_sound type casesDistinct) fun ref =>
    Sound.bind (Sound.lift (setOperands_keeps ref operands)) fun _ =>
      Sound.bind (place_sound ref) fun _ => Sound.pure ref

theorem move_sound (ref : Ref) : Sound (move ref) := by
  intro cursor store coherent stands
  refine Leaves.cursorBlockBind coherent stands fun block _ _ => ?_
  exact Sound.bind (Sound.lift (remove_keeps ref)) (fun _ => place_sound ref) cursor store
    coherent stands

/-! ## Terminators -/

theorem ifElse_sound (condition : Option Ref) : Sound (ifElse condition) :=
  Sound.bind (reserve_sound none List.nodup_nil) fun ref =>
    Sound.bind (Sound.lift (setOperandCount_keeps ref 3)) fun _ =>
      Sound.bind (Sound.lift (setCondition_keeps ref condition)) fun _ =>
        Sound.bind (place_sound ref) fun _ => Sound.pure ref

theorem condBranch_sound (condition whenTrue whenFalse : Option Ref) :
    Sound (condBranch condition whenTrue whenFalse) :=
  Sound.bind (reserve_sound none List.nodup_nil) fun ref =>
    Sound.bind (Sound.lift (setOperandCount_keeps ref 3)) fun _ =>
      Sound.bind (Sound.lift (setCondition_keeps ref condition)) fun _ =>
        Sound.bind (Sound.lift (setOperand_keeps ref 1 whenTrue)) fun _ =>
          Sound.bind (Sound.lift (setOperand_keeps ref 2 whenFalse)) fun _ =>
            Sound.bind (place_sound ref) fun _ => Sound.pure ref

theorem switch_sound (selector : Option Ref) : Sound (switch selector) :=
  Sound.bind (reserve_sound none List.nodup_nil) fun ref =>
    Sound.bind (Sound.lift (setOperandCount_keeps ref 2)) fun _ =>
      Sound.bind (Sound.lift (setSelector_keeps ref selector)) fun _ =>
        Sound.bind (place_sound ref) fun _ => Sound.pure ref

theorem ret_sound (result : Option Ref) : Sound (ret result) := by
  cases result with
  | none => exact Sound.violate _
  | some ref =>
      exact Sound.bind Sound.get fun _ =>
        Sound.bind (Sound.demand _) fun _ =>
          Sound.bind (Sound.see _) fun _ =>
            Sound.bind (Sound.demand _) fun _ =>
              Sound.bind (Sound.see _) fun _ =>
                Sound.bind (Sound.see _) fun _ =>
                  Sound.bind (Sound.require _ _) fun _ => emit_sound none _ List.nodup_nil

theorem rayQueryDispatch_sound (query exit : Option Ref) :
    Sound (rayQueryDispatch query exit) :=
  Sound.bind (Sound.see _) fun _ =>
    Sound.bind (Sound.require _ _) fun _ => emit_sound none _ List.nodup_nil

/-! ## Memory -/

theorem addIncomings_sound (phi : Ref) (incomings : List (Option Ref × Option Ref)) :
    Sound (addIncomings phi incomings) := by
  induction incomings with
  | nil => exact Sound.pure ()
  | cons pair rest induction =>
      exact Sound.bind (Sound.lift (addIncoming_keeps phi pair.1 pair.2)) fun _ => induction

theorem phi_sound (type : Option Ty) (incomings : List (Option Ref × Option Ref)) :
    Sound (phi type incomings) :=
  Sound.bind (Sound.require _ _) fun _ =>
    Sound.bind (reserve_sound type List.nodup_nil) fun ref =>
      Sound.bind (addIncomings_sound ref incomings) fun _ =>
        Sound.bind (place_sound ref) fun _ => Sound.pure ref

theorem alloca_sound (type : Option Ty) (space : Space) : Sound (alloca type space) :=
  Sound.bind (Sound.require _ _) fun _ => emit_sound type [] List.nodup_nil

theorem load_sound (type : Option Ty) (address : Option Ref) : Sound (load type address) :=
  Sound.bind (Sound.see _) fun _ =>
    Sound.bind (Sound.require _ _) fun _ =>
      Sound.bind (Sound.see _) fun _ =>
        Sound.bind (Sound.require _ _) fun _ => emit_sound type [address] List.nodup_nil

theorem store_sound (address stored : Option Ref) : Sound (store address stored) :=
  Sound.bind (Sound.see _) fun _ =>
    Sound.bind (Sound.require _ _) fun _ =>
      Sound.bind (Sound.see _) fun _ =>
        Sound.bind (Sound.see _) fun _ =>
          Sound.bind (Sound.require _ _) fun _ =>
            emit_sound none [address, stored] List.nodup_nil

theorem gep_sound (type : Option Ty) (base : Option Ref) (indices : List (Option Ref)) :
    Sound (gep type base indices) :=
  Sound.bind (Sound.see _) fun _ =>
    Sound.bind (Sound.require _ _) fun _ =>
      Sound.bind (Sound.see _) fun aggregate =>
        Sound.bind (Sound.lift (requireElementType_respects type aggregate indices)) fun _ =>
          emit_sound type (base :: indices) List.nodup_nil

theorem atomic_sound
    (type : Option Ty)
    (op : AtomicOp)
    (base : Option Ref)
    (indices operands : List (Option Ref)) :
    Sound (atomic type op base indices operands) :=
  Sound.bind (Sound.require _ _) fun _ =>
    Sound.bind (Sound.require _ _) fun _ => emit_sound type _ List.nodup_nil

/-! ## Computation -/

theorem typeOfPresent_sound (operand : Option Ref) :
    Sound (liftM (Edit.typeOfPresent operand) : Build (Option Ty)) :=
  Sound.lift (Respects.typeOfPresent operand)

theorem checkArithmetic_sound
    (type : Option Ty)
    (op : ArithmeticOp)
    (operands : List (Option Ref)) :
    Sound (checkArithmetic type op operands) := by
  unfold checkArithmetic
  split
  · exact Sound.violate _
  · exact Sound.bind (typeOfPresent_sound _) fun _ =>
      Sound.lift (requireElementType_respects _ _ _)
  · exact Sound.bind (typeOfPresent_sound _) fun _ =>
      Sound.bind (Sound.require _ _) fun _ =>
        Sound.bind (typeOfPresent_sound _) fun _ =>
          Sound.lift (requireElementType_respects _ _ _)
  · exact Sound.violate _
  · exact Sound.bind (typeOfPresent_sound _) fun _ => Sound.require _ _
  · exact Sound.violate _
  · exact Sound.pure ()

theorem arithmetic_sound
    (type : Option Ty)
    (op : ArithmeticOp)
    (operands : List (Option Ref)) :
    Sound (arithmetic type op operands) :=
  Sound.bind (checkArithmetic_sound type op operands) fun _ =>
    emit_sound type operands List.nodup_nil

theorem insert_sound (aggregate element : Option Ref) (indices : List (Option Ref)) :
    Sound (insert aggregate element indices) :=
  Sound.bind (typeOfPresent_sound aggregate) fun type => arithmetic_sound type .insert _

theorem cast_sound (type : Option Ty) (op : CastOp) (operand : Option Ref) :
    Sound (cast type op operand) := by
  refine Sound.bind (Sound.require _ _) fun _ => Sound.bind (Sound.see _) fun _ => ?_
  cases op with
  | bitwise =>
      exact Sound.bind (Sound.require _ _) fun _ => emit_sound type [operand] List.nodup_nil
  | static => exact emit_sound type [operand] List.nodup_nil

theorem checkArguments_sound
    (index : Nat)
    (parameters : List Ref)
    (arguments : List (Option Ref)) :
    Sound (checkArguments index parameters arguments) := by
  induction parameters generalizing index arguments with
  | nil => exact Sound.pure ()
  | cons parameter parameters induction =>
      cases arguments with
      | nil => exact Sound.pure ()
      | cons argument arguments =>
          refine Sound.bind (Sound.see _) fun _ => Sound.bind (Sound.see _) fun _ => ?_
          refine Sound.bind (Sound.require _ _) fun _ => Sound.bind (Sound.see _) fun isLValue => ?_
          cases isLValue with
          | true =>
              exact Sound.bind (Sound.see _) fun _ =>
                Sound.bind (Sound.require _ _) fun _ => induction (index + 1) arguments
          | false => exact induction (index + 1) arguments

theorem call_sound (type : Option Ty) (callee : Option Ref) (arguments : List (Option Ref)) :
    Sound (call type callee arguments) := by
  cases callee with
  | none => exact Sound.violate _
  | some function =>
      exact Sound.bind (Sound.see _) fun _ =>
        Sound.bind (Sound.require _ _) fun _ =>
          Sound.bind (Sound.lift (Respects.function function)) fun _ =>
            Sound.bind (Sound.require _ _) fun _ =>
              Sound.bind (checkArguments_sound 0 _ arguments) fun _ =>
                emit_sound type _ List.nodup_nil

theorem rayQueryPipeline_sound
    (query onSurface onProcedural : Option Ref)
    (captured : List (Option Ref)) :
    Sound (rayQueryPipeline query onSurface onProcedural captured) :=
  Sound.bind (Sound.see _) fun _ =>
    Sound.bind (Sound.require _ _) fun _ => emit_sound none _ List.nodup_nil

theorem clock_sound : Sound clock :=
  Sound.bind module_sound fun module =>
    Sound.bind (Sound.lift (typeBy_keeps module Registry.uint64)) fun type =>
      emit_sound (some type) [] List.nodup_nil

theorem isCondition_sound (condition : Option Ref) : Sound (isCondition condition) :=
  Sound.bind (Sound.see _) fun _ => Sound.pure _

theorem assertTrue_sound (condition : Option Ref) (message : String) :
    Sound (assertTrue condition message) :=
  Sound.bind (isCondition_sound condition) fun _ =>
    Sound.bind (Sound.require _ _) fun _ => emit_sound none [condition] List.nodup_nil

theorem assumeTrue_sound (condition : Option Ref) (message : String) :
    Sound (assumeTrue condition message) :=
  Sound.bind (isCondition_sound condition) fun _ =>
    Sound.bind (Sound.require _ _) fun _ => emit_sound none [condition] List.nodup_nil

end Build

/-! ## Copies -/

namespace Resolver

section Respects

variable {related : Store → Store → Prop} [lasting : Lasting related] {resolve : Resolver}
  (each : ∀ ref, Respects related (resolve ref))

include each

theorem operand_respects (operand : Option Ref) : Respects related (resolve.operand operand) := by
  cases operand with
  | none => exact Respects.pure none
  | some ref => exact each ref

theorem operands_respects (operands : List (Option Ref)) :
    Respects related (resolve.operands operands) := by
  induction operands with
  | nil => exact Respects.pure []
  | cons operand rest induction =>
      exact Respects.bind (operand_respects each operand) fun _ =>
        Respects.bind induction fun _ => Respects.pure _

theorem block_respects (source : Option Ref) : Respects related (resolve.block source) := by
  refine Respects.bind (operand_respects each source) fun found => ?_
  cases found with
  | none => exact Respects.pure none
  | some ref =>
      exact Respects.bind (Respects.see _) fun _ =>
        Respects.bind (Respects.require _ _) fun _ => Respects.pure _

theorem blocks_respects (source : Ref) (whole blocks : List (Option Ref)) :
    Respects related (resolve.blocks source whole blocks) := by
  induction blocks with
  | nil => exact Respects.pure []
  | cons first rest induction =>
      have unchanged : Respects related (currentBlocks source whole) :=
        Respects.bind (Respects.instruction source) fun _ =>
          Respects.ifThen (Respects.pure ()) Respects.stuck
      exact Respects.bind unchanged fun _ =>
        Respects.bind (block_respects each first) fun _ =>
          Respects.bind induction fun _ => Respects.pure _

theorem held_respects (source : Ref) (position : Nat) :
    Respects related (resolve.held source position) :=
  Respects.bind (Respects.instruction source) fun _ =>
    Respects.bind (Respects.demand _) fun block => block_respects each block

theorem opcode_respects (source : Ref) (opcode : Opcode) :
    Respects related (resolve.opcode source opcode) := by
  have one : ∀ (merge : Option Ref) (build : Option Ref → Opcode),
      Respects related (do return build (← resolve.block merge)) :=
    fun merge build => Respects.bind (block_respects each merge) fun _ => Respects.pure _
  cases opcode with
  | ifElse merge => exact one merge .ifElse
  | switch merge cases => exact one merge (.switch · cases)
  | loop merge body update =>
      exact Respects.bind (block_respects each body) fun body =>
        Respects.bind (held_respects each source _) fun update =>
          Respects.bind (held_respects each source _) fun _ => Respects.pure _
  | simpleLoop merge => exact one merge .simpleLoop
  | rayQueryLoop merge => exact one merge .rayQueryLoop
  | outline merge => exact one merge .outline
  | autodiffScope merge => exact one merge .autodiffScope
  | phi blocks =>
      exact Respects.bind (blocks_respects each source blocks blocks) fun _ => Respects.pure _
  | _ => exact Respects.pure _

end Respects

/-- Resolving a value keeps stores coherent, whatever else the resolver does. -/
def Careful (resolve : Resolver) : Prop :=
  ∀ ref, Respects Keeps (resolve ref)

variable {resolve : Resolver}

theorem length_of_gives_blocks
    {source : Ref}
    {store left : Store}
    {whole blocks answers : List (Option Ref)}
    (gives : Gives (resolve.blocks source whole blocks) store answers left) :
    answers.length = blocks.length := by
  induction blocks generalizing answers store left with
  | nil =>
      obtain ⟨rfl, -⟩ := gives_pure_iff.1 gives
      rfl
  | cons first rest induction =>
      obtain ⟨_, _, -, gives⟩ := gives_bind_iff.1 gives
      obtain ⟨_, _, -, gives⟩ := gives_bind_iff.1 gives
      obtain ⟨_, _, others, gives⟩ := gives_bind_iff.1 gives
      obtain ⟨rfl, -⟩ := gives_pure_iff.1 gives
      rw [List.length_cons, List.length_cons, induction others]

/-- A copied opcode has the cases of its source. -/
theorem caseValues_of_gives_opcode
    {source : Ref}
    {copied opcode : Opcode}
    {store left : Store}
    (given : Gives (resolve.opcode source opcode) store copied left) :
    copied.caseValues = opcode.caseValues := by
  cases opcode <;>
    simp only [Resolver.opcode, gives_bind_iff, gives_pure_iff] at given <;>
    grind [Opcode.caseValues]

end Resolver

theorem Build.clone_sound (source : Ref) {resolve : Resolver} (careful : resolve.Careful) :
    Build.Sound (Build.clone source resolve) := by
  intro cursor store coherent stands
  refine Leaves.liftBind (Respects.instruction source store) coherent stands ?_
  intro entry left given coherent stands
  obtain ⟨found, rfl⟩ := gives_instruction_iff.1 given
  have distinct := coherent.casesDistinct found
  refine Leaves.liftBind (Resolver.opcode_respects careful source entry.opcode left)
    coherent stands ?_
  intro opcode left' given coherent' stands'
  rw [← Resolver.caseValues_of_gives_opcode given] at distinct
  have rest : Sound (do
      let operands ← resolve.operands (← Edit.instruction source).values
      let copy ← reserve opcode (← Edit.see (·.typeOf source))
      Edit.setOperands copy operands
      Edit.setName copy (← Edit.see fun store => ((store.value? source).map (·.name)).getD "")
      place copy
      return copy) :=
    Sound.bind (Sound.lift (Respects.instruction source)) fun entry =>
      Sound.bind (Sound.lift (Resolver.operands_respects careful entry.values)) fun operands =>
        Sound.bind (Sound.see _) fun type =>
          Sound.bind (reserve_sound type distinct) fun copy =>
            Sound.bind (Sound.lift (setOperands_keeps copy operands)) fun _ =>
              Sound.bind (Sound.see _) fun name =>
                Sound.bind (Sound.lift (setName_keeps copy name)) fun _ =>
                  Sound.bind (place_sound copy) fun _ => Sound.pure copy
  exact rest cursor left' coherent' stands'

end ShaderIR

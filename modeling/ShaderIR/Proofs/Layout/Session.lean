import ShaderIR.Proofs.Layout.Changes

/-!
# Layouts through sessions

A session goes on after refused operations.  As long as none of them is refused
for an operand of another module, every instruction has the operands of its kind
in every state of the session, whether it is linked or not, and whether it was
built by an operation or left behind by a refused one.

Operations are proper: a count of incomings is not negative, and an instruction is not
taken apart while it is copied.
-/

namespace ShaderIR

open Store Edit

/-- A count of incomings is not negative. -/
def Change.Proper : Change → Prop
  | .setIncomingCount _ count => 0 ≤ count
  | _ => True

/-- The shape of an instruction is what it was. -/
def Store.SameShapeAt (ref : Ref) (store left : Store) : Prop :=
  left.shape? ref = store.shape? ref

instance (ref : Ref) : Lasting (SameShapeAt ref) where
  refl := fun _ => rfl
  trans := fun same same' => Eq.trans same' same

/-- What resolving the parts of an instruction does is proper, and keeps its shape. -/
def Change.ProperFor (source : Ref) (choose : Ref → Store → List Change × Option Ref) : Prop :=
  ∀ ref store, (∀ change ∈ (choose ref store).1, change.Proper) ∧
    SameShapeAt source store (outcome (performAll (choose ref store).1) store).2

/-- Counts of incomings are not negative, and copying does not take the source apart. -/
def Operation.Proper : Operation → Prop
  | .edit change => change.Proper
  | .clone source choose => Change.ProperFor source choose
  | _ => True

namespace Edit

variable {α : Type} {store : Store}

theorem quietly_laysAt {edit : Edit α} (lays : LaysAt edit store) : LaysAt (quietly edit) store :=
  lays.bind fun _ left _ laidOut => Lays.of_respects (Respects.pure ()) left laidOut

theorem laysAt_demandThat
    {holds : Store → Bool}
    {edit : Edit α}
    (laidOut : store.LaidOut)
    (lays : holds store = true → LaysAt edit store) :
    LaysAt (demandThat holds >>= fun _ => edit) store := by
  refine (Lays.of_respects (demandThat_respects holds) store laidOut).bind fun _ left given _ => ?_
  obtain ⟨held, rfl⟩ := gives_demandThat_iff.1 given
  exact lays held

theorem createBlockAt_lays (ref : Ref) (place : BlockPlace) : Lays (createBlockAt ref place) :=
  Lays.bind (Lays.of_respects (createBlockFor_steady ref)) fun block =>
    Lays.bind (setBlockAt_lays ref place (some block)) fun _ =>
      Lays.of_respects (Respects.pure block)

theorem createCase_lays (ref : Ref) (value : Int64) : Lays (createCase ref value) :=
  Lays.bind (Lays.of_respects (createBlockFor_steady ref)) fun block =>
    Lays.bind (addCase_lays ref value (some block)) fun _ =>
      Lays.of_respects (Respects.pure block)

end Edit

/-- What is built without a check has the operands of its kind. -/
theorem Opcode.fits_of_isDirect
    {opcode : Opcode}
    {type : Option Ty}
    {count : Nat}
    (direct : opcode.isDirect type count = true) :
    opcode.fits count = true := by
  unfold isDirect at direct
  split at direct <;> first | rfl | cases direct

theorem Store.shape?_of_isPhi {store : Store} {ref : Ref} (isPhi : store.isPhi ref = true) :
    ∃ blocks count, store.shape? ref = some ⟨.phi blocks, count⟩ := by
  cases found : store.instruction? ref with
  | none => simp [Store.isPhi, opcode?, found] at isPhi
  | some entry =>
      cases opcode : entry.opcode <;>
        simp [Store.isPhi, opcode?, found, opcode, Opcode.isPhi] at isPhi
      exact ⟨_, _, shape?_eq_some_iff.2 ⟨entry, found, by rw [Instruction.shape, opcode]⟩⟩

theorem Store.shape?_of_opcode?
    {store : Store}
    {ref : Ref}
    {opcode : Opcode}
    (held : store.opcode? ref = some opcode) :
    ∃ count, store.shape? ref = some ⟨opcode, count⟩ := by
  obtain ⟨entry, found, rfl⟩ := Option.map_eq_some_iff.1 held
  exact ⟨_, shape?_eq_some_iff.2 ⟨entry, found, rfl⟩⟩

theorem Change.perform_laysAt
    {store : Store}
    {change : Change}
    (laidOut : store.LaidOut)
    (proper : change.Proper) :
    LaysAt change.perform store := by
  have same {α : Type} {edit : Edit α} (respects : Respects SameShapes edit) : LaysAt edit store :=
    Lays.of_respects respects store laidOut
  have quiet {α : Type} {edit : Edit α} (respects : Respects SameShapes edit) :
      LaysAt (quietly edit) store :=
    quietly_laysAt (same respects)
  cases change with
  | addModule name =>
      exact fun _ => laidOut.of_sameShapes (sameShapes_of_contents fun _ => rfl)
  | requestType module name form => exact quiet (typeBy_steady module _)
  | vectorType module element size => exact quiet (vectorType_steady module element size)
  | arrayType module element count => exact quiet (arrayType_steady module element count)
  | recordType module members => exact quiet (recordType_steady module members)
  | constant module type data => exact quiet (constant_steady module type data)
  | constantBool module truth => exact quiet (constantBool_steady module truth)
  | constantInt32 module bits => exact quiet (constantInt32_steady module bits)
  | constantUInt32 module bits => exact quiet (constantUInt32_steady module bits)
  | constantFloat32 module bits => exact quiet (constantFloat32_steady module bits)
  | constantZero module type => exact quiet (constantZero_steady module type)
  | constantOne module type => exact quiet (constantOne_steady module type)
  | undefined module type => exact quiet (undefined_steady module type)
  | register module name => exact quiet (register_steady module name)
  | createFunction module kind result => exact quiet (createFunction_steady module kind result)
  | removeFunction module function => exact same (removeFunction_steady module function)
  | createArgument owner passing type => exact quiet (createArgument_steady owner passing type)
  | createResourceArgument owner type => exact quiet (createResourceArgument_steady owner type)
  | createBlock owner => exact quiet (createBlock_steady owner)
  | createBody owner => exact quiet (createBody_steady owner)
  | setBody owner block => exact same (setBody_steady owner block)
  | setName ref name => exact same (setName_steady ref name)
  | addComment ref comment => exact same (addComment_steady ref comment)
  | remove ref => exact same (remove_steady ref)
  | append block ref =>
      exact same (Respects.bind (demandBlock_respects block) fun _ => append_steady block ref)
  | prepend block ref =>
      exact same (Respects.bind (demandBlock_respects block) fun _ => prepend_steady block ref)
  | insertBefore ref position => exact same (insertBefore_steady ref position)
  | insertBehind ref position => exact same (insertBehind_steady ref position)
  | setUse use operand => exact same (setUse_steady use operand)
  | setOperand user position operand => exact same (setOperand_steady user position operand)
  | setCondition ref condition => exact same (setCondition_steady ref condition)
  | setSelector ref selector => exact same (setSelector_steady ref selector)
  | setStored ref stored => exact same (setStored_steady ref stored)
  | setBaseAndIndices ref base indices =>
      refine laysAt_demandThat laidOut fun isGep => ?_
      obtain ⟨count, held⟩ := shape?_of_opcode? (beq_iff_eq.1 isGep)
      exact setBaseAndIndices_laysAt laidOut held base indices
  | setBlockAt ref place block => exact setBlockAt_lays ref place block store laidOut
  | createBlockAt ref place =>
      exact quietly_laysAt (createBlockAt_lays ref place store laidOut)
  | addCase ref value block => exact addCase_lays ref value block store laidOut
  | createCase ref value => exact quietly_laysAt (createCase_lays ref value store laidOut)
  | addIncoming phi incoming block =>
      refine laysAt_demandThat laidOut fun isPhi => ?_
      obtain ⟨blocks, count, held⟩ := shape?_of_isPhi isPhi
      exact addIncoming_laysAt laidOut held incoming block
  | setIncoming phi position incoming block =>
      refine laysAt_demandThat laidOut fun isPhi => ?_
      obtain ⟨blocks, count, held⟩ := shape?_of_isPhi isPhi
      exact setIncoming_laysAt laidOut held position incoming block
  | setIncomingCount phi count =>
      refine laysAt_demandThat laidOut fun isPhi => ?_
      obtain ⟨blocks, _, held⟩ := shape?_of_isPhi isPhi
      exact setIncomingCount_laysAt laidOut held proper
  | removeIncoming phi position =>
      refine laysAt_demandThat laidOut fun isPhi => ?_
      obtain ⟨blocks, count, held⟩ := shape?_of_isPhi isPhi
      exact removeIncoming_laysAt laidOut held position
  | replaceUses old new => exact same (replaceUsesWith_steady old new)

theorem Change.performAll_laysAt
    {store : Store}
    {changes : List Change}
    (laidOut : store.LaidOut)
    (proper : ∀ change ∈ changes, change.Proper) :
    LaysAt (performAll changes) store := by
  induction changes generalizing store with
  | nil => exact Lays.of_respects (Respects.pure ()) store laidOut
  | cons change rest induction =>
      obtain ⟨first, others⟩ := List.forall_mem_cons.1 proper
      exact (change.perform_laysAt laidOut first).bind fun _ left _ laidOut' =>
        induction laidOut' others

namespace Build

variable {α β : Type} {cursor : Cursor} {store : Store}

/-- From a cursor and a store, building steps keep layouts. -/
def LaysAt (build : Build α) (cursor : Cursor) (store : Store) : Prop :=
  Edit.LaysAt (StateT.run build cursor) store

/-- Building steps that keep layouts wherever they start. -/
def Lays (build : Build α) : Prop :=
  ∀ cursor store, store.LaidOut → LaysAt build cursor store

theorem LaysAt.bind
    {build : Build α}
    {next : α → Build β}
    (first : LaysAt build cursor store)
    (second : ∀ answer moved left, Yields build cursor store answer moved left → left.LaidOut →
      LaysAt (next answer) moved left) :
    LaysAt (build >>= next) cursor store := by
  unfold LaysAt
  rw [StateT.run_bind]
  exact Edit.LaysAt.bind first fun answer left given laidOut =>
    second answer.1 answer.2 left given laidOut

theorem Lays.bind
    {build : Build α}
    {next : α → Build β}
    (first : Lays build)
    (second : ∀ answer, Lays (next answer)) :
    Lays (build >>= next) :=
  fun cursor store laidOut => (first cursor store laidOut).bind
    fun answer moved left _ laidOut' => second answer moved left laidOut'

theorem LaysAt.lift {edit : Edit α} (lays : Edit.LaysAt edit store) :
    LaysAt (liftM edit : Build α) cursor store :=
  Edit.LaysAt.bind lays fun _ left _ laidOut => Edit.Lays.of_respects (Respects.pure _) left laidOut

theorem Lays.lift {edit : Edit α} (lays : Edit.Lays edit) : Lays (liftM edit : Build α) :=
  fun _ store laidOut => LaysAt.lift (lays store laidOut)

theorem Lays.respects {edit : Edit α} (respects : Respects SameShapes edit) :
    Lays (liftM edit : Build α) :=
  Lays.lift (Edit.Lays.of_respects respects)

theorem Lays.pure (answer : α) : Lays (Pure.pure answer : Build α) :=
  fun _ _ laidOut _ => laidOut

theorem Lays.get : Lays (get : Build Cursor) :=
  fun _ _ laidOut _ => laidOut

theorem Lays.set (moved : Cursor) : Lays (set moved : Build PUnit) :=
  fun _ _ laidOut _ => laidOut

theorem Lays.modify (change : Cursor → Cursor) : Lays (modify change : Build PUnit) :=
  fun _ _ laidOut _ => laidOut

theorem Lays.see (observe : Store → α) : Lays (liftM (Edit.see observe) : Build α) :=
  Lays.respects (Respects.see observe)

theorem Lays.require (condition : Bool) (violation : Violation) :
    Lays (liftM (Edit.require condition violation) : Build Unit) :=
  Lays.respects (Respects.require condition violation)

theorem Lays.demand (found : Option α) : Lays (liftM (Edit.demand found) : Build α) :=
  Lays.respects (Respects.demand found)

theorem Lays.violate (violation : Violation) :
    Lays (liftM (Edit.violate violation : Edit α) : Build α) :=
  Lays.respects (Respects.violate violation)

/-- What comes after a new instruction has to give it its operands. -/
theorem laysAt_reserve_bind
    {opcode : Opcode}
    {type : Option Ty}
    {next : Ref → Build α}
    (laidOut : store.LaidOut)
    (rest : ∀ ref left, left.shape? = Function.update store.shape? ref (some ⟨opcode, 0⟩) →
      LaysAt (next ref) cursor left) :
    LaysAt (reserve opcode type >>= next) cursor store := by
  rcases cursor with ⟨_ | block, after⟩
  · exact fun _ => laidOut
  · -- The module of the block is looked up, and the instruction is added to it.
    have opened : StateT.run (reserve opcode type >>= next) ⟨some block, after⟩ = (do
        let module ← Edit.demand (← Edit.see (·.moduleOf? block))
        let ref ← Edit.allocate module type (.instruction { opcode })
        StateT.run (next ref) ⟨some block, after⟩) := by
      simp [reserve, module, cursorBlock]
    unfold LaysAt
    rw [opened]
    refine (Edit.Lays.of_respects (Respects.see _) store laidOut).bind fun _ left given _ => ?_
    obtain ⟨rfl, rfl⟩ := gives_see_iff.1 given
    refine (Edit.Lays.of_respects (Respects.demand _) left laidOut).bind fun module _ given _ => ?_
    obtain ⟨-, rfl⟩ := gives_demand_iff.1 given
    exact rest _ _ (shape?_allocate module type { opcode })

/-- A new instruction is given operands, as many as its kind has, before anything else happens. -/
theorem laysAt_furnish_bind
    {opcode : Opcode}
    {type : Option Ty}
    {count : Nat}
    {furnish : Ref → Edit Unit}
    {next : Ref → Build α}
    (laidOut : store.LaidOut)
    (furnishes : ∀ {ref left}, left.shape? ref = some ⟨opcode, 0⟩ →
      Reshapes (furnish ref) left ref ⟨opcode, count⟩)
    (fits : opcode.fits count = true)
    (rest : ∀ ref, Lays (next ref)) :
    LaysAt (do
      let ref ← reserve opcode type
      liftM (furnish ref)
      next ref) cursor store := by
  refine laysAt_reserve_bind laidOut fun ref left reserved => ?_
  have held : left.shape? ref = some ⟨opcode, 0⟩ := by rw [reserved, Function.update_self]
  have opened : StateT.run (liftM (furnish ref) >>= fun _ => next ref) cursor =
      furnish ref >>= fun _ => StateT.run (next ref) cursor := by
    simp
  unfold LaysAt
  rw [opened]
  refine (furnishes held).laysAt_bind fun _ left' furnished => rest ref cursor left' ?_
  rw [reserved, Function.update_idem] at furnished
  exact laidOut.of_update furnished fits

theorem cursorBlock_lays : Lays cursorBlock := by
  refine Lays.bind Lays.get fun cursor => ?_
  cases cursor.block with
  | none => exact Lays.violate _
  | some block => exact Lays.pure block

theorem module_lays : Lays module :=
  Lays.bind cursorBlock_lays fun _ => Lays.bind (Lays.see _) fun _ => Lays.demand _

theorem place_lays (ref : Ref) : Lays (place ref) :=
  Lays.bind cursorBlock_lays fun block =>
    Lays.bind Lays.get fun cursor =>
      Lays.bind (Lays.respects (insertInto_steady block ref cursor.after)) fun _ =>
        Lays.modify _

theorem placed_lays (ref : Ref) : Lays (do place ref; return ref) :=
  Lays.bind (place_lays ref) fun _ => Lays.pure ref

theorem emit_lays
    {opcode : Opcode}
    {operands : List (Option Ref)}
    (type : Option Ty)
    (fits : opcode.fits operands.length = true) :
    Lays (emit opcode type operands) :=
  fun _ _ laidOut => laysAt_furnish_bind laidOut
    (fun held => reshapes_setOperands held operands) fits placed_lays

theorem move_lays (ref : Ref) : Lays (move ref) :=
  Lays.bind cursorBlock_lays fun _ =>
    Lays.bind (Lays.respects (remove_steady ref)) fun _ => place_lays ref

/-! ## Terminators -/

theorem ifElse_lays (condition : Option Ref) : Lays (ifElse condition) :=
  fun _ _ laidOut => laysAt_furnish_bind laidOut
    (fun held => reshapes_setOperandCount held 3) rfl fun ref =>
      Lays.bind (Lays.respects (setCondition_steady ref condition)) fun _ => placed_lays ref

theorem condBranch_lays (condition whenTrue whenFalse : Option Ref) :
    Lays (condBranch condition whenTrue whenFalse) :=
  fun _ _ laidOut => laysAt_furnish_bind laidOut
    (fun held => reshapes_setOperandCount held 3) rfl fun ref =>
      Lays.bind (Lays.respects (setCondition_steady ref condition)) fun _ =>
        Lays.bind (Lays.respects (setOperand_steady ref 1 whenTrue)) fun _ =>
          Lays.bind (Lays.respects (setOperand_steady ref 2 whenFalse)) fun _ =>
            placed_lays ref

theorem switch_lays (selector : Option Ref) : Lays (switch selector) :=
  fun _ _ laidOut => laysAt_furnish_bind laidOut
    (fun held => reshapes_setOperandCount held 2) rfl fun ref =>
      Lays.bind (Lays.respects (setSelector_steady ref selector)) fun _ => placed_lays ref

theorem ret_lays (result : Option Ref) : Lays (ret result) := by
  cases result with
  | none => exact Lays.violate _
  | some ref =>
      exact Lays.bind Lays.get fun _ =>
        Lays.bind (Lays.demand _) fun _ =>
          Lays.bind (Lays.see _) fun _ =>
            Lays.bind (Lays.demand _) fun _ =>
              Lays.bind (Lays.see _) fun _ =>
                Lays.bind (Lays.see _) fun _ =>
                  Lays.bind (Lays.require _ _) fun _ => emit_lays none rfl

theorem rayQueryDispatch_lays (query exit : Option Ref) : Lays (rayQueryDispatch query exit) :=
  Lays.bind (Lays.see _) fun _ => Lays.bind (Lays.require _ _) fun _ => emit_lays none rfl

/-! ## Memory -/

theorem addIncomings_laysAt
    {phi : Ref}
    {blocks : List (Option Ref)}
    {count : Nat}
    (laidOut : store.LaidOut)
    (held : store.shape? phi = some ⟨.phi blocks, count⟩)
    (incomings : List (Option Ref × Option Ref)) :
    LaysAt (addIncomings phi incomings) cursor store := by
  induction incomings generalizing cursor store blocks count with
  | nil => exact Lays.pure () cursor store laidOut
  | cons pair rest induction =>
      refine (LaysAt.lift (addIncoming_laysAt laidOut held pair.1 pair.2)).bind ?_
      intro _ moved left yields laidOut'
      exact induction laidOut' (shape?_of_gives_addIncoming held (yields_lift_iff.1 yields).1)

theorem phi_lays (type : Option Ty) (incomings : List (Option Ref × Option Ref)) :
    Lays (phi type incomings) := by
  refine Lays.bind (Lays.require _ _) fun _ cursor store laidOut => ?_
  refine laysAt_reserve_bind laidOut fun ref left reserved => ?_
  have laidOut' : left.LaidOut := laidOut.of_update reserved rfl
  have held : left.shape? ref = some ⟨.phi [], 0⟩ := by rw [reserved, Function.update_self]
  exact (addIncomings_laysAt laidOut' held incomings).bind fun _ moved left' _ laidOut'' =>
    placed_lays ref moved left' laidOut''

theorem alloca_lays (type : Option Ty) (space : Space) : Lays (alloca type space) :=
  Lays.bind (Lays.require _ _) fun _ => emit_lays type rfl

theorem load_lays (type : Option Ty) (address : Option Ref) : Lays (load type address) :=
  Lays.bind (Lays.see _) fun _ =>
    Lays.bind (Lays.require _ _) fun _ =>
      Lays.bind (Lays.see _) fun _ =>
        Lays.bind (Lays.require _ _) fun _ => emit_lays type rfl

theorem store_lays (address stored : Option Ref) : Lays (Build.store address stored) :=
  Lays.bind (Lays.see _) fun _ =>
    Lays.bind (Lays.require _ _) fun _ =>
      Lays.bind (Lays.see _) fun _ =>
        Lays.bind (Lays.see _) fun _ =>
          Lays.bind (Lays.require _ _) fun _ => emit_lays none rfl

theorem gep_lays (type : Option Ty) (base : Option Ref) (indices : List (Option Ref)) :
    Lays (gep type base indices) :=
  Lays.bind (Lays.see _) fun _ =>
    Lays.bind (Lays.require _ _) fun _ =>
      Lays.bind (Lays.see _) fun aggregate =>
        Lays.bind (Lays.respects (requireElementType_respects type aggregate indices)) fun _ =>
          emit_lays type (by simp [Opcode.fits])

/-- An atomic operation is refused before it is built if it has too few values. -/
theorem atomic_lays
    (type : Option Ty)
    (op : AtomicOp)
    (base : Option Ref)
    (indices operands : List (Option Ref)) :
    Lays (atomic type op base indices operands) := by
  refine Lays.bind (Lays.require _ _) fun _ cursor store laidOut => ?_
  refine (Lays.require _ _ cursor store laidOut).bind fun _ moved left yields laidOut' => ?_
  obtain ⟨given, -⟩ := yields_lift_iff.1 yields
  obtain ⟨enough, -⟩ := gives_require_iff.1 given
  refine emit_lays type ?_ moved left laidOut'
  simp only [beq_iff_eq] at enough
  simp only [Opcode.fits, List.cons_append, List.length_cons, List.length_append, enough,
    decide_eq_true_eq]
  omega

/-! ## Computation -/

theorem typeOfPresent_lays (operand : Option Ref) :
    Lays (liftM (Edit.typeOfPresent operand) : Build (Option Ty)) :=
  Lays.respects (Respects.typeOfPresent operand)

theorem checkArithmetic_lays
    (type : Option Ty)
    (op : ArithmeticOp)
    (operands : List (Option Ref)) :
    Lays (checkArithmetic type op operands) := by
  unfold checkArithmetic
  split
  · exact Lays.violate _
  · exact Lays.bind (typeOfPresent_lays _) fun _ =>
      Lays.respects (requireElementType_respects _ _ _)
  · exact Lays.bind (typeOfPresent_lays _) fun _ =>
      Lays.bind (Lays.require _ _) fun _ =>
        Lays.bind (typeOfPresent_lays _) fun _ =>
          Lays.respects (requireElementType_respects _ _ _)
  · exact Lays.violate _
  · exact Lays.bind (typeOfPresent_lays _) fun _ => Lays.require _ _
  · exact Lays.violate _
  · exact Lays.pure ()

theorem arithmetic_lays
    (type : Option Ty)
    (op : ArithmeticOp)
    (operands : List (Option Ref)) :
    Lays (arithmetic type op operands) :=
  Lays.bind (checkArithmetic_lays type op operands) fun _ => emit_lays type rfl

theorem insert_lays (aggregate element : Option Ref) (indices : List (Option Ref)) :
    Lays (insert aggregate element indices) :=
  Lays.bind (typeOfPresent_lays aggregate) fun type => arithmetic_lays type .insert _

theorem cast_lays (type : Option Ty) (op : CastOp) (operand : Option Ref) :
    Lays (cast type op operand) := by
  refine Lays.bind (Lays.require _ _) fun _ => Lays.bind (Lays.see _) fun _ => ?_
  cases op with
  | bitwise => exact Lays.bind (Lays.require _ _) fun _ => emit_lays type rfl
  | static => exact emit_lays type rfl

theorem checkArguments_lays
    (index : Nat)
    (parameters : List Ref)
    (arguments : List (Option Ref)) :
    Lays (checkArguments index parameters arguments) := by
  induction parameters generalizing index arguments with
  | nil => exact Lays.pure ()
  | cons parameter parameters induction =>
      cases arguments with
      | nil => exact Lays.pure ()
      | cons argument arguments =>
          refine Lays.bind (Lays.see _) fun _ => Lays.bind (Lays.see _) fun _ => ?_
          refine Lays.bind (Lays.require _ _) fun _ => Lays.bind (Lays.see _) fun isLValue => ?_
          cases isLValue with
          | true =>
              exact Lays.bind (Lays.see _) fun _ =>
                Lays.bind (Lays.require _ _) fun _ => induction (index + 1) arguments
          | false => exact induction (index + 1) arguments

theorem call_lays (type : Option Ty) (callee : Option Ref) (arguments : List (Option Ref)) :
    Lays (call type callee arguments) := by
  cases callee with
  | none => exact Lays.violate _
  | some function =>
      exact Lays.bind (Lays.see _) fun _ =>
        Lays.bind (Lays.require _ _) fun _ =>
          Lays.bind (Lays.respects (Respects.function function)) fun _ =>
            Lays.bind (Lays.require _ _) fun _ =>
              Lays.bind (checkArguments_lays 0 _ arguments) fun _ =>
                emit_lays type (by simp [Opcode.fits])

theorem rayQueryPipeline_lays
    (query onSurface onProcedural : Option Ref)
    (captured : List (Option Ref)) :
    Lays (rayQueryPipeline query onSurface onProcedural captured) :=
  Lays.bind (Lays.see _) fun _ =>
    Lays.bind (Lays.require _ _) fun _ => emit_lays none (by simp [Opcode.fits])

theorem clock_lays : Lays clock :=
  Lays.bind module_lays fun module =>
    Lays.bind (Lays.respects (typeBy_steady module Registry.uint64)) fun type =>
      emit_lays (some type) rfl

theorem isCondition_lays (condition : Option Ref) : Lays (isCondition condition) :=
  Lays.bind (Lays.see _) fun _ => Lays.pure _

theorem assertTrue_lays (condition : Option Ref) (message : String) :
    Lays (assertTrue condition message) :=
  Lays.bind (isCondition_lays condition) fun _ =>
    Lays.bind (Lays.require _ _) fun _ => emit_lays none rfl

theorem assumeTrue_lays (condition : Option Ref) (message : String) :
    Lays (assumeTrue condition message) :=
  Lays.bind (isCondition_lays condition) fun _ =>
    Lays.bind (Lays.require _ _) fun _ => emit_lays none rfl

end Build

/-! ## Copies -/

namespace Resolver

/-- Resolving a value keeps layouts and the shape of the source. -/
structure Tidy (resolve : Resolver) (source : Ref) : Prop where
  lays : ∀ ref, Edit.Lays (resolve ref)
  spares : ∀ ref, Respects (SameShapeAt source) (resolve ref)

theorem choosing_tidy
    {source : Ref}
    {choose : Ref → Store → List Change × Option Ref}
    (proper : Change.ProperFor source choose) :
    (Resolver.choosing choose).Tidy source where
  lays := by
    intro ref store laidOut
    refine (Edit.Lays.of_respects (Respects.see _) store laidOut).bind fun chosen left given _ => ?_
    obtain ⟨rfl, rfl⟩ := gives_see_iff.1 given
    exact (Change.performAll_laysAt laidOut (proper ref left).1).bind fun _ left' _ laidOut' =>
      Edit.Lays.of_respects (Respects.pure _) left' laidOut'
  spares := by
    intro ref store
    refine Respects.bindAt (Respects.see _ store) fun chosen left given => ?_
    obtain ⟨rfl, rfl⟩ := gives_see_iff.1 given
    exact Respects.bindAt (proper ref left).2 fun _ left' _ => Respects.pure _ left'

section Tidy

variable {resolve : Resolver} {source : Ref} (tidy : resolve.Tidy source)

include tidy

theorem operand_lays (operand : Option Ref) : Edit.Lays (resolve.operand operand) := by
  cases operand with
  | none => exact Edit.Lays.of_respects (Respects.pure none)
  | some ref => exact tidy.lays ref

theorem operands_lays (operands : List (Option Ref)) : Edit.Lays (resolve.operands operands) := by
  induction operands with
  | nil => exact Edit.Lays.of_respects (Respects.pure [])
  | cons operand rest induction =>
      exact Edit.Lays.bind (operand_lays tidy operand) fun _ =>
        Edit.Lays.bind induction fun _ => Edit.Lays.of_respects (Respects.pure _)

theorem block_lays (block : Option Ref) : Edit.Lays (resolve.block block) := by
  refine Edit.Lays.bind (operand_lays tidy block) fun found => ?_
  cases found with
  | none => exact Edit.Lays.of_respects (Respects.pure none)
  | some ref =>
      exact Edit.Lays.of_respects (Respects.bind (Respects.see _) fun _ =>
        Respects.bind (Respects.require _ _) fun _ => Respects.pure _)

theorem blocks_lays (whole blocks : List (Option Ref)) :
    Edit.Lays (resolve.blocks source whole blocks) := by
  induction blocks with
  | nil => exact Edit.Lays.of_respects (Respects.pure [])
  | cons first rest induction =>
      have unchanged : Edit.Lays (currentBlocks source whole) :=
        Edit.Lays.of_respects (Respects.bind (Respects.instruction source) fun _ =>
          Respects.ifThen (Respects.pure ()) Respects.stuck)
      exact Edit.Lays.bind unchanged fun _ =>
        Edit.Lays.bind (block_lays tidy first) fun _ =>
          Edit.Lays.bind induction fun _ => Edit.Lays.of_respects (Respects.pure _)

theorem held_lays (position : Nat) : Edit.Lays (resolve.held source position) :=
  Edit.Lays.bind (Edit.Lays.of_respects (Respects.instruction source)) fun _ =>
    Edit.Lays.bind (Edit.Lays.of_respects (Respects.demand _)) fun block => block_lays tidy block

theorem opcode_lays (opcode : Opcode) : Edit.Lays (resolve.opcode source opcode) := by
  have one : ∀ (merge : Option Ref) (build : Option Ref → Opcode),
      Edit.Lays (do return build (← resolve.block merge)) := fun merge build =>
    Edit.Lays.bind (block_lays tidy merge) fun _ => Edit.Lays.of_respects (Respects.pure _)
  cases opcode with
  | ifElse merge => exact one merge .ifElse
  | switch merge cases => exact one merge (.switch · cases)
  | loop merge body update =>
      exact Edit.Lays.bind (block_lays tidy body) fun body =>
        Edit.Lays.bind (held_lays tidy _) fun update =>
          Edit.Lays.bind (held_lays tidy _) fun _ => Edit.Lays.of_respects (Respects.pure _)
  | simpleLoop merge => exact one merge .simpleLoop
  | rayQueryLoop merge => exact one merge .rayQueryLoop
  | outline merge => exact one merge .outline
  | autodiffScope merge => exact one merge .autodiffScope
  | phi blocks =>
      exact Edit.Lays.bind (blocks_lays tidy blocks blocks) fun _ =>
        Edit.Lays.of_respects (Respects.pure _)
  | _ => exact Edit.Lays.of_respects (Respects.pure _)

end Tidy

variable {resolve : Resolver} {source : Ref} {store left : Store}

theorem length_of_gives_operands
    {operands operands' : List (Option Ref)}
    (gives : Gives (resolve.operands operands) store operands' left) :
    operands'.length = operands.length := by
  induction operands generalizing operands' store left with
  | nil =>
      obtain ⟨rfl, -⟩ := gives_pure_iff.1 gives
      rfl
  | cons operand rest induction =>
      obtain ⟨_, _, -, gives⟩ := gives_bind_iff.1 gives
      obtain ⟨_, _, others, gives⟩ := gives_bind_iff.1 gives
      obtain ⟨rfl, -⟩ := gives_pure_iff.1 gives
      rw [List.length_cons, List.length_cons, induction others]

/-- A copied opcode has as many operands as its source. -/
theorem fits_of_gives_opcode
    {opcode copied : Opcode}
    {count : Nat}
    (gives : Gives (resolve.opcode source opcode) store copied left) :
    copied.fits count = opcode.fits count := by
  cases opcode with
  | phi blocks =>
      obtain ⟨answers, _, resolved, gives⟩ := gives_bind_iff.1 gives
      obtain ⟨rfl, -⟩ := gives_pure_iff.1 gives
      simp only [Opcode.fits, length_of_gives_blocks resolved]
  | _ =>
      simp only [Resolver.opcode, gives_bind_iff, gives_pure_iff] at gives
      grind [Opcode.fits]

end Resolver

open Build in
/-- A copy is given as many operands as its source has, and that has kept its shape. -/
theorem Build.clone_lays (source : Ref) {resolve : Resolver} (tidy : resolve.Tidy source) :
    Build.Lays (Build.clone source resolve) := by
  intro cursor store laidOut
  refine (Lays.respects (Respects.instruction source) cursor store laidOut).bind ?_
  intro entry cursor left yields laidOut
  obtain ⟨found, rfl⟩ := gives_instruction_iff.1 (yields_lift_iff.1 yields).1
  refine (Lays.lift (Resolver.opcode_lays tidy entry.opcode) cursor left laidOut).bind ?_
  intro opcode cursor settled yields laidOut
  have resolved := (yields_lift_iff.1 yields).1
  have spared : SameShapeAt source left settled :=
    (Resolver.opcode_respects tidy.spares source entry.opcode).of_gives resolved
  refine (Lays.respects (Respects.instruction source) cursor settled laidOut).bind ?_
  intro current cursor settled' yields laidOut
  obtain ⟨still, rfl⟩ := gives_instruction_iff.1 (yields_lift_iff.1 yields).1
  have sameOpcode : current.opcode = entry.opcode := by
    rw [SameShapeAt, shape?, shape?, found, still] at spared
    exact congrArg Shape.opcode (Option.some.inj spared)
  have fits := laidOut.fits still
  rw [sameOpcode, ← Resolver.fits_of_gives_opcode resolved] at fits
  refine (Lays.lift (Resolver.operands_lays tidy current.values) cursor settled' laidOut).bind ?_
  intro operands cursor left yields laidOut
  have length := Resolver.length_of_gives_operands (yields_lift_iff.1 yields).1
  rw [Instruction.values, List.length_map] at length
  refine (Lays.see _ cursor left laidOut).bind fun type cursor left _ laidOut => ?_
  exact laysAt_furnish_bind laidOut (fun held => reshapes_setOperands held operands)
    (by rw [length]; exact fits) fun copy =>
      Lays.bind (Lays.see _) fun name =>
        Lays.bind (Lays.respects (setName_steady copy name)) fun _ => placed_lays copy

open Build in
theorem Operation.perform_laysAt
    {store : Store}
    {operation : Operation}
    (laidOut : store.LaidOut)
    (proper : operation.Proper)
    (cursor : Cursor) :
    Build.LaysAt operation.perform cursor store := by
  have quiet {α : Type} {build : Build α} (lays : Build.Lays build) :
      Build.LaysAt (Build.quietly build) cursor store :=
    Lays.bind lays (fun _ => Lays.pure ()) cursor store laidOut
  cases operation with
  | edit change => exact LaysAt.lift (change.perform_laysAt laidOut proper)
  | takeUp moved =>
      obtain ⟨block, position⟩ := moved
      cases block with
      | none => exact Lays.set _ cursor store laidOut
      | some block =>
          exact Lays.bind (Lays.respects (demandBlock_respects block)) (fun _ => Lays.set _)
            cursor store laidOut
  | moveAfter instruction =>
      exact Lays.bind (Lays.respects (linkedBlock_respects instruction _)) (fun _ => Lays.set _)
        cursor store laidOut
  | moveBefore instruction =>
      exact Lays.bind (Lays.respects (linkedBlock_respects instruction _)) (fun _ =>
        Lays.bind (Lays.see _) fun _ => Lays.set _) cursor store laidOut
  | moveToHead block =>
      exact Lays.bind (Lays.respects (demandBlock_respects block)) (fun _ => Lays.set _)
        cursor store laidOut
  | moveToEnd block =>
      exact Lays.bind (Lays.respects (demandBlock_respects block)) (fun _ =>
        Lays.bind (Lays.see _) fun _ => Lays.set _) cursor store laidOut
  | move ref => exact move_lays ref cursor store laidOut
  | emit opcode type operands direct =>
      exact quiet (emit_lays type (Opcode.fits_of_isDirect direct))
  | ifElse condition => exact quiet (ifElse_lays condition)
  | condBranch condition whenTrue whenFalse =>
      exact quiet (condBranch_lays condition whenTrue whenFalse)
  | switch selector => exact quiet (switch_lays selector)
  | ret result => exact quiet (ret_lays result)
  | rayQueryDispatch query exit => exact quiet (rayQueryDispatch_lays query exit)
  | phi type incomings => exact quiet (phi_lays type incomings)
  | alloca type space => exact quiet (alloca_lays type space)
  | load type address => exact quiet (load_lays type address)
  | store address stored => exact quiet (store_lays address stored)
  | gep type base indices => exact quiet (gep_lays type base indices)
  | atomic type op base indices operands => exact quiet (atomic_lays type op base indices operands)
  | arithmetic type op operands => exact quiet (arithmetic_lays type op operands)
  | insert aggregate element indices => exact quiet (insert_lays aggregate element indices)
  | cast type op operand => exact quiet (cast_lays type op operand)
  | call type callee arguments => exact quiet (call_lays type callee arguments)
  | rayQueryPipeline query onSurface onProcedural captured =>
      exact quiet (rayQueryPipeline_lays query onSurface onProcedural captured)
  | clock => exact quiet clock_lays
  | assertTrue condition message => exact quiet (assertTrue_lays condition message)
  | assumeTrue condition message => exact quiet (assumeTrue_lays condition message)
  | clone source choose => exact quiet (clone_lays source (Resolver.choosing_tidy proper))

namespace Session

/-- The fault of an operation that is refused. -/
def fault? (session : Session) (operation : Operation) : Option Fault :=
  match (Build.outcome operation.perform session.cursor session.store).1 with
  | .ok _ => none
  | .error fault => some fault

/--
From a session on, operations are proper, and none of them is given an operand of another
module.
-/
def Orderly : Session → List Operation → Prop
  | _, [] => True
  | session, operation :: rest =>
    operation.Proper ∧ session.fault? operation ≠ some .foreign ∧
      Orderly (session.step operation) rest

theorem step_laidOut
    {session : Session}
    {operation : Operation}
    (laidOut : session.store.LaidOut)
    (proper : operation.Proper)
    (own : session.fault? operation ≠ some .foreign) :
    (session.step operation).store.LaidOut := by
  have lays := operation.perform_laysAt laidOut proper session.cursor
  have left : (Build.outcome operation.perform session.cursor session.store).2.LaidOut := by
    refine lays fun refused => own ?_
    unfold fault?
    rw [show (Build.outcome operation.perform session.cursor session.store).1 =
      .error .foreign from refused]
  unfold step
  rcases run : Build.outcome operation.perform session.cursor session.store with
    ⟨fault | ⟨answer, cursor⟩, store⟩
  · rw [run] at left
    exact left
  · rw [run] at left
    exact left

/-- After orderly operations, refused ones among them, every instruction is laid out. -/
theorem laidOut_foldl
    {session : Session}
    {operations : List Operation}
    (laidOut : session.store.LaidOut)
    (orderly : session.Orderly operations) :
    (operations.foldl step session).store.LaidOut := by
  induction operations generalizing session with
  | nil => exact laidOut
  | cons operation rest induction =>
      obtain ⟨proper, own, orderly⟩ := orderly
      exact induction (step_laidOut laidOut proper own) orderly

theorem laidOut_start : ({} : Session).store.LaidOut := by
  intro ref shape held
  simp [shape?, instruction?, content?, value?] at held

/--
After orderly operations, every instruction has the operands of its kind, and no
block, case or incoming is looked for where there is no operand.
-/
theorem operands_of_orderly
    {operations : List Operation}
    (orderly : Orderly {} operations)
    {ref : Ref}
    {entry : Instruction}
    (found : (after operations).store.instruction? ref = some entry) :
    entry.opcode.fits entry.operands.length = true ∧
      (∀ role position, entry.opcode.blockPlace? role = some (.operand position) →
        (entry.operand? position).isSome) ∧
      (∀ position < entry.opcode.caseValues.length, (entry.operand? (2 + position)).isSome) ∧
      ((after operations).store.incomings? ref).isSome := by
  have laidOut : (after operations).store.LaidOut := laidOut_foldl laidOut_start orderly
  exact ⟨laidOut.fits found, fun _ _ place => laidOut.operand?_isSome found place,
    fun _ isCase => laidOut.caseOperand?_isSome found isCase, laidOut.incomings?_isSome found⟩

/-- A switch with a case; a second case with the same value is refused. -/
def doubled : List Operation :=
  [.edit (.addModule "doubled"),
    .edit (.createFunction 0 .kernel none),
    .edit (.createBody ⟨0⟩),
    .edit (.createBlock ⟨0⟩),
    .moveToEnd ⟨1⟩, .switch none,
    .edit (.addCase ⟨3⟩ 7 (some ⟨2⟩)), .edit (.addCase ⟨3⟩ 7 (some ⟨2⟩))]

theorem operands_doubled :
    ∃ entry, (after doubled).store.instruction? ⟨3⟩ = some entry ∧
      entry.opcode = .switch none [7] ∧ (entry.operand? 2).isSome := by
  have orderly : Orderly {} doubled := by
    refine ⟨trivial, ?_, trivial, ?_, trivial, ?_, trivial, ?_, trivial, ?_, trivial, ?_, trivial,
      ?_, trivial, ?_, trivial⟩ <;> decide +kernel
  have shape : (after doubled).store.shape? ⟨3⟩ = some ⟨.switch none [7], 3⟩ := by decide +kernel
  obtain ⟨entry, found, shaped⟩ := shape?_eq_some_iff.1 shape
  have opcode : entry.opcode = .switch none [7] := congrArg Shape.opcode shaped
  refine ⟨entry, found, opcode, (operands_of_orderly orderly found).2.2.1 0 ?_⟩
  rw [opcode]
  decide

/-- A case whose block belongs to another module: the value is noted, and the block is refused. -/
def crossing : List Operation :=
  [.edit (.addModule "crossing"),
    .edit (.createFunction 0 .kernel none),
    .edit (.createBody ⟨0⟩),
    .edit (.addModule "crossed"),
    .edit (.createFunction 1 .kernel none),
    .edit (.createBody ⟨2⟩),
    .moveToEnd ⟨1⟩, .switch none, .edit (.addCase ⟨4⟩ 7 (some ⟨3⟩))]

/-- Without the condition on modules, a linked switch is left with a case and no block for it. -/
theorem not_laidOut_crossing : ¬(after crossing).store.LaidOut := by
  intro laidOut
  have shape : (after crossing).store.shape? ⟨4⟩ = some ⟨.switch none [7], 2⟩ := by decide +kernel
  exact absurd (laidOut shape) (by decide)

end Session

end ShaderIR

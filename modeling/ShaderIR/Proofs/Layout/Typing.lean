import ShaderIR.Proofs.Layout.Regular

/-!
# Types of the blocks, variables and phis of a session

A building step that reserves a number for a variable or a phi knows its type, and a copy
has the type of its source.  A variable is given no operands, and a copy of a variable has
none to be given.  So after any operations, refused ones among them, blocks have no type,
variables and phis have one, and variables have no operands.
-/

namespace ShaderIR

open Store Edit

namespace Build

variable {α β : Type} {related : Store → Store → Prop}

/-- From every cursor, whatever their outcome, building steps leave a related store. -/
def Respects (related : Store → Store → Prop) (build : Build α) : Prop :=
  ∀ cursor, Edit.Respects related (StateT.run build cursor)

namespace Respects

variable [lasting : Lasting related]

theorem pure (answer : α) : Respects related (Pure.pure answer : Build α) :=
  fun _ => Edit.Respects.pure _

theorem bind
    {build : Build α}
    {next : α → Build β}
    (first : Respects related build)
    (second : ∀ answer, Respects related (next answer)) :
    Respects related (build >>= next) := by
  intro cursor
  rw [StateT.run_bind]
  exact Edit.Respects.bind (first cursor) fun answer => second answer.1 answer.2

theorem bindAt
    {build : Build α}
    {next : α → Build β}
    {cursor : Cursor}
    {store : Store}
    (first : related store (outcome build cursor store).2)
    (second : ∀ answer moved left, Yields build cursor store answer moved left →
      related left (outcome (next answer) moved left).2) :
    related store (outcome (build >>= next) cursor store).2 := by
  unfold outcome
  rw [StateT.run_bind]
  exact Edit.Respects.bindAt first fun answer left gives => second answer.1 answer.2 left gives

theorem lift {edit : Edit α} (respects : Edit.Respects related edit) :
    Respects related (liftM edit : Build α) :=
  fun _ => Edit.Respects.bind respects fun _ => Edit.Respects.pure _

theorem get : Respects related (get : Build Cursor) :=
  fun _ => Edit.Respects.pure _

theorem set (moved : Cursor) : Respects related (set moved : Build PUnit) :=
  fun _ => Edit.Respects.pure _

theorem modify (change : Cursor → Cursor) : Respects related (modify change : Build PUnit) :=
  fun _ => Edit.Respects.pure _

theorem see (observe : Store → α) : Respects related (liftM (Edit.see observe) : Build α) :=
  lift (Edit.Respects.see observe)

theorem require (condition : Bool) (violation : Violation) :
    Respects related (liftM (Edit.require condition violation) : Build Unit) :=
  lift (Edit.Respects.require condition violation)

theorem demand (found : Option α) : Respects related (liftM (Edit.demand found) : Build α) :=
  lift (Edit.Respects.demand found)

theorem violate (violation : Violation) :
    Respects related (liftM (Edit.violate violation : Edit α) : Build α) :=
  lift (Edit.Respects.violate violation)

theorem typeOfPresent (operand : Option Ref) :
    Respects related (liftM (Edit.typeOfPresent operand) : Build (Option Ty)) :=
  lift (Edit.Respects.typeOfPresent operand)

theorem quietly {build : Build α} (respects : Respects related build) :
    Respects related (quietly build) :=
  bind respects fun _ => pure ()

end Respects

/-! ## Checks change nothing -/

section Checks

variable [lasting : Lasting related]

theorem cursorBlock_respects : Respects related cursorBlock := by
  refine Respects.bind Respects.get fun cursor => ?_
  cases cursor.block with
  | none => exact Respects.violate _
  | some block => exact Respects.pure block

theorem module_respects : Respects related module :=
  Respects.bind cursorBlock_respects fun _ =>
    Respects.bind (Respects.see _) fun _ => Respects.demand _

theorem checkArithmetic_respects
    (type : Option Ty)
    (op : ArithmeticOp)
    (operands : List (Option Ref)) :
    Respects related (checkArithmetic type op operands) := by
  unfold checkArithmetic
  split
  · exact Respects.violate _
  · exact Respects.bind (Respects.typeOfPresent _) fun _ =>
      Respects.lift (requireElementType_respects _ _ _)
  · exact Respects.bind (Respects.typeOfPresent _) fun _ =>
      Respects.bind (Respects.require _ _) fun _ =>
        Respects.bind (Respects.typeOfPresent _) fun _ =>
          Respects.lift (requireElementType_respects _ _ _)
  · exact Respects.violate _
  · exact Respects.bind (Respects.typeOfPresent _) fun _ => Respects.require _ _
  · exact Respects.violate _
  · exact Respects.pure ()

theorem checkArguments_respects
    (index : Nat)
    (parameters : List Ref)
    (arguments : List (Option Ref)) :
    Respects related (checkArguments index parameters arguments) := by
  induction parameters generalizing index arguments with
  | nil => exact Respects.pure ()
  | cons parameter parameters induction =>
      cases arguments with
      | nil => exact Respects.pure ()
      | cons argument arguments =>
          refine Respects.bind (Respects.see _) fun _ => Respects.bind (Respects.see _) fun _ => ?_
          refine Respects.bind (Respects.require _ _) fun _ =>
            Respects.bind (Respects.see _) fun isLValue => ?_
          cases isLValue with
          | true =>
              exact Respects.bind (Respects.see _) fun _ =>
                Respects.bind (Respects.require _ _) fun _ => induction (index + 1) arguments
          | false => exact induction (index + 1) arguments

theorem isCondition_respects (condition : Option Ref) : Respects related (isCondition condition) :=
  Respects.bind (Respects.see _) fun _ => Respects.pure _

end Checks

/-! ## Building instructions -/

variable {opcode : Opcode} {type : Option Ty} {cursor : Cursor} {store : Store}

theorem reserve_upholds (typed : opcode.isTyped = true → type.isSome) :
    Respects Upholds (reserve opcode type) := by
  refine Respects.bind module_respects fun module => Respects.lift fun store _ _ => ⟨?_, ?_⟩
  · refine regulates_allocate module (fun other => by cases other) ?_ fun other => by cases other
    rintro _ ⟨⟩ same
    exact typed (congrArg Opcode.isTyped same)
  · refine furnishes_allocate module ?_
    rintro _ ⟨⟩
    exact ⟨typed, fun _ _ => rfl⟩

/-- What comes after a new instruction starts with it, detached and without operands. -/
theorem upholds_reserve_bind
    {next : Ref → Build α}
    (typed : opcode.isTyped = true → type.isSome)
    (rest : ∀ ref moved (left : Store), left.instruction? ref = some { opcode } →
      left.Upholds (outcome (next ref) moved left).2) :
    store.Upholds (outcome (reserve opcode type >>= next) cursor store).2 := by
  refine Respects.bindAt (reserve_upholds typed cursor store) fun ref moved left yields => ?_
  refine rest ref moved left ?_
  obtain ⟨module, _, _, -, allocated⟩ := yields_bind_iff.1 yields
  obtain ⟨allocated, -⟩ := yields_lift_iff.1 allocated
  rw [Gives, outcome_allocate] at allocated
  simp only [Prod.mk.injEq, Except.ok.injEq] at allocated
  obtain ⟨rfl, rfl⟩ := allocated
  rw [instruction?_allocate, if_pos rfl]

theorem lift_bindAt
    {related : Store → Store → Prop}
    [Lasting related]
    {edit : Edit α}
    {next : α → Build β}
    (first : related store (Edit.outcome edit store).2)
    (second : ∀ answer, Respects related (next answer)) :
    related store (outcome (liftM edit >>= next) cursor store).2 := by
  refine Respects.bindAt ?_ fun answer moved left _ => second answer moved left
  rw [outcome_lift]
  rcases run : Edit.outcome edit store with ⟨_ | _, _⟩ <;> rwa [run] at first

theorem place_upholds (ref : Ref) : Respects Upholds (place ref) :=
  Respects.bind cursorBlock_respects fun block =>
    Respects.bind Respects.get fun cursor =>
      Respects.bind (Respects.lift (insertInto_steady block ref cursor.after)) fun _ =>
        Respects.modify _

theorem placed_upholds (ref : Ref) : Respects Upholds (do place ref; return ref) :=
  Respects.bind (place_upholds ref) fun _ => Respects.pure ref

/-- A new instruction is given its operands; a variable gets none. -/
theorem setOperands_upholdsAt
    {ref : Ref}
    {operands : List (Option Ref)}
    (found : store.instruction? ref = some { opcode })
    (bare : ∀ space, opcode = .alloca space → operands = []) :
    store.Upholds (Edit.outcome (setOperands ref operands) store).2 := by
  refine fun _ _ => ⟨setOperands_regulates ref operands store, ?_⟩
  by_cases isVariable : ∃ space, opcode = .alloca space
  · obtain ⟨space, same⟩ := isVariable
    rw [bare space same]
    exact setOperands_nil_furnishes ref store
  · exact setOperands_furnishesAt
      ⟨_, found, fun space same => isVariable ⟨space, same⟩⟩ operands

theorem emit_upholds
    {operands : List (Option Ref)}
    (typed : opcode.isTyped = true → type.isSome)
    (bare : ∀ space, opcode = .alloca space → operands = []) :
    Respects Upholds (emit opcode type operands) :=
  fun _ _ => upholds_reserve_bind typed fun ref _ _ found =>
    lift_bindAt (setOperands_upholdsAt found bare) fun _ => placed_upholds ref

theorem emit_upholds_of_untyped
    {operands : List (Option Ref)}
    (untyped : opcode.isTyped = false) :
    Respects Upholds (emit opcode type operands) := by
  refine emit_upholds (fun typed => ?_) fun space same => ?_
  · rw [untyped] at typed
    cases typed
  · rw [same] at untyped
    cases untyped

/-- A new instruction that is no variable is given a number of operands. -/
theorem setOperandCount_upholdsAt
    {ref : Ref}
    (found : store.instruction? ref = some { opcode })
    (untyped : opcode.isTyped = false)
    (count : Nat) :
    store.Upholds (Edit.outcome (setOperandCount ref count) store).2 := by
  refine fun _ _ => ⟨setOperandCount_regulates ref count store,
    setOperandCount_furnishesAt ⟨_, found, fun space same => ?_⟩ count⟩
  have same : opcode = .alloca space := same
  rw [same] at untyped
  cases untyped

theorem move_upholds (ref : Ref) : Respects Upholds (move ref) :=
  Respects.bind cursorBlock_respects fun _ =>
    Respects.bind (Respects.lift (remove_steady ref)) fun _ => place_upholds ref

theorem ifElse_upholds (condition : Option Ref) : Respects Upholds (ifElse condition) :=
  fun _ _ => upholds_reserve_bind nofun fun ref _ _ found =>
    lift_bindAt (setOperandCount_upholdsAt found rfl 3) fun _ =>
      Respects.bind (Respects.lift (setCondition_steady ref condition)) fun _ =>
        placed_upholds ref

theorem condBranch_upholds (condition whenTrue whenFalse : Option Ref) :
    Respects Upholds (condBranch condition whenTrue whenFalse) :=
  fun _ _ => upholds_reserve_bind nofun fun ref _ _ found =>
    lift_bindAt (setOperandCount_upholdsAt found rfl 3) fun _ =>
      Respects.bind (Respects.lift (setCondition_steady ref condition)) fun _ =>
        Respects.bind (Respects.lift (setOperand_steady ref 1 whenTrue)) fun _ =>
          Respects.bind (Respects.lift (setOperand_steady ref 2 whenFalse)) fun _ =>
            placed_upholds ref

theorem switch_upholds (selector : Option Ref) : Respects Upholds (switch selector) :=
  fun _ _ => upholds_reserve_bind nofun fun ref _ _ found =>
    lift_bindAt (setOperandCount_upholdsAt found rfl 2) fun _ =>
      Respects.bind (Respects.lift (setSelector_steady ref selector)) fun _ =>
        placed_upholds ref

theorem ret_upholds (result : Option Ref) : Respects Upholds (ret result) := by
  cases result with
  | none => exact Respects.violate _
  | some ref =>
      exact Respects.bind Respects.get fun _ =>
        Respects.bind (Respects.demand _) fun _ =>
          Respects.bind (Respects.see _) fun _ =>
            Respects.bind (Respects.demand _) fun _ =>
              Respects.bind (Respects.see _) fun _ =>
                Respects.bind (Respects.see _) fun _ =>
                  Respects.bind (Respects.require _ _) fun _ =>
                    emit_upholds_of_untyped rfl

theorem rayQueryDispatch_upholds (query exit : Option Ref) :
    Respects Upholds (rayQueryDispatch query exit) :=
  Respects.bind (Respects.see _) fun _ =>
    Respects.bind (Respects.require _ _) fun _ => emit_upholds_of_untyped rfl

theorem addIncomings_upholdsAt
    {phi : Ref}
    (isPhi : store.isPhi phi = true)
    (incomings : List (Option Ref × Option Ref)) :
    store.Upholds (outcome (addIncomings phi incomings) cursor store).2 := by
  induction incomings generalizing cursor store with
  | nil => exact Lasting.refl store
  | cons pair rest induction =>
      have furnishes := addIncoming_furnishesAt isPhi pair.1 pair.2
      refine Respects.bindAt ?_ fun _ moved left yields => ?_
      · rw [outcome_lift]
        have regulates := addIncoming_regulates phi pair.1 pair.2 store
        rcases run : Edit.outcome (addIncoming phi pair.1 pair.2) store with ⟨_ | _, _⟩ <;>
          rw [run] at furnishes regulates <;> exact fun _ _ => ⟨regulates, furnishes⟩
      · rw [(yields_lift_iff.1 yields).1] at furnishes
        exact induction (furnishes.phis isPhi)

theorem phi_upholds (type : Option Ty) (incomings : List (Option Ref × Option Ref)) :
    Respects Upholds (phi type incomings) := by
  cases type with
  | none => exact fun _ store => Edit.Lasting.refl store
  | some type =>
      refine Respects.bind (Respects.require _ _) fun _ _ _ =>
        upholds_reserve_bind (fun _ => rfl) fun ref _ _ found => ?_
      exact Respects.bindAt (addIncomings_upholdsAt (isPhi_iff.2 ⟨_, found, rfl⟩) incomings)
        fun _ moved left _ => placed_upholds ref moved left

/-- A variable without a type is refused before it is built. -/
theorem alloca_upholds (type : Option Ty) (space : Space) :
    Respects Upholds (alloca type space) := by
  cases type with
  | none => exact fun _ store => Edit.Lasting.refl store
  | some type =>
      exact Respects.bind (Respects.require _ _) fun _ =>
        emit_upholds (fun _ => rfl) fun _ _ => rfl

theorem load_upholds (type : Option Ty) (address : Option Ref) :
    Respects Upholds (load type address) :=
  Respects.bind (Respects.see _) fun _ =>
    Respects.bind (Respects.require _ _) fun _ =>
      Respects.bind (Respects.see _) fun _ =>
        Respects.bind (Respects.require _ _) fun _ =>
          emit_upholds_of_untyped rfl

theorem store_upholds (address stored : Option Ref) :
    Respects Upholds (Build.store address stored) :=
  Respects.bind (Respects.see _) fun _ =>
    Respects.bind (Respects.require _ _) fun _ =>
      Respects.bind (Respects.see _) fun _ =>
        Respects.bind (Respects.see _) fun _ =>
          Respects.bind (Respects.require _ _) fun _ =>
            emit_upholds_of_untyped rfl

theorem gep_upholds (type : Option Ty) (base : Option Ref) (indices : List (Option Ref)) :
    Respects Upholds (gep type base indices) :=
  Respects.bind (Respects.see _) fun _ =>
    Respects.bind (Respects.require _ _) fun _ =>
      Respects.bind (Respects.see _) fun aggregate =>
        Respects.bind (Respects.lift (requireElementType_respects type aggregate indices)) fun _ =>
          emit_upholds_of_untyped rfl

theorem atomic_upholds
    (type : Option Ty)
    (op : AtomicOp)
    (base : Option Ref)
    (indices operands : List (Option Ref)) :
    Respects Upholds (atomic type op base indices operands) :=
  Respects.bind (Respects.require _ _) fun _ =>
    Respects.bind (Respects.require _ _) fun _ => emit_upholds_of_untyped rfl

theorem arithmetic_upholds
    (type : Option Ty)
    (op : ArithmeticOp)
    (operands : List (Option Ref)) :
    Respects Upholds (arithmetic type op operands) :=
  Respects.bind (checkArithmetic_respects type op operands) fun _ =>
    emit_upholds_of_untyped rfl

theorem insert_upholds (aggregate element : Option Ref) (indices : List (Option Ref)) :
    Respects Upholds (insert aggregate element indices) :=
  Respects.bind (Respects.typeOfPresent aggregate) fun type => arithmetic_upholds type .insert _

theorem cast_upholds (type : Option Ty) (op : CastOp) (operand : Option Ref) :
    Respects Upholds (cast type op operand) := by
  refine Respects.bind (Respects.require _ _) fun _ => Respects.bind (Respects.see _) fun _ => ?_
  cases op with
  | bitwise =>
      exact Respects.bind (Respects.require _ _) fun _ =>
        emit_upholds_of_untyped rfl
  | static => exact emit_upholds_of_untyped rfl

theorem call_upholds (type : Option Ty) (callee : Option Ref) (arguments : List (Option Ref)) :
    Respects Upholds (call type callee arguments) := by
  cases callee with
  | none => exact Respects.violate _
  | some function =>
      exact Respects.bind (Respects.see _) fun _ =>
        Respects.bind (Respects.require _ _) fun _ =>
          Respects.bind (Respects.lift (Edit.Respects.function function)) fun _ =>
            Respects.bind (Respects.require _ _) fun _ =>
              Respects.bind (checkArguments_respects 0 _ arguments) fun _ =>
                emit_upholds_of_untyped rfl

theorem rayQueryPipeline_upholds
    (query onSurface onProcedural : Option Ref)
    (captured : List (Option Ref)) :
    Respects Upholds (rayQueryPipeline query onSurface onProcedural captured) :=
  Respects.bind (Respects.see _) fun _ =>
    Respects.bind (Respects.require _ _) fun _ => emit_upholds_of_untyped rfl

theorem clock_upholds : Respects Upholds clock :=
  Respects.bind module_respects fun module =>
    Respects.bind (Respects.lift (typeBy_steady module Registry.uint64)) fun _ =>
      emit_upholds_of_untyped rfl

theorem assertTrue_upholds (condition : Option Ref) (message : String) :
    Respects Upholds (assertTrue condition message) :=
  Respects.bind (isCondition_respects condition) fun _ =>
    Respects.bind (Respects.require _ _) fun _ => emit_upholds_of_untyped rfl

theorem assumeTrue_upholds (condition : Option Ref) (message : String) :
    Respects Upholds (assumeTrue condition message) :=
  Respects.bind (isCondition_respects condition) fun _ =>
    Respects.bind (Respects.require _ _) fun _ => emit_upholds_of_untyped rfl

end Build

/-! ## Copies -/

namespace Resolver

theorem choosing_upholds (choose : Ref → Store → List Change × Option Ref) (ref : Ref) :
    Respects Upholds (Resolver.choosing choose ref) :=
  Respects.bind (Respects.see _) fun chosen =>
    Respects.bind (Change.performAll_upholds chosen.1) fun _ => Respects.pure _

/-- Resolving the blocks of an opcode does not make another kind of it. -/
theorem isTyped_of_gives_opcode
    {resolve : Resolver}
    {store left : Store}
    {source : Ref}
    {opcode resolved : Opcode}
    (gives : Gives (resolve.opcode source opcode) store resolved left) :
    resolved.isTyped = opcode.isTyped := by
  cases opcode <;> simp only [Resolver.opcode, gives_bind_iff, gives_pure_iff] at gives <;>
    grind [Opcode.isTyped]

/-- Only the opcode of a variable is resolved to that of a variable, and nothing is done. -/
theorem eq_of_gives_opcode
    {resolve : Resolver}
    {store left : Store}
    {source : Ref}
    {opcode : Opcode}
    {space : Space}
    (gives : Gives (resolve.opcode source opcode) store (.alloca space) left) :
    opcode = .alloca space ∧ left = store := by
  cases opcode with
  | alloca other =>
      obtain ⟨same, kept⟩ := gives_pure_iff.1 gives
      exact ⟨same.symm, kept⟩
  | _ =>
      simp only [Resolver.opcode, gives_bind_iff, gives_pure_iff] at gives
      grind

end Resolver

open Build in
/-- A copy of a variable or a phi has the type that its source has once everything is resolved. -/
theorem Build.clone_upholds
    (source : Ref)
    {resolve : Resolver}
    (each : ∀ ref, Edit.Respects Upholds (resolve ref)) :
    Build.Respects Upholds (Build.clone source resolve) := by
  intro cursor store regular furnished
  have upholds : store.Upholds (outcome (Build.clone source resolve) cursor store).2 := by
    refine Respects.bindAt (Respects.lift (Edit.Respects.instruction source) cursor store) ?_
    intro entry _ left yields
    obtain ⟨found, rfl⟩ := gives_instruction_iff.1 (yields_lift_iff.1 yields).1
    have named := Resolver.opcode_respects each source entry.opcode
    refine Respects.bindAt (Respects.lift named _ left) fun opcode _ middle yields => ?_
    have resolved := (yields_lift_iff.1 yields).1
    refine Respects.bindAt (Respects.lift (Edit.Respects.instruction source) _ middle) ?_
    intro current _ same yields
    obtain ⟨found', rfl⟩ := gives_instruction_iff.1 (yields_lift_iff.1 yields).1
    have given := Resolver.operands_respects each current.values
    refine Respects.bindAt (Respects.lift given _ same) fun operands _ settled yields' => ?_
    have answered := (yields_lift_iff.1 yields').1
    have typed : opcode.isTyped = true → (settled.typeOf source).isSome := by
      intro typed
      rw [Resolver.isTyped_of_gives_opcode resolved] at typed
      have upholds : left.Upholds settled :=
        Lasting.trans (named.of_gives resolved) (given.of_gives answered)
      exact ((upholds regular furnished).1 regular).2
        ((furnished found).1 typed)
    have bare : ∀ space, opcode = .alloca space → operands = [] := by
      rintro space rfl
      obtain ⟨isVariable, rfl⟩ := Resolver.eq_of_gives_opcode resolved
      cases found.symm.trans found'
      have none := (furnished found).2 space isVariable
      rw [Instruction.values, none, List.map_nil] at answered
      exact (gives_pure_iff.1 answered).1
    refine Respects.bindAt (Respects.see _ _ settled) fun type moved seen yields => ?_
    obtain ⟨rfl, rfl⟩ := gives_see_iff.1 (yields_lift_iff.1 yields).1
    exact upholds_reserve_bind typed fun copy moved left found =>
      lift_bindAt (setOperands_upholdsAt found bare) fun _ =>
        Respects.bind (Respects.see _) fun name =>
          Respects.bind (Respects.lift (setName_steady copy name)) fun _ =>
            placed_upholds copy
  exact upholds regular furnished

/-! ## Sessions -/

/-- What is built without a check needs no type. -/
theorem Opcode.isTyped_of_isDirect
    {opcode : Opcode}
    {type : Option Ty}
    {count : Nat}
    (direct : opcode.isDirect type count = true) : opcode.isTyped = false := by
  cases opcode <;> first | rfl | cases direct

open Build in
theorem Operation.perform_upholds (operation : Operation) :
    Build.Respects Upholds operation.perform := by
  cases operation with
  | edit change => exact Respects.lift change.perform_upholds
  | takeUp moved =>
      obtain ⟨block, position⟩ := moved
      cases block with
      | none => exact Respects.set _
      | some block =>
          exact Respects.bind (Respects.lift (demandBlock_respects block)) fun _ => Respects.set _
  | moveAfter instruction =>
      exact Respects.bind (Respects.lift (linkedBlock_respects instruction _)) fun _ =>
        Respects.set _
  | moveBefore instruction =>
      exact Respects.bind (Respects.lift (linkedBlock_respects instruction _)) fun _ =>
        Respects.bind (Respects.see _) fun _ => Respects.set _
  | moveToHead block =>
      exact Respects.bind (Respects.lift (demandBlock_respects block)) fun _ => Respects.set _
  | moveToEnd block =>
      exact Respects.bind (Respects.lift (demandBlock_respects block)) fun _ =>
        Respects.bind (Respects.see _) fun _ => Respects.set _
  | move ref => exact move_upholds ref
  | emit opcode type operands direct =>
      exact Respects.quietly (emit_upholds_of_untyped (Opcode.isTyped_of_isDirect direct))
  | ifElse condition => exact Respects.quietly (ifElse_upholds condition)
  | condBranch condition whenTrue whenFalse =>
      exact Respects.quietly (condBranch_upholds condition whenTrue whenFalse)
  | switch selector => exact Respects.quietly (switch_upholds selector)
  | ret result => exact Respects.quietly (ret_upholds result)
  | rayQueryDispatch query exit => exact Respects.quietly (rayQueryDispatch_upholds query exit)
  | phi type incomings => exact Respects.quietly (phi_upholds type incomings)
  | alloca type space => exact Respects.quietly (alloca_upholds type space)
  | load type address => exact Respects.quietly (load_upholds type address)
  | store address stored => exact Respects.quietly (store_upholds address stored)
  | gep type base indices => exact Respects.quietly (gep_upholds type base indices)
  | atomic type op base indices operands =>
      exact Respects.quietly (atomic_upholds type op base indices operands)
  | arithmetic type op operands => exact Respects.quietly (arithmetic_upholds type op operands)
  | insert aggregate element indices =>
      exact Respects.quietly (insert_upholds aggregate element indices)
  | cast type op operand => exact Respects.quietly (cast_upholds type op operand)
  | call type callee arguments => exact Respects.quietly (call_upholds type callee arguments)
  | rayQueryPipeline query onSurface onProcedural captured =>
      exact Respects.quietly (rayQueryPipeline_upholds query onSurface onProcedural captured)
  | clock => exact Respects.quietly clock_upholds
  | assertTrue condition message => exact Respects.quietly (assertTrue_upholds condition message)
  | assumeTrue condition message => exact Respects.quietly (assumeTrue_upholds condition message)
  | clone source choose =>
      exact Respects.quietly (clone_upholds source (Resolver.choosing_upholds choose))

namespace Session

theorem regular_empty : ({} : Store).Regular where
  blocks := by
    intro ref isBlock
    cases isBlock
  typed := by
    intro ref isVariable
    cases isVariable
  arguments := by
    intro ref entry found
    cases found
  undefineds := by
    intro module known member
    cases member

theorem furnished_empty : ({} : Store).Furnished := by
  intro ref entry found
  cases found

theorem step_regular
    {session : Session}
    (operation : Operation)
    (regular : session.store.Regular)
    (furnished : session.store.Furnished) :
    (session.step operation).store.Regular ∧ (session.step operation).store.Furnished := by
  obtain ⟨regulates, furnishes⟩ :=
    operation.perform_upholds session.cursor session.store regular furnished
  have left := And.intro (regulates regular).1 (furnishes.furnished furnished)
  change (Build.outcome operation.perform session.cursor session.store).2.Regular ∧
    (Build.outcome operation.perform session.cursor session.store).2.Furnished at left
  unfold step
  rcases run : Build.outcome operation.perform session.cursor session.store with
    ⟨fault | ⟨answer, cursor⟩, store⟩
  · rw [run] at left
    exact left
  · rw [run] at left
    exact left

theorem after_upheld (operations : List Operation) :
    (after operations).store.Regular ∧ (after operations).store.Furnished := by
  have start : ({} : Session).store.Regular ∧ ({} : Session).store.Furnished :=
    ⟨regular_empty, furnished_empty⟩
  unfold after
  generalize ({} : Session) = session at start
  induction operations generalizing session with
  | nil => exact start
  | cons operation rest induction =>
      exact induction _ (step_regular operation start.1 start.2)

/-- After any operations, refused ones among them, blocks have no type and variables have one. -/
theorem after_regular (operations : List Operation) : (after operations).store.Regular :=
  (after_upheld operations).1

/-- After any operations, phis have types and variables no operands. -/
theorem after_furnished (operations : List Operation) : (after operations).store.Furnished :=
  (after_upheld operations).2

end Session

end ShaderIR

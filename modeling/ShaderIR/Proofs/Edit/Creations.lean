import ShaderIR.Proofs.Edit.Kinds

/-!
# Creating instructions at a cursor

Every operation that builds an instruction goes through some steps that leave the cursor
where it is, and then links the new instruction at the cursor.  The steps before only check,
amend, ask for a type or create a detached instruction; copying an instruction also asks a
resolver, which performs operations of its own.
-/

namespace ShaderIR

open Store Edit

namespace Build

variable {α β : Type} {related : Store → Store → Prop}

/-- Building steps leave a related store, whatever their outcome, and leave the cursor alone. -/
structure Stays (related : Store → Store → Prop) (build : Build α) : Prop where
  respects : Respects related build
  cursor : ∀ {cursor store answer moved left}, Yields build cursor store answer moved left →
    moved = cursor

namespace Stays

variable [lasting : Lasting related]

theorem pure (answer : α) : Stays related (Pure.pure answer : Build α) :=
  ⟨Respects.pure answer, fun yields => (yields_pure_iff.1 yields).2.1⟩

theorem bind
    {build : Build α}
    {next : α → Build β}
    (first : Stays related build)
    (second : ∀ answer, Stays related (next answer)) :
    Stays related (build >>= next) := by
  refine ⟨Respects.bind first.respects fun answer => (second answer).respects, ?_⟩
  intro cursor store answer moved left yields
  obtain ⟨found, between, middle, yields, rest⟩ := yields_bind_iff.1 yields
  rw [(second found).cursor rest, first.cursor yields]

theorem lift {edit : Edit α} (respects : Edit.Respects related edit) :
    Stays related (liftM edit : Build α) :=
  ⟨Respects.lift respects, fun yields => (yields_lift_iff.1 yields).2⟩

theorem get : Stays related (get : Build Cursor) :=
  ⟨Respects.get, fun yields => (yields_get_iff.1 yields).2.1⟩

theorem see (observe : Store → α) : Stays related (liftM (Edit.see observe) : Build α) :=
  lift (Edit.Respects.see observe)

theorem require (condition : Bool) (violation : Violation) :
    Stays related (liftM (Edit.require condition violation) : Build Unit) :=
  lift (Edit.Respects.require condition violation)

theorem demand (found : Option α) : Stays related (liftM (Edit.demand found) : Build α) :=
  lift (Edit.Respects.demand found)

theorem violate (violation : Violation) :
    Stays related (liftM (Edit.violate violation : Edit α) : Build α) :=
  lift (Edit.Respects.violate violation)

theorem typeOfPresent (operand : Option Ref) :
    Stays related (liftM (Edit.typeOfPresent operand) : Build (Option Ty)) :=
  lift (Edit.Respects.typeOfPresent operand)

theorem requireElementType (want aggregate : Option Ty) (indices : List (Option Ref)) :
    Stays related (liftM (Edit.requireElementType want aggregate indices) : Build Unit) :=
  lift (requireElementType_respects want aggregate indices)

/-! ## Steps before linking -/

theorem cursorBlock : Stays related cursorBlock := by
  refine bind get fun cursor => ?_
  cases cursor.block with
  | none => exact violate _
  | some block => exact pure block

theorem module : Stays related module :=
  bind cursorBlock fun _ => bind (see _) fun _ => demand _

theorem checkArithmetic (type : Option Ty) (op : ArithmeticOp) (operands : List (Option Ref)) :
    Stays related (checkArithmetic type op operands) := by
  unfold Build.checkArithmetic
  split
  · exact violate _
  · exact bind (typeOfPresent _) fun _ => requireElementType _ _ _
  · exact bind (typeOfPresent _) fun _ => bind (require _ _) fun _ =>
      bind (typeOfPresent _) fun _ => requireElementType _ _ _
  · exact violate _
  · exact bind (typeOfPresent _) fun _ => require _ _
  · exact violate _
  · exact pure ()

theorem checkArguments (index : Nat) (parameters : List Ref) (arguments : List (Option Ref)) :
    Stays related (checkArguments index parameters arguments) := by
  induction parameters generalizing index arguments with
  | nil => exact pure ()
  | cons parameter parameters induction =>
      cases arguments with
      | nil => exact pure ()
      | cons argument arguments =>
          refine bind (see _) fun _ => bind (see _) fun _ => ?_
          refine bind (require _ _) fun _ => bind (see _) fun isLValue => ?_
          cases isLValue with
          | true =>
              exact bind (see _) fun _ =>
                bind (require _ _) fun _ => induction (index + 1) arguments
          | false => exact induction (index + 1) arguments

theorem isCondition (condition : Option Ref) : Stays related (isCondition condition) :=
  bind (see _) fun _ => pure _

section Still

variable [still : Still related]

omit lasting

theorem amending {edit : Edit α} (amends : Edit.Respects Amends edit) :
    Stays related (liftM edit : Build α) :=
  lift (Edit.Respects.of_amends amends)

theorem reserve (opcode : Opcode) (type : Option Ty) : Stays related (reserve opcode type) :=
  bind module fun module => lift fun store => still.reserve store module type opcode

theorem addIncomings (phi : Ref) (incomings : List (Option Ref × Option Ref)) :
    Stays related (addIncomings phi incomings) := by
  induction incomings with
  | nil => exact pure ()
  | cons incoming rest induction =>
      exact bind (amending (addIncoming_amends phi incoming.1 incoming.2)) fun _ => induction

end Still

end Stays

/-! ## Linking in the end -/

/-- Building steps that leave the cursor where it is and then link an instruction there. -/
inductive Creates (related : Store → Store → Prop) : Build Ref → Prop
  | links (ref : Ref) : Creates related (do place ref; return ref)
  | after {α : Type} {first : Build α} {next : α → Build Ref}
      (stays : Stays related first)
      (rest : ∀ answer, Creates related (next answer)) :
      Creates related (first >>= next)
  | refuses (violation : Violation) : Creates related (liftM (violate violation : Edit Ref))

namespace Creates

theorem place_respects [Lasting related] [moving : Moving related] (ref : Ref) :
    Respects related (place ref) :=
  Respects.bind cursorBlock_respects fun block =>
    Respects.bind Respects.get fun cursor =>
      Respects.bind (Respects.lift (moving.insertInto block ref cursor.after)) fun _ =>
        Respects.modify _

theorem respects
    [Lasting related]
    [Moving related]
    {build : Build Ref}
    (creates : Creates related build) :
    Respects related build := by
  induction creates with
  | links ref => exact Respects.bind (place_respects ref) fun _ => Respects.pure ref
  | after stays rest induction => exact Respects.bind stays.respects induction
  | refuses violation => exact Respects.violate violation

/-- Before the new instruction is linked, the store is related to the one at the start. -/
theorem yields
    [Lasting related]
    {build : Build Ref}
    (creates : Creates related build)
    {cursor moved : Cursor}
    {store left : Store}
    {new : Ref}
    (yields : Yields build cursor store new moved left) :
    ∃ between, related store between ∧ Yields (place new) cursor between () moved left := by
  induction creates generalizing store with
  | links ref =>
      obtain ⟨_, _, _, placed, rest⟩ := yields_bind_iff.1 yields
      obtain ⟨rfl, rfl, rfl⟩ := yields_pure_iff.1 rest
      exact ⟨store, Lasting.refl store, placed⟩
  | after stays rest induction =>
      obtain ⟨answer, between, middle, yields, rest⟩ := yields_bind_iff.1 yields
      obtain rfl := stays.cursor yields
      obtain ⟨last, related', placed⟩ := induction answer rest
      exact ⟨last, Lasting.trans ((stays.respects _).of_gives yields) related', placed⟩
  | refuses violation =>
      exact absurd (yields_lift_iff.1 yields).1 not_gives_violate

end Creates

/-! ## Operations that build an instruction -/

/-- What copying does after everything was resolved. -/
def copied (source : Ref) (opcode : Opcode) (operands : List (Option Ref)) : Build Ref := do
  let copy ← reserve opcode (← Edit.see (·.typeOf source))
  Edit.setOperands copy operands
  Edit.setName copy (← Edit.see fun store => ((store.value? source).map (·.name)).getD "")
  place copy
  return copy

section Building

variable [still : Still related]

open Creates

theorem emit_creates (opcode : Opcode) (type : Option Ty) (operands : List (Option Ref)) :
    Creates related (emit opcode type operands) :=
  after (Stays.reserve opcode type) fun ref =>
    after (Stays.amending (setOperands_amends ref operands)) fun _ => links ref

theorem ifElse_creates (condition : Option Ref) : Creates related (ifElse condition) :=
  after (Stays.reserve _ _) fun ref =>
    after (Stays.amending (setOperandCount_amends ref 3)) fun _ =>
      after (Stays.amending (setCondition_amends ref condition)) fun _ => links ref

theorem condBranch_creates (condition whenTrue whenFalse : Option Ref) :
    Creates related (condBranch condition whenTrue whenFalse) :=
  after (Stays.reserve _ _) fun ref =>
    after (Stays.amending (setOperandCount_amends ref 3)) fun _ =>
      after (Stays.amending (setCondition_amends ref condition)) fun _ =>
        after (Stays.amending (setOperand_amends ref 1 whenTrue)) fun _ =>
          after (Stays.amending (setOperand_amends ref 2 whenFalse)) fun _ => links ref

theorem switch_creates (selector : Option Ref) : Creates related (switch selector) :=
  after (Stays.reserve _ _) fun ref =>
    after (Stays.amending (setOperandCount_amends ref 2)) fun _ =>
      after (Stays.amending (setSelector_amends ref selector)) fun _ => links ref

theorem ret_creates (result : Option Ref) : Creates related (ret result) := by
  cases result with
  | none => exact refuses _
  | some ref =>
      exact after Stays.get fun _ =>
        after (Stays.demand _) fun _ =>
          after (Stays.see _) fun _ =>
            after (Stays.demand _) fun _ =>
              after (Stays.see _) fun _ =>
                after (Stays.see _) fun _ =>
                  after (Stays.require _ _) fun _ => emit_creates _ _ _

theorem rayQueryDispatch_creates (query exit : Option Ref) :
    Creates related (rayQueryDispatch query exit) :=
  after (Stays.see _) fun _ => after (Stays.require _ _) fun _ => emit_creates _ _ _

theorem phi_creates (type : Option Ty) (incomings : List (Option Ref × Option Ref)) :
    Creates related (phi type incomings) :=
  after (Stays.require _ _) fun _ =>
    after (Stays.reserve _ _) fun ref =>
      after (Stays.addIncomings ref incomings) fun _ => links ref

theorem alloca_creates (type : Option Ty) (space : Space) : Creates related (alloca type space) :=
  after (Stays.require _ _) fun _ => emit_creates _ _ _

theorem load_creates (type : Option Ty) (address : Option Ref) :
    Creates related (load type address) :=
  after (Stays.see _) fun _ =>
    after (Stays.require _ _) fun _ =>
      after (Stays.see _) fun _ => after (Stays.require _ _) fun _ => emit_creates _ _ _

theorem store_creates (address stored : Option Ref) : Creates related (store address stored) :=
  after (Stays.see _) fun _ =>
    after (Stays.require _ _) fun _ =>
      after (Stays.see _) fun _ =>
        after (Stays.see _) fun _ => after (Stays.require _ _) fun _ => emit_creates _ _ _

theorem gep_creates (type : Option Ty) (base : Option Ref) (indices : List (Option Ref)) :
    Creates related (gep type base indices) :=
  after (Stays.see _) fun _ =>
    after (Stays.require _ _) fun _ =>
      after (Stays.see _) fun _ =>
        after (Stays.requireElementType _ _ _) fun _ => emit_creates _ _ _

theorem atomic_creates
    (type : Option Ty)
    (op : AtomicOp)
    (base : Option Ref)
    (indices operands : List (Option Ref)) :
    Creates related (atomic type op base indices operands) :=
  after (Stays.require _ _) fun _ => after (Stays.require _ _) fun _ => emit_creates _ _ _

theorem arithmetic_creates
    (type : Option Ty)
    (op : ArithmeticOp)
    (operands : List (Option Ref)) :
    Creates related (arithmetic type op operands) :=
  after (Stays.checkArithmetic type op operands) fun _ => emit_creates _ _ _

theorem insert_creates (aggregate element : Option Ref) (indices : List (Option Ref)) :
    Creates related (insert aggregate element indices) :=
  after (Stays.typeOfPresent aggregate) fun _ => arithmetic_creates _ _ _

theorem cast_creates (type : Option Ty) (op : CastOp) (operand : Option Ref) :
    Creates related (cast type op operand) := by
  refine after (Stays.require _ _) fun _ => after (Stays.see _) fun _ => ?_
  cases op with
  | bitwise => exact after (Stays.require _ _) fun _ => emit_creates _ _ _
  | static => exact emit_creates _ _ _

theorem call_creates (type : Option Ty) (callee : Option Ref) (arguments : List (Option Ref)) :
    Creates related (call type callee arguments) := by
  cases callee with
  | none => exact refuses _
  | some function =>
      exact after (Stays.see _) fun _ =>
        after (Stays.require _ _) fun _ =>
          after (Stays.lift (Edit.Respects.function function)) fun _ =>
            after (Stays.require _ _) fun _ =>
              after (Stays.checkArguments 0 _ _) fun _ => emit_creates _ _ _

theorem rayQueryPipeline_creates
    (query onSurface onProcedural : Option Ref)
    (captured : List (Option Ref)) :
    Creates related (rayQueryPipeline query onSurface onProcedural captured) :=
  after (Stays.see _) fun _ => after (Stays.require _ _) fun _ => emit_creates _ _ _

theorem clock_creates : Creates related clock :=
  after Stays.module fun module =>
    after (Stays.lift (typeBy_still module _ _)) fun _ => emit_creates _ _ _

theorem assertTrue_creates (condition : Option Ref) (message : String) :
    Creates related (assertTrue condition message) :=
  after (Stays.isCondition condition) fun _ =>
    after (Stays.require _ _) fun _ => emit_creates _ _ _

theorem assumeTrue_creates (condition : Option Ref) (message : String) :
    Creates related (assumeTrue condition message) :=
  after (Stays.isCondition condition) fun _ =>
    after (Stays.require _ _) fun _ => emit_creates _ _ _

theorem copied_creates (source : Ref) (opcode : Opcode) (operands : List (Option Ref)) :
    Creates related (copied source opcode operands) :=
  after (Stays.see _) fun type =>
    after (Stays.reserve opcode type) fun copy =>
      after (Stays.amending (setOperands_amends copy operands)) fun _ =>
        after (Stays.see _) fun name =>
          after (Stays.amending (setName_amends copy name)) fun _ => links copy

theorem clone_creates
    (source : Ref)
    {resolve : Resolver}
    (each : ∀ ref, Edit.Respects related (resolve ref)) :
    Creates related (clone source resolve) :=
  after (Stays.lift (Edit.Respects.instruction source)) fun entry =>
    after (Stays.lift (Resolver.opcode_respects each source entry.opcode)) fun opcode =>
      after (Stays.lift (Edit.Respects.instruction source)) fun current =>
        after (Stays.lift (Resolver.operands_respects each current.values)) fun operands =>
          copied_creates source opcode operands

end Building

end Build

/-! ## Operations of a session -/

namespace Operation

open Build

/-- The steps by which an operation builds an instruction, if it is one that does. -/
def creation? : Operation → Option (Build Ref)
  | .emit opcode type operands _ => some (Build.emit opcode type operands)
  | .ifElse condition => some (Build.ifElse condition)
  | .condBranch condition whenTrue whenFalse =>
    some (Build.condBranch condition whenTrue whenFalse)
  | .switch selector => some (Build.switch selector)
  | .ret result => some (Build.ret result)
  | .rayQueryDispatch query exit => some (Build.rayQueryDispatch query exit)
  | .phi type incomings => some (Build.phi type incomings)
  | .alloca type space => some (Build.alloca type space)
  | .load type address => some (Build.load type address)
  | .store address stored => some (Build.store address stored)
  | .gep type base indices => some (Build.gep type base indices)
  | .atomic type op base indices operands => some (Build.atomic type op base indices operands)
  | .arithmetic type op operands => some (Build.arithmetic type op operands)
  | .insert aggregate element indices => some (Build.insert aggregate element indices)
  | .cast type op operand => some (Build.cast type op operand)
  | .call type callee arguments => some (Build.call type callee arguments)
  | .rayQueryPipeline query onSurface onProcedural captured =>
    some (Build.rayQueryPipeline query onSurface onProcedural captured)
  | .clock => some Build.clock
  | .assertTrue condition message => some (Build.assertTrue condition message)
  | .assumeTrue condition message => some (Build.assumeTrue condition message)
  | .clone source choose => some (Build.clone source (Resolver.choosing choose))
  | .edit _ | .takeUp _ | .moveAfter _ | .moveBefore _ | .moveToHead _ | .moveToEnd _
  | .move _ => none

theorem perform_eq_of_creation?
    {operation : Operation}
    {build : Build Ref}
    (builds : operation.creation? = some build) :
    operation.perform = Build.quietly build := by
  cases operation <;> cases builds <;> rfl

variable {related : Store → Store → Prop} [still : Still related]

/-- What the resolver of an operation respects; only copying has a resolver. -/
def Resolves (related : Store → Store → Prop) (operation : Operation) : Prop :=
  ∀ source choose, operation = .clone source choose →
    ∀ ref, Edit.Respects related (Resolver.choosing choose ref)

theorem creation?_creates
    {operation : Operation}
    {build : Build Ref}
    (builds : operation.creation? = some build)
    (resolves : operation.Resolves related) :
    Creates related build := by
  cases operation with
  | emit opcode type operands direct =>
      cases builds
      exact emit_creates opcode type operands
  | ifElse condition =>
      cases builds
      exact ifElse_creates condition
  | condBranch condition whenTrue whenFalse =>
      cases builds
      exact condBranch_creates condition whenTrue whenFalse
  | switch selector =>
      cases builds
      exact switch_creates selector
  | ret result =>
      cases builds
      exact ret_creates result
  | rayQueryDispatch query exit =>
      cases builds
      exact rayQueryDispatch_creates query exit
  | phi type incomings =>
      cases builds
      exact phi_creates type incomings
  | alloca type space =>
      cases builds
      exact alloca_creates type space
  | load type address =>
      cases builds
      exact load_creates type address
  | store address stored =>
      cases builds
      exact store_creates address stored
  | gep type base indices =>
      cases builds
      exact gep_creates type base indices
  | atomic type op base indices operands =>
      cases builds
      exact atomic_creates type op base indices operands
  | arithmetic type op operands =>
      cases builds
      exact arithmetic_creates type op operands
  | insert aggregate element indices =>
      cases builds
      exact insert_creates aggregate element indices
  | cast type op operand =>
      cases builds
      exact cast_creates type op operand
  | call type callee arguments =>
      cases builds
      exact call_creates type callee arguments
  | rayQueryPipeline query onSurface onProcedural captured =>
      cases builds
      exact rayQueryPipeline_creates query onSurface onProcedural captured
  | clock =>
      cases builds
      exact clock_creates
  | assertTrue condition message =>
      cases builds
      exact assertTrue_creates condition message
  | assumeTrue condition message =>
      cases builds
      exact assumeTrue_creates condition message
  | clone source choose =>
      cases builds
      exact clone_creates source (resolves source choose rfl)
  | _ => cases builds

theorem perform_respects
    [moving : Moving related]
    {operation : Operation}
    (edits : ∀ change, operation = .edit change → Edit.Respects related change.perform)
    (resolves : operation.Resolves related) :
    Build.Respects related operation.perform := by
  cases built : operation.creation? with
  | some build =>
      rw [perform_eq_of_creation? built]
      exact Respects.quietly (creation?_creates built resolves).respects
  | none =>
      cases operation with
      | edit change => exact Respects.lift (edits change rfl)
      | takeUp cursor =>
          obtain ⟨block, position⟩ := cursor
          cases block with
          | none => exact Respects.set _
          | some block =>
              exact Respects.bind (Respects.lift (demandBlock_respects block)) fun _ =>
                Respects.set _
      | moveAfter instruction =>
          exact Respects.bind (Respects.lift (linkedBlock_respects instruction _)) fun _ =>
            Respects.set _
      | moveBefore instruction =>
          exact Respects.bind (Respects.lift (linkedBlock_respects instruction _)) fun _ =>
            Respects.bind (Respects.see _) fun _ => Respects.set _
      | moveToHead block =>
          exact Respects.bind (Respects.lift (demandBlock_respects block)) fun _ => Respects.set _
      | moveToEnd block =>
          exact Respects.bind (Respects.lift (demandBlock_respects block)) fun _ =>
            Respects.bind (Respects.see _) fun _ => Respects.set _
      | move ref =>
          exact Respects.bind cursorBlock_respects fun _ =>
            Respects.bind (Respects.lift (moving.remove ref)) fun _ => Creates.place_respects ref
      | _ => cases built

end Operation

namespace Session

variable {related : Store → Store → Prop}

/-- What an operation respects relates the states before and after it. -/
theorem step_respects
    {operation : Operation}
    (respects : Build.Respects related operation.perform)
    (session : Session) :
    related session.store (session.step operation).store := by
  have relates : related session.store
      (Build.outcome operation.perform session.cursor session.store).2 :=
    respects session.cursor session.store
  unfold step
  rcases run : Build.outcome operation.perform session.cursor session.store with
    ⟨fault | ⟨answer, cursor⟩, store⟩
  · rw [run] at relates
    exact relates
  · rw [run] at relates
    exact relates

/-- A relation that every operation respects relates the first and the last of some states. -/
theorem foldl_respects
    [lasting : Lasting related]
    (each : ∀ operation : Operation, Build.Respects related operation.perform)
    (operations : List Operation)
    (session : Session) :
    related session.store (operations.foldl step session).store := by
  induction operations generalizing session with
  | nil => exact lasting.refl session.store
  | cons operation rest induction =>
      exact lasting.trans (step_respects (each operation) session) (induction _)

end Session

end ShaderIR

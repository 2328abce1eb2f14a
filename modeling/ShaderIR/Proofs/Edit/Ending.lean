import ShaderIR.Proofs.Edit.Outcome

/-!
# Edits that come to an end

An edit that would go on for ever answers with a fault of its own.  Whether it can
do so is decided part by part: a sequence comes to an end when its first part does
and, after each answer of that, its second part as well.

Changing operands, linking and unlinking, adding values and building instructions
always come to an end.
-/

namespace ShaderIR

namespace Edit

variable {α β : Type}

/-- Started in a store, an edit does not go on for ever. -/
def EndsAt (edit : Edit α) (store : Store) : Prop :=
  (outcome edit store).1 ≠ .error .endless

/-- Wherever it is started, an edit does not go on for ever. -/
def Ends (edit : Edit α) : Prop :=
  ∀ store, EndsAt edit store

theorem EndsAt.bind
    {edit : Edit α}
    {next : α → Edit β}
    {store : Store}
    (first : EndsAt edit store)
    (second : ∀ answer left, Gives edit store answer left → EndsAt (next answer) left) :
    EndsAt (edit >>= next) store := by
  unfold EndsAt
  rw [outcome_bind]
  rcases run : outcome edit store with ⟨fault | answer, left⟩
  · intro endless
    apply first
    rw [run]
    exact congrArg Except.error (Except.error.inj endless)
  · exact second answer left run

namespace Ends

theorem bind
    {edit : Edit α}
    {next : α → Edit β}
    (first : Ends edit)
    (second : ∀ answer, Ends (next answer)) :
    Ends (edit >>= next) :=
  fun store => (first store).bind fun answer left _ => second answer left

theorem pure (answer : α) : Ends (Pure.pure answer : Edit α) := by
  intro store
  simp [EndsAt]

theorem modify (change : Store → Store) : Ends (modify change : Edit Unit) := by
  intro store
  simp [EndsAt]

theorem see (observe : Store → α) : Ends (Edit.see observe) := by
  intro store
  simp [EndsAt]

theorem violate (violation : Violation) : Ends (Edit.violate violation : Edit α) := by
  intro store
  simp [EndsAt]

theorem stuck : Ends (Edit.stuck : Edit α) := by
  intro store
  simp [EndsAt]

theorem require (condition : Bool) (violation : Violation) :
    Ends (Edit.require condition violation) := by
  intro store
  cases condition <;> simp [EndsAt, outcome_require]

theorem demand (found : Option α) : Ends (Edit.demand found) := by
  intro store
  cases found <;> simp [EndsAt, outcome_demand]

theorem allocate (module : Nat) (type : Option Ty) (content : Content) :
    Ends (Edit.allocate module type content) := by
  intro store
  simp [EndsAt]

theorem instruction (ref : Ref) : Ends (Edit.instruction ref) :=
  bind (see _) demand

theorem operand (ref : Ref) (position : Nat) : Ends (Edit.operand ref position) :=
  bind (instruction ref) fun _ => demand _

theorem typeOfPresent (operand : Option Ref) : Ends (Edit.typeOfPresent operand) :=
  bind (demand operand) fun _ => see _

theorem requireSamePool (user : Ref) (operand : Option Ref) :
    Ends (Edit.requireSamePool user operand) := by
  cases operand with
  | none => exact pure ()
  | some ref => exact bind (see _) fun _ => require _ _

theorem ifThen
    {condition : Prop}
    [Decidable condition]
    {first second : Edit α}
    (whenTrue : Ends first)
    (whenFalse : Ends second) :
    Ends (if condition then first else second) := by
  split
  · exact whenTrue
  · exact whenFalse

theorem foldlM
    {step : α → β → Edit α}
    (steps : ∀ state element, Ends (step state element))
    (elements : List β)
    (state : α) :
    Ends (elements.foldlM step state) := by
  induction elements generalizing state with
  | nil => exact pure state
  | cons element rest induction =>
      rw [List.foldlM_cons]
      exact bind (steps state element) induction

end Ends

/-! ## What an edit ensures -/

/-- Started in a store, an edit comes to an end, and what it answers and leaves is as described. -/
def Ensures (edit : Edit α) (store : Store) (after : α → Store → Prop) : Prop :=
  EndsAt edit store ∧ ∀ answer left, Gives edit store answer left → after answer left

namespace Ensures

variable {edit : Edit α} {store : Store} {after after' : α → Store → Prop}

theorem of_ends
    (ends : Ends edit)
    (holds : ∀ answer left, Gives edit store answer left → after answer left) :
    Ensures edit store after :=
  ⟨ends store, holds⟩

theorem imp
    (ensures : Ensures edit store after)
    (implies : ∀ answer left, after answer left → after' answer left) :
    Ensures edit store after' :=
  ⟨ensures.1, fun answer left gives => implies answer left (ensures.2 answer left gives)⟩

theorem bind
    {next : α → Edit β}
    {last : β → Store → Prop}
    (first : Ensures edit store after)
    (second : ∀ answer left, after answer left → Ensures (next answer) left last) :
    Ensures (edit >>= next) store last := by
  refine ⟨first.1.bind fun answer left gives => (second answer left (first.2 answer left gives)).1,
    fun answer left gives => ?_⟩
  obtain ⟨found, between, given, rest⟩ := gives_bind_iff.1 gives
  exact (second found between (first.2 found between given)).2 answer left rest

theorem pure {answer : α} (holds : after answer store) :
    Ensures (Pure.pure answer : Edit α) store after := by
  refine of_ends (Ends.pure answer) fun found left gives => ?_
  obtain ⟨rfl, rfl⟩ := gives_pure_iff.1 gives
  exact holds

theorem violate (violation : Violation) :
    Ensures (Edit.violate violation : Edit α) store after :=
  of_ends (Ends.violate violation) fun _ _ gives => absurd gives not_gives_violate

theorem seeBind
    {observe : Store → β}
    {next : β → Edit α}
    (rest : Ensures (next (observe store)) store after) :
    Ensures (Edit.see observe >>= next) store after :=
  rest

theorem demandBind
    {found : Option β}
    {next : β → Edit α}
    (rest : ∀ held, found = some held → Ensures (next held) store after) :
    Ensures (Edit.demand found >>= next) store after := by
  have first : Ensures (Edit.demand found) store fun held left =>
      found = some held ∧ left = store :=
    of_ends (Ends.demand found) fun held left gives => gives_demand_iff.1 gives
  refine first.bind ?_
  rintro held left ⟨found, rfl⟩
  exact rest held found

theorem requireBind
    {condition : Bool}
    {violation : Violation}
    {next : Unit → Edit α}
    (rest : condition = true → Ensures (next ()) store after) :
    Ensures (Edit.require condition violation >>= next) store after := by
  have first : Ensures (Edit.require condition violation) store fun _ left =>
      condition = true ∧ left = store :=
    of_ends (Ends.require condition violation) fun _ left gives => gives_require_iff.1 gives
  refine first.bind ?_
  rintro _ left ⟨holds, rfl⟩
  exact rest holds

theorem instructionBind
    {ref : Ref}
    {next : Instruction → Edit α}
    (rest : ∀ entry, store.instruction? ref = some entry → Ensures (next entry) store after) :
    Ensures (Edit.instruction ref >>= next) store after := by
  have first : Ensures (Edit.instruction ref) store fun entry left =>
      store.instruction? ref = some entry ∧ left = store :=
    of_ends (Ends.instruction ref) fun entry left gives => gives_instruction_iff.1 gives
  refine first.bind ?_
  rintro entry left ⟨found, rfl⟩
  exact rest entry found

theorem operandBind
    {ref : Ref}
    {position : Nat}
    {next : Option Ref → Edit α}
    (rest : ∀ held entry, store.instruction? ref = some entry →
      entry.operand? position = some held → Ensures (next held) store after) :
    Ensures (Edit.operand ref position >>= next) store after := by
  have first : Ensures (Edit.operand ref position) store fun held left =>
      (∃ entry, store.instruction? ref = some entry ∧ entry.operand? position = some held) ∧
        left = store :=
    of_ends (Ends.operand ref position) fun held left gives => gives_operand_iff.1 gives
  refine first.bind ?_
  rintro held left ⟨⟨entry, found, atPosition⟩, rfl⟩
  exact rest held entry found atPosition

/-- What every step keeps, all steps keep. -/
theorem foldlM
    {step : α → β → Edit α}
    {elements : List β}
    {state : α}
    (holds : after state store)
    (steps : ∀ element ∈ elements, ∀ state store, after state store →
      Ensures (step state element) store after) :
    Ensures (elements.foldlM step state) store after := by
  induction elements generalizing state store with
  | nil => exact pure holds
  | cons element rest induction =>
      rw [List.foldlM_cons]
      refine bind (steps element List.mem_cons_self state store holds) fun state store holds => ?_
      exact induction holds fun element member => steps element (List.mem_cons_of_mem _ member)

/-- What holds of the elements still to come, each step keeps for those after its own. -/
theorem foldlM_rest
    (holds : List β → α → Store → Prop)
    {step : α → β → Edit α}
    {elements : List β}
    {state : α}
    (steps : ∀ element rest state store, holds (element :: rest) state store →
      Ensures (step state element) store (holds rest))
    (start : holds elements state store) :
    Ensures (elements.foldlM step state) store (holds []) := by
  induction elements generalizing state store with
  | nil => exact pure start
  | cons element rest induction =>
      rw [List.foldlM_cons]
      exact bind (steps element rest state store start) fun state store holds => induction holds

end Ensures

/-! ## Changing operands and opcodes -/

theorem setSlot_ends (user : Ref) (key : Nat) (operand : Option Ref) :
    Ends (setSlot user key operand) :=
  Ends.bind (Ends.requireSamePool user operand) fun _ =>
    Ends.bind (Ends.instruction user) fun _ =>
      Ends.bind (Ends.see _) fun _ =>
        Ends.bind (Ends.demand _) fun _ =>
          Ends.bind (Ends.see _) fun _ =>
            Ends.bind (Ends.modify _) fun _ =>
              Ends.bind (Ends.modify _) fun _ =>
                Ends.bind (Ends.modify _) fun _ => Ends.ifThen (Ends.modify _) (Ends.pure _)

theorem addOperand_ends (user : Ref) (operand : Option Ref) : Ends (addOperand user operand) :=
  Ends.bind (Ends.requireSamePool user operand) fun _ =>
    Ends.bind (Ends.instruction user) fun _ => Ends.modify _

theorem addOperands_ends (user : Ref) (operands : List (Option Ref)) :
    Ends (addOperands user operands) := by
  induction operands with
  | nil => exact Ends.pure ()
  | cons operand rest induction => exact Ends.bind (addOperand_ends user operand) fun _ => induction

theorem setOperands_ends (user : Ref) (operands : List (Option Ref)) :
    Ends (setOperands user operands) :=
  Ends.bind
    (Ends.bind (Ends.instruction user) fun _ =>
      Ends.bind (Ends.modify _) fun _ => Ends.modify _)
    fun _ => addOperands_ends user operands

theorem setBaseAndIndices_ends (ref : Ref) (base : Option Ref) (indices : List (Option Ref)) :
    Ends (setBaseAndIndices ref base indices) :=
  Ends.bind (Ends.see _) fun _ =>
    Ends.bind (Ends.require _ _) fun _ => setOperands_ends ref (base :: indices)

theorem redirect_ends (operand : Option Ref) (uses : List Use) : Ends (redirect operand uses) := by
  induction uses with
  | nil => exact Ends.pure ()
  | cons use rest induction => exact Ends.bind (setSlot_ends _ _ _) fun _ => induction

theorem replaceUses_ends (old : Ref) (new : Option Ref) : Ends (replaceUses old new) :=
  Ends.bind (Ends.see _) fun uses => redirect_ends new uses

theorem removeOperand_ends (user : Ref) (position : Int) : Ends (removeOperand user position) :=
  Ends.ifThen Ends.stuck <| Ends.bind (Ends.instruction user) fun _ =>
    Ends.bind (Ends.demand _) fun _ => Ends.bind (Ends.modify _) fun _ => Ends.modify _

theorem removeIncoming_ends (phi : Ref) (position : Int) : Ends (removeIncoming phi position) :=
  Ends.bind (removeOperand_ends phi position) fun _ => Ends.bind (Ends.instruction phi) fun _ =>
    Ends.ifThen Ends.stuck (Ends.bind (Ends.instruction phi) fun _ => Ends.modify _)

theorem addIncoming_ends (phi : Ref) (incoming block : Option Ref) :
    Ends (addIncoming phi incoming block) :=
  Ends.bind
    (Ends.bind (Ends.see _) fun _ => Ends.bind (Ends.see _) fun _ => Ends.require _ _)
    fun _ => Ends.bind (addOperand_ends phi incoming) fun _ =>
      Ends.bind (Ends.instruction phi) fun _ => Ends.modify _

/-! ## Linking, unlinking and adding values -/

theorem remove_ends (ref : Ref) : Ends (remove ref) := by
  refine Ends.bind (Ends.instruction ref) fun entry => ?_
  cases entry.block with
  | none => exact Ends.pure ()
  | some block =>
      exact Ends.bind (Ends.modify _) fun _ => Ends.bind (Ends.modify _) fun _ => Ends.modify _

theorem insertInto_ends (block ref : Ref) (after : Option Ref) :
    Ends (insertInto block ref after) := by
  refine Ends.bind (Ends.see _) fun _ => Ends.bind (Ends.require _ _) fun _ =>
    Ends.bind (Ends.instruction ref) fun _ => Ends.bind (Ends.require _ _) fun _ => ?_
  cases after with
  | none =>
      exact Ends.bind (Ends.modify _) fun _ => Ends.bind (Ends.modify _) fun _ => Ends.modify _
  | some position =>
      exact Ends.bind (Ends.see _) fun _ => Ends.bind (Ends.require _ _) fun _ =>
        Ends.bind (Ends.modify _) fun _ => Ends.bind (Ends.modify _) fun _ => Ends.modify _

theorem linkedBlock_ends (position : Option Ref) (violation : Violation) :
    Ends (linkedBlock position violation) := by
  cases position with
  | none => exact Ends.violate _
  | some ref =>
      refine Ends.bind (Ends.see _) fun found => ?_
      cases found with
      | none => exact Ends.violate _
      | some block => exact Ends.pure _

theorem undefined_ends (module : Nat) (type : Option Ty) : Ends (undefined module type) := by
  refine Ends.bind (Ends.see _) fun _ => Ends.bind (Ends.demand _) fun entry => ?_
  cases entry.undefineds.lookup type with
  | some ref => exact Ends.pure ref
  | none =>
      exact Ends.bind (Ends.allocate _ _ _) fun _ =>
        Ends.bind (Ends.modify _) fun _ => Ends.pure _

theorem boolConstant_ends (ref : Ref) : Ends (boolConstant ref) :=
  Ends.bind (Ends.see _) fun _ => Ends.bind (Ends.demand _) fun _ => Ends.bind (Ends.see _) fun _ =>
    Ends.bind (Ends.require _ _) fun _ => Ends.bind (Ends.demand _) fun _ => Ends.pure _

theorem intConstant_ends (ref : Ref) : Ends (intConstant ref) := by
  refine Ends.bind (Ends.see _) fun _ => Ends.bind (Ends.demand _) fun _ =>
    Ends.bind (Ends.see _) fun type => ?_
  split
  · exact Ends.violate _
  · exact Ends.bind (Ends.require _ _) fun _ => Ends.demand _

theorem requireElementType_ends (want aggregate : Option Ty) (indices : List (Option Ref)) :
    Ends (requireElementType want aggregate indices) :=
  Ends.bind (Ends.see _) fun _ => Ends.bind (Ends.demand _) fun _ => Ends.require _ _

end Edit

/-! ## Building -/

namespace Build

variable {α β : Type}

/-- Wherever they are started, building steps do not go on for ever. -/
def Ends (build : Build α) : Prop :=
  ∀ cursor, Edit.Ends (StateT.run build cursor)

namespace Ends

theorem bind
    {build : Build α}
    {next : α → Build β}
    (first : Ends build)
    (second : ∀ answer, Ends (next answer)) :
    Ends (build >>= next) := by
  intro cursor
  rw [StateT.run_bind]
  exact Edit.Ends.bind (first cursor) fun answer => second answer.1 answer.2

theorem pure (answer : α) : Ends (Pure.pure answer : Build α) :=
  fun cursor => Edit.Ends.pure (answer, cursor)

theorem lift {edit : Edit α} (ends : Edit.Ends edit) : Ends (liftM edit : Build α) :=
  fun _ => Edit.Ends.bind ends fun _ => Edit.Ends.pure _

theorem get : Ends (get : Build Cursor) :=
  fun cursor => Edit.Ends.pure (cursor, cursor)

theorem set (moved : Cursor) : Ends (set moved : Build PUnit) :=
  fun _ => Edit.Ends.pure (PUnit.unit, moved)

theorem modify (change : Cursor → Cursor) : Ends (modify change : Build PUnit) :=
  fun cursor => Edit.Ends.pure (PUnit.unit, change cursor)

theorem see (observe : Store → α) : Ends (liftM (Edit.see observe) : Build α) :=
  lift (Edit.Ends.see observe)

theorem require (condition : Bool) (violation : Violation) :
    Ends (liftM (Edit.require condition violation) : Build Unit) :=
  lift (Edit.Ends.require condition violation)

theorem typeOfPresent (operand : Option Ref) :
    Ends (liftM (Edit.typeOfPresent operand) : Build (Option Ty)) :=
  lift (Edit.Ends.typeOfPresent operand)

theorem run {build : Build α} (ends : Ends build) : Edit.Ends (Build.run build) := by
  have unfolded : Build.run build = StateT.run build {} >>= fun answer => Pure.pure answer.1 := by
    rw [Build.run, StateT.run'_eq, map_eq_pure_bind]
  rw [unfolded]
  exact Edit.Ends.bind (ends {}) fun _ => Edit.Ends.pure _

end Ends

theorem moveToEnd_ends (block : Ref) : Ends (moveToEnd block) :=
  Ends.bind (Ends.see _) fun _ => Ends.set _

theorem moveBefore_ends (position : Option Ref) : Ends (moveBefore position) :=
  Ends.bind (Ends.lift (Edit.linkedBlock_ends position _)) fun _ =>
    Ends.bind (Ends.see _) fun _ => Ends.set _

theorem cursorBlock_ends : Ends cursorBlock := by
  refine Ends.bind Ends.get fun cursor => ?_
  cases cursor.block with
  | none => exact Ends.lift (Edit.Ends.violate _)
  | some block => exact Ends.pure block

theorem reserve_ends (opcode : Opcode) (type : Option Ty) : Ends (reserve opcode type) :=
  Ends.bind
    (Ends.bind cursorBlock_ends fun _ =>
      Ends.bind (Ends.see _) fun _ => Ends.lift (Edit.Ends.demand _))
    fun _ => Ends.lift (Edit.Ends.allocate _ _ _)

theorem place_ends (ref : Ref) : Ends (place ref) :=
  Ends.bind cursorBlock_ends fun block => Ends.bind Ends.get fun cursor =>
    Ends.bind (Ends.lift (Edit.insertInto_ends block ref cursor.after)) fun _ => Ends.modify _

theorem emit_ends (opcode : Opcode) (type : Option Ty) (operands : List (Option Ref)) :
    Ends (emit opcode type operands) :=
  Ends.bind (reserve_ends opcode type) fun ref =>
    Ends.bind (Ends.lift (Edit.setOperands_ends ref operands)) fun _ =>
      Ends.bind (place_ends ref) fun _ => Ends.pure ref

theorem load_ends (type : Option Ty) (address : Option Ref) : Ends (load type address) :=
  Ends.bind (Ends.see _) fun _ => Ends.bind (Ends.require _ _) fun _ =>
    Ends.bind (Ends.see _) fun _ => Ends.bind (Ends.require _ _) fun _ => emit_ends _ _ _

theorem store_ends (address stored : Option Ref) : Ends (store address stored) :=
  Ends.bind (Ends.see _) fun _ => Ends.bind (Ends.require _ _) fun _ =>
    Ends.bind (Ends.see _) fun _ => Ends.bind (Ends.see _) fun _ =>
      Ends.bind (Ends.require _ _) fun _ => emit_ends _ _ _

theorem extract_ends (type : Option Ty) (aggregate : Option Ref) (indices : List (Option Ref)) :
    Ends (extract type aggregate indices) :=
  Ends.bind
    (Ends.bind (Ends.typeOfPresent aggregate) fun _ =>
      Ends.lift (Edit.requireElementType_ends _ _ _))
    fun _ => emit_ends _ _ _

theorem insert_ends (aggregate element : Option Ref) (indices : List (Option Ref)) :
    Ends (insert aggregate element indices) :=
  Ends.bind (Ends.typeOfPresent aggregate) fun _ =>
    Ends.bind
      (Ends.bind (Ends.typeOfPresent aggregate) fun _ => Ends.bind (Ends.require _ _) fun _ =>
        Ends.bind (Ends.typeOfPresent element) fun _ =>
          Ends.lift (Edit.requireElementType_ends _ _ _))
      fun _ => emit_ends _ _ _

/-- A phi without incomings. -/
theorem phi_ends (type : Option Ty) : Ends (phi type []) :=
  Ends.bind (Ends.require _ _) fun _ => Ends.bind (reserve_ends _ _) fun ref =>
    Ends.bind (Ends.pure ()) fun _ => Ends.bind (place_ends ref) fun _ => Ends.pure ref

end Build

end ShaderIR

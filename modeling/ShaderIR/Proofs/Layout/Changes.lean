import ShaderIR.Proofs.Layout.Shape

/-!
# Operand layouts

Instructions of a kind have a fixed number of operands, or at least so many.  A
phi has one for each of its incoming blocks, and a switch has its selector, its
default and one for each of its cases.

An edit takes the operands of a list one after the other, and refuses one of
another module when it comes to it.  The instruction is left with too few
operands then.  No other refusal has such a consequence: whatever an edit checks
besides, it checks at a time when all instructions have their operands.
-/

namespace ShaderIR

/-- Whether instructions of a kind may have so many operands. -/
def Opcode.fits (opcode : Opcode) (count : Nat) : Bool :=
  match opcode with
  | .ifElse _ | .condBranch => count == 3
  | .switch _ cases => count == 2 + cases.length
  | .loop .. | .simpleLoop _ | .branch | .breakTo | .continueTo | .rayQueryLoop _ | .outline _
  | .autodiffScope _ | .load | .cast _ | .assertTrue _ | .assumeTrue _ => count == 1
  | .unreachable _ | .rasterDiscard | .alloca _ | .clock => count == 0
  | .ret => count ≤ 1
  | .rayQueryDispatch => count == 4
  | .phi blocks => count == blocks.length
  | .store => count == 2
  | .gep | .call => 1 ≤ count
  | .atomic op => 1 + op.valueCount ≤ count
  | .rayQueryPipeline => 3 ≤ count
  | .arithmetic _ | .threadGroup _ | .resourceQuery _ | .resourceRead _ | .resourceWrite _
  | .rayQueryRead _ | .rayQueryWrite _ | .print _ | .autodiff _ => true

theorem Opcode.fits_withMerge (opcode : Opcode) (merge : Option Ref) (count : Nat) :
    (opcode.withMerge merge).fits count = opcode.fits count := by
  cases opcode <;> rfl

/-- The fault of an edit that was given an operand of another module. -/
def Fault.foreign : Fault := .violation .operandPool

namespace Store

/-- Every instruction has the operands of its kind. -/
def LaidOut (store : Store) : Prop :=
  ∀ ⦃ref shape⦄, store.shape? ref = some shape → shape.opcode.fits shape.count = true

namespace LaidOut

variable {store left : Store} {ref : Ref} {entry : Instruction}

theorem fits (laidOut : store.LaidOut) (found : store.instruction? ref = some entry) :
    entry.opcode.fits entry.operands.length = true :=
  laidOut (shape?_eq_some_iff.2 ⟨entry, found, rfl⟩)

theorem of_sameShapes (laidOut : store.LaidOut) (same : store.SameShapes left) :
    left.LaidOut := by
  intro ref shape held
  rw [same] at held
  exact laidOut held

theorem of_update
    (laidOut : store.LaidOut)
    {shape : Shape}
    (reshaped : left.shape? = Function.update store.shape? ref (some shape))
    (fits : shape.opcode.fits shape.count = true) :
    left.LaidOut := by
  intro other shape' held
  rw [reshaped, Function.update_apply] at held
  split at held
  · cases held
    exact fits
  · exact laidOut held

/-- The blocks that a terminator keeps as operands are among its operands. -/
theorem operand?_isSome
    (laidOut : store.LaidOut)
    (found : store.instruction? ref = some entry)
    {role : BlockRole}
    {position : Nat}
    (place : entry.opcode.blockPlace? role = some (.operand position)) :
    (entry.operand? position).isSome := by
  have fits := laidOut.fits found
  have within : position < entry.operands.length := by
    cases opcode : entry.opcode <;> rw [opcode] at fits place <;>
      cases role <;> simp [Opcode.blockPlace?, Opcode.merge?] at place <;>
      simp [Opcode.fits] at fits <;> omega
  simp [Instruction.operand?, within]

/-- Each case of a switch has a block among its operands. -/
theorem caseOperand?_isSome
    (laidOut : store.LaidOut)
    (found : store.instruction? ref = some entry)
    {position : Nat}
    (isCase : position < entry.opcode.caseValues.length) :
    (entry.operand? (2 + position)).isSome := by
  have fits := laidOut.fits found
  have within : 2 + position < entry.operands.length := by
    cases opcode : entry.opcode <;> rw [opcode] at fits isCase <;>
      simp [Opcode.caseValues] at isCase
    simp [Opcode.fits] at fits
    omega
  simp [Instruction.operand?, within]

/-- The incomings of a phi are pairs of an operand and a block. -/
theorem incomings?_isSome
    (laidOut : store.LaidOut)
    (found : store.instruction? ref = some entry) :
    (store.incomings? ref).isSome := by
  have fits := laidOut.fits found
  have enough : ¬entry.operands.length < entry.opcode.incomingBlocks.length := by
    cases opcode : entry.opcode <;> rw [opcode] at fits <;>
      simp_all [Opcode.fits, Opcode.incomingBlocks]
  simp [incomings?, found, enough]

end LaidOut

end Store

namespace Edit

open Store

variable {α β : Type} {store left : Store} {user : Ref} {shape shape' : Shape}

/-! ## Edits that change a shape -/

/--
An edit gives an instruction a shape and leaves all other shapes as they are,
unless an operand belongs to another module.
-/
def Reshapes (edit : Edit α) (store : Store) (user : Ref) (shape : Shape) : Prop :=
  (outcome edit store).1 = .error .foreign ∨
    ∃ answer left, Gives edit store answer left ∧
      left.shape? = Function.update store.shape? user (some shape)

theorem Reshapes.bind
    {edit : Edit α}
    {next : α → Edit β}
    (first : Reshapes edit store user shape)
    (second : ∀ answer left, left.shape? = Function.update store.shape? user (some shape) →
      Reshapes (next answer) left user shape') :
    Reshapes (edit >>= next) store user shape' := by
  rcases first with refused | ⟨answer, between, given, reshaped⟩
  · left
    rw [outcome_bind]
    rcases run : outcome edit store with ⟨fault | answer, between⟩
    · rw [run] at refused
      cases refused
      rfl
    · rw [run] at refused
      cases refused
  · rcases second answer between reshaped with refused | ⟨answer', left, given', reshaped'⟩
    · left
      rw [outcome_bind, given]
      exact refused
    · refine .inr ⟨answer', left, gives_bind_iff.2 ⟨answer, between, given, given'⟩, ?_⟩
      rw [reshaped', reshaped, Function.update_idem]

/-- Looking an instruction up answers where it has a shape. -/
theorem Reshapes.instruction_bind
    {next : Instruction → Edit β}
    (held : store.shape? user = some shape)
    (rest : ∀ entry, store.instruction? user = some entry → entry.shape = shape →
      Reshapes (next entry) store user shape') :
    Reshapes (instruction user >>= next) store user shape' := by
  obtain ⟨entry, found, rfl⟩ := shape?_eq_some_iff.1 held
  rcases rest entry found rfl with refused | ⟨answer, left, given, reshaped⟩
  · left
    rw [outcome_bind, gives_instruction_iff.2 ⟨found, rfl⟩]
    exact refused
  · exact .inr ⟨answer, left, gives_instruction_bind_iff.2 ⟨entry, found, given⟩, reshaped⟩

/-- Edits that change no shape may stand in between. -/
theorem Reshapes.of_sameShapes_bind
    {edit : Edit α}
    {next : α → Edit β}
    {answer : α}
    (given : Gives edit store answer left)
    (same : store.SameShapes left)
    (rest : Reshapes (next answer) left user shape) :
    Reshapes (edit >>= next) store user shape := by
  rcases rest with refused | ⟨answer', left', given', reshaped⟩
  · left
    rw [outcome_bind, given]
    exact refused
  · exact .inr ⟨answer', left', gives_bind_iff.2 ⟨answer, left, given, given'⟩,
      by rw [reshaped, same]⟩

theorem reshapes_modifyInstruction
    {change : Instruction → Instruction}
    {entry : Instruction}
    (found : store.instruction? user = some entry)
    (changed : (change entry).shape = shape) :
    Reshapes (modify fun store => store.modifyInstruction user change) store user shape :=
  .inr ⟨(), _, rfl, by rw [shape?_modifyInstruction found, changed]⟩

theorem reshapes_pure (held : store.shape? user = some shape) (answer : α) :
    Reshapes (pure answer : Edit α) store user shape :=
  .inr ⟨answer, store, rfl, by rw [← held, Function.update_eq_self]⟩

theorem reshapes_setOpcode (held : store.shape? user = some shape) (opcode : Opcode) :
    Reshapes (setOpcode user opcode) store user ⟨opcode, shape.count⟩ := by
  obtain ⟨entry, found, rfl⟩ := shape?_eq_some_iff.1 held
  exact reshapes_modifyInstruction found rfl

theorem reshapes_addOperand (held : store.shape? user = some shape) (operand : Option Ref) :
    Reshapes (addOperand user operand) store user ⟨shape.opcode, shape.count + 1⟩ := by
  have pool : outcome (requireSamePool user operand) store = (.ok (), store) ∨
      outcome (requireSamePool user operand) store = (.error .foreign, store) := by
    cases operand with
    | none => exact .inl rfl
    | some ref =>
        simp only [requireSamePool, outcome_bind, outcome_see, outcome_require]
        cases store.moduleOf? ref == store.moduleOf? user
        · exact .inr rfl
        · exact .inl rfl
  rcases pool with own | refused
  · refine Reshapes.of_sameShapes_bind own rfl (Reshapes.instruction_bind held ?_)
    rintro entry found rfl
    refine .inr ⟨(), _, gives_modify_iff.2 rfl, ?_⟩
    have found' : (store.makeSlot ⟨user, operand⟩).instruction? user = some entry := found
    have appended : ((store.makeSlot ⟨user, operand⟩).modifyInstruction user fun entry =>
        { entry with operands := entry.operands ++ [⟨store.nextSlot, operand⟩] }).shape? =
          Function.update store.shape? user
            (some ⟨entry.shape.opcode, entry.shape.count + 1⟩) := by
      refine Eq.trans (shape?_modifyInstruction found') ?_
      rw [Instruction.shape, List.length_append]
      rfl
    dsimp only
    split
    · exact (sameShapes_of_contents fun ref => content?_link ..).trans appended
    · exact appended
  · left
    rw [addOperand, outcome_bind, refused]

theorem reshapes_addOperands
    (held : store.shape? user = some shape)
    (operands : List (Option Ref)) :
    Reshapes (addOperands user operands) store user
      ⟨shape.opcode, shape.count + operands.length⟩ := by
  induction operands generalizing store shape with
  | nil => exact reshapes_pure held ()
  | cons operand rest induction =>
      refine Reshapes.bind (reshapes_addOperand held operand) fun _ left reshaped => ?_
      have held' : left.shape? user = some ⟨shape.opcode, shape.count + 1⟩ := by simp [reshaped]
      have rest := induction held'
      rwa [Nat.add_assoc, Nat.add_comm 1] at rest

theorem reshapes_truncateOperands (held : store.shape? user = some shape) (count : Nat) :
    Reshapes (truncateOperands user count) store user ⟨shape.opcode, min count shape.count⟩ := by
  refine Reshapes.instruction_bind held ?_
  rintro entry found rfl
  refine Reshapes.of_sameShapes_bind rfl
    (sameShapes_of_contents fun ref => content?_unlinkAll ..) ?_
  have found' : (store.unlinkAll user (entry.operands.drop count).reverse).instruction? user =
      some entry :=
    (instruction?_congr (content?_unlinkAll ..)).trans found
  exact reshapes_modifyInstruction found' (by simp [Instruction.shape])

/-- Replacing the operand list leaves as many operands as it has. -/
theorem reshapes_setOperands
    (held : store.shape? user = some shape)
    (operands : List (Option Ref)) :
    Reshapes (setOperands user operands) store user ⟨shape.opcode, operands.length⟩ := by
  refine Reshapes.bind (reshapes_truncateOperands held 0) fun _ left reshaped => ?_
  have held' : left.shape? user = some ⟨shape.opcode, 0⟩ := by simp [reshaped]
  simpa using reshapes_addOperands held' operands

theorem reshapes_setOperandCount (held : store.shape? user = some shape) (count : Nat) :
    Reshapes (setOperandCount user count) store user ⟨shape.opcode, count⟩ := by
  refine Reshapes.bind (reshapes_truncateOperands held count) fun _ left reshaped => ?_
  have held' : left.shape? user = some ⟨shape.opcode, min count shape.count⟩ := by simp [reshaped]
  refine Reshapes.instruction_bind held' fun entry found shaped => ?_
  have length : entry.operands.length = min count shape.count := congrArg Shape.count shaped
  have extended := reshapes_addOperands held' (List.replicate (count - entry.operands.length) none)
  rw [List.length_replicate, length] at extended
  have whole : min count shape.count + (count - min count shape.count) = count := by omega
  rw [length]
  rwa [whole] at extended

theorem reshapes_removeOperand
    (held : store.shape? user = some shape)
    {position : Int}
    (positive : ¬position < 0)
    (within : position.toNat < shape.count) :
    Reshapes (removeOperand user position) store user ⟨shape.opcode, shape.count - 1⟩ := by
  unfold removeOperand
  rw [if_neg positive]
  refine Reshapes.instruction_bind held ?_
  rintro entry found rfl
  have there : entry.operands[position.toNat]? = some (entry.operands.get ⟨_, within⟩) := by simp
  refine Reshapes.of_sameShapes_bind (gives_demand_iff.2 ⟨there, rfl⟩) rfl ?_
  refine Reshapes.of_sameShapes_bind rfl (sameShapes_of_contents fun ref => content?_unlink ..) ?_
  refine reshapes_modifyInstruction
    ((instruction?_congr (content?_unlink ..)).trans found) ?_
  simp [Instruction.shape, List.length_eraseIdx_of_lt within]

/-- Without such an operand, nothing happens. -/
theorem outcome_removeOperand_of_not
    (held : store.shape? user = some shape)
    {position : Int}
    (outside : position < 0 ∨ shape.count ≤ position.toNat) :
    outcome (removeOperand user position) store = (.error .stuck, store) := by
  obtain ⟨entry, found, rfl⟩ := shape?_eq_some_iff.1 held
  unfold removeOperand
  split
  · rfl
  · have missing : entry.operands[position.toNat]? = none := by
      rw [List.getElem?_eq_none_iff]
      exact outside.resolve_left ‹_›
    rw [outcome_bind, gives_instruction_iff.2 ⟨found, rfl⟩]
    simp only [outcome_bind, outcome_demand, missing]

theorem Reshapes.of_gives
    {edit : Edit α}
    {answer : α}
    (reshapes : Reshapes edit store user shape)
    (gives : Gives edit store answer left) :
    left.shape? = Function.update store.shape? user (some shape) := by
  rcases reshapes with refused | ⟨answer', left', gives', reshaped⟩
  · rw [gives] at refused
    cases refused
  · cases gives.symm.trans gives'
    exact reshaped

/-! ## Edits that keep layouts -/

/--
From a store, an edit leaves all instructions with the operands of their kinds,
unless an operand belongs to another module.
-/
def LaysAt (edit : Edit α) (store : Store) : Prop :=
  (outcome edit store).1 ≠ .error .foreign → (outcome edit store).2.LaidOut

/-- An edit that keeps layouts wherever it starts. -/
def Lays (edit : Edit α) : Prop :=
  ∀ store, store.LaidOut → LaysAt edit store

theorem LaysAt.of_gives
    {edit : Edit α}
    {answer : α}
    (lays : LaysAt edit store)
    (gives : Gives edit store answer left) :
    left.LaidOut := by
  rw [LaysAt, gives] at lays
  exact lays (by simp)

theorem LaysAt.bind
    {edit : Edit α}
    {next : α → Edit β}
    (first : LaysAt edit store)
    (second : ∀ answer left, Gives edit store answer left → left.LaidOut →
      LaysAt (next answer) left) :
    LaysAt (edit >>= next) store := by
  unfold LaysAt
  rw [outcome_bind]
  rcases run : outcome edit store with ⟨fault | answer, left⟩
  · rw [LaysAt, run] at first
    intro allowed
    refine first fun refused => allowed ?_
    cases refused
    rfl
  · exact second answer left run (first.of_gives run)

theorem Lays.bind
    {edit : Edit α}
    {next : α → Edit β}
    (first : Lays edit)
    (second : ∀ answer, Lays (next answer)) :
    Lays (edit >>= next) :=
  fun store laidOut => (first store laidOut).bind fun answer left _ laidOut' =>
    second answer left laidOut'

theorem Lays.of_respects {edit : Edit α} (respects : Respects SameShapes edit) : Lays edit :=
  fun store laidOut _ => laidOut.of_sameShapes (respects store)

theorem Reshapes.laysAt
    {edit : Edit α}
    (reshapes : Reshapes edit store user shape)
    (laidOut : store.LaidOut)
    (fits : shape.opcode.fits shape.count = true) :
    LaysAt edit store := by
  intro allowed
  rcases reshapes with refused | ⟨answer, left, given, reshaped⟩
  · exact absurd refused allowed
  · rw [given]
    exact laidOut.of_update reshaped fits

/-- What follows an edit that changes a shape has to put things right. -/
theorem Reshapes.laysAt_bind
    {edit : Edit α}
    {next : α → Edit β}
    (reshapes : Reshapes edit store user shape)
    (rest : ∀ answer left, left.shape? = Function.update store.shape? user (some shape) →
      LaysAt (next answer) left) :
    LaysAt (edit >>= next) store := by
  unfold LaysAt
  rw [outcome_bind]
  rcases reshapes with refused | ⟨answer, left, given, reshaped⟩
  · rcases run : outcome edit store with ⟨fault | answer, left⟩
    · rw [run] at refused
      cases refused
      exact fun allowed => absurd rfl allowed
    · rw [run] at refused
      cases refused
  · rw [given]
    exact rest answer left reshaped

theorem laysAt_instruction_bind
    {ref : Ref}
    {next : Instruction → Edit β}
    (laidOut : store.LaidOut)
    (rest : ∀ entry, store.instruction? ref = some entry → LaysAt (next entry) store) :
    LaysAt (instruction ref >>= next) store := by
  refine (Lays.of_respects (Respects.instruction ref) store laidOut).bind fun entry
    left given _ => ?_
  obtain ⟨found, rfl⟩ := gives_instruction_iff.1 given
  exact rest entry found

theorem laysAt_setOpcode
    {ref : Ref}
    {entry : Instruction}
    {opcode : Opcode}
    (laidOut : store.LaidOut)
    (found : store.instruction? ref = some entry)
    (fits : opcode.fits entry.operands.length = true) :
    LaysAt (setOpcode ref opcode) store :=
  (reshapes_setOpcode (shape?_eq_some_iff.2 ⟨entry, found, rfl⟩) opcode).laysAt laidOut fits

theorem setBlockAt_lays (ref : Ref) (place : BlockPlace) (block : Option Ref) :
    Lays (setBlockAt ref place block) := by
  intro store laidOut
  have stuck : LaysAt (Edit.stuck : Edit Unit) store :=
    Lays.of_respects Respects.stuck store laidOut
  cases place with
  | operand position => exact Lays.of_respects (setOperand_steady ref position block) store laidOut
  | merge =>
      refine laysAt_instruction_bind laidOut fun entry found => laysAt_setOpcode laidOut found ?_
      rw [Opcode.fits_withMerge]
      exact laidOut.fits found
  | body | update =>
      refine laysAt_instruction_bind laidOut fun entry found => ?_
      have fits := laidOut.fits found
      cases opcode : entry.opcode with
      | loop merge body update =>
          rw [opcode] at fits
          exact laysAt_setOpcode laidOut found fits
      | _ => exact stuck

/-- A case comes with an operand. -/
theorem addCase_lays (ref : Ref) (value : Int64) (block : Option Ref) :
    Lays (addCase ref value block) := by
  intro store laidOut
  refine laysAt_instruction_bind laidOut fun entry found => ?_
  have fits := laidOut.fits found
  cases opcode : entry.opcode with
  | switch merge cases =>
      refine (Lays.of_respects (Respects.require _ _) store laidOut).bind fun _ left given _ => ?_
      obtain ⟨-, rfl⟩ := gives_require_iff.1 given
      have held := shape?_eq_some_iff.2 ⟨entry, found, rfl⟩
      have reshapes := (reshapes_setOpcode held (.switch merge (cases ++ [value]))).bind
        fun _ left reshaped =>
          reshapes_addOperand (by rw [reshaped, Function.update_self]) block
      refine reshapes.laysAt laidOut ?_
      rw [opcode] at fits
      simp only [Opcode.fits, Instruction.shape, beq_iff_eq, List.length_append,
        List.length_singleton] at fits ⊢
      omega
  | _ => exact Lays.of_respects Respects.stuck store laidOut

theorem setBaseAndIndices_laysAt
    {ref : Ref}
    {count : Nat}
    (laidOut : store.LaidOut)
    (held : store.shape? ref = some ⟨.gep, count⟩)
    (base : Option Ref)
    (indices : List (Option Ref)) :
    LaysAt (setBaseAndIndices ref base indices) store := by
  refine (Lays.of_respects (Respects.see _) store laidOut).bind fun _ left given laidOut => ?_
  obtain ⟨-, rfl⟩ := gives_see_iff.1 given
  refine (Lays.of_respects (Respects.require _ _) left laidOut).bind fun _ left' given laidOut => ?_
  obtain ⟨-, rfl⟩ := gives_require_iff.1 given
  exact (reshapes_setOperands held (base :: indices)).laysAt laidOut (by simp [Opcode.fits])

/-! ## Incomings -/

section Incomings

variable {phi : Ref} {blocks : List (Option Ref)} {count : Nat}

theorem reshapes_modifyIncomingBlocks
    (held : store.shape? phi = some ⟨.phi blocks, count⟩)
    (change : List (Option Ref) → List (Option Ref)) :
    Reshapes (modifyIncomingBlocks phi change) store phi ⟨.phi (change blocks), count⟩ := by
  refine Reshapes.instruction_bind held fun entry found shaped => ?_
  have isPhi : entry.opcode = .phi blocks := congrArg Shape.opcode shaped
  rw [isPhi]
  exact reshapes_setOpcode held (.phi (change blocks))

theorem reshapes_appendIncoming
    (held : store.shape? phi = some ⟨.phi blocks, count⟩)
    (incoming block : Option Ref) :
    Reshapes (do
      addOperand phi incoming
      modifyIncomingBlocks phi (· ++ [block])) store phi ⟨.phi (blocks ++ [block]), count + 1⟩ :=
  (reshapes_addOperand held incoming).bind fun _ left reshaped =>
    reshapes_modifyIncomingBlocks (by rw [reshaped, Function.update_self]) (· ++ [block])

/-- Phis of a store that is laid out have an operand for each of their blocks. -/
theorem count_of_phi
    (laidOut : store.LaidOut)
    (held : store.shape? phi = some ⟨.phi blocks, count⟩) :
    count = blocks.length := by
  simpa [Opcode.fits] using laidOut held

theorem addIncoming_laysAt
    (laidOut : store.LaidOut)
    (held : store.shape? phi = some ⟨.phi blocks, count⟩)
    (incoming block : Option Ref) :
    LaysAt (addIncoming phi incoming block) store := by
  refine (Lays.of_respects (requireIncoming_respects phi incoming) store laidOut).bind ?_
  intro _ left given laidOut'
  have same : store.SameShapes left := (requireIncoming_respects phi incoming).of_gives given
  rw [← congrFun same phi] at held
  refine (reshapes_appendIncoming held incoming block).laysAt laidOut' ?_
  simp [Opcode.fits, count_of_phi laidOut' held]

theorem shape?_of_gives_addIncoming
    {incoming block : Option Ref}
    {answer : Unit}
    (held : store.shape? phi = some ⟨.phi blocks, count⟩)
    (gives : Gives (addIncoming phi incoming block) store answer left) :
    left.shape? phi = some ⟨.phi (blocks ++ [block]), count + 1⟩ := by
  obtain ⟨_, between, given, rest⟩ := gives_bind_iff.1 gives
  have same : store.SameShapes between := (requireIncoming_respects phi incoming).of_gives given
  rw [← congrFun same phi] at held
  rw [(reshapes_appendIncoming held incoming block).of_gives rest, Function.update_self]

theorem setIncoming_laysAt
    (laidOut : store.LaidOut)
    (held : store.shape? phi = some ⟨.phi blocks, count⟩)
    (position : Int)
    (incoming block : Option Ref) :
    LaysAt (setIncoming phi position incoming block) store := by
  refine (Lays.of_respects (requireIncoming_respects phi incoming) store laidOut).bind ?_
  intro _ checked given laidOut'
  have same : store.SameShapes checked := (requireIncoming_respects phi incoming).of_gives given
  refine (Lays.of_respects (setOperand_steady phi position incoming) checked laidOut').bind ?_
  intro _ left given laidOut''
  have same' : checked.SameShapes left := (setOperand_steady phi position incoming).of_gives given
  rw [← congrFun same phi, ← congrFun same' phi] at held
  refine laysAt_instruction_bind laidOut'' fun entry found => ?_
  split
  · exact Lays.of_respects Respects.stuck left laidOut''
  · refine (reshapes_modifyIncomingBlocks held _).laysAt laidOut'' ?_
    simp [Opcode.fits, count_of_phi laidOut'' held]

theorem setIncomingCount_laysAt
    (laidOut : store.LaidOut)
    (held : store.shape? phi = some ⟨.phi blocks, count⟩)
    {wanted : Int}
    (positive : 0 ≤ wanted) :
    LaysAt (setIncomingCount phi wanted) store := by
  rw [setIncomingCount, if_neg (Int.not_lt.2 positive)]
  have reshapes := (reshapes_setOperandCount held wanted.toNat).bind fun _ left reshaped =>
    reshapes_modifyIncomingBlocks (by rw [reshaped, Function.update_self]) fun blocks =>
      blocks.take wanted.toNat ++ List.replicate (wanted.toNat - blocks.length) none
  refine reshapes.laysAt laidOut ?_
  simp only [Opcode.fits, List.length_append, List.length_take, List.length_replicate, beq_iff_eq]
  omega

/-- An operand and a block go together, so the second step of a removal cannot fail. -/
theorem removeIncoming_laysAt
    (laidOut : store.LaidOut)
    (held : store.shape? phi = some ⟨.phi blocks, count⟩)
    (position : Int) :
    LaysAt (removeIncoming phi position) store := by
  by_cases outside : position < 0 ∨ count ≤ position.toNat
  · unfold LaysAt removeIncoming
    rw [outcome_bind, outcome_removeOperand_of_not held outside]
    exact fun _ => laidOut
  · obtain ⟨positive, within⟩ := not_or.1 outside
    have pairs := count_of_phi laidOut held
    have reshapes : Reshapes (removeIncoming phi position) store phi
        ⟨.phi (blocks.eraseIdx position.toNat), count - 1⟩ := by
      refine (reshapes_removeOperand held positive (Nat.lt_of_not_le within)).bind
        fun _ left reshaped => ?_
      have held' : left.shape? phi = some ⟨.phi blocks, count - 1⟩ := by
        rw [reshaped, Function.update_self]
      refine Reshapes.instruction_bind held' fun entry found shaped => ?_
      have isPhi : entry.opcode = .phi blocks := congrArg Shape.opcode shaped
      rw [isPhi, if_neg (by simpa [Opcode.incomingBlocks, ← pairs] using within)]
      exact reshapes_modifyIncomingBlocks held' (·.eraseIdx position.toNat)
    refine reshapes.laysAt laidOut ?_
    rw [Opcode.fits, List.length_eraseIdx_of_lt (by omega), pairs]
    exact beq_self_eq_true _

end Incomings

end Edit

end ShaderIR

import ShaderIR.Proofs.Coherence.Building

/-!
# Sessions

A session performs operations one after the other, from a store without modules.
Operations are those open to every user: creating modules, types, values,
functions and blocks, editing instructions, and building at a cursor.  A refused
operation ends with a fault, keeps what it did before the fault and leaves the
cursor where it was; the session goes on with the next one.

The state after any operations is coherent, whether or not some of them were
refused.
-/

namespace ShaderIR

open Store Edit

/-- An operation on the store that needs no cursor. -/
inductive Change where
  | addModule (name : String)
  | requestType (module : Nat) (name : String) (form : TypeForm)
  | vectorType (module : Nat) (element : Option Ty) (size : Nat)
  | arrayType (module : Nat) (element : Option Ty) (count : Nat)
  | recordType (module : Nat) (members : List (Option Ty))
  | constant (module : Nat) (type : Option Ty) (data : List UInt8)
  | constantBool (module : Nat) (truth : Bool)
  | constantInt32 (module : Nat) (bits : UInt64)
  | constantUInt32 (module : Nat) (bits : UInt64)
  | constantFloat32 (module : Nat) (bits : UInt64)
  | constantZero (module : Nat) (type : Option Ty)
  | constantOne (module : Nat) (type : Option Ty)
  | undefined (module : Nat) (type : Option Ty)
  | register (module : Nat) (name : Register)
  | createFunction (module : Nat) (kind : FunctionKind) (result : Option Ty)
  | removeFunction (module : Nat) (function : Ref)
  | createArgument (owner : Ref) (passing : Passing) (type : Option Ty)
  | createResourceArgument (owner : Ref) (type : Option Ty)
  | createBlock (owner : Ref)
  | createBody (owner : Ref)
  | setBody (owner : Ref) (block : Option Ref)
  | setName (ref : Ref) (name : String)
  | addComment (ref : Ref) (comment : String)
  | remove (ref : Ref)
  | append (block ref : Ref)
  | prepend (block ref : Ref)
  | insertBefore (ref : Ref) (position : Option Ref)
  | insertBehind (ref : Ref) (position : Option Ref)
  | setUse (use : Use) (operand : Option Ref)
  | setOperand (user : Ref) (position : Int) (operand : Option Ref)
  | setCondition (ref : Ref) (condition : Option Ref)
  | setSelector (ref : Ref) (selector : Option Ref)
  | setStored (ref : Ref) (stored : Option Ref)
  | setBaseAndIndices (ref : Ref) (base : Option Ref) (indices : List (Option Ref))
  | setBlockAt (ref : Ref) (place : BlockPlace) (block : Option Ref)
  | createBlockAt (ref : Ref) (place : BlockPlace)
  | addCase (ref : Ref) (value : Int64) (block : Option Ref)
  | createCase (ref : Ref) (value : Int64)
  | addIncoming (phi : Ref) (incoming block : Option Ref)
  | setIncoming (phi : Ref) (position : Int) (incoming block : Option Ref)
  | setIncomingCount (phi : Ref) (count : Int)
  | removeIncoming (phi : Ref) (position : Int)
  | replaceUses (old : Ref) (new : Option Ref)

/-- What something is given as, it has to be. -/
def Edit.demandThat (holds : Store → Bool) : Edit Unit := do
  if ← see holds then pure () else stuck

/-- Something given as a block has to be one. -/
def Edit.demandBlock (block : Ref) : Edit Unit := demandThat (·.isBlock block)

/--
Point a use at an operand.  It has to be one of the uses that its user has.  What comes of
a use that was kept aside while its user dropped it, `Store.Coherent.astray_of_setSlot` says.
-/
def Edit.setUse (use : Use) (operand : Option Ref) : Edit Unit := do
  let entry ← instruction use.user
  if entry.operands.any (·.key == use.slot) then setSlot use.user use.slot operand else stuck

/-- Do what an edit does without its answer. -/
def Edit.quietly {α : Type} (edit : Edit α) : Edit Unit := do
  let _ ← edit

/-- What an operation without a cursor does.  Incomings are changed in phis only, a base and
indices in element references only. -/
def Change.perform : Change → Edit Unit
  | .addModule name => modify fun store => (store.addModule name).2
  | .requestType module name form => quietly (typeBy module (·.intern name form))
  | .vectorType module element size => quietly (Edit.vectorType module element size)
  | .arrayType module element count => quietly (Edit.arrayType module element count)
  | .recordType module members => quietly (Edit.recordType module members)
  | .constant module type data => quietly (Edit.constant module type data)
  | .constantBool module truth => quietly (Edit.constantBool module truth)
  | .constantInt32 module bits => quietly (Edit.constantInt32 module bits)
  | .constantUInt32 module bits => quietly (Edit.constantUInt32 module bits)
  | .constantFloat32 module bits => quietly (Edit.constantFloat32 module bits)
  | .constantZero module type => quietly (Edit.constantZero module type)
  | .constantOne module type => quietly (Edit.constantOne module type)
  | .undefined module type => quietly (Edit.undefined module type)
  | .register module name => quietly (Edit.register module name)
  | .createFunction module kind result => quietly (Edit.createFunction module kind result)
  | .removeFunction module function => Edit.removeFunction module function
  | .createArgument owner passing type => quietly (Edit.createArgument owner passing type)
  | .createResourceArgument owner type => quietly (Edit.createResourceArgument owner type)
  | .createBlock owner => quietly (Edit.createBlock owner)
  | .createBody owner => quietly (Edit.createBody owner)
  | .setBody owner block => Edit.setBody owner block
  | .setName ref name => Edit.setName ref name
  | .addComment ref comment => Edit.addComment ref comment
  | .remove ref => Edit.remove ref
  | .append block ref => do
    demandBlock block
    Edit.append block ref
  | .prepend block ref => do
    demandBlock block
    Edit.prepend block ref
  | .insertBefore ref position => Edit.insertBefore ref position
  | .insertBehind ref position => Edit.insertBehind ref position
  | .setUse use operand => Edit.setUse use operand
  | .setOperand user position operand => Edit.setOperand user position operand
  | .setCondition ref condition => Edit.setCondition ref condition
  | .setSelector ref selector => Edit.setSelector ref selector
  | .setStored ref stored => Edit.setStored ref stored
  | .setBaseAndIndices ref base indices => do
    demandThat (·.opcode? ref == some .gep)
    Edit.setBaseAndIndices ref base indices
  | .setBlockAt ref place block => Edit.setBlockAt ref place block
  | .createBlockAt ref place => quietly (Edit.createBlockAt ref place)
  | .addCase ref value block => Edit.addCase ref value block
  | .createCase ref value => quietly (Edit.createCase ref value)
  | .addIncoming phi incoming block => do
    demandThat (·.isPhi phi)
    Edit.addIncoming phi incoming block
  | .setIncoming phi position incoming block => do
    demandThat (·.isPhi phi)
    Edit.setIncoming phi position incoming block
  | .setIncomingCount phi count => do
    demandThat (·.isPhi phi)
    Edit.setIncomingCount phi count
  | .removeIncoming phi position => do
    demandThat (·.isPhi phi)
    Edit.removeIncoming phi position
  | .replaceUses old new => replaceUsesWith old new

/-- Perform several operations; the first refused one ends the sequence. -/
def Change.performAll : List Change → Edit Unit
  | [] => pure ()
  | change :: rest => do
    change.perform
    performAll rest

/--
The resolver that looks at the store, performs the operations chosen there and
then answers.
-/
def Resolver.choosing (choose : Ref → Store → List Change × Option Ref) : Resolver :=
  fun ref => do
    let (changes, answer) ← see (choose ref)
    Change.performAll changes
    return answer

/--
Whether a builder makes an instruction of a kind and a type from a number of operands
without a check.
-/
def Opcode.isDirect : Opcode → Option Ty → Nat → Bool
  | loop none none none, none, 1 | simpleLoop none, none, 1 | rayQueryLoop none, none, 1
  | outline none, none, 1 | autodiffScope none, none, 1 => true
  | branch, none, 1 | breakTo, none, 1 | continueTo, none, 1 => true
  | ret, none, 0 | unreachable _, none, 0 | rasterDiscard, none, 0 => true
  | threadGroup _, _, _ | resourceQuery _, _, _ | resourceRead _, _, _ | autodiff _, _, _ => true
  | resourceWrite _, none, _ | print _, none, _ => true
  | rayQueryRead _, _, _ + 1 | rayQueryWrite _, none, _ + 1 => true
  | _, _, _ => false

/-- An operation of a session. -/
inductive Operation where
  | edit (change : Change)
  | takeUp (cursor : Cursor)
  | moveAfter (instruction : Option Ref)
  | moveBefore (instruction : Option Ref)
  | moveToHead (block : Ref)
  | moveToEnd (block : Ref)
  | move (ref : Ref)
  /-- Build an instruction of a kind that is built without a check of its operands. -/
  | emit (opcode : Opcode) (type : Option Ty) (operands : List (Option Ref))
    (direct : opcode.isDirect type operands.length = true)
  | ifElse (condition : Option Ref)
  | condBranch (condition whenTrue whenFalse : Option Ref)
  | switch (selector : Option Ref)
  | ret (result : Option Ref)
  | rayQueryDispatch (query exit : Option Ref)
  | phi (type : Option Ty) (incomings : List (Option Ref × Option Ref))
  | alloca (type : Option Ty) (space : Space)
  | load (type : Option Ty) (address : Option Ref)
  | store (address stored : Option Ref)
  | gep (type : Option Ty) (base : Option Ref) (indices : List (Option Ref))
  | atomic (type : Option Ty) (op : AtomicOp) (base : Option Ref)
    (indices operands : List (Option Ref))
  | arithmetic (type : Option Ty) (op : ArithmeticOp) (operands : List (Option Ref))
  | insert (aggregate element : Option Ref) (indices : List (Option Ref))
  | cast (type : Option Ty) (op : CastOp) (operand : Option Ref)
  | call (type : Option Ty) (callee : Option Ref) (arguments : List (Option Ref))
  | rayQueryPipeline (query onSurface onProcedural : Option Ref) (captured : List (Option Ref))
  | clock
  | assertTrue (condition : Option Ref) (message : String)
  | assumeTrue (condition : Option Ref) (message : String)
  | clone (source : Ref) (choose : Ref → Store → List Change × Option Ref)

theorem Opcode.caseValues_of_isDirect
    {opcode : Opcode}
    {type : Option Ty}
    {count : Nat}
    (direct : opcode.isDirect type count = true) : opcode.caseValues = [] := by
  cases opcode <;> first | rfl | cases direct

/-- Do what building steps do without their answer. -/
def Build.quietly {α : Type} (build : Build α) : Build Unit := do
  let _ ← build

/-- What an operation of a session does. -/
def Operation.perform : Operation → Build Unit
  | .edit change => liftM change.perform
  | .takeUp cursor => do
    match cursor.block with
    | none => set cursor
    | some block => do
      liftM (demandBlock block)
      set cursor
  | .moveAfter instruction => Build.moveAfter instruction
  | .moveBefore instruction => Build.moveBefore instruction
  | .moveToHead block => do
    liftM (demandBlock block)
    Build.moveToHead block
  | .moveToEnd block => do
    liftM (demandBlock block)
    Build.moveToEnd block
  | .move ref => Build.move ref
  | .emit opcode type operands _ => Build.quietly (Build.emit opcode type operands)
  | .ifElse condition => Build.quietly (Build.ifElse condition)
  | .condBranch condition whenTrue whenFalse =>
    Build.quietly (Build.condBranch condition whenTrue whenFalse)
  | .switch selector => Build.quietly (Build.switch selector)
  | .ret result => Build.quietly (Build.ret result)
  | .rayQueryDispatch query exit => Build.quietly (Build.rayQueryDispatch query exit)
  | .phi type incomings => Build.quietly (Build.phi type incomings)
  | .alloca type space => Build.quietly (Build.alloca type space)
  | .load type address => Build.quietly (Build.load type address)
  | .store address stored => Build.quietly (Build.store address stored)
  | .gep type base indices => Build.quietly (Build.gep type base indices)
  | .atomic type op base indices operands =>
    Build.quietly (Build.atomic type op base indices operands)
  | .arithmetic type op operands => Build.quietly (Build.arithmetic type op operands)
  | .insert aggregate element indices => Build.quietly (Build.insert aggregate element indices)
  | .cast type op operand => Build.quietly (Build.cast type op operand)
  | .call type callee arguments => Build.quietly (Build.call type callee arguments)
  | .rayQueryPipeline query onSurface onProcedural captured =>
    Build.quietly (Build.rayQueryPipeline query onSurface onProcedural captured)
  | .clock => Build.quietly Build.clock
  | .assertTrue condition message => Build.quietly (Build.assertTrue condition message)
  | .assumeTrue condition message => Build.quietly (Build.assumeTrue condition message)
  | .clone source choose => Build.quietly (Build.clone source (Resolver.choosing choose))

/-- The state of a session: every module, and where the builder stands. -/
structure Session where
  store : Store := {}
  cursor : Cursor := {}

namespace Session

/-- Perform an operation; a refused one keeps what it did and leaves the cursor. -/
def step (session : Session) (operation : Operation) : Session :=
  match Build.outcome operation.perform session.cursor session.store with
  | (.ok (_, cursor), store) => { store, cursor }
  | (.error _, store) => { session with store }

/-- The state after some operations. -/
def after (operations : List Operation) : Session :=
  operations.foldl step {}

end Session

/-! ## Every operation keeps the store coherent -/

theorem Edit.quietly_respects
    {α : Type}
    {related : Store → Store → Prop}
    [Lasting related]
    {edit : Edit α}
    (respects : Respects related edit) :
    Respects related (quietly edit) :=
  Respects.bind respects fun _ => Respects.pure _

theorem Edit.demandThat_respects
    {related : Store → Store → Prop}
    [Lasting related]
    (holds : Store → Bool) :
    Respects related (demandThat holds) :=
  Respects.bind (Respects.see _) fun _ => Respects.ifThen (Respects.pure ()) Respects.stuck

theorem Edit.demandBlock_respects
    {related : Store → Store → Prop}
    [Lasting related]
    (block : Ref) :
    Respects related (demandBlock block) :=
  demandThat_respects _

theorem Edit.gives_demandThat_iff
    {holds : Store → Bool}
    {store left : Store}
    {answer : Unit} :
    Gives (demandThat holds) store answer left ↔ holds store = true ∧ left = store := by
  simp only [demandThat, gives_bind_iff, gives_see_iff]
  constructor
  · rintro ⟨_, _, ⟨rfl, rfl⟩, rest⟩
    split at rest
    · exact ⟨‹_›, (gives_pure_iff.1 rest).2⟩
    · exact absurd rest not_gives_stuck
  · rintro ⟨held, rfl⟩
    refine ⟨_, _, ⟨rfl, rfl⟩, ?_⟩
    rw [if_pos held]
    exact gives_pure_iff.2 ⟨rfl, rfl⟩

theorem Edit.gives_demandBlock_iff {block : Ref} {store left : Store} {answer : Unit} :
    Gives (demandBlock block) store answer left ↔ store.isBlock block = true ∧ left = store :=
  gives_demandThat_iff

theorem Edit.setUse_keeps (use : Use) (operand : Option Ref) :
    Respects Keeps (setUse use operand) := by
  intro store
  refine Respects.bindInstruction fun entry found => ?_
  split
  · rename_i own
    obtain ⟨slot, member, sameKey⟩ := List.any_eq_true.1 own
    exact setSlot_keeps operand ⟨entry, found, slot, member, by simpa using sameKey⟩
  · exact Respects.stuck store

theorem Change.perform_keeps (change : Change) : Respects Keeps change.perform := by
  cases change with
  | addModule name => exact fun store => keeps_addModule store name
  | requestType module name form => exact quietly_respects (typeBy_keeps module _)
  | vectorType module element size => exact quietly_respects (vectorType_keeps module element size)
  | arrayType module element count => exact quietly_respects (arrayType_keeps module element count)
  | recordType module members => exact quietly_respects (recordType_keeps module members)
  | constant module type data => exact quietly_respects (constant_keeps module type data)
  | constantBool module truth => exact quietly_respects (constantBool_keeps module truth)
  | constantInt32 module bits => exact quietly_respects (constantInt32_keeps module bits)
  | constantUInt32 module bits => exact quietly_respects (constantUInt32_keeps module bits)
  | constantFloat32 module bits => exact quietly_respects (constantFloat32_keeps module bits)
  | constantZero module type => exact quietly_respects (constantZero_keeps module type)
  | constantOne module type => exact quietly_respects (constantOne_keeps module type)
  | undefined module type => exact quietly_respects (undefined_keeps module type)
  | register module name => exact quietly_respects (register_keeps module name)
  | createFunction module kind result =>
      exact quietly_respects (createFunction_keeps module kind result)
  | removeFunction module function => exact removeFunction_keeps module function
  | createArgument owner passing type =>
      exact quietly_respects (createArgument_keeps owner passing type)
  | createResourceArgument owner type =>
      exact quietly_respects (createResourceArgument_keeps owner type)
  | createBlock owner => exact quietly_respects (createBlock_keeps owner)
  | createBody owner => exact quietly_respects (createBody_keeps owner)
  | setBody owner block => exact setBody_keeps owner block
  | setName ref name => exact setName_keeps ref name
  | addComment ref comment => exact addComment_keeps ref comment
  | remove ref => exact remove_keeps ref
  | append block ref =>
      intro store
      refine Respects.bindAt (demandBlock_respects block store) fun _ left given => ?_
      obtain ⟨isBlock, rfl⟩ := gives_demandBlock_iff.1 given
      exact append_keeps isBlock
  | prepend block ref =>
      intro store
      refine Respects.bindAt (demandBlock_respects block store) fun _ left given => ?_
      obtain ⟨isBlock, rfl⟩ := gives_demandBlock_iff.1 given
      exact prepend_keeps isBlock
  | insertBefore ref position => exact insertBefore_keeps ref position
  | insertBehind ref position => exact insertBehind_keeps ref position
  | setUse use operand => exact setUse_keeps use operand
  | setOperand user position operand => exact setOperand_keeps user position operand
  | setCondition ref condition => exact setCondition_keeps ref condition
  | setSelector ref selector => exact setSelector_keeps ref selector
  | setStored ref stored => exact setStored_keeps ref stored
  | setBaseAndIndices ref base indices =>
      exact Respects.bind (demandThat_respects _) fun _ => setBaseAndIndices_keeps ref base indices
  | setBlockAt ref place block => exact setBlockAt_keeps ref place block
  | createBlockAt ref place => exact quietly_respects (createBlockAt_keeps ref place)
  | addCase ref value block => exact addCase_keeps ref value block
  | createCase ref value => exact quietly_respects (createCase_keeps ref value)
  | addIncoming phi incoming block =>
      exact Respects.bind (demandThat_respects _) fun _ => addIncoming_keeps phi incoming block
  | setIncoming phi position incoming block =>
      exact Respects.bind (demandThat_respects _) fun _ =>
        setIncoming_keeps phi position incoming block
  | setIncomingCount phi count =>
      exact Respects.bind (demandThat_respects _) fun _ => setIncomingCount_keeps phi count
  | removeIncoming phi position =>
      exact Respects.bind (demandThat_respects _) fun _ => removeIncoming_keeps phi position
  | replaceUses old new => exact replaceUsesWith_keeps old new

theorem Change.performAll_keeps (changes : List Change) :
    Respects Keeps (performAll changes) := by
  induction changes with
  | nil => exact Respects.pure ()
  | cons change rest induction => exact Respects.bind change.perform_keeps fun _ => induction

theorem Resolver.choosing_careful (choose : Ref → Store → List Change × Option Ref) :
    (Resolver.choosing choose).Careful :=
  fun _ => Respects.bind (Respects.see _) fun chosen =>
    Respects.bind (Change.performAll_keeps chosen.1) fun _ => Respects.pure _

namespace Build

theorem quietly_sound {α : Type} {build : Build α} (sound : Sound build) :
    Sound (quietly build) :=
  Sound.bind sound fun _ => Sound.pure _

/-- After a check for a block, a move into that block is sound. -/
theorem demandBlock_bind_sound
    {α : Type}
    {block : Ref}
    {next : Build α}
    (leaves : ∀ cursor store, store.Coherent → cursor.Stands store →
      store.isBlock block = true → Leaves store (outcome next cursor store)) :
    Sound (liftM (demandBlock block) >>= fun _ => next) := by
  intro cursor store coherent stands
  refine Leaves.liftBind (demandBlock_respects block store) coherent stands ?_
  intro _ left given coherent' stands'
  obtain ⟨isBlock, rfl⟩ := gives_demandBlock_iff.1 given
  exact leaves cursor left coherent' stands' isBlock

end Build

open Build in
theorem Operation.perform_sound (operation : Operation) : Build.Sound operation.perform := by
  cases operation with
  | edit change => exact Sound.lift change.perform_keeps
  | takeUp cursor =>
      obtain ⟨block, position⟩ := cursor
      cases block with
      | none =>
          intro cursor store coherent stands
          exact Leaves.set coherent fun block holds => by cases holds
      | some block =>
          refine demandBlock_bind_sound fun cursor store coherent _ isBlock => ?_
          refine Leaves.set coherent fun other holds => ?_
          cases holds
          exact isBlock
  | moveAfter instruction => exact moveAfter_sound instruction
  | moveBefore instruction => exact moveBefore_sound instruction
  | moveToHead block =>
      exact demandBlock_bind_sound fun _ _ coherent _ isBlock => moveToHead_leaves coherent isBlock
  | moveToEnd block =>
      exact demandBlock_bind_sound fun _ _ coherent stands isBlock =>
        moveToEnd_leaves coherent stands isBlock
  | move ref => exact move_sound ref
  | emit opcode type operands direct =>
      refine quietly_sound (emit_sound type operands ?_)
      rw [Opcode.caseValues_of_isDirect direct]
      exact List.nodup_nil
  | ifElse condition => exact quietly_sound (ifElse_sound condition)
  | condBranch condition whenTrue whenFalse =>
      exact quietly_sound (condBranch_sound condition whenTrue whenFalse)
  | switch selector => exact quietly_sound (switch_sound selector)
  | ret result => exact quietly_sound (ret_sound result)
  | rayQueryDispatch query exit => exact quietly_sound (rayQueryDispatch_sound query exit)
  | phi type incomings => exact quietly_sound (phi_sound type incomings)
  | alloca type space => exact quietly_sound (alloca_sound type space)
  | load type address => exact quietly_sound (load_sound type address)
  | store address stored => exact quietly_sound (store_sound address stored)
  | gep type base indices => exact quietly_sound (gep_sound type base indices)
  | atomic type op base indices operands =>
      exact quietly_sound (atomic_sound type op base indices operands)
  | arithmetic type op operands => exact quietly_sound (arithmetic_sound type op operands)
  | insert aggregate element indices =>
      exact quietly_sound (insert_sound aggregate element indices)
  | cast type op operand => exact quietly_sound (cast_sound type op operand)
  | call type callee arguments => exact quietly_sound (call_sound type callee arguments)
  | rayQueryPipeline query onSurface onProcedural captured =>
      exact quietly_sound (rayQueryPipeline_sound query onSurface onProcedural captured)
  | clock => exact quietly_sound clock_sound
  | assertTrue condition message => exact quietly_sound (assertTrue_sound condition message)
  | assumeTrue condition message => exact quietly_sound (assumeTrue_sound condition message)
  | clone source choose =>
      exact quietly_sound (clone_sound source (Resolver.choosing_careful choose))

namespace Session

/-- The store is coherent, and the builder stands in a block or nowhere. -/
structure Coherent (session : Session) : Prop where
  store : session.store.Coherent
  stands : session.cursor.Stands session.store

theorem step_coherent
    {session : Session}
    (coherent : session.Coherent)
    (operation : Operation) :
    (session.step operation).Coherent := by
  have leaves := operation.perform_sound session.cursor session.store coherent.store
    coherent.stands
  unfold step
  rcases run : Build.outcome operation.perform session.cursor session.store with
    ⟨fault | ⟨answer, cursor⟩, store⟩
  · rw [run] at leaves
    exact ⟨leaves.coherent, fun block holds => leaves.blocks block (coherent.stands block holds)⟩
  · rw [run] at leaves
    exact ⟨leaves.coherent, leaves.stands answer cursor rfl⟩

/-- After any operations, refused ones among them, the store is coherent. -/
theorem after_coherent (operations : List Operation) : (after operations).Coherent := by
  have start : ({} : Session).Coherent := ⟨coherent_empty, fun _ holds => by cases holds⟩
  unfold after
  generalize ({} : Session) = session at start
  induction operations generalizing session with
  | nil => exact start
  | cons operation rest induction => exact induction _ (step_coherent start operation)

end Session

end ShaderIR

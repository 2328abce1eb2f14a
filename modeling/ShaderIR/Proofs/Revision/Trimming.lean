import ShaderIR.Proofs.Coherence.Edges
import ShaderIR.Proofs.Layout.Regular
import ShaderIR.Proofs.Revision.Emitting
import ShaderIR.Proofs.Revision.Rewriting

/-!
# Trimming

Passes that simplify memory accesses redirect operands, unlink instructions, add
incomings to phis and build instructions other than terminators and variables.
Throughout, instructions keep their kind and are linked nowhere else.
-/

namespace ShaderIR

theorem mem_of_lookup
    {α β : Type}
    [BEq α]
    [LawfulBEq α]
    {pairs : List (α × β)}
    {key : α}
    {value : β}
    (found : pairs.lookup key = some value) :
    (key, value) ∈ pairs := by
  obtain ⟨before, after, equal, -⟩ := List.lookup_eq_some_iff.1 found
  simp [equal]

/-! What the store shows of a value that is an instruction or a block. -/

def Content.instructionOf? : Option Content → Option Instruction
  | some (.instruction entry) => some entry
  | _ => none

def Content.membersOf : Option Content → List Ref
  | some (.block _ members) => members
  | _ => []

namespace Store

/--
Instructions keep their kind and are linked nowhere else.  New ones neither end a
block nor name a memory location.
-/
structure Trims (store left : Store) : Prop where
  coherent : left.Coherent
  ages : store.Ages left
  kind : ∀ {ref}, (store.value? ref).isSome →
    left.opcode? ref = store.opcode? ref ∨ store.isPhi ref = true ∧ left.isPhi ref = true
  linked : ∀ {ref block}, (store.value? ref).isSome → left.blockOf? ref = some block →
    store.blockOf? ref = some block
  added : ∀ {ref opcode}, store.value? ref = none → left.opcode? ref = some opcode →
    opcode.isTerminator = false ∧ opcode.isLValue = false
  undefineds : ∀ {module known}, known ∈ left.undefinedsOf module →
    known ∈ store.undefinedsOf module ∨ left.Interned module known

variable {store left last : Store} {ref block : Ref}

theorem value?_isSome_of_opcode? {opcode : Opcode} (found : store.opcode? ref = some opcode) :
    (store.value? ref).isSome := by
  obtain ⟨entry, found, -⟩ := Option.map_eq_some_iff.1 found
  exact value?_isSome_of_instruction? found

theorem isBlock_of_opcode? {opcode : Opcode} (found : store.opcode? ref = some opcode) :
    store.isBlock ref = false := by
  obtain ⟨entry, found, -⟩ := Option.map_eq_some_iff.1 found
  simp [isBlock, instruction?_eq_some_iff.1 found]

theorem isTerminator_of_absent (absent : store.value? ref = none) :
    store.isTerminator ref = false := by
  simp [isTerminator, opcode?, instruction?, content?, absent]

/-- Operands are there. -/
theorem Coherent.value?_isSome_of_operand
    (coherent : store.Coherent)
    {user value : Ref}
    (operand : some value ∈ store.operands user) :
    (store.value? value).isSome := by
  obtain ⟨entry, found, slot, member, holds⟩ := some_mem_operands_iff.1 operand
  rw [← moduleOf?_isSome_iff, coherent.operandPool found slot member value holds,
    moduleOf?_isSome_iff]
  exact value?_isSome_of_instruction? found

theorem isTerminator_iff :
    store.isTerminator ref = true ↔
      ∃ opcode, store.opcode? ref = some opcode ∧ opcode.isTerminator = true :=
  Option.any_eq_true _ _

theorem isGep_iff : store.isGep ref = true ↔ store.opcode? ref = some .gep :=
  beq_iff_eq

theorem isLValue_iff :
    store.isLValue ref = true ↔
      (∃ opcode, store.opcode? ref = some opcode ∧ opcode.isLValue = true) ∨
        ∃ function index, store.content? ref = some (.argument .byReference function index) := by
  unfold isLValue
  cases found : store.content? ref with
  | none => simp [opcode?, instruction?, found]
  | some content => cases content <;> simp [opcode?, instruction?, found]

theorem isBlock_of_isLValue (isLValue : store.isLValue ref = true) :
    store.isBlock ref = false := by
  unfold Store.isLValue at isLValue
  unfold Store.isBlock
  cases found : store.content? ref with
  | none => rfl
  | some content => cases content <;> simp_all

theorem isFunction_of_isLValue (isLValue : store.isLValue ref = true) :
    store.isFunction ref = false := by
  unfold Store.isLValue at isLValue
  unfold isFunction function?
  cases found : store.content? ref with
  | none => rfl
  | some content => cases content <;> simp_all

theorem value?_isSome_of_isLValue (isLValue : store.isLValue ref = true) :
    (store.value? ref).isSome := by
  rcases isLValue_iff.1 isLValue with ⟨opcode, found, -⟩ | ⟨function, index, found⟩
  · exact value?_isSome_of_opcode? found
  · exact content?_isSome_iff.1 (Option.isSome_of_eq_some found)

theorem opcode?_ne_of_isLValue
    {opcode : Opcode}
    (isLValue : store.isLValue ref = true)
    (other : opcode.isLValue = false) :
    store.opcode? ref ≠ some opcode := by
  intro found
  rcases isLValue_iff.1 isLValue with ⟨opcode', found', holds⟩ | ⟨function, index, content⟩
  · cases found.symm.trans found'
    simp [other] at holds
  · simp [opcode?, instruction?, content] at found

theorem Ages.isUndefined (ages : store.Ages left) (undefined : store.isUndefined ref = true) :
    left.isUndefined ref = true := by
  obtain ⟨content, found, becomes⟩ := ages.content (isUndefined_iff.1 undefined)
  rw [isUndefined_iff, found]
  exact congrArg some becomes

theorem Ages.interned
    (ages : store.Ages left)
    {module : Nat}
    {known : Option Ty × Ref}
    (interned : store.Interned module known) :
    left.Interned module known := by
  have present : (store.value? known.2).isSome := by
    rw [← moduleOf?_isSome_iff, interned.pool]
    rfl
  exact ⟨ages.isUndefined interned.undefined, (ages.typeOf present).trans interned.type,
    (ages.moduleOf? present).trans interned.pool⟩

theorem value?_isSome_of_isBlock (isBlock : store.isBlock block = true) :
    (store.value? block).isSome := by
  obtain ⟨owner, members, found⟩ := isBlock_iff.1 isBlock
  exact content?_isSome_iff.1 (Option.isSome_of_eq_some found)

/-- What is regular stays so while no variable and only undefined values of modules are new. -/
theorem Regular.of_ages
    (regular : store.Regular)
    (ages : store.Ages left)
    (locals : ∀ {ref}, left.isLocalVariable ref = true → store.isLocalVariable ref = true)
    (undefineds : ∀ {module known}, known ∈ left.undefinedsOf module →
      known ∈ store.undefinedsOf module ∨ left.Interned module known) :
    left.Regular where
  blocks := by
    intro ref isBlock
    rw [ages.isBlock] at isBlock
    rw [ages.typeOf (value?_isSome_of_isBlock isBlock), regular.blocks isBlock]
  typed := by
    intro ref isVariable
    have wasVariable := locals isVariable
    rw [ages.typeOf (value?_isSome_of_opcode? (isLocalVariable_iff.1 wasVariable))]
    exact regular.typed wasVariable
  arguments := by
    intro ref entry found parameter member
    rw [ages.function?] at found
    obtain ⟨passing, owner, position, isArgument⟩ := regular.arguments found parameter member
    exact ⟨passing, owner, position, ages.argument_iff.2 isArgument⟩
  undefineds := by
    intro module known member
    exact (undefineds member).elim (fun member => ages.interned (regular.undefineds member)) id

theorem isTerminator_of_isPhi (isPhi : store.isPhi ref = true) :
    store.isTerminator ref = false := by
  unfold Store.isPhi at isPhi
  unfold Store.isTerminator
  cases found : store.opcode? ref with
  | none => rfl
  | some opcode => cases opcode <;> simp_all [Opcode.isPhi, Opcode.isTerminator]

namespace Trims

theorem refl (coherent : store.Coherent) : store.Trims store where
  coherent := coherent
  ages := Edit.Lasting.refl store
  kind := fun _ => .inl rfl
  linked := fun _ linked => linked
  added := by
    intro ref opcode absent found
    have present := value?_isSome_of_opcode? found
    simp [absent] at present
  undefineds := fun known => .inl known

theorem trans (trims : store.Trims left) (trims' : left.Trims last) : store.Trims last where
  coherent := trims'.coherent
  ages := Edit.Lasting.trans trims.ages trims'.ages
  kind := by
    intro ref present
    rcases trims.kind present, trims'.kind (trims.ages.value?_isSome present) with
      ⟨same | ⟨isPhi, isPhi'⟩, same' | ⟨isPhi'', isPhi'''⟩⟩
    · exact .inl (same'.trans same)
    · exact .inr ⟨by rwa [isPhi, ← same], isPhi'''⟩
    · exact .inr ⟨isPhi, by rwa [Store.isPhi, same']⟩
    · exact .inr ⟨isPhi, isPhi'''⟩
  linked := fun present linked =>
    trims.linked present (trims'.linked (trims.ages.value?_isSome present) linked)
  added := by
    intro ref opcode absent found
    cases between : left.value? ref with
    | none => exact trims'.added between found
    | some value =>
        rcases trims'.kind (Option.isSome_of_eq_some between) with same | ⟨-, isPhi⟩
        · exact trims.added absent (same ▸ found)
        · rw [Store.isPhi, found, Option.any_some] at isPhi
          cases opcode <;> simp_all [Opcode.isPhi, Opcode.isTerminator, Opcode.isLValue]
  undefineds := by
    intro module known member
    rcases trims'.undefineds member with member | undefined
    · exact (trims.undefineds member).imp_right trims'.ages.interned
    · exact .inr undefined

variable {opcode : Opcode}

/-- An instruction of another kind than phis has the opcode that it had. -/
theorem opcode?_old
    (trims : store.Trims left)
    (present : (store.value? ref).isSome)
    (found : left.opcode? ref = some opcode)
    (notPhi : opcode.isPhi = false) :
    store.opcode? ref = some opcode := by
  rcases trims.kind present with same | ⟨-, isPhi⟩
  · rw [← same, found]
  · rw [Store.isPhi, found, Option.any_some, notPhi] at isPhi
    cases isPhi

theorem opcode?_kept
    (trims : store.Trims left)
    (found : store.opcode? ref = some opcode)
    (notPhi : opcode.isPhi = false) :
    left.opcode? ref = some opcode := by
  rcases trims.kind (value?_isSome_of_opcode? found) with same | ⟨isPhi, -⟩
  · rw [same, found]
  · rw [Store.isPhi, found, Option.any_some, notPhi] at isPhi
    cases isPhi

theorem isTerminator_old
    (trims : store.Trims left)
    (present : (store.value? ref).isSome) :
    left.isTerminator ref = store.isTerminator ref := by
  rcases trims.kind present with same | ⟨isPhi, isPhi'⟩
  · rw [Store.isTerminator, Store.isTerminator, same]
  · rw [isTerminator_of_isPhi isPhi, isTerminator_of_isPhi isPhi']

theorem of_isTerminator (trims : store.Trims left) (isTerminator : left.isTerminator ref = true) :
    (store.value? ref).isSome ∧ store.isTerminator ref = true := by
  obtain ⟨opcode, found, holds⟩ := isTerminator_iff.1 isTerminator
  have present : (store.value? ref).isSome := by
    by_contra absent
    have new := (trims.added (Option.not_isSome_iff_eq_none.1 absent) found).1
    rw [holds] at new
    cases new
  exact ⟨present, by rw [← trims.isTerminator_old present, isTerminator]⟩

theorem not_isTerminator
    (trims : store.Trims left)
    (notTerminator : store.isTerminator ref = false) :
    left.isTerminator ref = false := by
  rw [Bool.eq_false_iff] at notTerminator ⊢
  exact fun isTerminator => notTerminator (trims.of_isTerminator isTerminator).2

/-- What names a memory location did so before. -/
theorem of_isLValue
    (trims : store.Trims left)
    (found : left.opcode? ref = some opcode)
    (isLValue : opcode.isLValue = true) :
    store.opcode? ref = some opcode := by
  have present : (store.value? ref).isSome := by
    by_contra absent
    have new := (trims.added (Option.not_isSome_iff_eq_none.1 absent) found).2
    rw [isLValue] at new
    cases new
  exact trims.opcode?_old present found
    (by cases opcode <;> simp_all [Opcode.isPhi, Opcode.isLValue])

theorem isLValue (trims : store.Trims left) (isLValue : store.isLValue ref = true) :
    left.isLValue ref = true := by
  rcases isLValue_iff.1 isLValue with ⟨opcode, found, holds⟩ | ⟨function, index, found⟩
  · refine isLValue_iff.2 (.inl ⟨opcode, trims.opcode?_kept found ?_, holds⟩)
    cases opcode <;> simp_all [Opcode.isPhi, Opcode.isLValue]
  · obtain ⟨content, found', becomes⟩ := trims.ages.content found
    refine isLValue_iff.2 (.inr ⟨function, index, ?_⟩)
    rw [found']
    exact congrArg some becomes

theorem regular (trims : store.Trims left) (regular : store.Regular) : left.Regular :=
  regular.of_ages trims.ages
    (fun isVariable => isLocalVariable_iff.2
      (trims.of_isLValue (isLocalVariable_iff.1 isVariable) rfl))
    trims.undefineds

end Trims

/-! ## Parts that trim -/

theorem undefinedsOf_of_modules
    {module : Nat}
    (same : (left.modules[module]?).map Module.undefineds =
      (store.modules[module]?).map Module.undefineds) :
    left.undefinedsOf module = store.undefinedsOf module :=
  congrArg (Option.getD · []) same

/-- Operands change in place. -/
structure Repoints (store : Store) (change : Ref → List (Option Ref) → List (Option Ref))
    (left : Store) : Prop where
  trims : store.Trims left
  blockOf? : ∀ ref, left.blockOf? ref = store.blockOf? ref
  instructions : ∀ block, left.instructions block = store.instructions block
  operands : ∀ ref, left.operands ref = change ref (store.operands ref)

theorem Repoints.congr
    {change change' : Ref → List (Option Ref) → List (Option Ref)}
    (repoints : store.Repoints change left)
    (same : ∀ ref operands, change' ref operands = change ref operands) :
    store.Repoints change' left where
  trims := repoints.trims
  blockOf? := repoints.blockOf?
  instructions := repoints.instructions
  operands := fun ref => (repoints.operands ref).trans (same ref _).symm

/-- Rewriting instructions without a change of kind or place. -/
theorem repoints_of_rewrites
    {change : Ref → Instruction → Instruction}
    {repoint : Ref → List (Option Ref) → List (Option Ref)}
    (rewrites : store.Rewrites change left)
    (coherent : left.Coherent)
    (kind : ∀ {ref entry}, store.instruction? ref = some entry →
      (change ref entry).opcode = entry.opcode ∨
        entry.opcode.isPhi = true ∧ (change ref entry).opcode.isPhi = true)
    (block : ∀ ref entry, (change ref entry).block = entry.block)
    (values : ∀ {ref entry}, store.instruction? ref = some entry →
      (change ref entry).values = repoint ref entry.values)
    (none : ∀ {ref}, store.instruction? ref = none → repoint ref [] = []) :
    store.Repoints repoint left where
  trims :=
    { coherent
      ages := rewrites.ages
      kind := by
        intro ref _
        rw [opcode?, opcode?, isPhi, isPhi, opcode?, opcode?, rewrites.instruction?]
        cases found : store.instruction? ref with
        | none => exact .inl rfl
        | some entry => simpa using kind found
      linked := by
        intro ref other _ linked
        rw [blockOf?, rewrites.instruction?] at linked
        cases found : store.instruction? ref with
        | none => simp [found] at linked
        | some entry => simpa [found, block, blockOf?] using linked
      added := by
        intro ref opcode absent found
        have present := (Revises.value?_isSome rewrites).1 (value?_isSome_of_opcode? found)
        simp [absent] at present
      undefineds := by
        intro module known member
        have same := congrArg (fun modules : Array Module => modules[module]?.map Module.undefineds)
          (Revises.modules rewrites)
        exact .inl (undefinedsOf_of_modules same ▸ member) }
  blockOf? := by
    intro ref
    rw [blockOf?, blockOf?, rewrites.instruction?]
    cases store.instruction? ref with
    | none => rfl
    | some entry => exact block ref entry
  instructions := rewrites.instructions
  operands := by
    intro ref
    rw [operands, operands, rewrites.instruction?]
    cases found : store.instruction? ref with
    | none => exact (none found).symm
    | some entry => exact values found

/-- An operand with one value replaced by another one. -/
def replaced (old new : Ref) (operand : Option Ref) : Option Ref :=
  if operand = some old then some new else operand

/-- Replacing the uses of a value changes the operands of linked instructions. -/
theorem Coherent.repoints_replaceUses
    (coherent : store.Coherent)
    {old new : Ref}
    {answer : Unit}
    (gives : Edit.Gives (Edit.replaceUses old (some new)) store answer left) :
    store.Repoints
      (fun ref operands =>
        if (store.blockOf? ref).isSome then operands.map (replaced old new) else operands)
      left := by
  refine repoints_of_rewrites (coherent.rewrites_replaceUses gives)
    (((Edit.replaceUses_keeps old (some new)).of_gives gives) coherent).1 ?_ ?_ ?_ (by simp)
  · intro ref entry _
    unfold Instruction.redirected
    split <;> exact .inl rfl
  · intro ref entry
    unfold Instruction.redirected
    split <;> rfl
  · intro ref entry found
    have place : store.blockOf? ref = entry.block := by simp [Store.blockOf?, found]
    rw [place]
    unfold Instruction.redirected
    split
    · simp only [Instruction.values, List.map_map]
      refine List.map_congr_left fun slot _ => ?_
      simp only [Function.comp_apply, Slot.redirected, replaced]
      split <;> rfl
    · rfl

/-- Setting the base and the indices of an element reference. -/
theorem Coherent.repoints_setBaseAndIndices
    (coherent : store.Coherent)
    {gep : Ref}
    {base : Option Ref}
    {indices : List (Option Ref)}
    {answer : Unit}
    (gives : Edit.Gives (Edit.setBaseAndIndices gep base indices) store answer left) :
    base.any store.isLValue = true ∧
      store.Repoints (fun ref operands => if gep =
        ref then base :: indices else operands) left := by
  have coherent' := (((Edit.setBaseAndIndices_keeps gep base indices).of_gives gives) coherent).1
  obtain ⟨_, _, given, rest⟩ := Edit.gives_bind_iff.1 (Edit.gives_see_bind_iff.1 gives)
  obtain ⟨isLValue, unchanged⟩ := Edit.gives_require_iff.1 given
  rw [unchanged] at rest
  obtain ⟨present, slots, values, rewrites⟩ := rewrites_setOperands rest
  refine ⟨isLValue, repoints_of_rewrites rewrites coherent' ?_ ?_ ?_ ?_⟩
  · intro ref entry _
    split <;> exact .inl rfl
  · intro ref entry
    split <;> rfl
  · intro ref entry _
    by_cases same : gep = ref
    · rw [if_pos same, if_pos same]
      exact values
    · rw [if_neg same, if_neg same]
  · intro ref absent
    by_cases same : gep = ref
    · subst same
      simp [absent] at present
    · exact if_neg same

/-- Appending an incoming pair to a phi appends to its operands and to its incoming blocks. -/
theorem rewrites_addIncoming
    {phi : Ref}
    {incoming source : Option Ref}
    {answer : Unit}
    (gives : Edit.Gives (Edit.addIncoming phi incoming source) store answer left) :
    ∃ key, store.Rewrites
      (fun other entry =>
        if phi = other then
          { entry with
            opcode := .phi (entry.opcode.incomingBlocks ++ [source])
            operands := entry.operands ++ [⟨key, incoming⟩] }
        else entry)
      left := by
  obtain ⟨_, middle, given, rest⟩ := Edit.gives_bind_iff.1 gives
  have unchanged : middle = store := by
    obtain ⟨_, _, seen, given⟩ := Edit.gives_bind_iff.1 given
    obtain ⟨-, rfl⟩ := Edit.gives_see_iff.1 seen
    obtain ⟨_, _, seen, given⟩ := Edit.gives_bind_iff.1 given
    obtain ⟨-, rfl⟩ := Edit.gives_see_iff.1 seen
    exact (Edit.gives_require_iff.1 given).2
  rw [unchanged] at rest
  obtain ⟨_, between, added, rest⟩ := Edit.gives_bind_iff.1 rest
  obtain ⟨key, rewrites⟩ := rewrites_addOperand added
  obtain ⟨changed, found, rest⟩ := Edit.gives_instruction_bind_iff.1 rest
  rw [rewrites.instruction?] at found
  refine ⟨key, (Revises.trans rewrites (rewrites_setOpcode rest)).congr ?_⟩
  intro other content content?
  by_cases same : phi = other
  · subst same
    cases content with
    | instruction entry =>
        rw [instruction?_eq_some_iff.2 content?, Option.map_some, if_pos rfl] at found
        cases found
        simp [Content.mapInstruction]
    | _ => rfl
  · cases content <;> simp [Content.mapInstruction, same]

/-- Appending an incoming pair to a phi. -/
theorem Coherent.repoints_addIncoming
    (coherent : store.Coherent)
    {phi : Ref}
    {incoming source : Option Ref}
    {answer : Unit}
    (isPhi : store.isPhi phi = true)
    (gives : Edit.Gives (Edit.addIncoming phi incoming source) store answer left) :
    store.Repoints (fun ref operands => if phi = ref then operands ++ [incoming] else operands)
      left := by
  have coherent' := (((Edit.addIncoming_keeps phi incoming source).of_gives gives) coherent).1
  obtain ⟨key, rewrites⟩ := rewrites_addIncoming gives
  refine repoints_of_rewrites rewrites coherent' ?_ ?_ ?_ ?_
  · intro ref entry found
    by_cases same : phi = ref
    · subst same
      rw [if_pos rfl]
      exact .inr ⟨by simpa [Store.isPhi, opcode?, found] using isPhi, rfl⟩
    · rw [if_neg same]
      exact .inl rfl
  · intro ref entry
    split <;> rfl
  · intro ref entry _
    by_cases same : phi = ref <;> simp [same, Instruction.values]
  · intro ref absent
    by_cases same : phi = ref
    · subst same
      simp [Store.isPhi, opcode?, absent] at isPhi
    · exact if_neg same

/-- A change of what modules know, apart from their functions. -/
theorem ages_modifyModule
    (store : Store)
    (module : Nat)
    {change : Module → Module}
    (functions : ∀ entry, (change entry).functions = entry.functions) :
    store.Ages (store.modifyModule module change) where
  kept := fun {_ value} found => ⟨value, found, rfl, rfl, rfl, value.content.becomes_refl⟩
  added := by
    intro ref content absent found
    rw [content?_modifyModule, Store.content?, absent] at found
    cases found
  functions := by
    intro other
    rw [functions_modifyModule]
    split
    · simp [Store.functions, functions, Function.comp_def]
    · rfl

/-- What shows as much of an undefined value as of none is as before. -/
theorem view_allocate_undefined
    {α : Type}
    (store : Store)
    (module : Nat)
    (type : Option Ty)
    (view : Option Content → α)
    (hidden : view (some .undefined) = view none)
    (other : Ref) :
    view ((store.allocate module type .undefined).2.content? other) =
      view (store.content? other) := by
  rw [content?, value?_allocate]
  split
  · rename_i same
    subst same
    rw [content?, value?_allocate_fst]
    exact hidden
  · rfl

/-- Nothing is new but, at most, an undefined value that a module gets to know. -/
structure Interns (store left : Store) : Prop where
  ages : store.Ages left
  instruction? : ∀ ref, left.instruction? ref = store.instruction? ref
  instructions : ∀ block, left.instructions block = store.instructions block
  undefineds : ∀ {module known}, known ∈ left.undefinedsOf module →
    known ∈ store.undefinedsOf module ∨ left.Interned module known

namespace Interns

theorem opcode? (interns : store.Interns left) (ref : Ref) :
    left.opcode? ref = store.opcode? ref :=
  congrArg (Option.map _) (interns.instruction? ref)

theorem blockOf? (interns : store.Interns left) (ref : Ref) :
    left.blockOf? ref = store.blockOf? ref :=
  congrArg (Option.bind · _) (interns.instruction? ref)

theorem operands (interns : store.Interns left) (ref : Ref) :
    left.operands ref = store.operands ref := by
  rw [Store.operands, Store.operands, interns.instruction?]

theorem repoints (interns : store.Interns left) (coherent : left.Coherent) :
    store.Repoints (fun _ operands => operands) left where
  trims :=
    { coherent
      ages := interns.ages
      kind := fun _ => .inl (interns.opcode? _)
      linked := fun _ linked => (interns.blockOf? _).symm.trans linked
      added := by
        intro ref opcode absent found
        have present := value?_isSome_of_opcode? ((interns.opcode? ref).symm.trans found)
        simp [absent] at present
      undefineds := interns.undefineds }
  blockOf? := interns.blockOf?
  instructions := interns.instructions
  operands := interns.operands

end Interns

/-- A new undefined value that a module gets to know. -/
theorem interns_intern
    {module : Nat}
    {type : Option Ty}
    (interned : left = (store.allocate module type .undefined).2.modifyModule module fun entry =>
      { entry with
        undefineds := (type, (store.allocate module type .undefined).1) :: entry.undefineds }) :
    left.Interned module (type, (store.allocate module type .undefined).1) ∧
      store.Interns left := by
  have known : left.Interned module (type, (store.allocate module type .undefined).1) := by
    have ages : (store.allocate module type .undefined).2.Ages left := by
      rw [interned]
      exact ages_modifyModule _ module fun _ => rfl
    exact ages.interned (interned_allocate module type)
  refine ⟨known, ?_, fun ref => ?_, fun block => ?_, fun {place known} member => ?_⟩
  · rw [interned]
    exact Edit.Lasting.trans (ages_allocate store module type (.inl rfl))
      (ages_modifyModule _ module fun _ => rfl)
  · rw [interned]
    exact view_allocate_undefined store module type Content.instructionOf? rfl ref
  · rw [interned]
    exact view_allocate_undefined store module type Content.membersOf rfl block
  · rw [interned] at member
    rcases mem_undefinedsOf_of_intern member with member | ⟨rfl, rfl⟩
    · exact .inl (mem_undefinedsOf_of_allocate member)
    · exact .inr known

/-- Asking for an undefined value changes no instruction. -/
theorem Regular.interns_undefined
    (regular : store.Regular)
    {module : Nat}
    {type : Option Ty}
    (gives : Edit.Gives (Edit.undefined module type) store ref left) :
    left.Interned module (type, ref) ∧ store.Interns left := by
  unfold Edit.undefined at gives
  replace gives := Edit.gives_see_bind_iff.1 gives
  obtain ⟨entry, found, rest⟩ := Edit.gives_demand_bind_iff.1 gives
  cases known : entry.undefineds.lookup type with
  | some held =>
      rw [known] at rest
      obtain ⟨rfl, rfl⟩ := Edit.gives_pure_iff.1 rest
      have member : (type, ref) ∈ left.undefinedsOf module := by
        simpa [undefinedsOf, found] using mem_of_lookup known
      exact ⟨regular.undefineds member, Edit.Lasting.refl left, fun _ => rfl, fun _ => rfl, .inl⟩
  | none =>
      rw [known] at rest
      obtain ⟨new, between, allocated, rest⟩ := Edit.gives_bind_iff.1 rest
      obtain ⟨_, middle, given, rest⟩ := Edit.gives_bind_iff.1 rest
      obtain ⟨rfl, rfl⟩ := Edit.gives_pure_iff.1 rest
      rw [Edit.Gives, Edit.outcome_allocate] at allocated
      simp only [Prod.mk.injEq, Except.ok.injEq] at allocated
      obtain ⟨rfl, rfl⟩ := allocated
      exact interns_intern (Edit.gives_modify_iff.1 given)

theorem Coherent.repoints_undefined
    (coherent : store.Coherent)
    (regular : store.Regular)
    {module : Nat}
    {type : Option Ty}
    (gives : Edit.Gives (Edit.undefined module type) store ref left) :
    left.isUndefined ref = true ∧ store.Repoints (fun _ operands => operands) left := by
  obtain ⟨interned, interns⟩ := regular.interns_undefined gives
  exact ⟨interned.undefined,
    interns.repoints ((Edit.undefined_keeps module type).of_gives gives coherent).1⟩

/-! ## Unlinking and building -/

theorem Takes.trims {gone : List Ref} (takes : store.Takes gone left) (coherent : left.Coherent) :
    store.Trims left where
  coherent := coherent
  ages := takes.ages
  kind := fun _ => .inl (takes.opcode? _)
  linked := fun _ linked => (takes.blockOf?_eq_some_iff.1 linked).1
  added := by
    intro ref opcode absent found
    have present := value?_isSome_of_opcode? ((takes.opcode? ref).symm.trans found)
    simp [absent] at present
  undefineds := by
    intro module known member
    have same := congrArg (fun modules : Array Module => modules[module]?.map Module.undefineds)
      (Revises.modules takes)
    exact .inl (undefinedsOf_of_modules same ▸ member)

theorem Coherent.removes
    (coherent : store.Coherent)
    {answer : Unit}
    (gives : Edit.Gives (Edit.remove ref) store answer left) :
    store.Takes [ref] left ∧ store.Trims left := by
  have takes := coherent.takes_remove gives
  exact ⟨takes, takes.trims ((Edit.remove_keeps ref).of_gives gives coherent).1⟩

namespace Receives

variable {new : Ref} {after : Option Ref} {entry : Instruction}

theorem opcode?_old (receives : store.Receives block after new entry left) (different : ref ≠ new) :
    left.opcode? ref = store.opcode? ref :=
  congrArg (Option.map _) (receives.instruction?_old different)

theorem blockOf?_old
    (receives : store.Receives block after new entry left)
    (different : ref ≠ new) :
    left.blockOf? ref = store.blockOf? ref :=
  congrArg (Option.bind · _) (receives.instruction?_old different)

theorem operands_old
    (receives : store.Receives block after new entry left)
    (different : ref ≠ new) :
    left.operands ref = store.operands ref := by
  rw [operands, operands, receives.instruction?_old different]

theorem opcode?_new (receives : store.Receives block after new entry left) :
    left.opcode? new = some entry.opcode := by
  rw [opcode?, receives.instruction?_new, Option.map_some]

theorem operands_new (receives : store.Receives block after new entry left) :
    left.operands new = entry.values := by
  rw [operands, receives.instruction?_new, Option.map_some, Option.getD_some]

theorem trims
    (receives : store.Receives block after new entry left)
    (notTerminator : entry.opcode.isTerminator = false)
    (notLValue : entry.opcode.isLValue = false) :
    store.Trims left where
  coherent := receives.coherent
  ages := receives.ages
  kind := fun present => .inl (receives.opcode?_old (receives.ne_new present))
  linked := fun present linked =>
    (receives.blockOf?_old (receives.ne_new present)).symm.trans linked
  added := by
    intro ref opcode absent found
    by_cases same : ref = new
    · subst same
      cases receives.opcode?_new.symm.trans found
      exact ⟨notTerminator, notLValue⟩
    · have present := value?_isSome_of_opcode? ((receives.opcode?_old same).symm.trans found)
      simp [absent] at present
  undefineds := fun member => .inl (undefinedsOf_of_modules (receives.undefineds _) ▸ member)

end Receives

end Store

end ShaderIR

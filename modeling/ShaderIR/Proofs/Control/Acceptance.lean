import ShaderIR.Proofs.Coherence.Report
import ShaderIR.Proofs.Control.Dominance

/-!
# What validation says about control flow

Validation looks at the reached blocks of the functions of a module.  A block that
it accepts belongs to the function, and its last instruction, and no other one, is
a terminator.  It checks some of the targets of terminators and the number and the
blocks of incomings, but it does not check the target of a loop, of a ray query loop
and of a region of automatic differentiation, the blocks of cases and whether a phi
has two incomings from one block.  Where these are in order, too, all targets are
present, and phis have one incoming for each predecessor.
-/

namespace ShaderIR

/-- The positions of the operands that a terminator may move control to. -/
def Opcode.targets : Opcode → List Nat
  | .ifElse _ | .condBranch => [1, 2]
  | .switch _ cases => 1 :: (List.range cases.length).map (2 + ·)
  | .loop .. | .simpleLoop _ | .branch | .breakTo | .continueTo | .outline _ | .autodiffScope _
  | .rayQueryLoop _ => [0]
  | .rayQueryDispatch => [1]
  | _ => []

/-- The targets that validation does not look at. -/
def Opcode.uncheckedTargets : Opcode → List Nat
  | .switch _ cases => (List.range cases.length).map (2 + ·)
  | .loop .. | .simpleLoop _ | .autodiffScope _ | .rayQueryLoop _ => [0]
  | _ => []

namespace Store

/-- An instruction has a block as its operand at a position. -/
def HasTarget (store : Store) (entry : Instruction) (position : Nat) : Prop :=
  ∃ block, entry.operand? position = some (some block) ∧ store.isBlock block = true

/--
Control is in order in a function.  A definition has a body; reached blocks belong
to the function, end in their only terminator, the targets of which are present,
and have phis with one incoming for each predecessor.
-/
structure Routed (store : Store) (function : Ref) : Prop where
  body : ∀ {entry}, store.function? function = some entry → entry.isDefinition = true →
    entry.body.isSome
  owner : ∀ {block}, store.Reached function block → store.blockFunction? block = some function
  ends : ∀ {block}, store.Reached function block → (store.terminator? block).isSome
  single : ∀ {block before ref rest}, store.Reached function block →
    store.instructions block = before ++ ref :: rest → store.isTerminator ref = true → rest = []
  targets : ∀ {block terminator entry}, store.Reached function block →
    store.terminator? block = some terminator → store.instruction? terminator = some entry →
    ∀ position ∈ entry.opcode.targets, store.HasTarget entry position
  incomings : ∀ {block phi entry}, store.Reached function block → phi ∈ store.instructions block →
    store.instruction? phi = some entry → entry.opcode.isPhi = true →
    entry.opcode.incomingBlocks.Perm ((store.predecessors block).map some)

/-- The functions that some functions use in their reached blocks are among them. -/
def Closed (store : Store) (functions : List Ref) : Prop :=
  ∀ ⦃function block user callee⦄, function ∈ functions → store.Reached function block →
    user ∈ store.instructions block → some callee ∈ store.operands user →
      store.isFunction callee = true → callee ∈ functions

/--
What validation leaves open: targets that it does not check are present, phis do
not have two incomings from one block, and functions that are used as operands
were not removed from their module.
-/
structure Complete (store : Store) (module : Nat) : Prop where
  targets : ∀ {function block terminator entry}, function ∈ store.functions module →
    store.Reached function block → store.terminator? block = some terminator →
    store.instruction? terminator = some entry →
    ∀ position ∈ entry.opcode.uncheckedTargets, store.HasTarget entry position
  incomings : ∀ {function block phi entry}, function ∈ store.functions module →
    store.Reached function block → phi ∈ store.instructions block →
    store.instruction? phi = some entry → entry.opcode.incomingBlocks.Nodup
  callees : store.Closed (store.functions module)

/-- What a function may use: linked instructions, arguments and blocks are to be its own. -/
@[mk_iff]
structure BelongsTo (store : Store) (function operand : Ref) : Prop where
  instruction : ∀ {entry}, store.instruction? operand = some entry →
    ∃ block, entry.block = some block ∧ store.blockFunction? block = some function
  argument : ∀ {passing owner position},
    store.content? operand = some (.argument passing owner position) → owner = function
  block : ∀ {owner}, store.blockFunction? operand = some owner → owner = function

theorem BelongsTo.home
    {store : Store}
    {function operand block : Ref}
    (belongs : store.BelongsTo function operand)
    (linked : store.blockOf? operand = some block) :
    store.blockFunction? block = some function := by
  obtain ⟨entry, found, placed⟩ := blockOf?_eq_some_iff.1 linked
  obtain ⟨home, placed', owned⟩ := belongs.instruction found
  cases placed.symm.trans placed'
  exact owned

end Store

namespace Validation

variable {store : Store} {module : Nat} {function block ref : Ref} {entry : Instruction}

theorem note_eq_nil_iff {condition : Bool} {message : String} :
    note condition message = [] ↔ condition = false := by
  cases condition <;> simp [note]

/-- Where a pass over a list has nothing to say, it has nothing to say of any element. -/
theorem eq_nil_of_mapM
    {α β : Type}
    {judge : α → Option (List β)}
    {elements : List α}
    {results : List (List β)}
    (judged : elements.mapM judge = some results)
    (nothing : results.flatten = [])
    {element : α}
    (member : element ∈ elements) :
    judge element = some [] := by
  induction elements generalizing results with
  | nil => cases member
  | cons first rest induction =>
      rw [List.mapM_cons] at judged
      obtain ⟨head, headFound, later⟩ := Option.bind_eq_some_iff.1 judged
      obtain ⟨tail, tailFound, equal⟩ := Option.bind_eq_some_iff.1 later
      cases equal
      obtain ⟨headEmpty, tailEmpty⟩ := List.append_eq_nil_iff.1 nothing
      rcases List.mem_cons.1 member with rfl | member
      · rw [headFound, headEmpty]
      · exact induction tailFound tailEmpty member

theorem functionIssues?_of_validate
    (accepted : store.validate? module = some [])
    (listed : function ∈ store.functions module) :
    functionIssues? store module function = some [] := by
  obtain ⟨entry, found, rest⟩ := Option.bind_eq_some_iff.1 accepted
  obtain ⟨results, judged, rest⟩ := Option.bind_eq_some_iff.1 rest
  obtain ⟨uses, -, equal⟩ := Option.bind_eq_some_iff.1 rest
  have nothing := (List.append_eq_nil_iff.1 (Option.some.inj equal)).1
  rw [Store.functions, found] at listed
  exact eq_nil_of_mapM judged nothing listed

theorem body_isSome_of_function
    {entry : Function}
    (accepted : functionIssues? store module function = some [])
    (found : store.function? function = some entry)
    (defined : entry.isDefinition = true) :
    entry.body.isSome := by
  by_contra missing
  rw [functionIssues?, found] at accepted
  simp only [Option.bind_eq_bind, Option.bind_some, defined, Bool.not_true, Bool.false_eq_true,
    if_false, Option.not_isSome_iff_eq_none.1 missing, Option.isNone_none, if_true] at accepted
  split at accepted <;> simp at accepted

theorem blockIssues?_of_function
    {body : Ref}
    (accepted : functionIssues? store module function = some [])
    (hasBody : store.body? function = some body)
    (reached : block ∈ store.reversePostOrder function) :
    blockIssues? store module function block = some [] := by
  obtain ⟨entry, found, rest⟩ := Option.bind_eq_some_iff.1 accepted
  have present : entry.body.isSome = true := by
    rw [Store.body?, found, Option.bind_some] at hasBody
    simp [hasBody]
  split at rest
  · simp at rest
  · split at rest
    · simp [note, present] at rest
    · rw [if_neg (by simp [Option.isNone_iff_eq_none, Option.isSome_iff_ne_none.1 present])] at rest
      obtain ⟨results, judged, equal⟩ := Option.bind_eq_some_iff.1 rest
      have nothing := (List.append_eq_nil_iff.1 (Option.some.inj equal)).2
      exact eq_nil_of_mapM judged nothing reached

theorem instructionMessages?_of_issues
    {predecessors done before rest : List Ref}
    {flag : Bool}
    (accepted : instructionIssues? store module function block predecessors done.getLast? flag
      (before ++ ref :: rest) = some []) :
    instructionMessages? store ⟨module, function, block, ref⟩ predecessors
      (done ++ before).getLast? (store.links.last block == some ref)
      (flag || before.any fun ref => !store.isPhi ref) = some [] := by
  induction before generalizing flag done with
  | nil =>
      obtain ⟨messages, given, others⟩ := Option.bind_eq_some_iff.1 accepted
      obtain ⟨later, -, equal⟩ := Option.bind_eq_some_iff.1 others
      obtain ⟨nothing, -⟩ := List.append_eq_nil_iff.1 (Option.some.inj equal)
      rw [List.map_eq_nil_iff.1 nothing] at given
      rw [List.any_nil, Bool.or_false, List.append_nil]
      exact given
  | cons first others induction =>
      obtain ⟨messages, -, later⟩ := Option.bind_eq_some_iff.1 accepted
      obtain ⟨issues, given, equal⟩ := Option.bind_eq_some_iff.1 later
      obtain ⟨-, nothing⟩ := List.append_eq_nil_iff.1 (Option.some.inj equal)
      rw [nothing, ← List.getLast?_concat (l := done) (a := first)] at given
      rw [List.any_cons, ← Bool.or_assoc, List.append_cons]
      exact induction given

/-- An instruction behind others of its block of which validation has nothing to say. -/
structure Admitted (store : Store) (place : Place) (entry : Instruction) (before rest : List Ref) :
    Prop where
  found : store.instruction? place.instruction = some entry
  last : entry.opcode.isTerminator = true → rest = []
  head : entry.opcode.isPhi = true → ∀ ref ∈ before, store.isPhi ref = true
  phi : entry.opcode.isPhi = true →
    phiMessages? store (store.predecessors place.block) place.instruction = some []
  belongs : ∀ {operand}, some operand ∈ entry.values → store.BelongsTo place.function operand
  kind : kindMessages? store place entry = some []

/-- Validation accepts definitions in the function that uses them. -/
theorem definitionMessages_eq_nil_iff {index : Nat} {operand : Ref} :
    definitionMessages store function index operand = [] ↔ store.BelongsTo function operand := by
  rw [Store.belongsTo_iff]
  unfold definitionMessages
  rw [Store.instruction?, Store.blockFunction?.eq_def store operand]
  cases content : store.content? operand with
  | none => simp
  | some found =>
      cases found with
      | instruction entry => cases placed : entry.block <;> simp [placed, note_eq_nil_iff]
      | argument | block => simp [note_eq_nil_iff]
      | _ => simp

theorem belongsTo_of_operandMessages
    {place : Place}
    {index : Nat}
    {slot : Slot}
    {operand : Ref}
    (accepted : operandMessages store place index slot = [])
    (holds : slot.value = some operand) :
    store.BelongsTo place.function operand := by
  unfold operandMessages at accepted
  rw [holds] at accepted
  have present := (List.append_eq_nil_iff.1 accepted).2
  dsimp only [presentMessages] at present
  split at present
  · cases present
  · exact definitionMessages_eq_nil_iff.1 (List.append_eq_nil_iff.1 present).2

theorem admitted_of_messages
    {place : Place}
    {previous : Option Ref}
    {before rest : List Ref}
    (accepted : instructionMessages? store place (store.predecessors place.block) previous
      rest.isEmpty (before.any fun ref => !store.isPhi ref) = some []) :
    ∃ entry, Admitted store place entry before rest := by
  obtain ⟨entry, found, given⟩ := Option.bind_eq_some_iff.1 accepted
  dsimp only at given
  -- Whatever is said of a phi, the rest of the messages is the same.
  have judged : ∀ phi : List String, ((kindMessages? store place entry).bind fun kind =>
      some (note (entry.block != some place.block ||
          store.previous? place.instruction != previous)
            "instruction list links are inconsistent" ++
        note (entry.opcode.isTerminator && !rest.isEmpty) "terminator in the middle of a block" ++
        phi ++ entry.operands.zipIdx.flatMap (fun numbered =>
          operandMessages store place numbered.2 numbered.1) ++ kind)) = some [] →
      phi = [] ∧ (entry.opcode.isTerminator = true → rest = []) ∧
        (∀ {operand}, some operand ∈ entry.values → store.BelongsTo place.function operand) ∧
        kindMessages? store place entry = some [] := by
    intro phi given
    obtain ⟨kind, kindGiven, equal⟩ := Option.bind_eq_some_iff.1 given
    have nothing := Option.some.inj equal
    simp only [List.append_eq_nil_iff, note_eq_nil_iff] at nothing
    obtain ⟨⟨⟨⟨-, last⟩, noPhi⟩, noOperand⟩, noKind⟩ := nothing
    rw [noKind] at kindGiven
    refine ⟨noPhi, fun isTerminator => by simpa [isTerminator] using last, ?_, kindGiven⟩
    intro operand member
    obtain ⟨slot, listed, holds⟩ := List.mem_map.1 member
    obtain ⟨index, held⟩ := List.mem_iff_getElem?.1 listed
    have quiet := List.flatMap_eq_nil_iff.1 noOperand _ (List.mk_mem_zipIdx_iff_getElem?.2 held)
    exact belongsTo_of_operandMessages quiet holds
  split at given
  · obtain ⟨messages, phiGiven, given⟩ := Option.bind_eq_some_iff.1 given
    obtain ⟨noPhi, last, belongs, kind⟩ := judged _ given
    obtain ⟨atHead, nothing⟩ := List.append_eq_nil_iff.1 noPhi
    rw [nothing] at phiGiven
    refine ⟨entry, found, last, fun _ => ?_, fun _ => phiGiven, belongs, kind⟩
    simpa using note_eq_nil_iff.1 atHead
  · rename_i notPhi
    obtain ⟨-, last, belongs, kind⟩ := judged _ given
    exact ⟨entry, found, last, fun isPhi => absurd isPhi notPhi, fun isPhi => absurd isPhi notPhi,
      belongs, kind⟩

/-- A block of which validation has nothing to say. -/
structure AdmittedBlock (store : Store) (module : Nat) (function block : Ref) : Prop where
  owner : store.blockFunction? block = some function
  ends : (store.terminator? block).isSome
  instruction : ∀ {before ref rest}, store.instructions block = before ++ ref :: rest →
    ∃ entry, Admitted store ⟨module, function, block, ref⟩ entry before rest

theorem admittedBlock_of_issues
    (coherent : store.Coherent)
    (accepted : blockIssues? store module function block = some []) :
    AdmittedBlock store module function block := by
  rw [blockIssues?_eq coherent] at accepted
  dsimp only at accepted
  split at accepted
  · simp at accepted
  · obtain ⟨issues, given, equal⟩ := Option.map_eq_some_iff.1 accepted
    obtain ⟨nothing, noIssues⟩ := List.append_eq_nil_iff.1 equal
    simp only [List.map_eq_nil_iff, List.append_eq_nil_iff, note_eq_nil_iff] at nothing
    subst noIssues
    refine ⟨by simpa using nothing.1, ?_, fun {before ref rest} split => ?_⟩
    · simpa [Option.isSome_iff_ne_none] using nothing.2
    · have isLast := isLast_eq coherent split
      rw [split, ← List.getLast?_nil] at given
      have messages := instructionMessages?_of_issues given
      rw [Bool.false_or, isLast] at messages
      exact admitted_of_messages messages

/-- Validation has looked at all reached blocks of a function. -/
theorem admittedBlock_of_validate
    (coherent : store.Coherent)
    (accepted : store.validate? module = some [])
    (listed : function ∈ store.functions module)
    (reached : store.Reached function block) :
    AdmittedBlock store module function block := by
  obtain ⟨body, hasBody, -⟩ := id reached
  exact admittedBlock_of_issues coherent <| blockIssues?_of_function
    (functionIssues?_of_validate accepted listed) hasBody
    ((Store.mem_reversePostOrder_iff_reached coherent).2 reached)

/-! ## Elements -/

/-- What validation accepts of an element reference. -/
theorem reached_of_kindMessages
    {place : Place}
    (accepted : kindMessages? store place entry = some [])
    (opcode : entry.opcode = .gep) :
    ∃ base, entry.operand? 0 = some base ∧ isLocation store base = true ∧
      store.elementType? (store.typeOfOption base) (entry.values.drop 1) =
        some (store.typeOf place.instruction) := by
  simp only [kindMessages?, opcode] at accepted
  obtain ⟨base, held, accepted⟩ := Option.bind_eq_some_iff.1 accepted
  split at accepted
  · cases accepted
  · rename_i location
    obtain ⟨reached, reaches, equal⟩ := Option.bind_eq_some_iff.1 accepted
    have same : reached = store.typeOf place.instruction := by
      simpa [note_eq_nil_iff] using Option.some.inj equal
    exact ⟨base, held, by simpa using location, reaches.trans (congrArg some same)⟩

/-! ## Targets -/

theorem hasTarget_of_asBlock
    {operand : Option Ref}
    {position : Nat}
    (held : entry.operand? position = some operand)
    (present : (store.asBlock operand).isNone = false) :
    store.HasTarget entry position := by
  cases found : store.asBlock operand with
  | none => simp [found] at present
  | some block =>
      obtain ⟨rfl, isBlock⟩ := Store.asBlock_eq_some_iff.1 found
      exact ⟨block, held, isBlock⟩

theorem hasTarget_of_targetMessages
    {position : Nat}
    {text : String}
    (accepted : (do
      let target := store.asBlock (← entry.operand? position)
      return note target.isNone text) = some []) :
    store.HasTarget entry position := by
  obtain ⟨operand, held, equal⟩ := Option.bind_eq_some_iff.1 accepted
  exact hasTarget_of_asBlock held (note_eq_nil_iff.1 (Option.some.inj equal))

theorem hasTarget_of_conditionalMessages
    (accepted : (do
      let condition ← entry.operand? 0
      let isBool := condition.isSome && (store.typeOfOption condition).any Ty.isBool
      let whenTrue := store.asBlock (← entry.operand? 1)
      let missing ←
        if whenTrue.isNone then pure true
        else pure (store.asBlock (← entry.operand? 2)).isNone
      return note (!isBool) "branch condition is not a bool" ++
        note missing "conditional branch is missing a target") = some []) :
    store.HasTarget entry 1 ∧ store.HasTarget entry 2 := by
  obtain ⟨condition, -, accepted⟩ := Option.bind_eq_some_iff.1 accepted
  obtain ⟨whenTrue, heldTrue, accepted⟩ := Option.bind_eq_some_iff.1 accepted
  dsimp only at accepted
  split at accepted
  · have nothing := (List.append_eq_nil_iff.1 (Option.some.inj accepted)).2
    simp [note] at nothing
  · rename_i present
    obtain ⟨whenFalse, heldFalse, equal⟩ := Option.bind_eq_some_iff.1 accepted
    have nothing := (List.append_eq_nil_iff.1 (Option.some.inj equal)).2
    exact ⟨hasTarget_of_asBlock heldTrue (Bool.eq_false_of_not_eq_true present),
      hasTarget_of_asBlock heldFalse (note_eq_nil_iff.1 nothing)⟩

/-- Targets that validation looks at are present. -/
theorem hasTarget_of_kindMessages
    {place : Place}
    {position : Nat}
    (accepted : kindMessages? store place entry = some [])
    (isTarget : position ∈ entry.opcode.targets)
    (checked : position ∉ entry.opcode.uncheckedTargets) :
    store.HasTarget entry position := by
  unfold kindMessages? at accepted
  dsimp only at accepted
  cases opcode : entry.opcode <;>
    simp only [opcode, Opcode.targets, Opcode.uncheckedTargets] at accepted isTarget checked
  case ifElse | condBranch =>
    obtain ⟨whenTrue, whenFalse⟩ := hasTarget_of_conditionalMessages accepted
    obtain rfl | rfl : position = 1 ∨ position = 2 := by simpa using isTarget
    · exact whenTrue
    · exact whenFalse
  case switch =>
    obtain rfl : position = 1 := by
      rcases List.mem_cons.1 isTarget with equal | isCase
      · exact equal
      · exact absurd isCase checked
    exact hasTarget_of_targetMessages accepted
  case branch | breakTo | continueTo | outline | rayQueryDispatch =>
    cases List.mem_singleton.1 isTarget
    exact hasTarget_of_targetMessages accepted
  case loop | simpleLoop | autodiffScope | rayQueryLoop => exact absurd isTarget checked
  all_goals cases isTarget

/-! ## Incomings -/

/-- A phi that validation accepts has incomings from predecessors only, as many as there are. -/
theorem incomingBlocks_of_phiMessages
    {phi : Ref}
    (accepted : phiMessages? store (store.predecessors block) phi = some [])
    (found : store.instruction? phi = some entry) :
    entry.opcode.incomingBlocks.length = (store.predecessors block).length ∧
      entry.opcode.incomingBlocks ⊆ (store.predecessors block).map some := by
  obtain ⟨incomings, given, equal⟩ := Option.bind_eq_some_iff.1 accepted
  obtain ⟨counted, judged⟩ := List.append_eq_nil_iff.1 (Option.some.inj equal)
  rw [note_eq_nil_iff, bne_eq_false_iff_eq] at counted
  rw [Store.incomings?, found, Option.bind_some] at given
  dsimp only at given
  split at given
  · cases given
  · rename_i enough
    cases given
    have blocks : (entry.values.zip entry.opcode.incomingBlocks).map Prod.snd =
        entry.opcode.incomingBlocks :=
      List.map_snd_zip (by simpa [Instruction.values] using enough)
    constructor
    · rw [← counted, ← List.length_map Prod.snd, blocks]
    · intro incoming member
      rw [← blocks] at member
      obtain ⟨⟨value, source⟩, paired, rfl⟩ := List.mem_map.1 member
      obtain ⟨index, held⟩ := List.mem_iff_getElem?.1 paired
      have complete := List.flatMap_eq_nil_iff.1 judged _
        (List.mk_mem_zipIdx_iff_getElem?.2 held)
      rcases value with _ | value
      · simp [incomingMessages] at complete
      · rcases source with _ | source
        · simp [incomingMessages] at complete
        · have listed := note_eq_nil_iff.1 complete
          exact List.mem_map_of_mem (by simpa using listed)

/-- Without two incomings from one block, a phi has one incoming for each predecessor. -/
theorem perm_incomingBlocks
    {phi : Ref}
    (accepted : phiMessages? store (store.predecessors block) phi = some [])
    (found : store.instruction? phi = some entry)
    (distinct : entry.opcode.incomingBlocks.Nodup) :
    entry.opcode.incomingBlocks.Perm ((store.predecessors block).map some) := by
  obtain ⟨length, inside⟩ := incomingBlocks_of_phiMessages accepted found
  exact (List.subperm_of_subset distinct inside).perm_of_length_le (by simp [length])

end Validation

/-- In functions of an accepted module, control is in order up to what validation leaves open. -/
theorem Store.Complete.routed
    {store : Store}
    {module : Nat}
    {function : Ref}
    (complete : store.Complete module)
    (coherent : store.Coherent)
    (accepted : store.validate? module = some [])
    (listed : function ∈ store.functions module) :
    store.Routed function := by
  have admitted {block} (reached : store.Reached function block) :=
    Validation.admittedBlock_of_validate coherent accepted listed reached
  have judged {block ref} (reached : store.Reached function block)
      (member : ref ∈ store.instructions block) :
      ∃ entry before rest,
        Validation.Admitted store ⟨module, function, block, ref⟩ entry before rest := by
    obtain ⟨before, rest, split⟩ := List.append_of_mem member
    obtain ⟨entry, admitted⟩ := (admitted reached).instruction split
    exact ⟨entry, before, rest, admitted⟩
  constructor
  case body =>
    exact Validation.body_isSome_of_function
      (Validation.functionIssues?_of_validate accepted listed)
  case owner => exact fun reached => (admitted reached).owner
  case ends => exact fun reached => (admitted reached).ends
  case single =>
    intro block before ref rest reached split isTerminator
    obtain ⟨entry, admitted⟩ := (admitted reached).instruction split
    exact admitted.last (by simpa [Store.isTerminator, opcode?, admitted.found] using isTerminator)
  case targets =>
    intro block terminator entry reached last found position isTarget
    obtain ⟨entry', before, rest, admitted⟩ := judged reached (mem_instructions_of_terminator? last)
    cases found.symm.trans admitted.found
    by_cases unchecked : position ∈ entry.opcode.uncheckedTargets
    · exact complete.targets listed reached last found position unchecked
    · exact Validation.hasTarget_of_kindMessages admitted.kind isTarget unchecked
  case incomings =>
    intro block phi entry reached member found isPhi
    obtain ⟨entry', before, rest, admitted⟩ := judged reached member
    cases found.symm.trans admitted.found
    exact Validation.perm_incomingBlocks (admitted.phi isPhi) found
      (complete.incomings listed reached member found)

/-! ## The order of blocks -/

/--
Functions in order: their reached blocks are their own and have phis at the head and
terminators at the end only, and what instructions use is defined in the same function.
-/
structure Store.Ordered (store : Store) (functions : List Ref) : Prop where
  owner : ∀ {function block}, function ∈ functions → store.Reached function block →
    store.blockFunction? block = some function
  single : ∀ {function block before ref rest}, function ∈ functions →
    store.Reached function block → store.instructions block = before ++ ref :: rest →
    store.isTerminator ref = true → rest = []
  heads : ∀ {function block ref}, function ∈ functions → store.Reached function block →
    ref ∈ store.afterPhis block → store.isPhi ref = false
  inside : ∀ {function block user operand home}, function ∈ functions →
    store.Reached function block → user ∈ store.instructions block →
    some operand ∈ store.operands user → store.blockOf? operand = some home →
    store.blockFunction? home = some function

/-- Functions in order that keep to themselves: the functions that they use are among them. -/
structure Store.Arranged (store : Store) (functions : List Ref) : Prop
    extends store.Ordered functions where
  callees : store.Closed functions

/-- Where every element of a kind is preceded by its kind only, none comes after the
first others. -/
theorem not_of_mem_dropWhile
    {α : Type}
    {kind : α → Bool}
    {elements : List α}
    {element : α}
    (heads : ∀ {before after element}, elements = before ++ element :: after →
      kind element = true → ∀ other ∈ before, kind other = true)
    (member : element ∈ elements.dropWhile kind) :
    kind element = false := by
  obtain ⟨before, after, split⟩ := List.append_of_mem member
  have whole : elements = elements.takeWhile kind ++ before ++ element :: after := by
    rw [List.append_assoc, ← split, List.takeWhile_append_dropWhile]
  rw [Bool.eq_false_iff]
  intro isKind
  have firstNot : ∀ first, (elements.dropWhile kind).head? = some first → kind first = false := by
    intro first isFirst
    have := List.head?_dropWhile_not kind elements
    rw [isFirst] at this
    exact this
  cases before with
  | nil =>
      have := firstNot element (by rw [split]; rfl)
      rw [isKind] at this
      cases this
  | cons first rest =>
      have := firstNot first (by rw [split]; rfl)
      rw [heads whole isKind first (by simp)] at this
      cases this

/-- The functions of an accepted module are in order. -/
theorem ordered_of_validate
    {store : Store}
    {module : Nat}
    (coherent : store.Coherent)
    (accepted : store.validate? module = some []) :
    store.Ordered (store.functions module) where
  owner := fun listed reached =>
    (Validation.admittedBlock_of_validate coherent accepted listed reached).owner
  single := by
    intro function block before ref rest listed reached split isTerminator
    obtain ⟨entry, admitted⟩ :=
      (Validation.admittedBlock_of_validate coherent accepted listed reached).instruction split
    exact admitted.last (by simpa [Store.isTerminator, Store.opcode?, admitted.found]
      using isTerminator)
  heads := by
    intro function block ref listed reached member
    refine not_of_mem_dropWhile ?_ member
    intro before after other split isPhi
    obtain ⟨entry, admitted⟩ :=
      (Validation.admittedBlock_of_validate coherent accepted listed reached).instruction split
    exact admitted.head (by simpa [Store.isPhi, Store.opcode?, admitted.found] using isPhi)
  inside := by
    intro function block user operand home listed reached member operandOf linked
    obtain ⟨before, rest, split⟩ := List.append_of_mem member
    obtain ⟨entry, admitted⟩ :=
      (Validation.admittedBlock_of_validate coherent accepted listed reached).instruction split
    have belongs := admitted.belongs (by simpa [Store.operands, admitted.found] using operandOf)
    exact belongs.home linked

/-! ## Checking what validation leaves open -/

theorem Store.hasTarget_iff {store : Store} {entry : Instruction} {position : Nat} :
    store.HasTarget entry position ↔ (store.asBlock (entry.operand? position).join).isSome := by
  constructor
  · rintro ⟨block, held, isBlock⟩
    rw [held, Option.join_some, asBlock_eq_some_iff.2 ⟨rfl, isBlock⟩]
    rfl
  · intro present
    obtain ⟨block, found⟩ := Option.isSome_iff_exists.1 present
    obtain ⟨held, isBlock⟩ := asBlock_eq_some_iff.1 found
    exact ⟨block, Option.join_eq_some_iff.1 held, isBlock⟩

instance (store : Store) (entry : Instruction) (position : Nat) :
    Decidable (store.HasTarget entry position) :=
  decidable_of_iff _ Store.hasTarget_iff.symm

/-- What validation leaves open can be looked up in a traversal of the functions. -/
theorem Store.complete_of_traversal
    {store : Store}
    {module : Nat}
    (coherent : store.Coherent)
    (checked : ∀ function ∈ store.functions module, ∀ block ∈ store.reversePostOrder function,
      ∀ ref ∈ store.instructions block, ∀ entry ∈ store.instruction? ref,
        (∀ position ∈ entry.opcode.uncheckedTargets, store.HasTarget entry position) ∧
        entry.opcode.incomingBlocks.Nodup ∧
        ∀ callee ∈ entry.values.filterMap store.asFunction, callee ∈ store.functions module) :
    store.Complete module where
  targets := fun listed reached last found =>
    (checked _ listed _ ((mem_reversePostOrder_iff_reached coherent).2 reached) _
      (mem_instructions_of_terminator? last) _ found).1
  incomings := fun listed reached member found =>
    (checked _ listed _ ((mem_reversePostOrder_iff_reached coherent).2 reached) _ member _
      found).2.1
  callees := by
    intro function block ref callee listed reached member held isFunction
    obtain ⟨entry, found, slot, inside, holds⟩ := some_mem_operands_iff.1 held
    refine (checked _ listed _ ((mem_reversePostOrder_iff_reached coherent).2 reached) _ member _
      found).2.2 callee (List.mem_filterMap.2 ⟨some callee, ?_, ?_⟩)
    · exact List.mem_map.2 ⟨slot, inside, holds⟩
    · exact Option.filter_eq_some_iff.2 ⟨rfl, isFunction⟩

end ShaderIR

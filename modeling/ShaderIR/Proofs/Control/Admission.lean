import ShaderIR.Proofs.Control.Acceptance
import ShaderIR.Proofs.Revision.Ages

/-!
# What validation accepts

In a coherent store, validation has nothing to say of use-lists, links and pools.  It
accepts a module if it has nothing to say of the reached blocks of its functions: each of
them belongs to its function, ends in a terminator, and has admitted instructions.  So
a change that keeps the instructions of reached blocks admitted keeps a module accepted.

What is said of an instruction by its kind depends on little of its operands: on their
types, on whether they are locations, blocks and functions, and on the numbers of constant
indices.  Operands that are alike in this are accepted alike.
-/

namespace ShaderIR

namespace Validation

variable {store left : Store} {module : Nat} {function block ref : Ref} {entry : Instruction}

/-! ## Admitted blocks are accepted -/

section Blocks

variable (coherent : store.Coherent)

include coherent

theorem operandMessages_eq_nil
    {place : Place}
    {index : Nat}
    {slot : Slot}
    (found : store.instruction? place.instruction = some entry)
    (linked : entry.block.isSome)
    (member : slot ∈ entry.operands)
    (pool : store.moduleOf? place.instruction = some place.module)
    (belongs : ∀ operand, slot.value = some operand → store.BelongsTo place.function operand) :
    operandMessages store place index slot = [] := by
  rw [operandMessages_eq coherent found linked pool index member]
  cases holds : slot.value with
  | none => rfl
  | some operand => exact definitionMessages_eq_nil_iff.2 (belongs operand holds)

theorem instructionMessages?_of_admitted
    {place : Place}
    {before rest : List Ref}
    (split : store.instructions place.block = before ++ place.instruction :: rest)
    (pool : store.moduleOf? place.instruction = some place.module)
    (admitted : Admitted store place entry before rest) :
    instructionMessages? store place (store.predecessors place.block) before.getLast?
      (store.links.last place.block == some place.instruction)
      (before.any fun ref => !store.isPhi ref) = some [] := by
  have linked : store.blockOf? place.instruction = some place.block := by
    refine (coherent.mem_members _ _).1 ?_
    rw [split]
    simp
  have previous : store.previous? place.instruction = before.getLast? :=
    coherent.linked.previous split
  have placed : entry.block = some place.block := by
    rw [Store.blockOf?, admitted.found] at linked
    exact linked
  have operands : entry.operands.zipIdx.flatMap (fun numbered =>
      operandMessages store place numbered.2 numbered.1) = [] := by
    refine List.flatMap_eq_nil_iff.2 fun numbered member => ?_
    have member := List.fst_mem_of_mem_zipIdx member
    refine operandMessages_eq_nil coherent admitted.found (by simp [placed]) member pool ?_
    exact fun operand holds => admitted.belongs (List.mem_map.2 ⟨_, member, holds⟩)
  have last : (entry.opcode.isTerminator && !rest.isEmpty) = false := by
    cases ends : entry.opcode.isTerminator with
    | false => rfl
    | true => simp [admitted.last ends]
  unfold instructionMessages?
  rw [isLast_eq coherent split]
  simp only [admitted.found, admitted.kind, operands, last, placed, previous, note,
    Option.bind_eq_bind, Option.bind_some, bne_self_eq_false, Bool.or_false, Option.pure_def,
    Bool.false_eq_true, if_false, List.append_nil]
  cases isPhi : entry.opcode.isPhi with
  | false => rfl
  | true =>
      have head : (before.any fun ref => !store.isPhi ref) = false := by
        simpa using admitted.head isPhi
      rw [if_pos rfl, admitted.phi isPhi, head]
      rfl

theorem blockIssues?_of_admitted
    (pool : store.moduleOf? block = some module)
    (admitted : AdmittedBlock store module function block) :
    blockIssues? store module function block = some [] := by
  have issues : ∀ {after before}, store.instructions block = before ++ after →
      instructionIssues? store module function block (store.predecessors block)
        before.getLast? (before.any fun ref => !store.isPhi ref) after = some [] := by
    intro after
    induction after with
    | nil => exact fun _ => rfl
    | cons ref rest induction =>
        intro before split
        have linked := (coherent.mem_members block ref).1 (split ▸ by simp)
        obtain ⟨entry, admitted⟩ := admitted.instruction split
        have messages := instructionMessages?_of_admitted coherent split
          ((coherent.memberPool linked).trans pool) admitted
        have split' : store.instructions block = (before ++ [ref]) ++ rest := by simp [split]
        have later := induction split'
        rw [List.any_append, List.any_cons, List.any_nil, Bool.or_false, List.getLast?_concat]
          at later
        unfold instructionIssues?
        simp only [messages, later, Option.bind_eq_bind, Option.bind_some, List.map_nil,
          List.append_nil, Option.pure_def]
  have nonempty : store.instructions block ≠ [] := by
    intro empty
    have ends := admitted.ends
    simp [Store.terminator?, empty] at ends
  have whole : instructionIssues? store module function block (store.predecessors block) none
      false (store.instructions block) = some [] :=
    issues (List.nil_append _).symm
  rw [blockIssues?_eq coherent]
  simp [nonempty, admitted.owner, note, Option.isNone_eq_false_iff.2 admitted.ends, whole]

end Blocks

/-! ## Accepted modules stay accepted -/

theorem mapM_eq_some_replicate
    {α β : Type}
    {judge : α → Option (List β)}
    {elements : List α}
    (quiet : ∀ element ∈ elements, judge element = some []) :
    elements.mapM judge = some (elements.map fun _ => []) := by
  induction elements with
  | nil => rfl
  | cons first rest induction =>
      obtain ⟨here, later⟩ := List.forall_mem_cons.1 quiet
      rw [List.mapM_cons, here, induction later]
      rfl

theorem argumentMessages_of_ages
    {index : Nat}
    {argument : Ref}
    (ages : store.Ages left)
    (quiet : argumentMessages store function index argument = []) :
    argumentMessages left function index argument = [] := by
  unfold argumentMessages at quiet ⊢
  split
  · rename_i passing owner position found
    rw [ages.argument_iff] at found
    rw [found] at quiet
    exact quiet
  · rfl

theorem functionIssues?_of_ages
    (ages : store.Ages left)
    (accepted : functionIssues? store module function = some [])
    (blocks : ∀ block ∈ left.reversePostOrder function,
      blockIssues? left module function block = some []) :
    functionIssues? left module function = some [] := by
  obtain ⟨entry, found, rest⟩ := Option.bind_eq_some_iff.1 accepted
  have present : (store.value? function).isSome := by
    refine Store.content?_isSome_iff.1 (Option.isSome_of_eq_some (?_ : _ = some (.function entry)))
    exact Store.function?_eq_some_iff.1 found
  have quiet : ∀ {issues : List Issue} (rest : (entry.arguments.zipIdx.flatMap fun numbered =>
      (argumentMessages store function numbered.2 numbered.1).map (functionIssue store function)) ++
        issues = []),
      (entry.arguments.zipIdx.flatMap fun numbered =>
        (argumentMessages left function numbered.2 numbered.1).map
          (functionIssue left function)) = [] := by
    intro issues nothing
    refine List.flatMap_eq_nil_iff.2 fun numbered member => ?_
    have nothing := List.flatMap_eq_nil_iff.1 (List.append_eq_nil_iff.1 nothing).1 numbered member
    rw [List.map_eq_nil_iff] at nothing ⊢
    exact argumentMessages_of_ages ages nothing
  unfold functionIssues?
  rw [ages.function?, found, ages.moduleOf? present]
  simp only [Option.bind_eq_bind, Option.bind_some] at rest ⊢
  split at rest
  · simp at rest
  · rename_i pool
    rw [if_neg pool]
    split at rest
    · rename_i declared
      obtain nothing := Option.some.inj rest
      have external := (List.append_eq_nil_iff.1 nothing).2
      rw [List.map_eq_nil_iff] at external
      rw [if_pos declared, quiet nothing, external]
      rfl
    · rename_i defined
      split at rest
      · simp at rest
      · rename_i hasBody
        obtain ⟨results, judged, equal⟩ := Option.bind_eq_some_iff.1 rest
        rw [if_neg defined, if_neg hasBody, mapM_eq_some_replicate blocks, Option.bind_some,
          quiet (Option.some.inj equal)]
        simp

/-- A module stays accepted if its functions have admitted blocks. -/
theorem validate?_of_ages
    (coherent : left.Coherent)
    (ages : store.Ages left)
    (accepted : store.validate? module = some [])
    (listed : function ∈ store.functions module)
    (blocks : ∀ {function block}, function ∈ store.functions module →
      left.Reached function block → AdmittedBlock left module function block) :
    left.validate? module = some [] := by
  have functions := ages.functions module
  obtain ⟨entry, found⟩ : ∃ entry, left.modules[module]? = some entry := by
    by_contra none
    rw [← Option.isSome_iff_exists, Bool.not_eq_true, Option.isSome_eq_false_iff,
      Option.isNone_iff_eq_none] at none
    rw [← functions, Store.functions, none] at listed
    cases listed
  have inModule : left.functions module = entry.functions := by rw [Store.functions, found]; rfl
  have quiet : ∀ function ∈ entry.functions, functionIssues? left module function = some [] := by
    intro function member
    rw [← inModule, functions] at member
    refine functionIssues?_of_ages ages (functionIssues?_of_validate accepted member) ?_
    intro block inOrder
    have reached := (Store.mem_reversePostOrder_iff_reached coherent).1 inOrder
    have pool := moduleOf?_of_mem_reversePostOrder coherent
      (coherent.listed module function (functions ▸ member)).2 inOrder
    exact blockIssues?_of_admitted coherent pool (blocks member reached)
  unfold Store.validate?
  rw [found]
  simp only [Option.bind_eq_bind, Option.bind_some, mapM_eq_some_replicate quiet,
    useIssues?_eq coherent, List.append_nil]
  simp

/-! ## Operands that are accepted alike -/

/-- Validation does not tell two operands apart, or is content with the second one at least. -/
structure Alike (store left : Store) (operand operand' : Option Ref) : Prop where
  present : operand'.isSome = operand.isSome
  type : left.typeOfOption operand' = store.typeOfOption operand
  location : isLocation store operand = true → isLocation left operand' = true
  block : (store.asBlock operand).isSome → (left.asBlock operand').isSome
  function : ∀ {callee}, store.asFunction operand = some callee →
    left.asFunction operand' = some callee

theorem Alike.isNone {operand operand' : Option Ref} (alike : Alike store left operand operand') :
    operand'.isNone = operand.isNone := by
  rw [← Option.not_isSome, ← Option.not_isSome, alike.present]

/-- Two indices are constants of the same number, or neither is a constant. -/
def SameConstant (store left : Store) (index index' : Option Ref) : Prop :=
  index'.any left.isConstant = index.any store.isConstant ∧
    index'.bind left.constantInt? = index.bind store.constantInt?

theorem elementType?_of_alike
    {indices indices' : List (Option Ref)}
    (alike : List.Forall₂ (Alike store left) indices indices')
    (constants : List.Forall₂ (SameConstant store left) indices indices')
    (type : Option Ty) :
    left.elementType? type indices' = store.elementType? type indices := by
  induction alike generalizing type with
  | nil => rfl
  | @cons index index' indices indices' first rest induction =>
      cases constants with
      | cons constant constants =>
          have rest := induction constants
          have present := first.present
          cases index with
          | none =>
              cases index' with
              | some ref => simp at present
              | none => cases type <;> rfl
          | some ref =>
              cases index' with
              | none => simp at present
              | some ref' =>
                  cases type with
                  | none => rfl
                  | some type =>
                      have sameType : left.typeOf ref' = store.typeOf ref := first.type
                      obtain ⟨isConstant, number⟩ := constant
                      have isConstant : left.isConstant ref' = store.isConstant ref := isConstant
                      have number : left.constantInt? ref' = store.constantInt? ref := number
                      rw [Store.elementType?, Store.elementType?, sameType, isConstant, number]
                      simp only [rest]

section Kinds

variable {place : Place} {entry' : Instruction}

/-- Either instruction has an operand at a position, or neither has one. -/
theorem operand?_of_alike
    (alike : List.Forall₂ (Alike store left) entry.values entry'.values)
    (position : Nat) :
    (entry.operand? position = none ∧ entry'.operand? position = none) ∨
      ∃ operand operand', entry.operand? position = some operand ∧
        entry'.operand? position = some operand' ∧ Alike store left operand operand' := by
  have values : ∀ entry : Instruction, entry.operand? position = entry.values[position]? :=
    fun entry => by
      rw [Instruction.values, List.getElem?_map]
      rfl
  rw [values, values]
  by_cases inside : position < entry.values.length
  · have inside' : position < entry'.values.length := alike.length_eq ▸ inside
    exact .inr ⟨_, _, List.getElem?_eq_getElem inside, List.getElem?_eq_getElem inside',
      alike.get inside inside'⟩
  · have outside' : ¬position < entry'.values.length := alike.length_eq ▸ inside
    exact .inl ⟨List.getElem?_eq_none (Nat.not_lt.1 inside),
      List.getElem?_eq_none (Nat.not_lt.1 outside')⟩

/-- A judgement of an operand. -/
theorem bind_operand?_of_alike
    {position : Nat}
    {judge judge' : Option Ref → Option (List String)}
    (alike : List.Forall₂ (Alike store left) entry.values entry'.values)
    (judges : ∀ {operand operand'}, Alike store left operand operand' →
      judge operand = some [] → judge' operand' = some [])
    (given : (entry.operand? position).bind judge = some []) :
    (entry'.operand? position).bind judge' = some [] := by
  rcases operand?_of_alike alike position with ⟨none, -⟩ | ⟨operand, operand', held, held', both⟩
  · rw [none] at given
    cases given
  · rw [held] at given
    rw [held']
    exact judges both given

theorem asBlock_isNone_of_alike
    {operand operand' : Option Ref}
    (alike : Alike store left operand operand')
    (present : (store.asBlock operand).isNone = false) :
    (left.asBlock operand').isNone = false := by
  rw [Option.isNone_eq_false_iff] at present ⊢
  exact alike.block present

theorem ite_messages_eq_nil_iff {isWrong : Bool} {message : String} {messages : List String} :
    (if isWrong = true then [message] else messages) = [] ↔ isWrong = false ∧ messages = [] := by
  cases isWrong <;> simp

/-- A location of the same type as before. -/
theorem location_of_alike
    {operand operand' : Option Ref}
    {message : String}
    {messages messages' : List String}
    (alike : Alike store left operand operand')
    (others : messages = [] → messages' = [])
    (quiet : (if (!isLocation store operand) = true then [message] else messages) = []) :
    (if (!isLocation left operand') = true then [message] else messages') = [] := by
  rw [ite_messages_eq_nil_iff, Bool.not_eq_false'] at quiet ⊢
  exact ⟨alike.location quiet.1, others quiet.2⟩

theorem target_of_alike
    {position : Nat}
    {message : String}
    (alike : List.Forall₂ (Alike store left) entry.values entry'.values)
    (given : ((entry.operand? position).bind fun operand =>
      some (note (store.asBlock operand).isNone message)) = some []) :
    ((entry'.operand? position).bind fun operand =>
      some (note (left.asBlock operand).isNone message)) = some [] := by
  refine bind_operand?_of_alike alike (fun both quiet => ?_) given
  have quiet := note_eq_nil_iff.1 (Option.some.inj quiet)
  exact congrArg some (note_eq_nil_iff.2 (asBlock_isNone_of_alike both quiet))

/-- What validation says of an instruction by its kind. -/
theorem kindMessages?_of_alike
    (opcode : entry'.opcode = entry.opcode)
    (alike : List.Forall₂ (Alike store left) entry.values entry'.values)
    (constants : entry.opcode = .gep →
      List.Forall₂ (SameConstant store left) (entry.values.drop 1) (entry'.values.drop 1))
    (type : left.typeOf place.instruction = store.typeOf place.instruction)
    (result : left.typeOf place.function = store.typeOf place.function)
    (functions : ∀ function, left.function? function = store.function? function)
    (accepted : kindMessages? store place entry = some []) :
    kindMessages? left place entry' = some [] := by
  unfold kindMessages? at accepted ⊢
  dsimp only at accepted ⊢
  rw [opcode, type, result]
  cases kind : entry.opcode <;> rw [kind] at accepted <;> dsimp only at accepted ⊢
  case load =>
    refine bind_operand?_of_alike alike (fun both quiet => congrArg some ?_) accepted
    refine location_of_alike both ?_ (Option.some.inj quiet)
    rw [note_eq_nil_iff, note_eq_nil_iff, both.type]
    exact id
  case store =>
    refine bind_operand?_of_alike alike (fun address quiet => ?_) accepted
    refine bind_operand?_of_alike alike (fun stored quiet => congrArg some ?_) quiet
    refine location_of_alike address ?_ (Option.some.inj quiet)
    rw [note_eq_nil_iff, note_eq_nil_iff, address.type, stored.type, stored.isNone]
    exact id
  case gep =>
    have elements := elementType?_of_alike (List.forall₂_drop 1 alike) (constants kind)
    refine bind_operand?_of_alike alike (fun both quiet => ?_) accepted
    split at quiet
    · cases quiet
    · rename_i isLocation
      rw [Bool.not_eq_true, Bool.not_eq_false'] at isLocation
      rw [both.location isLocation, both.type, elements]
      exact quiet
  case branch | breakTo | continueTo | outline | switch | rayQueryDispatch =>
    exact target_of_alike alike accepted
  case ifElse | condBranch =>
    refine bind_operand?_of_alike alike (fun condition quiet => ?_) accepted
    refine bind_operand?_of_alike alike (fun whenTrue quiet => ?_) quiet
    -- The second target is looked at only if the first one is there.
    split at quiet
    · simp [note] at quiet
    · rename_i present
      rw [Bool.not_eq_true] at present
      rw [asBlock_isNone_of_alike whenTrue present, if_neg Bool.false_ne_true]
      refine bind_operand?_of_alike alike (fun whenFalse quiet => congrArg some ?_) quiet
      obtain ⟨isBool, missing⟩ := List.append_eq_nil_iff.1 (Option.some.inj quiet)
      rw [note_eq_nil_iff] at missing
      rw [condition.present, condition.type, isBool, note_eq_nil_iff.2
        (asBlock_isNone_of_alike whenFalse missing)]
      rfl
  case ret =>
    have result' : (entry'.operand? 0).join.isSome = (entry.operand? 0).join.isSome ∧
        left.typeOfOption (entry'.operand? 0).join =
          store.typeOfOption (entry.operand? 0).join := by
      rcases operand?_of_alike alike 0 with ⟨none, none'⟩ | ⟨_, _, held, held', both⟩
      · rw [none, none']
        exact ⟨rfl, rfl⟩
      · rw [held, held']
        exact ⟨both.present, both.type⟩
    obtain ⟨present, sameType⟩ := result'
    cases held : (entry.operand? 0).join with
    | none =>
        rw [held] at accepted present
        have none' : (entry'.operand? 0).join = none := by
          rwa [Option.isSome_none, Option.isSome_eq_false_iff, Option.isNone_iff_eq_none] at present
        rw [none']
        exact accepted
    | some operand =>
        rw [held] at accepted present sameType
        obtain ⟨operand', held'⟩ := Option.isSome_iff_exists.1 present
        rw [held'] at sameType ⊢
        have sameType : left.typeOf operand' = store.typeOf operand := sameType
        refine congrArg some (note_eq_nil_iff.2 ?_)
        rw [sameType]
        exact note_eq_nil_iff.1 (Option.some.inj accepted)
  case call =>
    refine bind_operand?_of_alike alike (fun callee quiet => ?_) accepted
    split at quiet
    · simp at quiet
    · rename_i function found
      obtain ⟨callee', isCallee, isFunction⟩ := Option.bind_eq_some_iff.1 found
      have lengths : entry'.operands.length = entry.operands.length := by
        simpa [Instruction.values] using alike.length_eq.symm
      rw [callee.function isCallee, Option.bind_some, functions, isFunction, lengths]
      exact quiet

end Kinds

end Validation

end ShaderIR

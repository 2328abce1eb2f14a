import ShaderIR.Proofs.Elimination.Exclusion
import ShaderIR.Proofs.Promotion.Chains
import ShaderIR.Proofs.Promotion.Restraining

/-!
# Element references with other bases

An element reference may get any base and any indices that are there before it.  As
long as they lead to the same element, validation accepts it as before, and static single
assignment form is kept.
-/

namespace ShaderIR

open Store Edit

/-- What validation wants of an element reference. -/
theorem Validation.kindMessages?_of_addresses
    {store : Store}
    {place : Place}
    {entry : Instruction}
    {base : Ref}
    {indices : List (Option Ref)}
    (opcode : entry.opcode = .gep)
    (values : entry.values = some base :: indices)
    (isLValue : store.isLValue base = true)
    (addresses : store.elementType? (store.typeOf base) indices =
      some (store.typeOf place.instruction)) :
    kindMessages? store place entry = some [] := by
  have first : entry.operand? 0 = some (some base) := by
    rw [Instruction.operand?, ← List.getElem?_map]
    exact congrArg (·[0]?) values
  simp only [kindMessages?, opcode, first, values, isLocation, Option.bind_eq_bind,
    Option.bind_some, Option.any_some, isLValue, List.drop_one, List.tail_cons, typeOfOption,
    addresses]
  simp [note]

namespace Store

/-- An element reference gets other operands, and everything else stays as it is. -/
structure Rebases (store : Store) (gep : Ref) (slots : List Slot) (left : Store) : Prop where
  trims : store.Trims left
  rewrites : store.Rewrites
    (fun ref entry => if gep = ref then { entry with operands := slots } else entry) left

variable {store left : Store} {function owner block user operand gep base : Ref} {module : Nat}
  {slots : List Slot} {indices : List (Option Ref)}

namespace Rebases

variable (rebases : store.Rebases gep slots left)

include rebases

/-! ## Instructions -/

theorem instruction? (ref : Ref) : left.instruction? ref = (store.instruction? ref).map
    fun entry => if gep = ref then { entry with operands := slots } else entry :=
  rebases.rewrites.instruction? ref

theorem opcode? (ref : Ref) : left.opcode? ref = store.opcode? ref := by
  rw [Store.opcode?, Store.opcode?, rebases.instruction?, Option.map_map]
  congr 1
  funext entry
  dsimp only [Function.comp_apply]
  split <;> rfl

theorem blockOf? (ref : Ref) : left.blockOf? ref = store.blockOf? ref := by
  rw [Store.blockOf?, Store.blockOf?, rebases.instruction?]
  cases store.instruction? ref with
  | none => rfl
  | some entry =>
      dsimp only [Option.map_some, Option.bind_some]
      split <;> rfl

theorem instructions (block : Ref) : left.instructions block = store.instructions block :=
  rebases.rewrites.instructions block

theorem isInstruction (ref : Ref) : left.isInstruction ref = store.isInstruction ref := by
  rw [Store.isInstruction, Store.isInstruction, rebases.instruction?, Option.isSome_map]

theorem typeOf (ref : Ref) : left.typeOf ref = store.typeOf ref :=
  Revises.typeOf rebases.rewrites ref

theorem instruction?_of_ne (different : user ≠ gep) :
    left.instruction? user = store.instruction? user := by
  rw [rebases.instruction?]
  cases store.instruction? user with
  | none => rfl
  | some entry => rw [Option.map_some, if_neg (Ne.symm different)]

theorem operands_of_ne (different : user ≠ gep) : left.operands user = store.operands user := by
  rw [Store.operands, Store.operands, rebases.instruction?_of_ne different]

theorem operands_self (isGep : store.isGep gep = true) :
    left.operands gep = slots.map (·.value) := by
  obtain ⟨entry, found, -⟩ := Option.map_eq_some_iff.1 (isGep_iff.1 isGep)
  rw [Store.operands, rebases.instruction?, found, Option.map_some, if_pos rfl]
  rfl

theorem isGep (ref : Ref) : left.isGep ref = store.isGep ref := by
  rw [Store.isGep, Store.isGep, rebases.opcode?]

theorem isPhi (ref : Ref) : left.isPhi ref = store.isPhi ref := by
  rw [Store.isPhi, Store.isPhi, rebases.opcode?]

theorem isTerminator (ref : Ref) : left.isTerminator ref = store.isTerminator ref := by
  rw [Store.isTerminator, Store.isTerminator, rebases.opcode?]

theorem phis (block : Ref) : left.phis block = store.phis block := by
  rw [Store.phis, Store.phis, rebases.instructions, funext rebases.isPhi]

theorem afterPhis (block : Ref) : left.afterPhis block = store.afterPhis block := by
  rw [Store.afterPhis, Store.afterPhis, rebases.instructions]
  exact congrArg (List.dropWhile · _) (funext rebases.isPhi)

theorem terminator? (block : Ref) : left.terminator? block = store.terminator? block := by
  rw [Store.terminator?, Store.terminator?, rebases.instructions, funext rebases.isTerminator]

/-! ## Control -/

section Control

variable (isGep : store.isGep gep = true)

include isGep

theorem operands_of_isTerminator (isTerminator : store.isTerminator user = true) :
    left.operands user = store.operands user := by
  refine rebases.operands_of_ne ?_
  rintro rfl
  simp [Store.isTerminator, isGep_iff.1 isGep, Opcode.isTerminator] at isTerminator

theorem incomings? (isPhi : store.isPhi user = true) :
    left.incomings? user = store.incomings? user := by
  have different : user ≠ gep := by
    rintro rfl
    rw [isPhi_of_isGep isGep] at isPhi
    cases isPhi
  rw [Store.incomings?, Store.incomings?, rebases.instruction?_of_ne different]

theorem sameWays (function : Ref) : store.SameWays function left where
  body? := rebases.trims.ages.body? function
  mem_successors_iff := by
    intro source target _
    rw [Store.mem_successors_iff, Store.mem_successors_iff, rebases.terminator?]
    refine exists_congr fun terminator => and_congr_right fun last => ?_
    rw [rebases.operands_of_isTerminator isGep (terminator?_eq_some_iff.1 last).2,
      rebases.trims.ages.isBlock]

theorem mem_predecessors_iff (coherent : store.Coherent) {source : Ref} :
    source ∈ left.predecessors block ↔ source ∈ store.predecessors block := by
  rw [rebases.trims.coherent.mem_predecessors_iff, coherent.mem_predecessors_iff]
  refine exists_congr fun terminator => ?_
  rw [rebases.blockOf?, rebases.isTerminator, rebases.trims.ages.blockFunction?,
    rebases.trims.ages.blockFunction?]
  refine and_congr_right fun _ => and_congr_right fun isTerminator => ?_
  rw [rebases.operands_of_isTerminator isGep isTerminator]

theorem perm_predecessors (coherent : store.Coherent) (block : Ref) :
    (left.predecessors block).Perm (store.predecessors block) :=
  (List.perm_ext_iff_of_nodup (nodup_distinct _) (nodup_distinct _)).2 fun _ =>
    rebases.mem_predecessors_iff isGep coherent

theorem availableIn_iff : left.AvailableIn function block operand ↔
    store.AvailableIn function block operand := by
  unfold AvailableIn
  simp only [rebases.blockOf?, (rebases.sameWays isGep function).dominates_iff]

end Control

/-! ## The form of functions -/

/-- Operands that are there before the element reference keep static single assignment form. -/
theorem inSsaForm
    (coherent : store.Coherent)
    (isGep : store.isGep gep = true)
    (serves : ∀ operand, some operand ∈ slots.map (·.value) → store.Serves function operand gep)
    (inForm : store.InSsaForm function) :
    left.InSsaForm function where
  entry := by
    intro body hasBody
    rw [rebases.trims.ages.body?] at hasBody
    have perm := rebases.perm_predecessors isGep coherent body
    rwa [inForm.entry hasBody, List.perm_nil] at perm
  attached := by
    intro user operand linked operandOf isInstruction
    rw [rebases.blockOf?] at linked ⊢
    rw [rebases.isInstruction] at isInstruction
    by_cases same : user = gep
    · subst same
      rw [rebases.operands_self isGep] at operandOf
      exact (serves operand operandOf).attached isInstruction
    · rw [rebases.operands_of_ne same] at operandOf
      exact inForm.attached linked operandOf isInstruction
  incomings := by
    intro block phi reached member
    rw [(rebases.sameWays isGep function).reached_iff] at reached
    rw [rebases.phis] at member
    obtain ⟨pairs, paired, each, given⟩ := inForm.incomings reached member
    refine ⟨pairs, (rebases.incomings? isGep (isPhi_of_mem_phis member)).trans paired,
      each.trans ((rebases.perm_predecessors isGep coherent block).symm.map some), ?_⟩
    intro incoming source inside
    obtain ⟨value, same, type, available⟩ := given inside
    exact ⟨value, same, by rw [rebases.typeOf, rebases.typeOf, type],
      (rebases.availableIn_iff isGep).2 available⟩
  dominated := by
    intro block before user rest operand reached split notPhi operandOf
    rw [(rebases.sameWays isGep function).reached_iff] at reached
    rw [rebases.instructions] at split
    rw [rebases.isPhi] at notPhi
    rw [rebases.availableIn_iff isGep, rebases.blockOf?]
    by_cases same : user = gep
    · subst same
      rw [rebases.operands_self isGep] at operandOf
      have precedes : store.Precedes function operand user := (serves operand operandOf).precedes
      have linked := (coherent.mem_members block user).1 (split ▸ by simp)
      exact ⟨fun home placed => (precedes linked placed).1,
        fun placed => (precedes linked placed).2 rfl split⟩
    · rw [rebases.operands_of_ne same] at operandOf
      exact inForm.dominated reached split notPhi operandOf

/-! ## Acceptance -/

theorem belongsTo_iff : left.BelongsTo owner operand ↔ store.BelongsTo owner operand := by
  have ages := rebases.trims.ages
  refine ⟨fun belongs => ⟨?_, fun found => belongs.argument (ages.argument_iff.2 found),
    fun owned => belongs.block (by rwa [ages.blockFunction?])⟩,
    fun belongs => ⟨?_, fun found => belongs.argument (ages.argument_iff.1 found),
      fun owned => belongs.block (by rwa [← ages.blockFunction?])⟩⟩
  · intro entry found
    have found' := (rebases.instruction? operand).trans (congrArg _ found)
    obtain ⟨home, placed, owned⟩ := belongs.instruction found'
    refine ⟨home, ?_, by rwa [← ages.blockFunction?]⟩
    dsimp only at placed
    split at placed <;> exact placed
  · intro entry found
    rw [rebases.instruction?] at found
    obtain ⟨former, found', rfl⟩ := Option.map_eq_some_iff.1 found
    obtain ⟨home, placed, owned⟩ := belongs.instruction found'
    refine ⟨home, ?_, by rwa [ages.blockFunction?]⟩
    split <;> exact placed

theorem phiMessages?
    (isGep : store.isGep gep = true)
    (coherent : store.Coherent)
    (isPhi : store.isPhi user = true)
    (accepted : Validation.phiMessages? store (store.predecessors block) user = some []) :
    Validation.phiMessages? left (left.predecessors block) user = some [] := by
  have perm := rebases.perm_predecessors isGep coherent block
  obtain ⟨pairs, paired, quiet⟩ := Option.bind_eq_some_iff.1 accepted
  obtain ⟨count, each⟩ := List.append_eq_nil_iff.1 (Option.some.inj quiet)
  rw [Validation.note_eq_nil_iff] at count
  refine Option.bind_eq_some_iff.2 ⟨pairs, (rebases.incomings? isGep isPhi).trans paired,
    congrArg some (List.append_eq_nil_iff.2 ⟨Validation.note_eq_nil_iff.2 ?_, ?_⟩)⟩
  · rw [perm.length_eq, count]
  · refine List.flatMap_eq_nil_iff.2 fun numbered member => ?_
    have here := List.flatMap_eq_nil_iff.1 each numbered member
    obtain ⟨⟨incoming, source⟩, position⟩ := numbered
    cases incoming with
    | none => cases here
    | some incoming =>
        cases source with
        | none => cases here
        | some source =>
            have listed := Validation.note_eq_nil_iff.1 here
            refine Validation.note_eq_nil_iff.2 ?_
            rwa [perm.contains_eq]

theorem alike (operand : Option Ref) : Validation.Alike store left operand operand where
  present := rfl
  type := by
    cases operand with
    | none => rfl
    | some ref => exact rebases.typeOf ref
  location := by
    intro location
    obtain ⟨ref, rfl, isLValue⟩ := (Option.any_eq_true _ _).1 location
    exact rebases.trims.isLValue isLValue
  block := fun present => by rwa [rebases.trims.ages.asBlock]
  function := fun found => by rwa [rebases.trims.ages.asFunction]

theorem sameConstant (operand : Option Ref) :
    Validation.SameConstant store left operand operand := by
  cases operand with
  | none => exact ⟨rfl, rfl⟩
  | some ref => exact ⟨rebases.trims.ages.isConstant ref, rebases.trims.ages.constantInt? ref⟩

theorem elementType? (type : Option Ty) (indices : List (Option Ref)) :
    left.elementType? type indices = store.elementType? type indices :=
  Validation.elementType?_of_alike (List.forall₂_same.2 fun _ _ => rebases.alike _)
    (List.forall₂_same.2 fun _ _ => rebases.sameConstant _) type

/-- A block that validation accepts is accepted still if the same element is addressed. -/
theorem admittedBlock
    (coherent : store.Coherent)
    (isGep : store.isGep gep = true)
    (values : slots.map (·.value) = some base :: indices)
    (serves : ∀ operand, some operand ∈ slots.map (·.value) → store.Serves function operand gep)
    (isLValue : store.isLValue base = true)
    (addresses : store.elementType? (store.typeOf base) indices = some (store.typeOf gep))
    (owns : gep ∈ store.instructions block → owner = function)
    (admitted : Validation.AdmittedBlock store module owner block) :
    Validation.AdmittedBlock left module owner block where
  owner := by rw [rebases.trims.ages.blockFunction?, admitted.owner]
  ends := by
    rw [rebases.terminator?]
    exact admitted.ends
  instruction := by
    intro before ref rest split
    rw [rebases.instructions] at split
    obtain ⟨entry, admitted⟩ := admitted.instruction split
    have member : ref ∈ store.instructions block := split ▸ by simp
    have opcode : store.opcode? ref = some entry.opcode := by
      rw [Store.opcode?, admitted.found]
      rfl
    have phi (isPhi : entry.opcode.isPhi = true) :
        Validation.phiMessages? left (left.predecessors block) ref = some [] := by
      refine rebases.phiMessages? isGep coherent ?_ (admitted.phi isPhi)
      rw [Store.isPhi, opcode]
      exact isPhi
    have head (isPhi : entry.opcode.isPhi = true) : ∀ other ∈ before, left.isPhi other = true := by
      intro other inside
      rw [rebases.isPhi]
      exact admitted.head isPhi other inside
    by_cases same : ref = gep
    · subst same
      have owned := owns member
      subst owned
      refine ⟨{ entry with operands := slots }, ?_, admitted.last, head, phi, ?_, ?_⟩
      · change left.instruction? ref = _
        rw [rebases.instruction?, admitted.found, Option.map_some, if_pos rfl]
      · exact fun operandOf => rebases.belongsTo_iff.2 (serves _ operandOf).belongs
      · have isOpcode : entry.opcode = .gep := by simpa [opcode] using isGep_iff.1 isGep
        refine Validation.kindMessages?_of_addresses isOpcode values
          (rebases.trims.isLValue isLValue) ?_
        rw [rebases.elementType?, rebases.typeOf, addresses]
        exact congrArg some (rebases.typeOf ref).symm
    · refine ⟨entry, ?_, admitted.last, head, phi, ?_, ?_⟩
      · exact (rebases.instruction?_of_ne same).trans admitted.found
      · exact fun operandOf => rebases.belongsTo_iff.2 (admitted.belongs operandOf)
      · exact Validation.kindMessages?_of_alike rfl (List.forall₂_same.2 fun _ _ => rebases.alike _)
          (fun _ => List.forall₂_same.2 fun _ _ => rebases.sameConstant _) (rebases.typeOf _)
          (rebases.typeOf _) rebases.trims.ages.function? admitted.kind

/-- A module is accepted still if an element reference addresses the same element. -/
theorem validate?
    (coherent : store.Coherent)
    (accepted : store.validate? module = some [])
    (listed : function ∈ store.functions module)
    (reached : gep ∈ store.traverse function)
    (isGep : store.isGep gep = true)
    (values : slots.map (·.value) = some base :: indices)
    (serves : ∀ operand, some operand ∈ slots.map (·.value) → store.Serves function operand gep)
    (isLValue : store.isLValue base = true)
    (addresses : store.elementType? (store.typeOf base) indices = some (store.typeOf gep)) :
    left.validate? module = some [] := by
  refine Validation.validate?_of_ages rebases.trims.coherent rebases.trims.ages accepted listed ?_
  intro owner block owned within
  rw [(rebases.sameWays isGep owner).reached_iff] at within
  have admitted := Validation.admittedBlock_of_validate coherent accepted owned within
  refine rebases.admittedBlock coherent isGep values serves isLValue addresses ?_ admitted
  intro member
  obtain ⟨home, reached, inside⟩ := coherent.mem_traverse_iff.1 reached
  have linked := (coherent.mem_members block gep).1 member
  cases linked.symm.trans ((coherent.mem_members home gep).1 inside)
  have ordered := ordered_of_validate coherent accepted
  exact Option.some.inj (admitted.owner.symm.trans (ordered.owner listed reached))

end Rebases

end Store

end ShaderIR

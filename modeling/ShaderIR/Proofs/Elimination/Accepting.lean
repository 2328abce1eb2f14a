import ShaderIR.Proofs.Control.Admission
import ShaderIR.Proofs.Elimination.Condensing
import ShaderIR.Proofs.Elimination.Exclusion

/-!
# Condensing accepted modules

Where values give way to others of their type, and locations to locations, validation accepts
what is left of a module.  The one rule that looks at more than the types of operands is
that of addresses: an index into a structure or an array is to be a constant in range, so
constant indices have to stay the numbers that they are.
-/

namespace ShaderIR

namespace Store

/-- Addresses in the reached blocks of some functions keep their constant indices. -/
def KeepsIndices (store : Store) (functions : List Ref) (become : Ref → Ref) : Prop :=
  ∀ {owner block user index}, owner ∈ functions → store.Reached owner block →
    user ∈ store.instructions block → store.opcode? user = some .gep →
    some index ∈ (store.operands user).drop 1 →
    store.isConstant (become index) = store.isConstant index ∧
      store.constantInt? (become index) = store.constantInt? index

variable {store left : Store} {gone : List Ref} {become : Ref → Ref}
  {function owner block ref user operand : Ref} {module : Nat} {entry : Instruction}

theorem isFunction_of_asFunction
    {operand : Option Ref}
    {callee : Ref}
    (isCallee : store.asFunction operand = some callee) :
    operand = some callee ∧ store.isFunction callee = true :=
  Option.filter_eq_some_iff.1 isCallee

theorem YieldsTo.of_content
    (yieldsTo : store.YieldsTo function become)
    (coherent : store.Coherent)
    (notInstruction : store.isInstruction ref = false) :
    become ref = ref := by
  refine (yieldsTo ref).resolve_right fun yields => ?_
  rw [yields.isInstruction coherent] at notInstruction
  cases notInstruction

theorem isInstruction_of_isFunction (isFunction : store.isFunction ref = true) :
    store.isInstruction ref = false := by
  obtain ⟨entry, found⟩ := Option.isSome_iff_exists.1 isFunction
  simp [isInstruction, instruction?, function?_eq_some_iff.1 found]

namespace Condenses

section

variable (condenses : store.Condenses gone become left) (coherent : store.Coherent)
  (yieldsTo : store.YieldsTo function become)

include condenses coherent yieldsTo

/-- Validation does not tell an operand from the one that it gives way to. -/
theorem alike
    {operand : Option Ref}
    (locations : ∀ ref, store.isLValue ref = true → store.isLValue (become ref) = true)
    (operandOf : operand ∈ store.operands user) :
    Validation.Alike store left operand (operand.map become) := by
  cases operand with
  | none => constructor <;> simp [typeOfOption, Validation.isLocation, asBlock, asFunction]
  | some ref =>
      constructor
      · rfl
      · exact condenses.typeOf_operand coherent yieldsTo operandOf
      · exact fun location => condenses.trims.isLValue (locations ref location)
      · intro present
        obtain ⟨block, found⟩ := Option.isSome_iff_exists.1 present
        obtain ⟨equal, isBlock⟩ := asBlock_eq_some_iff.1 found
        cases equal
        rw [Option.map_some, isBlock_become coherent yieldsTo ref isBlock,
          condenses.trims.ages.asBlock, found]
        rfl
      · intro callee isCallee
        obtain ⟨equal, isFunction⟩ := isFunction_of_asFunction isCallee
        cases equal
        refine Option.filter_eq_some_iff.2 ⟨?_, ?_⟩
        · rw [Option.map_some,
            yieldsTo.of_content coherent (isInstruction_of_isFunction isFunction)]
        · rwa [condenses.trims.ages.isFunction]

theorem belongsTo
    (isLinked : (left.blockOf? user).isSome)
    (operandOf : some operand ∈ left.operands user)
    (belongs : ∀ {former}, some former ∈ store.operands user →
      store.BelongsTo owner (become former)) :
    left.BelongsTo owner operand := by
  have kept := condenses.kept_of_operand isLinked operandOf
  obtain ⟨former, formerOf, rfl⟩ := condenses.exists_operand coherent isLinked operandOf
  have belongs := belongs formerOf
  have present : (store.value? (become former)).isSome := by
    rcases yieldsTo former with same | yields
    · rw [same]
      exact present_of_mem_operands coherent formerOf
    · exact yields.present
  constructor
  · intro entry found
    have isInstruction := condenses.trims.ages.isInstruction present
    have former : store.isInstruction (become former) = true := by
      rw [← isInstruction]
      exact Option.isSome_of_eq_some found
    obtain ⟨entry', found'⟩ := Option.isSome_iff_exists.1 former
    obtain ⟨home, placed, owned⟩ := belongs.instruction found'
    have linked := (condenses.blockOf?_eq_some_iff coherent).2
      ⟨Store.blockOf?_eq_some_iff.2 ⟨entry', found', placed⟩, kept⟩
    obtain ⟨_, found', placed⟩ := Store.blockOf?_eq_some_iff.1 linked
    cases found.symm.trans found'
    exact ⟨home, placed, by rw [condenses.trims.ages.blockFunction?, owned]⟩
  · intro passing owner' position found
    exact belongs.argument (condenses.trims.ages.argument_iff.1 found)
  · intro owner' owned
    rw [condenses.trims.ages.blockFunction?] at owned
    exact belongs.block owned

theorem phiMessages?
    (isBlock : store.isBlock block = true)
    (isLinked : (left.blockOf? ref).isSome)
    (accepted : Validation.phiMessages? store (store.predecessors block) ref = some []) :
    Validation.phiMessages? left (left.predecessors block) ref = some [] := by
  have perm := condenses.perm_predecessors coherent yieldsTo isBlock
  obtain ⟨pairs, paired, quiet⟩ := Option.bind_eq_some_iff.1 accepted
  obtain ⟨count, each⟩ := List.append_eq_nil_iff.1 (Option.some.inj quiet)
  rw [Validation.note_eq_nil_iff] at count
  refine Option.bind_eq_some_iff.2 ⟨_, by rw [condenses.incomings? coherent isLinked, paired]; rfl,
    congrArg some (List.append_eq_nil_iff.2 ⟨Validation.note_eq_nil_iff.2 ?_, ?_⟩)⟩
  · rw [List.length_map, perm.length_eq, count]
  · refine List.flatMap_eq_nil_iff.2 fun numbered member => ?_
    obtain ⟨⟨incoming, source⟩, position⟩ := numbered
    rw [List.mk_mem_zipIdx_iff_getElem?, List.getElem?_map] at member
    obtain ⟨⟨former, source'⟩, held, equal⟩ := Option.map_eq_some_iff.1 member
    cases equal
    have here := List.flatMap_eq_nil_iff.1 each _ (List.mk_mem_zipIdx_iff_getElem?.2 held)
    cases former with
    | none => cases here
    | some former =>
        cases source' with
        | none => cases here
        | some source =>
            have listed := Validation.note_eq_nil_iff.1 here
            refine Validation.note_eq_nil_iff.2 ?_
            rwa [perm.contains_eq]

end

/-! ## Acceptance -/

section

variable (condenses : store.Condenses gone become left) (coherent : store.Coherent)
  (yieldsTo : store.YieldsTo function become)
  (ordered : store.Ordered (store.functions module))
  (listed : function ∈ store.functions module)
  (locations : ∀ ref, store.isLValue ref = true → store.isLValue (become ref) = true)
  (indices : store.KeepsIndices (store.functions module) become)

include condenses coherent yieldsTo ordered listed locations indices

/-- A block that validation accepts is accepted still. -/
theorem admittedBlock
    (owned : owner ∈ store.functions module)
    (reached : store.Reached owner block)
    (admitted : Validation.AdmittedBlock store module owner block) :
    Validation.AdmittedBlock left module owner block where
  owner := by rw [condenses.trims.ages.blockFunction?, admitted.owner]
  ends := by
    rw [condenses.terminator? coherent (ordered.single owned reached)]
    exact admitted.ends
  instruction := by
    intro before ref rest split
    have isLinked := condenses.isLinked_of_mem
      (split ▸ List.mem_append_right before List.mem_cons_self)
    obtain ⟨wasLinked, kept⟩ := condenses.linked coherent isLinked
    have kind {other : Ref} (member : other ∈ before) : left.isPhi other = store.isPhi other :=
      condenses.isPhi coherent (condenses.isLinked_of_mem (split ▸ List.mem_append_left _ member))
    rw [condenses.instructions] at split
    obtain ⟨front, behind, whole, rfl, others⟩ := List.filter_eq_append_iff.1 split
    obtain ⟨skipped, later, rfl, -, -, rfl⟩ := List.filter_eq_cons_iff.1 others
    rw [← List.append_assoc] at whole
    obtain ⟨entry, admitted⟩ := admitted.instruction whole
    have member : ref ∈ store.instructions block := whole ▸ by simp
    have operands : store.operands ref = entry.values := by
      rw [Store.operands, admitted.found]
      rfl
    have present := Store.value?_isSome_of_instruction? admitted.found
    have belongs : ∀ {former}, some former ∈ store.operands ref →
        store.BelongsTo owner (become former) := by
      intro former formerOf
      have belongs := admitted.belongs (operands ▸ formerOf)
      rcases yieldsTo former with same | yields
      · rwa [same]
      · -- What gives way is of the function of its user.
        obtain ⟨place, reached', inside⟩ := yields.reached
        have here := belongs.home ((coherent.mem_members place former).1 inside)
        cases here.symm.trans (ordered.owner listed reached')
        exact yields.belongs
    refine ⟨entry.becoming become, ?_, ?_, ?_, ?_, ?_, ?_⟩
    · change left.instruction? ref = _
      rw [condenses.instruction? kept wasLinked, admitted.found]
      rfl
    · intro ends
      rw [admitted.last ends]
      rfl
    · intro isPhi other member
      rw [kind member]
      exact admitted.head isPhi other (List.mem_append_left _ (List.mem_filter.1 member).1)
    · intro isPhi
      exact condenses.phiMessages? coherent yieldsTo (reached.isBlock coherent) isLinked
        (admitted.phi isPhi)
    · intro operand operandOf
      refine condenses.belongsTo coherent yieldsTo isLinked ?_ belongs
      rw [condenses.operands coherent isLinked, operands, ← Instruction.values_becoming]
      exact operandOf
    · have opcode : (entry.becoming become).opcode = entry.opcode := rfl
      refine Validation.kindMessages?_of_alike opcode ?_ ?_ (condenses.trims.ages.typeOf present)
        (condenses.trims.ages.typeOf ?_) condenses.trims.ages.function? admitted.kind
      · rw [Instruction.values_becoming, List.forall₂_map_right_iff, List.forall₂_same]
        exact fun operand operandOf =>
          condenses.alike coherent yieldsTo locations (operands ▸ operandOf)
      · intro isGep
        rw [Instruction.values_becoming, ← List.map_drop, List.forall₂_map_right_iff,
          List.forall₂_same]
        intro index indexOf
        have opcode : store.opcode? ref = some .gep := by
          rw [Store.opcode?, admitted.found]
          exact congrArg some isGep
        cases index with
        | none => exact ⟨rfl, rfl⟩
        | some index =>
            obtain ⟨isConstant, number⟩ :=
              indices owned reached member opcode (operands ▸ indexOf)
            exact ⟨(condenses.trims.ages.isConstant (become index)).trans isConstant,
              (condenses.trims.ages.constantInt? (become index)).trans number⟩
      · obtain ⟨-, pool⟩ := coherent.listed module owner owned
        rw [← Store.moduleOf?_isSome_iff, pool]
        rfl

/-- Validation accepts what is left of an accepted module. -/
theorem validate? (accepted : store.validate? module = some []) :
    left.validate? module = some [] := by
  refine Validation.validate?_of_ages condenses.trims.coherent condenses.trims.ages
    accepted listed ?_
  intro owner block owned reached
  rw [condenses.reached_iff coherent yieldsTo ordered owned] at reached
  exact condenses.admittedBlock coherent yieldsTo ordered listed locations indices owned reached
    (Validation.admittedBlock_of_validate coherent accepted owned reached)

end

end Condenses

end Store

end ShaderIR

import ShaderIR.Proofs.Control.Acceptance
import ShaderIR.Proofs.Promotion.Narrowing
import ShaderIR.Proofs.Promotion.Pointing

/-!
# Flattening comes to an end

Flattening visits the element references of reached blocks.  In an accepted module
their bases are memory locations, and they stay so: a base is either replaced by
the root that following bases comes to, or by the base of a reference without
indices.
-/

namespace ShaderIR

open Store Edit

namespace Pass

/-- Reshaping memory accesses of a function narrows control and sheds bases. -/
structure Reshaped (origin : Store) (function : Ref) (store : Store) : Prop where
  narrows : origin.Narrows function store
  sheds : origin.Sheds store

/-- While flattening, the element references that it visits refer to memory locations. -/
structure Flattened (origin : Store) (function : Ref) (geps : List Ref) (store : Store) : Prop
    extends Reshaped origin function store where
  rooted : ∀ gep ∈ geps, ∃ base, (store.operands gep).head? = some (some base) ∧
    store.isLValue base = true

variable {origin store left : Store} {function gep : Ref} {geps : List Ref} {module : Nat}

theorem Reshaped.removes
    (reshaped : Reshaped origin function store)
    {ref : Ref}
    {answer : Unit}
    (gives : Gives (remove ref) store answer left) :
    Reshaped origin function left := by
  obtain ⟨takes, trims⟩ := reshaped.narrows.trims.coherent.removes gives
  exact ⟨reshaped.narrows.takes takes trims, reshaped.sheds.takes takes trims⟩

/-- A value is replaced by one that is neither a block nor an element reference nor a read. -/
theorem Reshaped.replaces
    (reshaped : Reshaped origin function store)
    {old new : Ref}
    {answer : Unit}
    (notBlock : store.isBlock new = false)
    (notGep : store.isGep new = false)
    (notLoad : store.opcode? new ≠ some .load)
    (gives : Gives (replaceUses old (some new)) store answer left) :
    Reshaped origin function left := by
  have replaces := reshaped.narrows.trims.coherent.repoints_replaceUses gives
  refine ⟨reshaped.narrows.replaces replaces notBlock fun _ _ _ _ isLoad => absurd isLoad notLoad,
    reshaped.sheds.repoints replaces ?_⟩
  intro gep base isGep head
  split at head
  · rw [List.head?_map] at head
    obtain ⟨operand, head, equal⟩ := Option.map_eq_some_iff.1 head
    unfold replaced at equal
    split at equal
    · cases equal
      rw [notGep] at isGep
      cases isGep
    · exact equal ▸ head
  · exact head

namespace Flattened

variable (flattened : Flattened origin function geps store)

include flattened

theorem replaces
    {old new : Ref}
    {answer : Unit}
    (isLValue : store.isLValue new = true)
    (notGep : store.isGep new = false)
    (gives : Gives (replaceUses old (some new)) store answer left) :
    Flattened origin function geps left := by
  have replaces := flattened.narrows.trims.coherent.repoints_replaceUses gives
  have trims := replaces.trims
  refine ⟨flattened.toReshaped.replaces (isBlock_of_isLValue isLValue) notGep
    (opcode?_ne_of_isLValue isLValue rfl) gives, fun gep member => ?_⟩
  obtain ⟨base, head, isLValue'⟩ := flattened.rooted gep member
  rw [replaces.operands]
  split
  · rw [List.head?_map, head, Option.map_some, replaced]
    split
    · exact ⟨new, rfl, trims.isLValue isLValue⟩
    · exact ⟨base, rfl, trims.isLValue isLValue'⟩
  · exact ⟨base, head, trims.isLValue isLValue'⟩

theorem removes {ref : Ref} {answer : Unit} (gives : Gives (remove ref) store answer left) :
    Flattened origin function geps left := by
  obtain ⟨takes, trims⟩ := flattened.narrows.trims.coherent.removes gives
  refine ⟨flattened.toReshaped.removes gives, fun gep member => ?_⟩
  obtain ⟨base, head, isLValue⟩ := flattened.rooted gep member
  exact ⟨base, by rwa [takes.operands], trims.isLValue isLValue⟩

theorem rebases
    {base : Option Ref}
    {indices : List (Option Ref)}
    {answer : Unit}
    (isGep : store.isGep gep = true)
    (notGep : ∀ root, base = some root → store.isGep root = false)
    (gives : Gives (setBaseAndIndices gep base indices) store answer left) :
    Flattened origin function geps left ∧ (left.operands gep).head? = some base ∧
      ∀ root, base = some root → left.isGep root = false := by
  obtain ⟨isLValue, repoints⟩ :=
    flattened.narrows.trims.coherent.repoints_setBaseAndIndices gives
  have trims := repoints.trims
  obtain ⟨root, rfl, isLValue⟩ := (Option.any_eq_true _ _).1 isLValue
  refine ⟨⟨⟨?_, ?_⟩, ?_⟩, ?_, ?_⟩
  · refine flattened.narrows.repoints_apart repoints fun {ref} kind => if_neg ?_
    rintro rfl
    simp [isTerminator, isGep_iff.1 isGep, Opcode.isTerminator] at kind
  · refine flattened.sheds.repoints repoints ?_
    intro other base isBase head
    split at head
    · cases head
      rw [notGep _ rfl] at isBase
      cases isBase
    · exact head
  · intro other member
    rw [repoints.operands]
    split
    · exact ⟨root, rfl, trims.isLValue isLValue⟩
    · obtain ⟨base, head, isLValue'⟩ := flattened.rooted other member
      exact ⟨base, head, trims.isLValue isLValue'⟩
  · rw [repoints.operands, if_pos rfl]
    rfl
  · rintro _ ⟨⟩
    rw [Bool.eq_false_iff]
    intro isGep'
    have isGep' := trims.of_isGep isGep'
    rw [notGep root rfl] at isGep'
    cases isGep'

end Flattened

/-- Flattening one reference leaves it with a root that is no element reference. -/
theorem ensures_traceBase
    (flattened : Flattened origin function geps store)
    (ends : store.BasesEnd module)
    (isGep : store.isGep gep = true)
    (pool : store.moduleOf? gep = some module) :
    Ensures (traceBase gep) store fun _ left =>
      Flattened origin function geps left ∧
        ∀ root, (left.operands gep).head? = some (some root) → left.isGep root = false := by
  have coherent := flattened.narrows.trims.coherent
  refine .seeBind (.demandBind fun base head => .seeBind ?_)
  split
  · refine (ensures_elementPath coherent ends ?_).bind ?_
    · rintro ref rfl
      rw [coherent.moduleOf?_operand (List.mem_of_mem_head? head)]
      exact pool
    · rintro path left ⟨rfl, notGep⟩
      refine Ensures.bind (.of_ends (setBaseAndIndices_ends _ _ _) fun _ left gives =>
        flattened.rebases isGep notGep gives) ?_
      rintro _ left ⟨flattened, head, notGep⟩
      refine .pure ⟨flattened, fun root found => ?_⟩
      exact notGep root (Option.some.inj (head.symm.trans found))
  · rename_i notGep
    refine .pure ⟨flattened, fun root found => ?_⟩
    cases head.symm.trans found
    simpa using notGep

theorem ensures_removeTrivial
    (flattened : Flattened origin function geps store)
    (member : gep ∈ geps)
    (notGep : ∀ root, (store.operands gep).head? = some (some root) → store.isGep root = false) :
    Ensures (removeTrivial gep) store fun _ left => Flattened origin function geps left := by
  refine .seeBind ?_
  obtain ⟨root, head, isLValue⟩ := flattened.rooted gep member
  split
  · rename_i base alone
    rw [alone] at head
    cases head
    refine Ensures.bind (.of_ends (replaceUses_ends _ _) fun _ left gives =>
      flattened.replaces isLValue (notGep root (by rw [alone]; rfl)) gives) ?_
    rintro _ left flattened
    refine Ensures.bind (.of_ends (remove_ends _) fun _ left gives => flattened.removes gives) ?_
    exact fun _ left flattened => .pure flattened
  · exact .pure flattened

theorem ensures_flattenOne
    (flattened : Flattened origin function geps store)
    (ends : origin.BasesEnd module)
    (member : gep ∈ geps)
    (isGep : origin.isGep gep = true)
    (pool : origin.moduleOf? gep = some module)
    (report : Flattening) :
    Ensures (flattenOne report gep) store fun _ left => Flattened origin function geps left := by
  have trims := flattened.narrows.trims
  have isGep' := isGep_iff.2 (trims.opcode?_kept (isGep_iff.1 isGep) rfl)
  have pool' := (trims.ages.moduleOf? (value?_isSome_of_isGep isGep)).trans pool
  have ends' := ends.sheds trims.ages flattened.sheds
  refine (ensures_traceBase flattened ends' isGep' pool').bind ?_
  rintro _ left ⟨flattened, notGep⟩
  refine (ensures_removeTrivial flattened member notGep).bind ?_
  exact fun _ left flattened => .pure flattened

end Pass

namespace Validation

variable {store : Store} {module : Nat} {function block ref : Ref}

theorem confined_of_validate
    (coherent : store.Coherent)
    (accepted : store.validate? module = some [])
    (listed : function ∈ store.functions module) :
    store.Confined function where
  owned := fun block reached => (admittedBlock_of_validate coherent accepted listed reached).owner
  ended := by
    intro block reached ref member
    obtain ⟨before, rest, split⟩ := List.append_of_mem member
    have nonempty : store.instructions block ≠ [] := by
      intro empty
      simp [empty] at member
    have whole : store.instructions block =
        before ++ ref :: (rest ++ [(store.instructions block).getLast nonempty]) := by
      rw [← List.cons_append, ← List.append_assoc, ← split, List.dropLast_append_getLast]
    obtain ⟨entry, admitted⟩ :=
      (admittedBlock_of_validate coherent accepted listed reached).instruction whole
    have found : store.instruction? ref = some entry := admitted.found
    rw [isTerminator, opcode?, found, Option.map_some, Option.any_some, Bool.eq_false_iff]
    exact fun isTerminator => by simpa using admitted.last isTerminator

/-- The bases of reached element references are memory locations. -/
theorem isLValue_base_of_validate
    (coherent : store.Coherent)
    (accepted : store.validate? module = some [])
    (listed : function ∈ store.functions module)
    (member : ref ∈ store.traverse function)
    (isGep : store.isGep ref = true) :
    ∃ base, (store.operands ref).head? = some (some base) ∧ store.isLValue base = true := by
  obtain ⟨block, reached, member⟩ := coherent.mem_traverse_iff.1 member
  obtain ⟨before, rest, split⟩ := List.append_of_mem member
  obtain ⟨entry, admitted⟩ :=
    (admittedBlock_of_validate coherent accepted listed reached).instruction split
  have kind := admitted.kind
  have found : store.instruction? ref = some entry := admitted.found
  have opcode : entry.opcode = .gep := by simpa [opcode?, found] using isGep_iff.1 isGep
  simp only [kindMessages?, opcode] at kind
  obtain ⟨operand, held, equal⟩ := Option.bind_eq_some_iff.1 kind
  have isLocation : isLocation store operand = true := by
    by_contra elsewhere
    rw [Bool.not_eq_true] at elsewhere
    rw [elsewhere] at equal
    cases equal
  obtain ⟨base, rfl, isLValue⟩ := (Option.any_eq_true _ _).1 isLocation
  refine ⟨base, ?_, isLValue⟩
  rw [operands, found, Option.map_some, Option.getD_some, List.head?_eq_getElem?]
  simpa [Instruction.operand?, Instruction.values] using held

/-- The instructions that a traversal comes to are in the module of the function. -/
theorem moduleOf?_of_mem_traverse
    (coherent : store.Coherent)
    (listed : function ∈ store.functions module)
    (member : ref ∈ store.traverse function) :
    store.moduleOf? ref = some module := by
  obtain ⟨block, inOrder, member⟩ := List.mem_flatMap.1 member
  rw [coherent.memberPool ((coherent.mem_members block ref).1 member)]
  exact moduleOf?_of_mem_reversePostOrder coherent
    (coherent.listed module function listed).2 inOrder

end Validation

namespace Pass

variable {store : Store} {function : Ref} {module : Nat}

/-- The element references of an accepted function refer to memory locations. -/
theorem Flattened.start
    (coherent : store.Coherent)
    (accepted : store.validate? module = some [])
    (listed : function ∈ store.functions module) :
    Flattened store function ((store.traverse function).filter store.isGep) store := by
  have confined := Validation.confined_of_validate coherent accepted listed
  refine ⟨⟨.refl coherent confined, fun _ _ based => based⟩, fun gep member => ?_⟩
  obtain ⟨member, isGep⟩ := List.mem_filter.1 member
  exact Validation.isLValue_base_of_validate coherent accepted listed member isGep

/-- Flattening a function of an accepted module comes to an end. -/
theorem ensures_flatten
    (coherent : store.Coherent)
    (accepted : store.validate? module = some [])
    (listed : function ∈ store.functions module)
    (ends : store.BasesEnd module) :
    Ensures (flatten function) store fun _ left => Reshaped store function left := by
  have start := Flattened.start coherent accepted listed
  have rounds : Ensures
      (((store.traverse function).filter store.isGep).foldlM flattenOne
        { visited := ((store.traverse function).filter store.isGep).length })
      store fun _ left =>
        Flattened store function ((store.traverse function).filter store.isGep) left := by
    refine Ensures.foldlM start fun gep member report left flattened => ?_
    obtain ⟨reached, isGep⟩ := List.mem_filter.1 member
    exact ensures_flattenOne flattened ends member isGep
      (Validation.moduleOf?_of_mem_traverse coherent listed reached) report
  exact .seeBind (rounds.imp fun _ left flattened => flattened.toReshaped)

end Pass

end ShaderIR

import ShaderIR.Proofs.Elimination.CuttingOff
import ShaderIR.Proofs.Elimination.Termination
import ShaderIR.Proofs.Machine.Steady
import ShaderIR.Proofs.Promotion.Unwrapping

/-!
# Removing useless code step by step

What the removal of useless code does comes down to steps of two kinds.  Instructions without
effects are taken out that nothing uses afterwards, maybe with stores through pointers among
them; or a phi gives way to the value that it merges.  Each step keeps a function of an
accepted module in static single assignment form, as long as its phis are plain: they merge no
functions, and no constants where they come to be indices.  So no part of the removal fails,
and all of it comes to an end.
-/

namespace ShaderIR

open Store Edit

namespace Store

/--
Instructions that have no effect, or store through some of the pointers among them.  These
pointers are variables and references to elements of others of them.
-/
structure Dispensable (store : Store) (gone : List Ref) (pointers : Ref → Prop) : Prop where
  kinds : ∀ ref ∈ gone, (store.opcode? ref).any Pass.isPure = true ∨
    store.opcode? ref = some .store ∧ ∃ pointer stored, pointers pointer ∧
      store.operands ref = [some pointer, stored]
  pointers : ∀ pointer, pointers pointer → pointer ∈ gone ∧
    (store.isVariable pointer = true ∨ store.isGep pointer = true ∧
      ∃ base, pointers base ∧ (store.operands pointer).head? = some (some base))

/-- A linked phi has an operand. -/
def Merging (store : Store) (phi operand : Ref) : Prop :=
  store.isPhi phi = true ∧ (store.blockOf? phi).isSome ∧ some operand ∈ store.operands phi

/--
The phis of a function merge no functions.  Those that are indices of addresses merge no
constants, not even through other phis.
-/
structure PlainPhis (store : Store) (module : Nat) (function : Ref) : Prop where
  merged : ∀ {block phi operand}, store.Reached function block → phi ∈ store.phis block →
    some operand ∈ store.operands phi → store.isFunction operand = false
  dynamic : ∀ {block phi operand}, store.Reached function block → phi ∈ store.phis block →
    store.IsIndex (store.functions module) phi → Relation.TransGen store.Merging phi operand →
      store.isConstant operand = false

/-- A function in form with typed and plain phis, in a program with numeric registers. -/
structure Tame (store : Store) (module : Nat) (function : Ref) : Prop
    extends store.Sound module function where
  plain : store.PlainPhis module function
  typed : ∀ {block phi}, store.Reached function block → phi ∈ store.phis block →
    (store.typeOf phi).isSome
  numeric : store.NumericRegisters

/-- A phi of a reached block of a function, unless it has been taken out. -/
structure WasPhi (store : Store) (function phi : Ref) : Prop where
  isInstruction : store.isInstruction phi = true
  member : (store.blockOf? phi).isSome →
    ∃ block, store.Reached function block ∧ phi ∈ store.phis block

/-- One step of the removal of useless code. -/
inductive Reduces (function : Ref) (store left : Store) : Prop
  | dispenses {gone : List Ref} {pointers : Ref → Prop}
      (dispensable : store.Dispensable gone pointers)
      (condenses : store.Condenses gone id left)
  | folds {block phi value : Ref} (reached : store.Reached function block)
      (member : phi ∈ store.phis block)
      (folds : store.Folds function block phi value)
      (yields : store.Yields function phi value)
      (condenses : store.Condenses [phi] (Ref.instead phi value) left)

variable {store left : Store} {module : Nat} {function block phi ref : Ref} {gone : List Ref}
  {become : Ref → Ref}

theorem Ages.numericRegisters (ages : store.Ages left) (numeric : store.NumericRegisters) :
    left.NumericRegisters := by
  intro ref register content
  rw [ages.register_iff] at content
  rw [ages.typeOf (content?_isSome_iff.1 (Option.isSome_of_eq_some content))]
  exact numeric ref register content

/-! ## What steps keep -/

section

variable (condenses : store.Condenses gone become left) (sound : store.Sound module function)
  (yieldsTo : store.YieldsTo function become)

include condenses sound yieldsTo

omit yieldsTo in
theorem Condenses.mem_phis_iff (reached : store.Reached function block) :
    phi ∈ left.phis block ↔ phi ∈ store.phis block ∧ phi ∉ gone := by
  have heads : ∀ ref ∈ store.afterPhis block, store.isPhi ref = false :=
    fun _ => sound.ordered.heads sound.listed reached
  rw [(condenses.phis_and_rest sound.coherent (Condenses.first_of_heads fun _ => heads)).1,
    List.mem_filter, decide_eq_true_iff]

/-- What was a phi of a function is one still, or taken out. -/
theorem WasPhi.condensed (wasPhi : store.WasPhi function phi) : left.WasPhi function phi where
  isInstruction := by
    rw [condenses.trims.ages.isInstruction (value?_isSome_of_isInstruction wasPhi.isInstruction)]
    exact wasPhi.isInstruction
  member := by
    intro linked
    obtain ⟨linked, kept⟩ := condenses.linked sound.coherent linked
    obtain ⟨block, reached, member⟩ := wasPhi.member linked
    exact ⟨block,
      (condenses.reached_iff sound.coherent yieldsTo sound.ordered sound.listed).2 reached,
      (condenses.mem_phis_iff sound reached).2 ⟨member, kept⟩⟩

end

theorem Coherent.merging_of_mem_phis
    (coherent : store.Coherent)
    (member : phi ∈ store.phis block)
    {operand : Ref}
    (operandOf : some operand ∈ store.operands phi) :
    store.Merging phi operand :=
  ⟨isPhi_of_mem_phis member, Option.isSome_of_eq_some
    ((coherent.mem_members block phi).1 (mem_instructions_of_mem_phis member)), operandOf⟩

/-- What phis come to merge afterwards, they came to merge before: a phi merged what it became. -/
theorem Condenses.exists_merging
    (condenses : store.Condenses gone become left)
    (coherent : store.Coherent)
    (yieldsTo : store.YieldsTo function become)
    (phisOnly : ∀ ref, become ref ≠ ref →
      ∃ block, store.Reached function block ∧ ref ∈ store.phis block)
    {given operand : Ref}
    (merges : Relation.TransGen left.Merging (become given) operand) :
    ∃ former, Relation.TransGen store.Merging given former ∧ become former = operand := by
  have step {former next : Ref} (follows : left.Merging (become former) next) :
      ∃ given, Relation.TransGen store.Merging former given ∧ become given = next := by
    obtain ⟨isPhi, isLinked, operandOf⟩ := follows
    rw [condenses.isPhi coherent isLinked] at isPhi
    obtain ⟨given, givenOf, rfl⟩ := condenses.exists_operand coherent isLinked operandOf
    have follows : store.Merging (become former) given :=
      ⟨isPhi, (condenses.linked coherent isLinked).1, givenOf⟩
    refine ⟨given, ?_, rfl⟩
    by_cases same : become former = former
    · exact .single (same ▸ follows)
    · obtain ⟨block, -, member⟩ := phisOnly former same
      have defined : store.isUndefined (become former) = false := by
        rw [Bool.eq_false_iff]
        intro undefined
        simp [Store.isPhi, Store.opcode?, Store.instruction?, isUndefined_iff.1 undefined] at isPhi
      have operandOf := ((yieldsTo former).resolve_left same).merged defined
      exact .tail (.single (coherent.merging_of_mem_phis member operandOf)) follows
  induction merges with
  | single follows => exact step follows
  | tail _ follows induction =>
      obtain ⟨former, chain, rfl⟩ := induction
      obtain ⟨given, further, becomes⟩ := step follows
      exact ⟨given, chain.trans further, becomes⟩

/-- Where only phis become something else, and these are plain, a function stays tame. -/
theorem Condenses.tame_left
    (condenses : store.Condenses gone become left)
    (tame : store.Tame module function)
    (yieldsTo : store.YieldsTo function become)
    (phisOnly : ∀ ref, become ref ≠ ref →
      ∃ block, store.Reached function block ∧ ref ∈ store.phis block) :
    left.Tame module function := by
  have sound := tame.toSound
  have reached_iff {owner block : Ref} (owned : owner ∈ store.functions module) :
      left.Reached owner block ↔ store.Reached owner block :=
    condenses.reached_iff sound.coherent yieldsTo sound.ordered owned
  have former {block phi : Ref} (reached : left.Reached function block)
      (member : phi ∈ left.phis block) :
      store.Reached function block ∧ phi ∈ store.phis block := by
    rw [reached_iff sound.listed] at reached
    exact ⟨reached, ((condenses.mem_phis_iff sound reached).1 member).1⟩
  constructor
  case toSound =>
    refine condenses.sound_left sound yieldsTo (fun ref location => ?_)
      (yieldsTo.keepsIndices sound.coherent fun index different isIndex operand operandOf => ?_)
    · by_contra changed
      obtain ⟨block, -, member⟩ := phisOnly ref fun same => changed (same.symm ▸ location)
      rw [isLValue_of_isPhi (isPhi_of_mem_phis member)] at location
      cases location
    · obtain ⟨block, reached, member⟩ := phisOnly index different
      exact tame.plain.dynamic reached member isIndex
        (.single (sound.coherent.merging_of_mem_phis member operandOf))
  case typed =>
    intro block phi reached member
    obtain ⟨reached, member⟩ := former reached member
    have typed := tame.typed reached member
    rwa [condenses.trims.ages.typeOf]
    by_contra absent
    rw [Store.typeOf, Option.not_isSome_iff_eq_none.1 absent] at typed
    cases typed
  case numeric => exact condenses.trims.ages.numericRegisters tame.numeric
  case plain =>
    constructor
    case merged =>
      intro block phi operand reached member operandOf
      have isLinked := condenses.isLinked_of_mem (mem_instructions_of_mem_phis member)
      obtain ⟨reached, member⟩ := former reached member
      obtain ⟨given, givenOf, rfl⟩ := condenses.exists_operand sound.coherent isLinked operandOf
      rw [condenses.trims.ages.isFunction]
      rcases yieldsTo given with same | yields
      · rw [same]
        exact tame.plain.merged reached member givenOf
      · -- A phi that gives way to a function would have merged it.
        by_contra isFunction
        rw [Bool.not_eq_false] at isFunction
        have callee := yields.callee isFunction
        by_cases same : become given = given
        · rw [same, tame.plain.merged reached member givenOf] at isFunction
          cases isFunction
        · obtain ⟨place, reached', member'⟩ := phisOnly given same
          rw [tame.plain.merged reached' member' callee] at isFunction
          cases isFunction
    case dynamic =>
      rintro block phi operand reached member
        ⟨owner, owned, place, user, found, inside, isGep, index⟩ merges
      obtain ⟨reached, member⟩ := former reached member
      have isLinked := condenses.isLinked_of_mem inside
      rw [condenses.trims.ages.functions] at owned
      rw [reached_iff owned] at found
      rw [condenses.instructions] at inside
      rw [condenses.opcode? sound.coherent isLinked] at isGep
      rw [condenses.operands sound.coherent isLinked, ← List.map_drop] at index
      obtain ⟨given, givenOf, becomes⟩ := List.mem_map.1 index
      obtain ⟨given, rfl, rfl⟩ := Option.map_eq_some_iff.1 becomes
      have isIndex : store.IsIndex (store.functions module) given :=
        ⟨owner, owned, place, user, found, (List.mem_filter.1 inside).1, isGep, givenOf⟩
      obtain ⟨block, reached, member⟩ : ∃ block, store.Reached function block ∧
          given ∈ store.phis block := by
        by_cases same : become given = given
        · exact ⟨block, reached, same ▸ member⟩
        · exact phisOnly given same
      obtain ⟨former, chain, rfl⟩ :=
        condenses.exists_merging sound.coherent yieldsTo phisOnly merges
      rw [condenses.trims.ages.isConstant]
      by_cases same : become former = former
      · rw [same]
        exact tame.plain.dynamic reached member isIndex chain
      · obtain ⟨place, _, inside⟩ := phisOnly former same
        exact ((yieldsTo former).resolve_left same).isConstant fun operand operandOf =>
          tame.plain.dynamic reached member isIndex
            (chain.tail (sound.coherent.merging_of_mem_phis inside operandOf))

/-- A phi that was removed is in no block. -/
theorem Removed.unlinked (removed : store.Removed module function block phi left) :
    left.blockOf? phi = none := by
  obtain ⟨become, condensed⟩ : ∃ become, store.Condensed module function phi become left := by
    cases removed with
    | unused _ _ condensed => exact ⟨_, condensed⟩
    | folded _ _ _ condensed => exact ⟨_, condensed⟩
  refine Option.eq_none_iff_forall_ne_some.2 fun home linked => ?_
  rw [← condensed.coherent.mem_members, condensed.instructions] at linked
  simpa using (List.mem_filter.1 linked).2

theorem Reduces.exists_condenses (reduces : Reduces function store left) :
    ∃ gone become, store.Condenses gone become left ∧ store.YieldsTo function become ∧
      ∀ ref, become ref ≠ ref → ∃ block, store.Reached function block ∧ ref ∈ store.phis block := by
  cases reduces with
  | dispenses _ condenses =>
      exact ⟨_, id, condenses, fun _ => .inl rfl, fun _ different => absurd rfl different⟩
  | @folds block phi value reached member _ yields condenses =>
      refine ⟨_, _, condenses, fun ref => ?_, fun ref different => ?_⟩
      · by_cases same : ref = phi
        · rw [same, Ref.instead_old]
          exact .inr yields
        · exact .inl (Ref.instead_of_ne same)
      · cases Ref.eq_of_instead_ne different
        exact ⟨block, reached, member⟩

theorem Reduces.tame_left
    (reduces : Reduces function store left)
    (tame : store.Tame module function) :
    left.Tame module function := by
  obtain ⟨_, _, condenses, yieldsTo, phisOnly⟩ := reduces.exists_condenses
  exact condenses.tame_left tame yieldsTo phisOnly

/-- All steps keep a function tame, and its phis where they are. -/
theorem tame_of_reduces
    (steps : Relation.ReflTransGen (Reduces function) store left)
    (tame : store.Tame module function) :
    left.Tame module function ∧ ∀ phi, store.WasPhi function phi → left.WasPhi function phi := by
  induction steps with
  | refl => exact ⟨tame, fun _ => id⟩
  | tail _ step induction =>
      obtain ⟨tame, keeps⟩ := induction
      refine ⟨step.tame_left tame, fun phi wasPhi => ?_⟩
      obtain ⟨_, _, condenses, yieldsTo, -⟩ := step.exists_condenses
      exact (keeps phi wasPhi).condensed condenses tame.toSound yieldsTo

end Store

namespace Pass

open Elimination

variable {origin store left : Store} {report report' : Elimination} {module bound : Nat}
  {function address ref phi : Ref} {refs phis : List Ref}

/-! ## What can be done -/

/-- Useless code has been removed step by step so far, with an account of what was taken out. -/
structure Reducing (module : Nat) (function : Ref) (origin : Store) (phis : List Ref)
    (report : Elimination) (store : Store) : Prop where
  tame : store.Tame module function
  accounts : Accounts origin function report store []
  steps : Relation.ReflTransGen (Reduces function) origin store
  wasPhi : ∀ phi ∈ phis, store.WasPhi function phi

namespace Reducing

variable (reducing : Reducing module function origin phis report store)

include reducing

theorem coherent : store.Coherent :=
  reducing.tame.coherent

theorem advance
    (steps : Relation.ReflTransGen (Reduces function) store left)
    (accounts : Accounts origin function report' left []) :
    Reducing module function origin phis report' left := by
  obtain ⟨tame, keeps⟩ := tame_of_reduces steps reducing.tame
  exact ⟨tame, accounts, reducing.steps.trans steps,
    fun phi member => keeps phi (reducing.wasPhi phi member)⟩

variable (whole : origin.Coherent) (idle : origin.StoresIdle function)

include whole idle

variable (regular : origin.Regular) (isPhi : ∀ phi ∈ phis, origin.isPhi phi = true)

include regular isPhi

end Reducing

end Pass

end ShaderIR

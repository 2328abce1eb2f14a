import ShaderIR.Proofs.Elimination.Folding
import ShaderIR.Proofs.Promotion.Rebasing

/-!
# Flattening chains of element references

Flattening deals with one element reference after the other.  It gives the reference the
root of its chain as base, with all the indices on the way, and lets its base take its
place if there are no indices.  Each of the two steps keeps a function of an accepted
module in static single assignment form, and the references dealt with before stay flat.
So in the end all of them are, and flattening once more finds nothing to do.
-/

namespace ShaderIR

open Store Edit

namespace Store

/-- A function of an accepted module in static single assignment form. -/
structure Sound (store : Store) (module : Nat) (function : Ref) : Prop where
  coherent : store.Coherent
  regular : store.Regular
  accepted : store.validate? module = some []
  listed : function ∈ store.functions module
  inForm : store.InSsaForm function

/-- An element reference gets the root of its chain as base, and all the indices from there. -/
structure Retraces (store : Store) (function gep root : Ref) (path : List (Option Ref))
    (left : Store) : Prop where
  member : gep ∈ store.traverse function
  isGep : store.isGep gep = true
  unfolds : store.Unfolds gep root path
  rebases : ∃ slots : List Slot, slots.map (·.value) = some root :: path ∧
    store.Rebases gep slots left

/-- An element reference without indices has given way to its base. -/
structure Unwraps (store : Store) (function gep base : Ref) (left : Store) : Prop where
  member : gep ∈ store.traverse function
  isGep : store.isGep gep = true
  alone : store.operands gep = [some base]
  notGep : store.isGep base = false
  condenses : store.Condenses [gep] (Ref.instead gep base) left

/-- An element reference into what is no element reference, with an index at least. -/
def Flat (store : Store) (gep : Ref) : Prop :=
  ∃ base index indices, store.operands gep = some base :: index :: indices ∧
    store.isGep base = false

variable {store left : Store} {function gep base root ref : Ref} {module : Nat}
  {path : List (Option Ref)}

theorem isLValue_of_isGep (isGep : store.isGep gep = true) : store.isLValue gep = true :=
  isLValue_iff.2 (.inl ⟨_, isGep_iff.1 isGep, rfl⟩)

theorem isTerminator_of_isGep (isGep : store.isGep gep = true) :
    store.isTerminator gep = false := by
  rw [isTerminator, isGep_iff.1 isGep]
  rfl

/-- Memory locations are no constants. -/
theorem isConstant_of_isLValue (isLValue : store.isLValue ref = true) :
    store.isConstant ref = false := by
  unfold Store.isLValue at isLValue
  unfold isConstant
  cases found : store.content? ref with
  | none => rfl
  | some content => cases content <;> simp_all

theorem constantInt?_of_isLValue (isLValue : store.isLValue ref = true) :
    store.constantInt? ref = none := by
  have payload : store.payload? ref = none := by
    have absent := isConstant_of_isLValue isLValue
    rwa [isConstant_eq_payload?, Option.isSome_eq_false_iff, Option.isNone_iff_eq_none] at absent
  rw [constantInt?, payload]
  rfl

/-! ## A new base -/

section Sound

variable (sound : store.Sound module function)

include sound

theorem Sound.ordered : store.Ordered (store.functions module) :=
  ordered_of_validate sound.coherent sound.accepted

theorem Sound.mem_traverse_of_operand
    {user operand : Ref}
    (member : user ∈ store.traverse function)
    (notPhi : store.isPhi user = false)
    (operandOf : some operand ∈ store.operands user)
    (isInstruction : store.isInstruction operand = true) :
    operand ∈ store.traverse function :=
  Store.mem_traverse_of_operand sound.coherent sound.accepted sound.listed sound.inForm member
    notPhi operandOf isInstruction

theorem Sound.serves
    {user operand : Ref}
    (member : user ∈ store.traverse function)
    (notPhi : store.isPhi user = false)
    (operandOf : some operand ∈ store.operands user) :
    store.Serves function operand user :=
  serves_of_mem_traverse sound.coherent sound.accepted sound.listed sound.inForm member notPhi
    operandOf

/-- Condensing leaves a function of an accepted module that is in form. -/
theorem Condenses.sound_left
    {gone : List Ref}
    {become : Ref → Ref}
    (condenses : store.Condenses gone become left)
    (yieldsTo : store.YieldsTo function become)
    (locations : ∀ ref, store.isLValue ref = true → store.isLValue (become ref) = true)
    (indices : store.KeepsIndices (store.functions module) become) :
    left.Sound module function where
  coherent := condenses.trims.coherent
  regular := condenses.trims.regular sound.regular
  accepted := condenses.validate? sound.coherent yieldsTo sound.ordered sound.listed
    locations indices
    sound.accepted
  listed := by rw [condenses.trims.ages.functions]; exact sound.listed
  inForm := condenses.inSsaForm sound.coherent yieldsTo sound.ordered sound.listed sound.inForm

/-- What is on the chain of an element reference can be an operand of it. -/
theorem Unfolds.serves_self
    (unfolds : store.Unfolds gep root path)
    (member : gep ∈ store.traverse function)
    (isGep : store.isGep gep = true) :
    ∀ operand, some operand ∈ some root :: path → store.Serves function operand gep := by
  cases unfolds with
  | root notGep =>
      rw [isGep] at notGep
      cases notGep
  | @step _ base _ indices path _ operands rest =>
      have own {operand : Ref} (operandOf : some operand ∈ store.operands gep) :
          store.Serves function operand gep :=
        sound.serves member (isPhi_of_isGep isGep) operandOf
      obtain ⟨atRoot, along⟩ := rest.serves sound.coherent sound.accepted sound.listed sound.inForm
        member (own (by rw [operands]; exact List.mem_cons_self))
      intro operand inside
      rcases List.mem_cons.1 inside with same | inside
      · exact Option.some.inj same ▸ atRoot
      · rcases List.mem_append.1 inside with inside | inside
        · exact along operand inside
        · exact own (by rw [operands]; exact List.mem_cons_of_mem _ inside)

theorem Unfolds.location_self
    (unfolds : store.Unfolds gep root path)
    (member : gep ∈ store.traverse function)
    (isGep : store.isGep gep = true) :
    store.isLValue root = true ∧
      store.elementType? (store.typeOf root) path = some (store.typeOf gep) :=
  unfolds.location sound.coherent sound.accepted sound.listed sound.inForm (fun _ => member)
    (isLValue_of_isGep isGep)

namespace Retraces

variable (retraces : store.Retraces function gep root path left)

include retraces

theorem sound_left : left.Sound module function := by
  obtain ⟨slots, values, rebases⟩ := retraces.rebases
  have serves := retraces.unfolds.serves_self sound retraces.member retraces.isGep
  obtain ⟨isLValue, type⟩ := retraces.unfolds.location_self sound retraces.member retraces.isGep
  constructor
  case coherent => exact rebases.trims.coherent
  case regular => exact rebases.trims.regular sound.regular
  case accepted =>
    exact rebases.validate? sound.coherent sound.accepted sound.listed retraces.member
      retraces.isGep values (by rwa [values]) isLValue type
  case listed => rw [rebases.trims.ages.functions]; exact sound.listed
  case inForm =>
    exact rebases.inSsaForm sound.coherent retraces.isGep (by rwa [values]) sound.inForm

omit sound

theorem operands_self : left.operands gep = some root :: path := by
  obtain ⟨slots, values, rebases⟩ := retraces.rebases
  rw [rebases.operands_self retraces.isGep, values]

theorem operands_of_ne (different : ref ≠ gep) : left.operands ref = store.operands ref := by
  obtain ⟨slots, values, rebases⟩ := retraces.rebases
  exact rebases.operands_of_ne different

theorem isGep_left (ref : Ref) : left.isGep ref = store.isGep ref := by
  obtain ⟨slots, values, rebases⟩ := retraces.rebases
  exact rebases.isGep ref

theorem mem_traverse_left (coherent : store.Coherent) :
    ref ∈ left.traverse function ↔ ref ∈ store.traverse function := by
  obtain ⟨slots, values, rebases⟩ := retraces.rebases
  rw [rebases.trims.coherent.mem_traverse_iff, coherent.mem_traverse_iff]
  simp only [(rebases.sameWays retraces.isGep function).reached_iff, rebases.instructions]

end Retraces

/-! ## Giving way -/

namespace Unwraps

variable (unwraps : store.Unwraps function gep base left)

include unwraps

theorem serves : store.Serves function base gep :=
  sound.serves unwraps.member (isPhi_of_isGep unwraps.isGep)
    (by rw [unwraps.alone]; exact List.mem_singleton_self _)

theorem location : store.isLValue base = true ∧ store.typeOf base = store.typeOf gep := by
  obtain ⟨base', indices, operands, isLValue, type⟩ := exists_operands_of_isGep sound.coherent
    sound.accepted sound.listed unwraps.member unwraps.isGep
  cases operands.symm.trans unwraps.alone
  rw [elementType?] at type
  exact ⟨isLValue, Option.some.inj type⟩

theorem yieldsTo : store.YieldsTo function (Ref.instead gep base) := by
  intro ref
  by_cases same : ref = gep
  · subst same
    rw [Ref.instead_old]
    have serves := unwraps.serves sound
    obtain ⟨isLValue, type⟩ := unwraps.location sound
    have operandOf : some base ∈ store.operands ref := by
      rw [unwraps.alone]
      exact List.mem_singleton_self _
    exact .inr ⟨sound.coherent.mem_traverse_iff.1 unwraps.member, type,
      present_of_mem_operands sound.coherent operandOf, isBlock_of_isLValue isLValue,
      serves.belongs, fun _ => operandOf, fun placed placed' => serves.precedes placed placed'⟩
  · exact .inl (Ref.instead_of_ne same)

theorem sound_left : left.Sound module function := by
  obtain ⟨isLValue, type⟩ := unwraps.location sound
  refine unwraps.condenses.sound_left sound (unwraps.yieldsTo sound) ?_ ?_
  · intro ref location
    by_cases same : ref = gep
    · rwa [same, Ref.instead_old]
    · rwa [Ref.instead_of_ne same]
  · intro owner block user index _ _ _ _ _
    by_cases same : index = gep
    · have isLValue' := isLValue_of_isGep unwraps.isGep
      rw [same, Ref.instead_old, constantInt?_of_isLValue isLValue, isConstant_of_isLValue isLValue,
        constantInt?_of_isLValue isLValue', isConstant_of_isLValue isLValue']
      exact ⟨rfl, rfl⟩
    · rw [Ref.instead_of_ne same]
      exact ⟨rfl, rfl⟩

theorem mem_traverse_left :
    ref ∈ left.traverse function ↔ ref ∈ store.traverse function ∧ ref ≠ gep := by
  rw [unwraps.condenses.trims.coherent.mem_traverse_iff, sound.coherent.mem_traverse_iff]
  simp only [unwraps.condenses.reached_iff sound.coherent (unwraps.yieldsTo sound) sound.ordered
    sound.listed, unwraps.condenses.instructions, List.mem_filter, List.mem_singleton,
    decide_eq_true_iff]
  constructor
  · rintro ⟨block, reached, inside, different⟩
    exact ⟨⟨block, reached, inside⟩, different⟩
  · rintro ⟨⟨block, reached, inside⟩, different⟩
    exact ⟨block, reached, inside, different⟩

end Unwraps

end Sound

/-! ## What can be done -/

/-- What is on a chain belongs to one module. -/
theorem Unfolds.pools
    (unfolds : store.Unfolds gep root path)
    (coherent : store.Coherent)
    (present : (store.value? gep).isSome) :
    ∀ operand, some operand ∈ some root :: path →
      (store.value? operand).isSome ∧ store.moduleOf? operand = store.moduleOf? gep := by
  induction unfolds with
  | root notGep =>
      intro operand member
      obtain rfl := Option.some.inj (List.mem_singleton.1 member)
      exact ⟨present, rfl⟩
  | @step gep base root indices path isGep operands rest induction =>
      have own {operand : Ref} (operandOf : some operand ∈ store.operands gep) :
          (store.value? operand).isSome ∧ store.moduleOf? operand = store.moduleOf? gep :=
        ⟨present_of_mem_operands coherent operandOf, coherent.moduleOf?_operand operandOf⟩
      have baseOf : some base ∈ store.operands gep := by rw [operands]; exact List.mem_cons_self
      obtain ⟨held, pool⟩ := own baseOf
      intro operand member
      rw [← List.cons_append] at member
      rcases List.mem_append.1 member with member | member
      · obtain ⟨held', pool'⟩ := induction held operand member
        exact ⟨held', pool'.trans pool⟩
      · exact own (by rw [operands]; exact List.mem_cons_of_mem _ member)

end Store

namespace Pass

variable {store left : Store} {function gep base root ref : Ref} {module : Nat}
  {path : List (Option Ref)}

section

variable (sound : store.Sound module function)

include sound

end

/-! ## All references -/

/-- One step of flattening.  A strict one takes no reference out. -/
inductive FlattensOne (strict : Prop) (function : Ref) (store left : Store) : Prop
  | retraces {gep root : Ref} {path : List (Option Ref)}
      (retraces : store.Retraces function gep root path left)
  | unwraps {gep base : Ref} (loose : ¬strict) (unwraps : store.Unwraps function gep base left)

/-- Flattening has come so far that no references but the pending ones are left to flatten. -/
structure Flattens (module : Nat) (function : Ref) (origin : Store) (pending : List Ref)
    (report : Flattening) (store : Store) : Prop where
  sound : store.Sound module function
  waits : ∀ gep ∈ pending, gep ∈ store.traverse function ∧ store.isGep gep = true
  flat : ∀ gep ∈ store.traverse function, store.isGep gep = true → gep ∈ pending ∨ store.Flat gep
  steps : ∀ strict : Prop, (strict → report.removed = []) →
    Relation.ReflTransGen (FlattensOne strict function) origin store

namespace Flattens

variable {origin : Store} {pending rest : List Ref} {report : Flattening}

theorem retraces
    (flattens : Flattens module function origin pending report store)
    (among : gep ∈ pending)
    (retraces : store.Retraces function gep root path left) :
    Flattens module function origin pending report left where
  sound := retraces.sound_left flattens.sound
  waits := by
    intro other member
    rw [retraces.mem_traverse_left flattens.sound.coherent, retraces.isGep_left]
    exact flattens.waits other member
  flat := by
    intro other member isGep
    rw [retraces.mem_traverse_left flattens.sound.coherent] at member
    rw [retraces.isGep_left] at isGep
    refine (flattens.flat other member isGep).elim .inl fun isFlat => ?_
    by_cases same : other = gep
    · exact .inl (same ▸ among)
    · obtain ⟨base, index, indices, operands, notGep⟩ := isFlat
      refine .inr ⟨base, index, indices, ?_, ?_⟩
      · rw [retraces.operands_of_ne same, operands]
      · rw [retraces.isGep_left, notGep]
  steps := fun strict removes => (flattens.steps strict removes).tail (.retraces retraces)

theorem done
    (flattens : Flattens module function origin (gep :: rest) report store)
    (isFlat : store.Flat gep)
    (traced : List Ref) :
    Flattens module function origin rest { report with traced } store where
  sound := flattens.sound
  waits := fun other member => flattens.waits other (List.mem_cons_of_mem _ member)
  flat := by
    intro other member isGep
    rcases flattens.flat other member isGep with among | isFlat'
    · rcases List.mem_cons.1 among with rfl | among
      · exact .inr isFlat
      · exact .inl among
    · exact .inr isFlat'
  steps := flattens.steps

theorem unwraps
    (flattens : Flattens module function origin (gep :: rest) report store)
    (distinct : gep ∉ rest)
    (unwraps : store.Unwraps function gep base left)
    (traced : List Ref) :
    Flattens module function origin rest
      { report with traced, removed := report.removed ++ [gep] } left := by
  have condenses := unwraps.condenses
  have coherent := flattens.sound.coherent
  have linked {other : Ref} (member : other ∈ left.traverse function) :
      (left.blockOf? other).isSome := by
    obtain ⟨block, -, inside⟩ := condenses.trims.coherent.mem_traverse_iff.1 member
    exact condenses.isLinked_of_mem inside
  have isGep_left {other : Ref} (member : other ∈ left.traverse function) :
      left.isGep other = store.isGep other := by
    rw [Store.isGep, Store.isGep, condenses.opcode? coherent (linked member)]
  constructor
  case sound => exact unwraps.sound_left flattens.sound
  case waits =>
    intro other member
    obtain ⟨inside, isGep⟩ := flattens.waits other (List.mem_cons_of_mem _ member)
    have inside' := (unwraps.mem_traverse_left flattens.sound).2
      ⟨inside, fun same => distinct (same ▸ member)⟩
    exact ⟨inside', (isGep_left inside').trans isGep⟩
  case flat =>
    intro other member isGep
    obtain ⟨inside, different⟩ := (unwraps.mem_traverse_left flattens.sound).1 member
    rw [isGep_left member] at isGep
    rcases flattens.flat other inside isGep with among | ⟨root, index, indices, operands, notGep⟩
    · exact .inl ((List.mem_cons.1 among).resolve_left different)
    · -- The base of a flat reference stays, as it is no element reference.
      have kept : root ≠ gep := by
        rintro rfl
        rw [unwraps.isGep] at notGep
        cases notGep
      refine .inr ⟨root, index.map (Ref.instead gep base),
        indices.map (Option.map (Ref.instead gep base)), ?_, ?_⟩
      · rw [condenses.operands coherent (linked member), operands, List.map_cons, List.map_cons,
          Option.map_some, Ref.instead_of_ne kept]
      · rw [Bool.eq_false_iff]
        intro isGep'
        rw [condenses.trims.of_isGep isGep'] at notGep
        cases notGep
  case steps =>
    intro strict removes
    have loose : ¬strict := fun holds => by simpa using removes holds
    exact (flattens.steps strict fun holds => absurd holds loose).tail (.unwraps loose unwraps)

end Flattens

end Pass

end ShaderIR

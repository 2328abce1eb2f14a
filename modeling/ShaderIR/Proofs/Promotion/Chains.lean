import ShaderIR.Proofs.Control.Admission
import ShaderIR.Proofs.Control.SsaForm
import ShaderIR.Proofs.Promotion.Flattening
import ShaderIR.Proofs.Promotion.Pointing

/-!
# Chains of element references

Following bases from an element reference comes to a root and gathers the indices on the
way.  In static single assignment form, the base of an element reference comes before it,
so no chain comes back to itself and bases always lead to a root.  Whatever is on the chain
is there where the chain starts, and all the indices lead from the root to the element.
-/

namespace ShaderIR

open Store Edit

namespace Store

/-- The root of a chain of element references, and the indices from there. -/
inductive Unfolds (store : Store) : Ref → Ref → List (Option Ref) → Prop
  | root {ref : Ref} (notGep : store.isGep ref = false) : Unfolds store ref ref []
  | step {gep base root : Ref} {indices path : List (Option Ref)} (isGep : store.isGep gep = true)
      (operands : store.operands gep = some base :: indices)
      (rest : Unfolds store base root path) : Unfolds store gep root (path ++ indices)

/-- An instruction of a function can have a value as an operand. -/
structure Serves (store : Store) (function operand user : Ref) : Prop where
  attached : store.isInstruction operand = true → (store.blockOf? operand).isSome
  precedes : store.Precedes function operand user
  belongs : store.BelongsTo function operand

variable {store : Store} {function block user operand gep base root : Ref} {module : Nat}
  {path indices : List (Option Ref)}

theorem Unfolds.notGep (unfolds : store.Unfolds gep root path) : store.isGep root = false := by
  induction unfolds with
  | root notGep => exact notGep
  | step _ _ _ induction => exact induction

theorem isPhi_of_isGep (isGep : store.isGep gep = true) : store.isPhi gep = false := by
  rw [isPhi, isGep_iff.1 isGep]
  rfl

theorem elementType?_none (indices : List (Option Ref)) :
    store.elementType? none indices = some none := by
  cases indices <;> simp [elementType?]

/-- Indices one after another lead from an element to an element of it. -/
theorem elementType?_append (type : Option Ty) (indices indices' : List (Option Ref)) :
    store.elementType? type (indices ++ indices') =
      (store.elementType? type indices).bind (store.elementType? · indices') := by
  induction indices generalizing type with
  | nil => simp [elementType?]
  | cons index indices induction =>
      cases type with
      | none => simp [elementType?_none]
      | some type =>
          cases index with
          | none => simp [elementType?, elementType?_none]
          | some index =>
              rw [List.cons_append, elementType?, elementType?]
              split
              · split
                · cases store.constantInt? index with
                  | none => rfl
                  | some position => exact induction _
                · split
                  · simp [elementType?_none]
                  · exact induction _
              · simp [elementType?_none]

section Function

variable (coherent : store.Coherent) (accepted : store.validate? module = some [])
  (listed : function ∈ store.functions module) (inForm : store.InSsaForm function)

include coherent accepted listed

/-- What validation accepts of an element reference. -/
theorem exists_operands_of_isGep
    (member : gep ∈ store.traverse function)
    (isGep : store.isGep gep = true) :
    ∃ base indices, store.operands gep = some base :: indices ∧ store.isLValue base = true ∧
      store.elementType? (store.typeOf base) indices = some (store.typeOf gep) := by
  obtain ⟨block, reached, inside⟩ := coherent.mem_traverse_iff.1 member
  obtain ⟨before, rest, split⟩ := List.append_of_mem inside
  obtain ⟨entry, admitted⟩ :=
    (Validation.admittedBlock_of_validate coherent accepted listed reached).instruction split
  have found : store.instruction? gep = some entry := admitted.found
  have opcode : entry.opcode = .gep := by simpa [opcode?, found] using isGep_iff.1 isGep
  have values : store.operands gep = entry.values := by rw [Store.operands, found]; rfl
  obtain ⟨_, held, location, reaches⟩ := Validation.reached_of_kindMessages admitted.kind opcode
  obtain ⟨base, rfl, isLValue⟩ := (Option.any_eq_true _ _).1 location
  have head : entry.values[0]? = some (some base) := by
    simpa [Instruction.operand?, Instruction.values] using held
  obtain ⟨indices, whole⟩ : ∃ indices, entry.values = some base :: indices := by
    cases list : entry.values with
    | nil => simp [list] at head
    | cons first indices =>
        rw [list] at head
        cases head
        exact ⟨indices, rfl⟩
  refine ⟨base, indices, values.trans whole, isLValue, ?_⟩
  rw [whole] at reaches
  simpa [typeOfOption] using reaches

include inForm

/-- An operand of an instruction can be one of another instruction that comes later. -/
theorem InSsaForm.serves
    (reached : store.Reached function block)
    (member : user ∈ store.instructions block)
    (notPhi : store.isPhi user = false)
    (operandOf : some operand ∈ store.operands user) :
    store.Serves function operand user where
  attached := inForm.attached
    (Option.isSome_of_eq_some ((coherent.mem_members block user).1 member)) operandOf
  precedes := inForm.precedes coherent reached member notPhi operandOf
  belongs := by
    obtain ⟨before, rest, split⟩ := List.append_of_mem member
    obtain ⟨entry, admitted⟩ :=
      (Validation.admittedBlock_of_validate coherent accepted listed reached).instruction split
    refine admitted.belongs ?_
    rwa [Store.operands, show store.instruction? user = some entry from admitted.found] at operandOf

/-- The instructions that others of a function use are reached as well. -/
theorem mem_traverse_of_operand
    (member : user ∈ store.traverse function)
    (notPhi : store.isPhi user = false)
    (operandOf : some operand ∈ store.operands user)
    (isInstruction : store.isInstruction operand = true) :
    operand ∈ store.traverse function := by
  obtain ⟨block, reached, inside⟩ := coherent.mem_traverse_iff.1 member
  have serves := inForm.serves coherent accepted listed reached inside notPhi operandOf
  obtain ⟨home, placed⟩ := Option.isSome_iff_exists.1 (serves.attached isInstruction)
  have linked := (coherent.mem_members block user).1 inside
  exact coherent.mem_traverse_iff.2 ⟨home, reached.of_dominates (serves.precedes linked placed).1,
    (coherent.mem_members home operand).2 placed⟩

theorem serves_of_mem_traverse
    (member : user ∈ store.traverse function)
    (notPhi : store.isPhi user = false)
    (operandOf : some operand ∈ store.operands user) :
    store.Serves function operand user := by
  obtain ⟨block, reached, inside⟩ := coherent.mem_traverse_iff.1 member
  exact inForm.serves coherent accepted listed reached inside notPhi operandOf

omit accepted listed inForm in
theorem Serves.trans
    {middle : Ref}
    (serves : store.Serves function operand middle)
    (serves' : store.Serves function middle user)
    (member : middle ∈ store.traverse function)
    (member' : user ∈ store.traverse function) :
    store.Serves function operand user where
  attached := serves.attached
  precedes := by
    obtain ⟨place, -, inside⟩ := coherent.mem_traverse_iff.1 member
    refine Precedes.trans serves.precedes serves'.precedes
      ((coherent.mem_members place middle).1 inside) ?_
    intro home placed
    obtain ⟨block, reached, inside'⟩ := coherent.mem_traverse_iff.1 member'
    cases placed.symm.trans ((coherent.mem_members block user).1 inside')
    exact reached
  belongs := serves.belongs

/-! ## Chains -/

/-- What is on the chain of an operand can be an operand as well. -/
theorem Unfolds.serves
    (unfolds : store.Unfolds base root path)
    (member : user ∈ store.traverse function)
    (serves : store.Serves function base user) :
    store.Serves function root user ∧
      ∀ index, some index ∈ path → store.Serves function index user := by
  induction unfolds with
  | root notGep => exact ⟨serves, by simp⟩
  | @step gep base root indices path isGep operands rest induction =>
      have isInstruction := isInstruction_of_isGep isGep
      obtain ⟨home, placed⟩ := Option.isSome_iff_exists.1 (serves.attached isInstruction)
      have inside : gep ∈ store.traverse function := by
        obtain ⟨block, reached, inBlock⟩ := coherent.mem_traverse_iff.1 member
        have linked := (coherent.mem_members block user).1 inBlock
        exact coherent.mem_traverse_iff.2
          ⟨home, reached.of_dominates (serves.precedes linked placed).1,
            (coherent.mem_members home gep).2 placed⟩
      have later {operand : Ref} (operandOf : some operand ∈ store.operands gep) :
          store.Serves function operand user :=
        (serves_of_mem_traverse coherent accepted listed inForm inside (isPhi_of_isGep isGep)
          operandOf).trans coherent serves inside member
      obtain ⟨atRoot, along⟩ := induction (later (by rw [operands]; exact List.mem_cons_self))
      refine ⟨atRoot, fun index indexed => ?_⟩
      rcases List.mem_append.1 indexed with indexed | indexed
      · exact along index indexed
      · exact later (by rw [operands]; exact List.mem_cons_of_mem _ indexed)

/-- The chain of an element reference starts at a memory location and leads to the element. -/
theorem Unfolds.location
    (unfolds : store.Unfolds gep root path)
    (member : store.isGep gep = true → gep ∈ store.traverse function)
    (isLValue : store.isLValue gep = true) :
    store.isLValue root = true ∧
      store.elementType? (store.typeOf root) path = some (store.typeOf gep) := by
  induction unfolds with
  | root notGep => exact ⟨isLValue, by rw [elementType?]⟩
  | @step gep base root indices path isGep operands rest induction =>
      obtain ⟨base', indices', operands', isLValue', type⟩ :=
        exists_operands_of_isGep coherent accepted listed (member isGep) isGep
      cases operands.symm.trans operands'
      have inside (isGep' : store.isGep base = true) : base ∈ store.traverse function :=
        mem_traverse_of_operand coherent accepted listed inForm (member isGep)
          (isPhi_of_isGep isGep)
          (by rw [operands]; exact List.mem_cons_self) (isInstruction_of_isGep isGep')
      obtain ⟨atRoot, along⟩ := induction inside isLValue'
      exact ⟨atRoot, by rw [elementType?_append, along, Option.bind_some, type]⟩

end Function

end Store

end ShaderIR

import ShaderIR.Proofs.Coherence.Report
import ShaderIR.Proofs.Control.Acceptance
import ShaderIR.Proofs.Layout.Session

/-!
# When validation has an answer

The rules of validation read operands by their position.  An instruction that has
lost operands, or has never been given any, cannot be judged, and then there is no
answer for the whole module.  Nor is there one when an element reference has a
constant index that is too narrow to be read.  Everything else that can be wrong
with a program is reported.

An instruction that was laid out for its kind has all the operands that are read.
So a module whose integer constants can be read can be judged after any operations,
refused ones among them, as long as none was refused for an operand of another
module: such an edit may have taken the old operands away before it was refused.
-/

namespace ShaderIR

/--
The operands that the rules of an instruction read are there.  The false side of
a conditional branch is read only when its true side is a block, and the indices of
an element reference are followed only when its base is a location.
-/
def Store.CanJudge (store : Store) (entry : Instruction) : Prop :=
  match entry.opcode with
  | .load | .branch | .breakTo | .continueTo | .outline _ | .call => 1 ≤ entry.operands.length
  | .gep =>
    1 ≤ entry.operands.length ∧
      (Validation.isLocation store (entry.operand? 0).join = true →
        (store.elementType? (store.typeOfOption (entry.operand? 0).join)
          (entry.values.drop 1)).isSome)
  | .store | .switch .. | .rayQueryDispatch => 2 ≤ entry.operands.length
  | .ifElse _ | .condBranch =>
    2 ≤ entry.operands.length ∧
      ((store.asBlock (entry.operand? 1).join).isSome → 3 ≤ entry.operands.length)
  | .phi blocks => blocks.length ≤ entry.operands.length
  | _ => True

/-- Every instruction of the blocks that a function reaches can be judged. -/
def Store.CanJudgeFunction (store : Store) (function : Ref) : Prop :=
  ∀ block, store.Reached function block → ∀ ref ∈ store.instructions block,
    ∀ entry, store.instruction? ref = some entry → store.CanJudge entry

/-- The integer constants are wide enough to be read as integers. -/
def Store.ReadsConstants (store : Store) : Prop :=
  ∀ ref, store.isConstant ref = true → (store.typeOf ref).any Ty.isInteger = true →
    (store.constantInt? ref).isSome

/-- Only the values that there are need to be looked at. -/
theorem Store.readsConstants_of_lt
    {store : Store}
    (all : ∀ index < store.values.size, store.isConstant ⟨index⟩ = true →
      (store.typeOf ⟨index⟩).any Ty.isInteger = true → (store.constantInt? ⟨index⟩).isSome) :
    store.ReadsConstants := by
  intro ref isConstant isInteger
  refine all ref.index (index_lt_of_value? ?_) isConstant isInteger
  cases found : store.value? ref with
  | some value => rfl
  | none => simp [Store.isConstant, content?, found] at isConstant

/-- Indices can be followed when the constants among them can be read. -/
theorem Store.ReadsConstants.isSome_elementType?
    {store : Store}
    (reads : store.ReadsConstants)
    (type : Option Ty)
    (indices : List (Option Ref)) :
    (store.elementType? type indices).isSome := by
  induction indices generalizing type with
  | nil => simp [elementType?]
  | cons index indices induction =>
      cases type with
      | none => simp [elementType?]
      | some type =>
          cases index with
          | none => simp [elementType?]
          | some index =>
              rw [elementType?]
              split
              · rename_i isInteger
                split
                · rename_i isConstant
                  obtain ⟨position, known⟩ :=
                    Option.isSome_iff_exists.1 (reads index isConstant isInteger)
                  rw [known]
                  exact induction _
                · split
                  · rfl
                  · exact induction _
              · rfl

theorem Instruction.isSome_operand?_iff {entry : Instruction} {position : Nat} :
    (entry.operand? position).isSome ↔ position < entry.operands.length := by
  simp [Instruction.operand?]

namespace Validation

variable {store : Store} {module : Nat} {function block ref : Ref} {entry : Instruction}

/-- A pass over a list has an answer when it has one for each element. -/
theorem isSome_mapM_iff {α β : Type} {judge : α → Option β} {elements : List α} :
    (elements.mapM judge).isSome ↔ ∀ element ∈ elements, (judge element).isSome := by
  induction elements with
  | nil => simp
  | cons first rest induction =>
      rw [List.mapM_cons, List.forall_mem_cons, ← induction]
      cases judge first <;> cases rest.mapM judge <;> simp

/-! ## Instructions -/

/-- A rule that reads an operand has an answer when the operand is there and the rest has one. -/
theorem isSome_read_iff
    {β : Type}
    {position : Nat}
    {next : Option Ref → Option β}
    {enough : Prop}
    (there : enough → position < entry.operands.length)
    (rest : ∀ operand, entry.operand? position = some operand →
      ((next operand).isSome ↔ enough)) :
    (entry.operand? position >>= next).isSome ↔ enough := by
  cases held : entry.operand? position with
  | some operand => exact rest operand held
  | none =>
      have missing : ¬ position < entry.operands.length := by
        rw [← Instruction.isSome_operand?_iff, held]
        simp
      exact iff_of_false (by simp) fun holds => missing (there holds)

/-- A rule that has an answer for every operand needs no more than that one. -/
theorem isSome_lastRead_iff
    {β : Type}
    {position : Nat}
    {next : Option Ref → Option β}
    (total : ∀ operand, (next operand).isSome) :
    (entry.operand? position >>= next).isSome ↔ position + 1 ≤ entry.operands.length :=
  isSome_read_iff id fun operand held =>
    iff_of_true (total operand) (Instruction.isSome_operand?_iff.1 (by rw [held]; rfl))

theorem isSome_kindMessages?_iff (place : Place) (notPhi : entry.opcode.isPhi = false) :
    (kindMessages? store place entry).isSome ↔ store.CanJudge entry := by
  unfold kindMessages? Store.CanJudge
  dsimp only
  cases opcode : entry.opcode <;> dsimp only
  case load | branch | breakTo | continueTo | outline => exact isSome_lastRead_iff fun _ => rfl
  case gep =>
    refine isSome_read_iff (fun both => both.1) fun base held => ?_
    have one := Instruction.isSome_operand?_iff.1 (Option.isSome_of_eq_some held)
    rw [held, Option.join_some]
    cases isLocation store base with
    | false => exact iff_of_true rfl ⟨one, Bool.noConfusion⟩
    | true =>
        have followed : ∀ reached : Option (Option Ty),
            (reached.bind fun got => some (note (got != store.typeOf place.instruction)
              ("gep result type " ++ Ty.renderOption (store.typeOf place.instruction) ++
                " does not match the addressed element"))).isSome ↔ reached.isSome := by
          rintro (_ | _) <;> rfl
        exact (followed _).trans ⟨fun reaches => ⟨one, fun _ => reaches⟩, fun both => both.2 rfl⟩
  case store =>
    exact isSome_read_iff (fun two => by omega) fun _ _ => isSome_lastRead_iff fun _ => rfl
  case switch | rayQueryDispatch => exact isSome_lastRead_iff fun _ => rfl
  case call => exact isSome_lastRead_iff fun operand => by split <;> rfl
  case ifElse | condBranch =>
    refine isSome_read_iff (fun two => by omega) fun _ _ => ?_
    refine isSome_read_iff (fun two => by omega) fun whenTrue held => ?_
    have two := Instruction.isSome_operand?_iff.1 (Option.isSome_of_eq_some held)
    rw [held, Option.join_some]
    -- The false side is not read when there is no true side.
    cases store.asBlock whenTrue with
    | none => exact iff_of_true rfl ⟨two, by simp⟩
    | some block =>
        refine Iff.trans (isSome_lastRead_iff fun _ => rfl) ?_
        exact ⟨fun three => ⟨two, fun _ => three⟩, fun both => both.2 rfl⟩
  case ret => split <;> exact iff_of_true rfl trivial
  case phi => rw [opcode] at notPhi; cases notPhi
  all_goals exact iff_of_true rfl trivial

theorem isSome_phiMessages?_iff
    {predecessors : List Ref}
    (found : store.instruction? ref = some entry) :
    (phiMessages? store predecessors ref).isSome ↔
      entry.opcode.incomingBlocks.length ≤ entry.operands.length := by
  unfold phiMessages?
  rw [Store.incomings?, found, Option.bind_some]
  dsimp only
  split
  · rename_i few
    exact iff_of_false (by simp) (by omega)
  · rename_i enough
    exact iff_of_true rfl (by omega)

theorem isSome_instructionMessages?_iff
    {predecessors : List Ref}
    {before : Option Ref}
    {isLast afterNonPhi : Bool}
    {place : Place}
    (found : store.instruction? place.instruction = some entry) :
    (instructionMessages? store place predecessors before isLast afterNonPhi).isSome ↔
      store.CanJudge entry := by
  unfold instructionMessages?
  rw [found, Option.bind_eq_bind, Option.bind_some]
  dsimp only
  cases isPhi : entry.opcode.isPhi with
  | false =>
      rw [← isSome_kindMessages?_iff place isPhi, if_neg (by simp), pure_bind]
      cases kindMessages? store place entry <;> rfl
  | true =>
      obtain ⟨blocks, opcode⟩ : ∃ blocks, entry.opcode = .phi blocks := by
        cases opcode : entry.opcode <;> rw [opcode] at isPhi <;> cases isPhi
        exact ⟨_, rfl⟩
      have judged : (phiMessages? store predecessors place.instruction).isSome ↔
          store.CanJudge entry := by
        rw [isSome_phiMessages?_iff found, Store.CanJudge, opcode]
        rfl
      have kind : kindMessages? store place entry = some [] := by
        simp [kindMessages?, opcode]
      rw [← judged, if_pos rfl, kind]
      cases phiMessages? store predecessors place.instruction <;> rfl

/-! ## Blocks, functions and modules -/

theorem isSome_instructionIssues?_iff
    {predecessors refs : List Ref}
    {before : Option Ref}
    {afterNonPhi : Bool}
    (present : ∀ ref ∈ refs, (store.instruction? ref).isSome) :
    (instructionIssues? store module function block predecessors before afterNonPhi
      refs).isSome ↔
        ∀ ref ∈ refs, ∀ entry, store.instruction? ref = some entry → store.CanJudge entry := by
  induction refs generalizing before afterNonPhi with
  | nil => exact iff_of_true rfl (by simp)
  | cons ref rest induction =>
      rw [List.forall_mem_cons] at present ⊢
      obtain ⟨entry, found⟩ := Option.isSome_iff_exists.1 present.1
      have first : (∀ entry, store.instruction? ref = some entry → store.CanJudge entry) ↔
          (instructionMessages? store ⟨module, function, block, ref⟩ predecessors before
            (store.links.last block == some ref) afterNonPhi).isSome := by
        rw [isSome_instructionMessages?_iff found, found]
        simp
      have later : (instructionIssues? store module function block predecessors (some ref)
          (afterNonPhi || !store.isPhi ref) rest).isSome ↔ _ := induction present.2
      rw [first, ← later, instructionIssues?]
      cases instructionMessages? store ⟨module, function, block, ref⟩ predecessors before
        (store.links.last block == some ref) afterNonPhi <;>
      cases instructionIssues? store module function block predecessors (some ref)
        (afterNonPhi || !store.isPhi ref) rest <;> simp

section Coherent

variable (coherent : store.Coherent)

include coherent

theorem isSome_blockIssues?_iff :
    (blockIssues? store module function block).isSome ↔
      ∀ ref ∈ store.instructions block, ∀ entry, store.instruction? ref = some entry →
        store.CanJudge entry := by
  have present : ∀ ref ∈ store.instructions block, (store.instruction? ref).isSome := by
    intro ref member
    obtain ⟨entry, found, -⟩ :=
      Store.blockOf?_eq_some_iff.1 ((coherent.mem_members block ref).1 member)
    rw [found]
    rfl
  have judged : (instructionIssues? store module function block (store.predecessors block) none
      false (store.instructions block)).isSome ↔ _ := isSome_instructionIssues?_iff present
  rw [← judged, blockIssues?_eq coherent]
  dsimp only
  split
  · rename_i empty
    rw [List.isEmpty_iff.1 empty]
    exact iff_of_true rfl rfl
  · rw [Option.isSome_map]

/-- Only the blocks that a definition reaches are looked at. -/
theorem isSome_functionIssues?_iff (listed : function ∈ store.functions module) :
    (functionIssues? store module function).isSome ↔
      (function ∈ store.definitions module → store.CanJudgeFunction function) := by
  obtain ⟨isFunction, pool⟩ := coherent.listed module function listed
  obtain ⟨entry, found⟩ := Option.isSome_iff_exists.1 isFunction
  have defined : function ∈ store.definitions module ↔ entry.isDefinition = true := by
    simp [Store.definitions, listed, found]
  rw [defined, functionIssues?, found, Option.bind_eq_bind, Option.bind_some, pool]
  simp only [bne_self_eq_false, Bool.false_eq_true, if_false]
  split
  · rename_i external
    exact iff_of_true rfl fun isDefinition => by simp [isDefinition] at external
  split
  · rename_i bodiless
    refine iff_of_true rfl fun _ block reached => ?_
    obtain ⟨body, hasBody, -⟩ := reached
    rw [Store.body?, found, Option.bind_some, Option.isNone_iff_eq_none.1 bodiless] at hasBody
    cases hasBody
  · rename_i isDefinition _
    have judged : ((store.reversePostOrder function).mapM
      (blockIssues? store module function)).isSome
        ↔ store.CanJudgeFunction function := by
      rw [isSome_mapM_iff]
      refine forall_congr' fun block => ?_
      rw [Store.mem_reversePostOrder_iff_reached coherent, isSome_blockIssues?_iff coherent]
    rw [← judged]
    cases (store.reversePostOrder function).mapM (blockIssues? store module function) with
    | some blocks => exact iff_of_true rfl fun _ => rfl
    | none =>
        refine iff_of_false (by simp) fun all => ?_
        simpa using all (by simpa using isDefinition)

end Coherent

end Validation

namespace Store

variable {store : Store} {module : Nat}

/-- A module can be judged when every instruction that its definitions reach can. -/
theorem Coherent.isSome_validate?_iff
    (coherent : store.Coherent)
    (existing : module < store.modules.size) :
    (store.validate? module).isSome ↔
      ∀ function ∈ store.definitions module, store.CanJudgeFunction function := by
  have found : store.modules[module]? = some store.modules[module] :=
    Array.getElem?_eq_getElem existing
  have functions : store.functions module = store.modules[module].functions := by
    rw [Store.functions, found]
    rfl
  have judged : (store.modules[module].functions.mapM
      (Validation.functionIssues? store module)).isSome ↔
      ∀ function ∈ store.definitions module, store.CanJudgeFunction function := by
    rw [Validation.isSome_mapM_iff, ← functions]
    constructor
    · intro all function defined
      have listed := List.mem_of_mem_filter defined
      exact (Validation.isSome_functionIssues?_iff coherent listed).1 (all function listed) defined
    · intro all function listed
      exact (Validation.isSome_functionIssues?_iff coherent listed).2 (all function)
  rw [← judged, validate?, found, Option.bind_eq_bind, Option.bind_some]
  simp only [Validation.useIssues?_eq coherent]
  cases store.modules[module].functions.mapM (Validation.functionIssues? store module) <;> rfl

/-- An instruction with the operands of its kind can be judged. -/
theorem LaidOut.canJudge
    {ref : Ref}
    {entry : Instruction}
    (laidOut : store.LaidOut)
    (reads : store.ReadsConstants)
    (found : store.instruction? ref = some entry) :
    store.CanJudge entry := by
  have fits := laidOut.fits found
  unfold CanJudge
  cases opcode : entry.opcode <;> rw [opcode] at fits <;>
    simp only [Opcode.fits, beq_iff_eq, decide_eq_true_eq] at fits ⊢
  case gep => exact ⟨fits, fun _ => reads.isSome_elementType? _ _⟩
  all_goals first | trivial | omega

end Store

namespace Session

/--
Whatever operations were performed, refused ones among them, a module can be judged
just when no reached instruction of a definition lacks an operand that its rules
read, or an answer where its indices lead.  After orderly operations none does as
long as integer constants can be read, so there is a list of issues.
-/
theorem validate_answers
    (operations : List Operation)
    {module : Nat}
    (existing : module < (after operations).store.modules.size) :
    (((after operations).store.validate? module).isSome ↔
      ∀ function ∈ (after operations).store.definitions module,
        (after operations).store.CanJudgeFunction function) ∧
    (Orderly {} operations → (after operations).store.ReadsConstants →
      ∃ issues, (after operations).store.validate? module = some issues) := by
  have coherent : (after operations).store.Coherent := (after_coherent operations).store
  have judged := coherent.isSome_validate?_iff existing
  refine ⟨judged, fun orderly reads => Option.isSome_iff_exists.1 (judged.2 ?_)⟩
  have laidOut : (after operations).store.LaidOut := laidOut_foldl laidOut_start orderly
  exact fun _ _ _ _ _ _ _ found => laidOut.canJudge reads found

/-- A branch whose condition was refused is left without targets; it is linked all the same. -/
def unfinished : List Operation :=
  [.edit (.addModule "unfinished"),
    .edit (.createFunction 0 .kernel none),
    .edit (.createBody ⟨0⟩),
    .moveToEnd ⟨1⟩, .condBranch (some ⟨1⟩) none none,
    .edit (.append ⟨1⟩ ⟨2⟩)]

theorem validate_answers_unfinished :
    ∃ issues, (after unfinished).store.validate? 0 = some issues ∧
      issues.map (·.message) =
        ["branch condition is not a bool", "conditional branch is missing a target"] := by
  have orderly : Orderly {} unfinished := by
    refine ⟨trivial, ?_, trivial, ?_, trivial, ?_, trivial, ?_, trivial, ?_, trivial, ?_,
      trivial⟩ <;> decide +kernel
  have existing : 0 < (after unfinished).store.modules.size := by decide +kernel
  have reads : (after unfinished).store.ReadsConstants :=
    Store.readsConstants_of_lt (by decide +kernel)
  obtain ⟨issues, given⟩ := (validate_answers unfinished existing).2 orderly reads
  have messages : ((after unfinished).store.validate? 0).map (·.map (·.message)) =
      some ["branch condition is not a bool", "conditional branch is missing a target"] := by
    decide +kernel
  rw [given] at messages
  exact ⟨issues, given, Option.some.inj messages⟩

/-- A branch whose target was refused, as it is of another module, has no operand; it is linked. -/
def stranded : List Operation :=
  [.edit (.addModule "stranded"),
    .edit (.createFunction 0 .kernel none),
    .edit (.createBody ⟨0⟩),
    .edit (.addModule "foreign"),
    .edit (.createFunction 1 .kernel none),
    .edit (.createBody ⟨2⟩),
    .moveToEnd ⟨1⟩, .emit .branch none [some ⟨3⟩] (.refl true),
    .edit (.append ⟨1⟩ ⟨4⟩)]

/-- Without the condition on modules, validation may have no answer. -/
theorem validate_stranded : (after stranded).store.validate? 0 = none := by
  decide +kernel

end Session

end ShaderIR

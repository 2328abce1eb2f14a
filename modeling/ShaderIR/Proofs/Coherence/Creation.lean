import ShaderIR.BlockRole
import ShaderIR.Proofs.Coherence.Membership

/-!
# Creating values and setting parts keeps the store coherent

A new value is connected to nothing: no operand, no block and no function refers
to it, and its own content starts out empty.  Everything else that creating
functions, arguments, blocks and interned values does changes module tables and
function entries only, which the records of operands and members do not see.
-/

namespace ShaderIR

namespace Store

/-- What a new value has to look like to be connected to nothing. -/
def Unconnected (store : Store) (module : Nat) : Content → Prop
  | .instruction entry =>
    entry.operands = [] ∧ entry.block = none ∧ entry.opcode.caseValues.Nodup
  | .block owner members => members = [] ∧ store.moduleOf? owner = some module
  | .function entry => entry.body = none
  | _ => True

section Frame

variable {store left : Store}

/-- A change of functions and modules keeps the store coherent as long as both stay sound. -/
theorem Coherent.frame
    (coherent : store.Coherent)
    (entries : ∀ ref, left.instruction? ref = store.instruction? ref)
    (members : ∀ ref, left.instructions ref = store.instructions ref)
    (owners : ∀ ref, left.blockFunction? ref = store.blockFunction? ref)
    (pools : ∀ ref, left.moduleOf? ref = store.moduleOf? ref)
    (uses : ∀ ref, left.usesOf ref = store.usesOf ref)
    (slots : left.nextSlot = store.nextSlot)
    (records : left.toRecords = store.toRecords)
    (bodyOwner : ∀ {function entry block}, left.function? function = some entry →
      entry.body = some block → store.blockFunction? block = some function)
    (listed : ∀ module, ∀ function ∈ left.functions module,
      (left.function? function).isSome ∧ store.moduleOf? function = some module) :
    left.Coherent where
  keysDistinct := by
    intro user entry found
    exact coherent.keysDistinct ((entries user).symm.trans found)
  keysBelow := by
    intro user entry found
    rw [slots]
    exact coherent.keysBelow ((entries user).symm.trans found)
  casesDistinct := by
    intro user entry found
    exact coherent.casesDistinct ((entries user).symm.trans found)
  operandPool := by
    intro user entry found slot member value holds
    rw [pools, pools]
    exact coherent.operandPool ((entries user).symm.trans found) slot member value holds
  edged := by
    intro user entry found
    rw [records]
    exact coherent.edged ((entries user).symm.trans found)
  used := by
    rw [records]
    exact coherent.used.congr uses
  mem_uses := by
    intro value use
    rw [uses, coherent.mem_uses]
    simp only [Uses, entries]
  linked := by
    rw [records]
    exact coherent.linked.congr members
  mem_members := by
    intro block ref
    rw [members, coherent.mem_members]
    simp only [blockOf?, entries]
  memberPool := by
    intro ref block linked
    rw [pools, pools]
    simp only [blockOf?, entries] at linked
    exact coherent.memberPool linked
  ownerPool := by
    intro block function owned
    rw [pools, pools]
    exact coherent.ownerPool ((owners block).symm.trans owned)
  bodyOwner := by
    intro function entry block found body
    rw [owners]
    exact bodyOwner found body
  listed := by
    intro module function member
    rw [pools]
    exact listed module function member

/-- A change of modules that lists no further function keeps the store coherent. -/
theorem Keeps.of_contents
    (contents : ∀ ref, left.content? ref = store.content? ref)
    (pools : ∀ ref, left.moduleOf? ref = store.moduleOf? ref)
    (uses : ∀ ref, left.usesOf ref = store.usesOf ref)
    (slots : left.nextSlot = store.nextSlot)
    (records : left.toRecords = store.toRecords)
    (listed : ∀ module, ∀ function ∈ left.functions module, function ∈ store.functions module) :
    store.Keeps left := by
  intro coherent
  refine ⟨coherent.frame (fun ref => instruction?_congr (contents ref))
    (fun ref => instructions_congr (contents ref))
    (fun ref => blockFunction?_congr (contents ref)) pools uses slots records ?_ ?_, ?_⟩
  · intro function entry block found body
    exact coherent.bodyOwner ((function?_congr (contents function)).symm.trans found) body
  · intro module function member
    rw [function?_congr (contents function)]
    exact coherent.listed module function (listed module function member)
  · intro block isBlock
    rw [isBlock_congr (contents block)]
    exact isBlock

theorem functions_modifyModule (store : Store) (module other : Nat) (change : Module → Module) :
    (store.modifyModule module change).functions other =
      if module = other then ((store.modules[other]?.map change).map (·.functions)).getD []
      else store.functions other := by
  simp only [functions, modifyModule, Array.getElem?_modify]
  split <;> rfl

/-- Changing a module without listing further functions keeps the store coherent. -/
theorem keeps_modifyModule
    {module : Nat}
    {change : Module → Module}
    (shrinks : ∀ entry, ∀ function ∈ (change entry).functions, function ∈ entry.functions) :
    store.Keeps (store.modifyModule module change) := by
  refine Keeps.of_contents (fun _ => rfl) (fun _ => rfl) (fun _ => rfl) rfl rfl ?_
  intro other function member
  rw [functions_modifyModule] at member
  split at member
  · rename_i same
    subst same
    rw [functions]
    cases found : store.modules[module]? with
    | none => simp [found] at member
    | some entry =>
        simp only [found, Option.map_some, Option.getD_some] at member ⊢
        exact shrinks entry function member
  · exact member

/-- Changing a function keeps the store coherent when its entry block stays its own. -/
theorem keeps_modifyFunction
    {function : Ref}
    {change : Function → Function}
    (body : ∀ entry block, (change entry).body = some block →
      entry.body = some block ∨ store.blockFunction? block = some function) :
    store.Keeps (store.modifyFunction function change) := by
  intro coherent
  refine ⟨coherent.frame (by simp) (by simp) (by simp) (by simp) (by simp) (by simp) rfl ?_ ?_, ?_⟩
  · intro other entry block found holds
    rw [function?_modifyFunction] at found
    split at found
    · rename_i same
      subst same
      obtain ⟨old, oldFound, rfl⟩ := Option.map_eq_some_iff.1 found
      rcases body old block holds with oldBody | owned
      · exact coherent.bodyOwner oldFound oldBody
      · exact owned
    · exact coherent.bodyOwner found holds
  · intro module other member
    obtain ⟨isFunction, pool⟩ := coherent.listed module other member
    refine ⟨?_, pool⟩
    rw [function?_modifyFunction]
    split
    · rwa [Option.isSome_map]
    · exact isFunction
  · intro block isBlock
    rwa [isBlock_eq_of_blockFunction? (blockFunction?_modifyFunction ..)]

end Frame

/-! ## New values -/

/-- One store has the values of another one and a new value besides. -/
structure Gains (store : Store) (new : Ref) (module : Nat) (content : Content) (left : Store) :
    Prop where
  absent : store.value? new = none
  contents : ∀ ref,
    left.content? ref = if ref = new then some content else store.content? ref
  pools : ∀ ref,
    left.moduleOf? ref = if ref = new then some module else store.moduleOf? ref
  uses : ∀ ref, left.usesOf ref = store.usesOf ref
  slots : left.nextSlot = store.nextSlot
  records : left.toRecords = store.toRecords
  listed : ∀ module, left.functions module = store.functions module

namespace Gains

variable {store left : Store} {new : Ref} {module : Nat} {content : Content}

theorem content?_new (gains : store.Gains new module content left) :
    left.content? new = some content := by
  rw [gains.contents, if_pos rfl]

theorem content?_old
    (gains : store.Gains new module content left)
    {ref : Ref}
    (different : ref ≠ new) :
    left.content? ref = store.content? ref := by
  rw [gains.contents, if_neg different]

theorem ne_new
    (gains : store.Gains new module content left)
    {ref : Ref}
    (present : (store.value? ref).isSome) :
    ref ≠ new := by
  rintro rfl
  simp [gains.absent] at present

theorem content?_eq_of_isSome
    (gains : store.Gains new module content left)
    {ref : Ref}
    (present : (store.content? ref).isSome) :
    left.content? ref = store.content? ref :=
  gains.content?_old (gains.ne_new (content?_isSome_iff.1 present))

theorem moduleOf?_old
    (gains : store.Gains new module content left)
    {ref : Ref}
    (present : (store.value? ref).isSome) :
    left.moduleOf? ref = store.moduleOf? ref := by
  rw [gains.pools, if_neg (gains.ne_new present)]

/-- Values of one module in the old store are so in the new one. -/
theorem moduleOf?_eq
    (gains : store.Gains new module content left)
    {ref other : Ref}
    (present : (store.value? ref).isSome)
    (pool : store.moduleOf? other = store.moduleOf? ref) :
    left.moduleOf? other = left.moduleOf? ref := by
  have presentOther : (store.value? other).isSome := by
    rwa [value?_isSome_congr store ref other pool]
  rw [gains.moduleOf?_old present, gains.moduleOf?_old presentOther, pool]

/-- Each entry of an instruction is an old one or the bare entry of the new value. -/
theorem instruction?_cases
    (gains : store.Gains new module content left)
    (unconnected : store.Unconnected module content)
    {ref : Ref}
    {entry : Instruction}
    (found : left.instruction? ref = some entry) :
    store.instruction? ref = some entry ∨
      (entry.operands = [] ∧ entry.block = none ∧ entry.opcode.caseValues.Nodup) := by
  by_cases same : ref = new
  · subst same
    rw [instruction?_eq_some_iff, gains.content?_new] at found
    cases found
    exact .inr unconnected
  · rw [instruction?_congr (gains.content?_old same)] at found
    exact .inl found

theorem instruction?_old
    (gains : store.Gains new module content left)
    {ref : Ref}
    {entry : Instruction}
    (found : store.instruction? ref = some entry) :
    left.instruction? ref = some entry := by
  rw [instruction?_congr (gains.content?_old
    (gains.ne_new (value?_isSome_of_instruction? found)))]
  exact found

theorem uses_iff
    (gains : store.Gains new module content left)
    (unconnected : store.Unconnected module content)
    (use : Use)
    (value : Ref) :
    left.Uses use value ↔ store.Uses use value := by
  constructor
  · rintro ⟨entry, found, linked, member⟩
    rcases gains.instruction?_cases unconnected found with old | ⟨-, detached, -⟩
    · exact ⟨entry, old, linked, member⟩
    · simp [detached] at linked
  · rintro ⟨entry, found, rest⟩
    exact ⟨entry, gains.instruction?_old found, rest⟩

theorem blockOf?_eq_some_iff
    (gains : store.Gains new module content left)
    (unconnected : store.Unconnected module content)
    (ref block : Ref) :
    left.blockOf? ref = some block ↔ store.blockOf? ref = some block := by
  rw [Store.blockOf?_eq_some_iff, Store.blockOf?_eq_some_iff]
  constructor
  · rintro ⟨entry, found, linked⟩
    rcases gains.instruction?_cases unconnected found with old | ⟨-, detached, -⟩
    · exact ⟨entry, old, linked⟩
    · simp [detached] at linked
  · rintro ⟨entry, found, linked⟩
    exact ⟨entry, gains.instruction?_old found, linked⟩

theorem instructions_eq
    (gains : store.Gains new module content left)
    (unconnected : store.Unconnected module content)
    (block : Ref) :
    left.instructions block = store.instructions block := by
  by_cases same : block = new
  · subst same
    have before : store.instructions block = [] := by
      simp [instructions, content?, gains.absent]
    rw [before, instructions, gains.content?_new]
    cases content <;> simp_all [Unconnected]
  · exact instructions_congr (gains.content?_old same)

theorem coherent
    (gains : store.Gains new module content left)
    (unconnected : store.Unconnected module content)
    (coherent : store.Coherent) :
    left.Coherent where
  keysDistinct := by
    intro user entry found
    rcases gains.instruction?_cases unconnected found with old | ⟨bare, -⟩
    · exact coherent.keysDistinct old
    · simp [bare]
  keysBelow := by
    intro user entry found
    rw [gains.slots]
    rcases gains.instruction?_cases unconnected found with old | ⟨bare, -⟩
    · exact coherent.keysBelow old
    · simp [bare]
  casesDistinct := by
    intro user entry found
    rcases gains.instruction?_cases unconnected found with old | ⟨-, -, distinct⟩
    · exact coherent.casesDistinct old
    · exact distinct
  operandPool := by
    intro user entry found slot member value holds
    rcases gains.instruction?_cases unconnected found with old | ⟨bare, -⟩
    · exact gains.moduleOf?_eq (value?_isSome_of_instruction? old)
        (coherent.operandPool old slot member value holds)
    · simp [bare] at member
  edged := by
    intro user entry found slot member
    rw [gains.records]
    rcases gains.instruction?_cases unconnected found with old | ⟨bare, -⟩
    · exact coherent.edged old slot member
    · simp [bare] at member
  used := by
    rw [gains.records]
    exact coherent.used.congr gains.uses
  mem_uses := by
    intro value use
    rw [gains.uses, coherent.mem_uses, gains.uses_iff unconnected]
  linked := by
    rw [gains.records]
    exact coherent.linked.congr (gains.instructions_eq unconnected)
  mem_members := by
    intro block ref
    rw [gains.instructions_eq unconnected, coherent.mem_members,
      gains.blockOf?_eq_some_iff unconnected]
  memberPool := by
    intro ref block linked
    rw [gains.blockOf?_eq_some_iff unconnected] at linked
    obtain ⟨owner, members, isBlock⟩ := isBlock_iff.1 (coherent.isBlock_of_blockOf? linked)
    refine gains.moduleOf?_eq ?_ (coherent.memberPool linked)
    rw [← content?_isSome_iff, isBlock]
    rfl
  ownerPool := by
    intro block function owned
    by_cases same : block = new
    · subst same
      obtain ⟨members, isBlock⟩ := blockFunction?_eq_some_iff.1 owned
      rw [gains.content?_new] at isBlock
      cases isBlock
      have present : (store.value? function).isSome := by
        rw [← moduleOf?_isSome_iff, unconnected.2]
        rfl
      rw [gains.moduleOf?_old present, gains.pools, if_pos rfl, unconnected.2]
    · rw [blockFunction?_congr (gains.content?_old same)] at owned
      obtain ⟨members, isBlock⟩ := blockFunction?_eq_some_iff.1 owned
      refine (gains.moduleOf?_eq ?_ (coherent.ownerPool owned).symm).symm
      rw [← content?_isSome_iff, isBlock]
      rfl
  bodyOwner := by
    intro function entry block found body
    by_cases same : function = new
    · subst same
      rw [function?_eq_some_iff, gains.content?_new] at found
      cases found
      rw [Unconnected, body] at unconnected
      cases unconnected
    · rw [function?_congr (gains.content?_old same)] at found
      have owned := coherent.bodyOwner found body
      obtain ⟨members, isBlock⟩ := blockFunction?_eq_some_iff.1 owned
      rwa [blockFunction?_congr (gains.content?_eq_of_isSome (by rw [isBlock]; rfl))]
  listed := by
    intro module function member
    rw [gains.listed] at member
    obtain ⟨isFunction, pool⟩ := coherent.listed module function member
    obtain ⟨entry, found⟩ := Option.isSome_iff_exists.1 isFunction
    have present : (store.content? function).isSome := by
      rw [function?_eq_some_iff.1 found]
      rfl
    rw [function?_congr (gains.content?_eq_of_isSome present),
      gains.moduleOf?_old (content?_isSome_iff.1 present)]
    exact ⟨isFunction, pool⟩

end Gains

theorem gains_allocate (store : Store) (module : Nat) (type : Option Ty) (content : Content) :
    store.Gains (store.allocate module type content).1 module content
      (store.allocate module type content).2 where
  absent := value?_allocate_fst store module type content
  contents := by
    intro ref
    simp only [content?, value?_allocate]
    split <;> rfl
  pools := by
    intro ref
    simp only [moduleOf?, value?_allocate]
    split <;> rfl
  uses := by
    intro ref
    simp only [usesOf, value?_allocate]
    split
    · rename_i same
      rw [same, value?_allocate_fst]
      rfl
    · rfl
  slots := rfl
  records := rfl
  listed := by
    intro other
    simp only [functions, modules_allocate, Array.getElem?_modify]
    split
    · rw [Option.map_map]
      rfl
    · rfl

theorem keeps_allocate
    {store : Store}
    {module : Nat}
    {content : Content}
    (type : Option Ty)
    (unconnected : store.Coherent → store.Unconnected module content) :
    store.Keeps (store.allocate module type content).2 := by
  intro coherent
  have gains := gains_allocate store module type content
  refine ⟨gains.coherent (unconnected coherent) coherent, fun block isBlock => ?_⟩
  obtain ⟨owner, members, found⟩ := isBlock_iff.1 isBlock
  rw [isBlock_congr (gains.content?_eq_of_isSome (by rw [found]; rfl))]
  exact isBlock

theorem keeps_createFunction
    (store : Store)
    (module : Nat)
    (kind : FunctionKind)
    (result : Option Ty) :
    let created := store.allocate module result (.function { kind })
    store.Keeps (created.2.modifyModule module fun entry =>
      { entry with functions := entry.functions ++ [created.1] }) := by
  intro created coherent
  have gains := gains_allocate store module result (.function { kind })
  have coherent' : created.2.Coherent := gains.coherent rfl coherent
  refine ⟨coherent'.frame (fun _ => rfl) (fun _ => rfl) (fun _ => rfl) (fun _ => rfl)
    (fun _ => rfl) rfl rfl coherent'.bodyOwner ?_, ?_⟩
  · intro other function member
    have old : function ∈ created.2.functions other →
        (created.2.function? function).isSome ∧ created.2.moduleOf? function = some other :=
      coherent'.listed other function
    rw [functions_modifyModule] at member
    split at member
    · rename_i same
      subst same
      cases found : created.2.modules[module]? with
      | none => simp [found] at member
      | some entry =>
          simp only [found, Option.map_some, Option.getD_some, List.mem_append,
            List.mem_singleton] at member
          rcases member with listed | rfl
          · exact old (by simpa [functions, found] using listed)
          · refine ⟨?_, ?_⟩
            · change (created.2.function? created.1).isSome
              rw [function?_eq_some_iff.2 gains.content?_new]
              rfl
            · rw [gains.pools, if_pos rfl]
    · exact old member
  · have unconnected : store.Coherent → store.Unconnected module (.function { kind }) :=
      fun _ => rfl
    exact (keeps_allocate result unconnected coherent).2

theorem keeps_addModule (store : Store) (name : String) :
    store.Keeps (store.addModule name).2 := by
  refine Keeps.of_contents (fun _ => rfl) (fun _ => rfl) (fun _ => rfl) rfl rfl ?_
  intro module function member
  simp only [functions, addModule, Array.getElem?_push] at member ⊢
  split at member
  · simp at member
  · exact member

end Store

namespace Edit

open Store

/-! ## Types and interned values -/

theorem typeBy_keeps (module : Nat) (request : Registry → Ty × Registry) :
    Respects Keeps (typeBy module request) :=
  Respects.bind (Respects.see _) fun _ =>
    Respects.bind (Respects.demand _) fun _ =>
      Respects.bind (fun _ => keeps_modifyModule fun _ _ member => member) fun _ =>
        Respects.pure _

theorem vectorType_keeps (module : Nat) (element : Option Ty) (size : Nat) :
    Respects Keeps (vectorType module element size) := by
  unfold vectorType
  cases element.bind Ty.scalar? with
  | none => exact Respects.violate _
  | some scalar => exact typeBy_keeps module (·.intern "" (.vector size scalar))

theorem arrayType_keeps (module : Nat) (element : Option Ty) (count : Nat) :
    Respects Keeps (arrayType module element count) := by
  cases element with
  | none => exact Respects.violate _
  | some element => exact typeBy_keeps module (·.intern "" (.array element count))

theorem memberTypes_keeps (index : Nat) (members : List (Option Ty)) :
    Respects Keeps (memberTypes index members) := by
  induction members generalizing index with
  | nil => exact Respects.pure []
  | cons member rest induction =>
      cases member with
      | none => exact Respects.violate _
      | some member => exact Respects.bind (induction (index + 1)) fun _ => Respects.pure _

theorem recordType_keeps (module : Nat) (members : List (Option Ty)) :
    Respects Keeps (recordType module members) :=
  Respects.bind (memberTypes_keeps 0 members) fun _ => typeBy_keeps module _

/-- A value whose content refers to nothing may be added in every store. -/
theorem allocate_keeps
    {content : Content}
    (module : Nat)
    (type : Option Ty)
    (unconnected : ∀ store : Store, store.Unconnected module content) :
    Respects Keeps (allocate module type content) :=
  fun store => keeps_allocate type fun _ => unconnected store

theorem constantWith_keeps
    (digest : Ty → List UInt8 → UInt64)
    (module : Nat)
    (type : Option Ty)
    (data : List UInt8) :
    Respects Keeps (constantWith digest module type data) := by
  cases type with
  | none => exact Respects.violate _
  | some type =>
      refine Respects.bind (Respects.require _ _) fun _ => ?_
      refine Respects.bind (Respects.see _) fun found => ?_
      cases found with
      | some ref => exact Respects.pure ref
      | none =>
          refine Respects.bind (allocate_keeps module _ fun _ => trivial) fun ref => ?_
          refine Respects.bind ?_ fun _ => Respects.pure ref
          exact fun _ => keeps_modifyModule fun _ _ member => member

theorem constant_keeps (module : Nat) (type : Option Ty) (data : List UInt8) :
    Respects Keeps (constant module type data) :=
  constantWith_keeps contentHash module type data

theorem constantBool_keeps (module : Nat) (truth : Bool) :
    Respects Keeps (constantBool module truth) :=
  Respects.bind (typeBy_keeps module _) fun _ => constant_keeps module _ _

theorem constantInt32_keeps (module : Nat) (bits : UInt64) :
    Respects Keeps (constantInt32 module bits) :=
  Respects.bind (typeBy_keeps module _) fun _ => constant_keeps module _ _

theorem constantUInt32_keeps (module : Nat) (bits : UInt64) :
    Respects Keeps (constantUInt32 module bits) :=
  Respects.bind (typeBy_keeps module _) fun _ => constant_keeps module _ _

theorem constantFloat32_keeps (module : Nat) (bits : UInt64) :
    Respects Keeps (constantFloat32 module bits) :=
  Respects.bind (typeBy_keeps module _) fun _ => constant_keeps module _ _

theorem constantZero_keeps (module : Nat) (type : Option Ty) :
    Respects Keeps (constantZero module type) :=
  Respects.ifThen Respects.stuck (constant_keeps module type _)

theorem constantOne_keeps (module : Nat) (type : Option Ty) :
    Respects Keeps (constantOne module type) := by
  unfold constantOne
  cases type.bind Ty.scalar? with
  | none => exact Respects.violate _
  | some scalar => exact constant_keeps module type _

theorem undefined_keeps (module : Nat) (type : Option Ty) :
    Respects Keeps (undefined module type) := by
  refine Respects.bind (Respects.see _) fun _ => ?_
  refine Respects.bind (Respects.demand _) fun entry => ?_
  cases entry.undefineds.lookup type with
  | some ref => exact Respects.pure ref
  | none =>
      refine Respects.bind (allocate_keeps module type fun _ => trivial) fun ref => ?_
      refine Respects.bind ?_ fun _ => Respects.pure ref
      exact fun _ => keeps_modifyModule fun _ _ member => member

theorem register_keeps (module : Nat) (name : Register) :
    Respects Keeps (register module name) := by
  refine Respects.bind (Respects.see _) fun _ => ?_
  refine Respects.bind (Respects.demand _) fun entry => ?_
  cases entry.registers.lookup name with
  | some ref => exact Respects.pure ref
  | none =>
      refine Respects.bind (typeBy_keeps module _) fun scalar => ?_
      have rest : ∀ type, Respects Keeps (do
          let ref ← allocate module (some type) (.register name)
          modify fun store => store.modifyModule module fun entry =>
            { entry with registers := (name, ref) :: entry.registers }
          return ref) := by
        intro type
        refine Respects.bind (allocate_keeps module _ fun _ => trivial) fun ref => ?_
        refine Respects.bind ?_ fun _ => Respects.pure ref
        exact fun _ => keeps_modifyModule fun _ _ member => member
      by_cases vector : name.isVector
      · simp only [vector, if_true]
        exact Respects.bind (vectorType_keeps module (some scalar) 3) rest
      · simp only [vector]
        exact rest scalar

/-! ## Functions, arguments and blocks -/

theorem createFunction_keeps (module : Nat) (kind : FunctionKind) (result : Option Ty) :
    Respects Keeps (createFunction module kind result) := by
  intro store
  exact keeps_createFunction store module kind result

theorem removeFunction_keeps (module : Nat) (ref : Ref) :
    Respects Keeps (removeFunction module ref) := by
  refine Respects.bind (Respects.see _) fun _ => Respects.ifThen ?_ (Respects.pure ())
  refine Respects.bind ?_ fun _ => ?_
  · exact fun _ => keeps_modifyModule fun _ _ member => List.mem_of_mem_erase member
  · exact fun _ => keeps_modifyFunction fun _ _ body => .inl body

theorem createArgument_keeps (owner : Ref) (passing : Passing) (type : Option Ty) :
    Respects Keeps (createArgument owner passing type) := by
  refine Respects.bind (Respects.function owner) fun _ => ?_
  refine Respects.bind (Respects.see _) fun _ => ?_
  refine Respects.bind (Respects.demand _) fun module => ?_
  refine Respects.bind (allocate_keeps module type fun _ => trivial) fun ref => ?_
  refine Respects.bind ?_ fun _ => Respects.pure ref
  exact fun _ => keeps_modifyFunction fun _ _ body => .inl body

theorem createResourceArgument_keeps (owner : Ref) (type : Option Ty) :
    Respects Keeps (createResourceArgument owner type) :=
  Respects.bind (Respects.require _ _) fun _ => createArgument_keeps owner .resource type

theorem createBlock_keeps (owner : Ref) : Respects Keeps (createBlock owner) := by
  refine Respects.bind (Respects.function owner) fun _ => ?_
  refine Respects.bind (Respects.require _ _) fun _ store => ?_
  refine Respects.bindAt (Respects.see _ store) fun _ left given => ?_
  obtain ⟨rfl, rfl⟩ := gives_see_iff.1 given
  refine Respects.bindAt (Respects.demand _ left) fun module left' given => ?_
  obtain ⟨pool, rfl⟩ := gives_demand_iff.1 given
  refine Respects.bindAt (keeps_allocate none fun _ => ⟨rfl, pool⟩) fun ref left' _ => ?_
  refine Respects.bind ?_ (fun _ => Respects.pure ref) left'
  exact fun _ => keeps_modifyFunction fun _ _ body => .inl body

/-- A created block belongs to the function it was created for. -/
theorem blockFunction?_of_gives_createBlock
    {owner ref : Ref}
    {store left : Store}
    (given : Gives (createBlock owner) store ref left) :
    left.blockFunction? ref = some owner := by
  simp only [createBlock, gives_bind_iff, gives_see_iff, gives_demand_iff, gives_require_iff,
    gives_modify_iff, gives_pure_iff] at given
  obtain ⟨_, _, _, _, _, _, _, _, _, _, _, _, new, between, created, _, _, rfl, rfl, rfl⟩ := given
  simp only [Gives, outcome_allocate, Prod.mk.injEq, Except.ok.injEq] at created
  obtain ⟨rfl, rfl⟩ := created
  rw [blockFunction?_modifyFunction, blockFunction?, (gains_allocate ..).content?_new]

theorem createBody_keeps (owner : Ref) : Respects Keeps (createBody owner) := by
  refine Respects.bind (Respects.function owner) fun _ => ?_
  refine Respects.bind (Respects.require _ _) fun _ store => ?_
  refine Respects.bindAt (createBlock_keeps owner store) fun ref left given => ?_
  have owned := blockFunction?_of_gives_createBlock given
  refine Respects.bindAt (keeps_modifyFunction fun entry block body => ?_) fun _ left' _ => ?_
  · cases body
    exact .inr owned
  · exact Respects.pure ref left'

theorem setBody_keeps (owner : Ref) (block : Option Ref) :
    Respects Keeps (setBody owner block) := by
  intro store
  cases block with
  | none => exact keeps_modifyFunction fun _ _ body => by cases body
  | some block =>
      refine Respects.bindAt (Respects.see _ store) fun _ left given => ?_
      obtain ⟨rfl, rfl⟩ := gives_see_iff.1 given
      refine Respects.bindAt (Respects.require _ _ left) fun _ left' given => ?_
      obtain ⟨owned, rfl⟩ := gives_require_iff.1 given
      refine keeps_modifyFunction fun entry other body => ?_
      cases body
      exact .inr (by simpa using owned)

/-! ## Names and comments -/

theorem setName_keeps (ref : Ref) (name : String) : Respects Keeps (setName ref name) :=
  fun store => Keeps.of_contents
    (fun other => map_value?_modifyValue store ref other fun _ => rfl)
    (fun other => map_value?_modifyValue store ref other fun _ => rfl)
    (fun other => usesOf_modifyValue store ref other fun _ => rfl)
    rfl rfl fun _ _ member => member

theorem addComment_keeps (ref : Ref) (comment : String) :
    Respects Keeps (addComment ref comment) :=
  fun store => Keeps.of_contents
    (fun other => map_value?_modifyValue store ref other fun _ => rfl)
    (fun other => map_value?_modifyValue store ref other fun _ => rfl)
    (fun other => usesOf_modifyValue store ref other fun _ => rfl)
    rfl rfl fun _ _ member => member

/-!
## Setting parts of instructions keeps the store coherent

Setters check what they are given and then use the operand edits.  The ones that
also change what an instruction holds besides operands (cases, incoming blocks,
structural blocks) do so in a second step, and may be refused between the two;
both steps are judged on their own.
-/

theorem setCondition_keeps (ref : Ref) (condition : Option Ref) :
    Respects Keeps (setCondition ref condition) :=
  Respects.bind (Respects.see _) fun _ =>
    Respects.bind (Respects.require _ _) fun _ => setOperand_keeps ref 0 condition

theorem setSelector_keeps (ref : Ref) (selector : Option Ref) :
    Respects Keeps (setSelector ref selector) :=
  Respects.bind (Respects.see _) fun _ =>
    Respects.bind (Respects.require _ _) fun _ => setOperand_keeps ref 0 selector

theorem setStored_keeps (ref : Ref) (stored : Option Ref) :
    Respects Keeps (setStored ref stored) :=
  Respects.bind (Respects.operand ref 0) fun address =>
    Respects.bind (Respects.typeOfPresent address) fun _ =>
      Respects.bind (Respects.see _) fun _ =>
        Respects.bind (Respects.require _ _) fun _ => setOperand_keeps ref 1 stored

theorem setBaseAndIndices_keeps
    (ref : Ref)
    (base : Option Ref)
    (indices : List (Option Ref)) :
    Respects Keeps (setBaseAndIndices ref base indices) :=
  Respects.bind (Respects.see _) fun _ =>
    Respects.bind (Respects.require _ _) fun _ => setOperands_keeps ref (base :: indices)

/-! ## Cases and incoming blocks -/

theorem addCase_keeps (ref : Ref) (value : Int64) (block : Option Ref) :
    Respects Keeps (addCase ref value block) := by
  intro store
  refine Respects.bindInstruction fun entry found => ?_
  cases switch : entry.opcode with
  | switch merge cases =>
      refine Respects.bindAt (Respects.require _ _ store) fun _ left given => ?_
      obtain ⟨new, rfl⟩ := gives_require_iff.1 given
      refine Respects.bindAt (setOpcode_keeps found fun coherent => ?_) fun _ left' _ => ?_
      · have distinct := coherent.casesDistinct found
        rw [switch] at distinct
        have fresh : value ∉ cases := by simpa using new
        change (cases ++ [value]).Nodup
        rw [← List.concat_eq_append]
        exact List.Nodup.concat fresh distinct
      · exact addOperand_keeps ref block left'
  | _ => exact Respects.stuck store

theorem requireIncoming_respects
    {related : Store → Store → Prop}
    [Lasting related]
    (phi : Ref)
    (incoming : Option Ref) :
    Respects related (requireIncoming phi incoming) :=
  Respects.bind (Respects.see _) fun _ =>
    Respects.bind (Respects.see _) fun _ => Respects.require _ _

theorem modifyIncomingBlocks_keeps
    (phi : Ref)
    (change : List (Option Ref) → List (Option Ref)) :
    Respects Keeps (modifyIncomingBlocks phi change) := by
  intro store
  refine Respects.bindInstruction fun entry found => ?_
  exact setOpcode_keeps found fun _ => List.nodup_nil

theorem addIncoming_keeps (phi : Ref) (incoming block : Option Ref) :
    Respects Keeps (addIncoming phi incoming block) :=
  Respects.bind (requireIncoming_respects phi incoming) fun _ =>
    Respects.bind (addOperand_keeps phi incoming) fun _ => modifyIncomingBlocks_keeps phi _

theorem setIncoming_keeps (phi : Ref) (position : Int) (incoming block : Option Ref) :
    Respects Keeps (setIncoming phi position incoming block) :=
  Respects.bind (requireIncoming_respects phi incoming) fun _ =>
    Respects.bind (setOperand_keeps phi position incoming) fun _ =>
      Respects.bind (Respects.instruction phi) fun _ =>
        Respects.ifThen Respects.stuck (modifyIncomingBlocks_keeps phi _)

theorem setIncomingCount_keeps (phi : Ref) (count : Int) :
    Respects Keeps (setIncomingCount phi count) :=
  Respects.ifThen (Respects.bind (truncateOperands_keeps phi 0) fun _ => Respects.stuck) <|
    Respects.bind (setOperandCount_keeps phi count.toNat) fun _ =>
      modifyIncomingBlocks_keeps phi _

theorem removeIncoming_keeps (phi : Ref) (position : Int) :
    Respects Keeps (removeIncoming phi position) :=
  Respects.bind (removeOperand_keeps phi position) fun _ =>
    Respects.bind (Respects.instruction phi) fun _ =>
      Respects.ifThen Respects.stuck (modifyIncomingBlocks_keeps phi _)

/-! ## Blocks of terminators -/

theorem createBlockFor_keeps (ref : Ref) : Respects Keeps (createBlockFor ref) := by
  refine Respects.bind (Respects.see _) fun function => ?_
  cases function with
  | none => exact Respects.violate _
  | some function => exact createBlock_keeps function

theorem caseValues_withMerge (merge : Option Ref) (opcode : Opcode) :
    (opcode.withMerge merge).caseValues = opcode.caseValues := by
  cases opcode <;> rfl

theorem setBlockAt_keeps (ref : Ref) (place : BlockPlace) (block : Option Ref) :
    Respects Keeps (setBlockAt ref place block) := by
  intro store
  cases place with
  | operand position => exact setOperand_keeps ref position block store
  | merge =>
      refine Respects.bindInstruction fun entry found => ?_
      refine setOpcode_keeps found fun coherent => ?_
      rw [caseValues_withMerge]
      exact coherent.casesDistinct found
  | body =>
      refine Respects.bindInstruction fun entry found => ?_
      cases entry.opcode with
      | loop merge body update => exact setOpcode_keeps found fun _ => List.nodup_nil
      | _ => exact Respects.stuck store
  | update =>
      refine Respects.bindInstruction fun entry found => ?_
      cases entry.opcode with
      | loop merge body update => exact setOpcode_keeps found fun _ => List.nodup_nil
      | _ => exact Respects.stuck store

theorem createBlockAt_keeps (ref : Ref) (place : BlockPlace) :
    Respects Keeps (createBlockAt ref place) :=
  Respects.bind (createBlockFor_keeps ref) fun block =>
    Respects.bind (setBlockAt_keeps ref place (some block)) fun _ => Respects.pure block

theorem createCase_keeps (ref : Ref) (value : Int64) :
    Respects Keeps (createCase ref value) :=
  Respects.bind (createBlockFor_keeps ref) fun block =>
    Respects.bind (addCase_keeps ref value (some block)) fun _ => Respects.pure block

theorem requireElementType_respects
    {related : Store → Store → Prop}
    [Lasting related]
    (want aggregate : Option Ty)
    (indices : List (Option Ref)) :
    Respects related (requireElementType want aggregate indices) :=
  Respects.bind (Respects.see _) fun _ =>
    Respects.bind (Respects.demand _) fun _ => Respects.require _ _

end Edit

end ShaderIR

import ShaderIR.Pass.CallableRemoval
import ShaderIR.Proofs.Coherence.Listing
import ShaderIR.Proofs.Control.Dominance
import ShaderIR.Proofs.Pass.Success
import ShaderIR.Proofs.Traversal.Closure

/-!
# Removing what no kernel needs

The functions that a module needs are its kernels, and with a definition every function that
its reachable code has for an operand.  Removal takes the other callables out of the list and
marks them; nothing else changes, and what is needed stays the same.  Therefore no definition
that is left mentions a removed callable, and there is nothing left for a second removal.
-/

namespace ShaderIR

open Store Edit

namespace Store

/-! ## What is needed -/

/-- A function of a kind. -/
def HasKind (store : Store) (function : Ref) (kind : FunctionKind) : Prop :=
  ∃ entry, store.function? function = some entry ∧ entry.kind = kind

/-- The reachable code of a function has another value for an operand. -/
def Mentions (store : Store) (function other : Ref) : Prop :=
  ∃ block user, store.Reached function block ∧ user ∈ store.instructions block ∧
    some other ∈ store.operands user

/-- The kernels of a module, and the functions that needed definitions mention. -/
inductive Required (store : Store) (module : Nat) : Ref → Prop
  | kernel {function : Ref} (listed : function ∈ store.functions module)
      (kernel : store.HasKind function .kernel) : Required store module function
  | mentioned {function other : Ref} (required : Required store module function)
      (defines : store.Defines function) (mentions : store.Mentions function other)
      (isFunction : store.isFunction other = true) : Required store module other

variable {store left : Store} {module : Nat} {function other : Ref} {refs : List Ref}

theorem any_kind_iff {kind : FunctionKind} :
    (store.function? function).any (·.kind == kind) = true ↔ store.HasKind function kind := by
  simp [HasKind, Option.any_eq_true]

theorem HasKind.unique
    {kind kind' : FunctionKind}
    (has : store.HasKind function kind)
    (has' : store.HasKind function kind') :
    kind = kind' := by
  obtain ⟨entry, found, rfl⟩ := has
  obtain ⟨_, found', rfl⟩ := has'
  cases found.symm.trans found'
  rfl

/-- Only definitions have code. -/
theorem Mentions.defines
    (mentions : store.Mentions function other)
    (coherent : store.Coherent)
    (listed : store.WellListed) :
    store.Defines function := by
  obtain ⟨-, -, ⟨body, hasBody, -⟩, -⟩ := mentions
  obtain ⟨entry, found, isBody⟩ := Option.bind_eq_some_iff.1 hasBody
  exact listed.owners (coherent.bodyOwner found isBody)

theorem mem_mentioned_iff (coherent : store.Coherent) :
    other ∈ store.mentioned function ↔
      store.Mentions function other ∧ store.isFunction other = true := by
  have operand : ∀ user, other ∈ (store.operands user).filterMap store.asFunction ↔
      some other ∈ store.operands user ∧ store.isFunction other = true := by
    intro user
    simp only [List.mem_filterMap, asFunction, Option.filter_eq_some_iff]
    constructor
    · rintro ⟨_, member, rfl, isFunction⟩
      exact ⟨member, isFunction⟩
    · rintro ⟨member, isFunction⟩
      exact ⟨_, member, rfl, isFunction⟩
  simp only [mentioned, List.mem_flatMap, coherent.mem_traverse_iff, operand]
  constructor
  · rintro ⟨user, ⟨block, reached, inside⟩, member, isFunction⟩
    exact ⟨⟨block, user, reached, inside, member⟩, isFunction⟩
  · rintro ⟨⟨block, user, reached, inside, member⟩, isFunction⟩
    exact ⟨user, ⟨block, reached, inside⟩, member, isFunction⟩

theorem mem_kernels_iff :
    function ∈ store.kernels module ↔
      function ∈ store.functions module ∧ store.HasKind function .kernel := by
  rw [kernels, List.mem_filter, any_kind_iff]

theorem index_lt_of_isFunction (isFunction : (store.function? function).isSome) :
    function.index < store.values.size := by
  obtain ⟨entry, found⟩ := Option.isSome_iff_exists.1 isFunction
  refine index_lt_of_value? (content?_isSome_iff.1 ?_)
  rw [function?_eq_some_iff.1 found]
  rfl

/-- The search from the kernels finds what is needed, and nothing else. -/
theorem mem_needed_iff (coherent : store.Coherent) (listed : store.WellListed) :
    function ∈ store.needed module ↔ store.Required module function := by
  have inside : ∀ ref, ∀ other ∈ store.mentioned ref, other.index < store.values.size :=
    fun ref other member => index_lt_of_isFunction ((mem_mentioned_iff coherent).1 member).2
  have within : ∀ kernel ∈ store.kernels module, kernel.index < store.values.size :=
    fun kernel member =>
      index_lt_of_isFunction (listed.present module kernel (mem_kernels_iff.1 member).1)
  have distinct : (store.kernels module).Nodup := (listed.distinct module).filter _
  rw [needed, mem_closure_iff inside distinct within]
  constructor
  · rintro ⟨kernel, member, leads⟩
    induction leads with
    | refl => exact .kernel (mem_kernels_iff.1 member).1 (mem_kernels_iff.1 member).2
    | tail _ edge required =>
        obtain ⟨mentions, isFunction⟩ := (mem_mentioned_iff coherent).1 edge
        exact .mentioned required (mentions.defines coherent listed) mentions isFunction
  · intro required
    induction required with
    | kernel member isKernel => exact ⟨_, mem_kernels_iff.2 ⟨member, isKernel⟩, .refl⟩
    | mentioned _ _ mentions isFunction leads =>
        obtain ⟨kernel, member, leads⟩ := leads
        exact ⟨kernel, member, leads.tail ((mem_mentioned_iff coherent).2 ⟨mentions, isFunction⟩)⟩

/-- Where there are kernels, the unused callables are those that are not needed. -/
theorem mem_unusedCallables_iff
    (coherent : store.Coherent)
    (listed : store.WellListed)
    (hasKernels : store.kernels module ≠ []) :
    function ∈ store.unusedCallables module ↔
      function ∈ store.functions module ∧ store.HasKind function .callable ∧
        ¬store.Required module function := by
  rw [unusedCallables, if_neg (by simpa using hasKernels), List.mem_filter, Bool.and_eq_true,
    any_kind_iff, Bool.not_eq_true', ← mem_needed_iff coherent listed, ← Bool.not_eq_true,
    List.contains_iff_mem]

end Store

/-! ## Taking functions out -/

/-- A value, marked as removed when it is a function. -/
def Value.struck (value : Value) : Value :=
  { value with content := value.content.mapFunction fun entry => { entry with removed := true } }

namespace Store

variable {store left : Store} {module : Nat} {function other : Ref} {refs : List Ref}

/-- Some functions left the list of a module and are marked, and nothing else has changed. -/
structure Strikes (store : Store) (module : Nat) (refs : List Ref) (left : Store) : Prop where
  values : ∀ ref, left.value? ref =
    if ref ∈ refs then (store.value? ref).map Value.struck else store.value? ref
  modules : ∀ other, left.modules[other]? = (store.modules[other]?).map fun entry =>
    if other = module then { entry with functions := entry.functions.filter (· ∉ refs) } else entry
  slots : left.nextSlot = store.nextSlot

theorem strikes_nil (store : Store) (module : Nat) : store.Strikes module [] store where
  values := fun ref => by simp
  modules := fun other => by simp
  slots := rfl

theorem functions_of_modules
    {change : Module → Module}
    (changed : left.modules[module]? = (store.modules[module]?).map change)
    (select : List Ref → List Ref)
    (empty : select [] = [])
    (selects : ∀ entry : Module, (change entry).functions = select entry.functions) :
    left.functions module = select (store.functions module) := by
  rw [functions, functions, changed]
  cases store.modules[module]? with
  | none => exact empty.symm
  | some entry => exact selects entry

theorem Strikes.functions (strikes : store.Strikes module refs left) :
    left.functions module = (store.functions module).filter (· ∉ refs) :=
  functions_of_modules (strikes.modules module) (List.filter (· ∉ refs)) rfl
    fun _ => by rw [if_pos rfl]

/-- Taking one function out of the list that has it, which marks it. -/
theorem exists_gives_removeFunction
    (distinct : (store.functions module).Nodup)
    (member : function ∈ store.functions module) :
    ∃ left, Gives (removeFunction module function) store () left ∧
      store.Strikes module [function] left := by
  refine ⟨(store.modifyModule module fun entry =>
    { entry with functions := entry.functions.erase function }).modifyFunction function
      fun entry => { entry with removed := true }, ?_, ?_⟩
  · refine gives_see_bind_iff.2 ?_
    rw [if_pos (by simpa using member)]
    exact rfl
  constructor
  case values =>
    intro ref
    rw [modifyFunction, value?_modifyValue, value?_modifyModule]
    by_cases same : function = ref
    · rw [if_pos same, if_pos (List.mem_singleton.2 same.symm)]
      refine congrArg (Option.map · _) (funext fun value => ?_)
      cases value with
      | mk module id type content name comments uses => cases content <;> rfl
    · rw [if_neg same, if_neg (mt List.mem_singleton.1 (Ne.symm same))]
  case modules =>
    intro other
    rw [modifyFunction, modules_modifyValue, modifyModule, Array.getElem?_modify]
    by_cases same : module = other
    · subst same
      cases found : store.modules[module]? with
      | none => simp
      | some entry =>
          have listed : store.functions module = entry.functions := by
            rw [Store.functions, found]
            rfl
          rw [listed] at distinct
          have erased : entry.functions.erase function =
              entry.functions.filter fun ref => decide (ref ∉ [function]) := by
            rw [distinct.erase_eq_filter]
            refine List.filter_congr fun ref _ => ?_
            rw [Bool.eq_iff_iff, bne_iff_ne, decide_eq_true_eq, List.mem_singleton]
          simp [erased]
    · simp [same, Ne.symm same]
  case slots => rfl

theorem Strikes.cons
    (strikes : store.Strikes module [function] left)
    {final : Store}
    (strikes' : left.Strikes module refs final)
    (fresh : function ∉ refs) :
    store.Strikes module (function :: refs) final where
  values := by
    intro ref
    rw [strikes'.values, strikes.values]
    by_cases same : ref = function
    · subst same
      rw [if_neg fresh, if_pos List.mem_cons_self, if_pos List.mem_cons_self]
    · simp [same]
  modules := by
    intro other
    rw [strikes'.modules, strikes.modules, Option.map_map]
    refine congrArg (Option.map · _) (funext fun entry => ?_)
    by_cases same : other = module
    · simp only [Function.comp_apply, if_pos same, List.filter_filter]
      congr 1
      refine List.filter_congr fun ref _ => ?_
      simp [not_or, Bool.and_comm]
    · simp only [Function.comp_apply, if_neg same]
  slots := strikes'.slots.trans strikes.slots

/-- Taking different functions out of the list that has them. -/
theorem exists_gives_strikes
    (distinct : (store.functions module).Nodup)
    (nodup : refs.Nodup)
    (members : ∀ ref ∈ refs, ref ∈ store.functions module) :
    ∃ left, Gives (Pass.removeFunctions module refs) store () left ∧
      store.Strikes module refs left := by
  induction refs generalizing store with
  | nil => exact ⟨store, gives_pure_iff.2 ⟨rfl, rfl⟩, strikes_nil store module⟩
  | cons first rest induction =>
      obtain ⟨fresh, nodup⟩ := List.nodup_cons.1 nodup
      obtain ⟨member, members⟩ := List.forall_mem_cons.1 members
      obtain ⟨between, removes, strikes⟩ := exists_gives_removeFunction distinct member
      have distinct' : (between.functions module).Nodup := by
        rw [strikes.functions]
        exact distinct.filter _
      have members' : ∀ ref ∈ rest, ref ∈ between.functions module := by
        intro ref inRest
        rw [strikes.functions, List.mem_filter]
        refine ⟨members ref inRest, ?_⟩
        simpa using fun same : ref = first => fresh (same ▸ inRest)
      obtain ⟨left, others, strikes'⟩ := induction distinct' nodup members'
      exact ⟨left, gives_bind_iff.2 ⟨(), between, removes, others⟩, strikes.cons strikes' fresh⟩

/-! ## What the marks do not change -/

namespace Strikes

variable (strikes : store.Strikes module refs left)

include strikes

/-- What does not see the marks of functions is the same. -/
theorem contents
    {α : Type}
    (read : Option Content → α)
    (blind : ∀ content, read (content.map (.mapFunction fun entry =>
      { entry with removed := true })) = read content)
    (ref : Ref) :
    read (left.content? ref) = read (store.content? ref) := by
  have content : left.content? ref = if ref ∈ refs then
      (store.content? ref).map (.mapFunction fun entry => { entry with removed := true })
      else store.content? ref := by
    rw [content?, content?, strikes.values]
    split
    · rw [Option.map_map, Option.map_map]
      rfl
    · rfl
  rw [content]
  split
  · exact blind _
  · rfl

theorem instruction? : left.instruction? = store.instruction? := by
  funext ref
  refine Option.ext fun entry => ?_
  rw [instruction?_eq_some_iff, instruction?_eq_some_iff]
  refine iff_of_eq (strikes.contents (· = some (.instruction entry)) (fun content => ?_) ref)
  rcases content with _ | ⟨_ | _⟩ <;> simp [Content.mapFunction]

theorem block_iff (ref owner : Ref) (members : List Ref) :
    left.content? ref = some (.block owner members) ↔
      store.content? ref = some (.block owner members) := by
  refine iff_of_eq (strikes.contents (· = some (.block owner members)) (fun content => ?_) ref)
  rcases content with _ | ⟨_ | _⟩ <;> simp [Content.mapFunction]

theorem instructions : left.instructions = store.instructions :=
  funext fun ref => instructions_eq_of_blocks (strikes.block_iff ref)

theorem isBlock : left.isBlock = store.isBlock := by
  funext ref
  rw [Bool.eq_iff_iff]
  simp only [isBlock_iff, strikes.block_iff]

/-- The kind and the body of a function are the same. -/
theorem parts
    {α : Type}
    (read : Function → α)
    (blind : ∀ entry, read { entry with removed := true } = read entry)
    (ref : Ref) :
    (left.function? ref).map read = (store.function? ref).map read := by
  refine Option.ext fun part => ?_
  simp only [Option.map_eq_some_iff, function?_eq_some_iff]
  refine iff_of_eq (strikes.contents (fun content => ∃ entry : Function,
    content = some (.function entry) ∧ read entry = part) (fun content => ?_) ref)
  rcases content with _ | ⟨_ | _⟩ <;> simp [Content.mapFunction, blind]

theorem hasKind_iff {kind : FunctionKind} : left.HasKind function kind ↔
    store.HasKind function kind := by
  have kinds := strikes.parts Function.kind (fun _ => rfl) function
  simp only [HasKind, ← Option.map_eq_some_iff, kinds]

theorem defines_iff : left.Defines function ↔ store.Defines function := by
  have kinds := strikes.parts Function.isDefinition (fun _ => rfl) function
  simp only [Defines, ← Option.map_eq_some_iff, kinds]

theorem isFunction : left.isFunction function = store.isFunction function := by
  have present := strikes.parts (fun _ => ()) (fun _ => rfl) function
  rw [Store.isFunction, Store.isFunction, ← Option.isSome_map (f := fun _ => ()), present,
    Option.isSome_map]

theorem successors : left.successors = store.successors := by
  have asBlock : left.asBlock = store.asBlock := by
    funext operand
    rw [asBlock, asBlock, strikes.isBlock]
  have isTerminator : left.isTerminator = store.isTerminator := by
    funext ref
    rw [isTerminator, isTerminator, opcode?, opcode?, strikes.instruction?]
  funext block
  simp only [Store.successors, terminator?, strikes.instructions, isTerminator, asBlock, operands,
    strikes.instruction?]

theorem mentions_iff : left.Mentions function other ↔ store.Mentions function other := by
  have bodies := strikes.parts Function.body (fun _ => rfl) function
  have body : left.body? function = store.body? function := by
    have joined : ∀ store : Store, store.body? function =
        ((store.function? function).map Function.body).join := by
      intro store
      rw [body?]
      cases store.function? function <;> rfl
    rw [joined, joined, bodies]
  simp only [Mentions, Reached, Reaches, body, strikes.successors, strikes.instructions, operands,
    strikes.instruction?]

/-- As long as no kernel is taken out, the same functions are needed. -/
theorem required_iff (noKernel : ∀ ref ∈ refs, ¬store.HasKind ref .kernel) :
    left.Required module function ↔ store.Required module function := by
  constructor
  · intro required
    induction required with
    | kernel listed isKernel =>
        rw [strikes.functions] at listed
        exact .kernel (List.mem_of_mem_filter listed) (strikes.hasKind_iff.1 isKernel)
    | mentioned _ defines mentions isFunction required =>
        exact .mentioned required (strikes.defines_iff.1 defines)
          (strikes.mentions_iff.1 mentions) (strikes.isFunction ▸ isFunction)
  · intro required
    induction required with
    | @kernel kernel listed isKernel =>
        refine .kernel ?_ (strikes.hasKind_iff.2 isKernel)
        rw [strikes.functions, List.mem_filter]
        exact ⟨listed, by simpa using fun member => noKernel kernel member isKernel⟩
    | mentioned _ defines mentions isFunction required =>
        exact .mentioned required (strikes.defines_iff.2 defines)
          (strikes.mentions_iff.2 mentions) (strikes.isFunction.symm ▸ isFunction)

end Strikes

/-! ## The removal -/

/-- The callables that no kernel needs left the module, and nothing else has changed. -/
structure RemovesUnused (store : Store) (module : Nat) (removed : List Ref) (left : Store) :
    Prop where
  /-- The removed functions are named in the order of the module. -/
  listed : removed.Sublist (store.functions module)
  /-- They are the callables of the list that are not needed. -/
  unused : ∀ function, function ∈ removed ↔
    function ∈ store.functions module ∧ store.HasKind function .callable ∧
      ¬store.Required module function
  /-- They are marked and taken out of the list, which keeps the order of the others. -/
  strikes : store.Strikes module removed left
  /-- No definition that is left mentions any of them. -/
  settled : ∀ function ∈ left.functions module, left.Defines function →
    ∀ other ∈ removed, ¬left.Mentions function other

theorem removeFunctions_respects
    {related : Store → Store → Prop}
    [Lasting related]
    (each : ∀ function, Respects related (removeFunction module function)) :
    Respects related (Pass.removeFunctions module refs) := by
  induction refs with
  | nil => exact Respects.pure ()
  | cons first rest induction => exact Respects.bind (each first) fun _ => induction

theorem gives_removeUnusedCallables_of_nil (unused : store.unusedCallables module = []) :
    Gives (Pass.removeUnusedCallables module) store { removed := [] } store := by
  refine gives_see_bind_iff.2 ?_
  rw [unused]
  exact rfl

theorem removed_eq_of_gives
    {report : Pass.CallableRemoval}
    (gives : Gives (Pass.removeUnusedCallables module) store report left) :
    report.removed = store.unusedCallables module := by
  obtain ⟨between, removes⟩ :=
    Pass.exists_gives_removeFunctions module (store.unusedCallables module) store
  have answers : Gives (Pass.removeUnusedCallables module) store
      { removed := store.unusedCallables module } between :=
    gives_see_bind_iff.2 (gives_bind_iff.2 ⟨(), between, removes, gives_pure_iff.2 ⟨rfl, rfl⟩⟩)
  have same : report = { removed := store.unusedCallables module } :=
    Except.ok.inj (congrArg Prod.fst (gives.symm.trans answers))
  rw [same]

theorem unusedCallables_sublist :
    (store.unusedCallables module).Sublist (store.functions module) := by
  rw [unusedCallables]
  split
  · exact List.nil_sublist _
  · exact List.filter_sublist

/-- After the removal every definition that is left is needed. -/
theorem Strikes.required_of_defines
    (strikes : store.Strikes module (store.unusedCallables module) left)
    (unused : ∀ function, function ∈ store.unusedCallables module ↔
      function ∈ store.functions module ∧ store.HasKind function .callable ∧
        ¬store.Required module function)
    (member : function ∈ left.functions module)
    (defines : left.Defines function) :
    store.Required module function := by
  rw [strikes.functions, List.mem_filter, decide_eq_true_eq] at member
  obtain ⟨entry, found, isDefinition⟩ := strikes.defines_iff.1 defines
  cases kind : entry.kind with
  | kernel => exact .kernel member.1 ⟨entry, found, kind⟩
  | callable =>
      by_contra missing
      exact member.2 ((unused function).2 ⟨member.1, ⟨entry, found, kind⟩, missing⟩)
  | external =>
      rw [Function.isDefinition, kind] at isDefinition
      cases isDefinition

/-- After the removal no callable is unused. -/
theorem Strikes.unusedCallables_eq_nil
    (strikes : store.Strikes module (store.unusedCallables module) left)
    (unused : ∀ function, function ∈ store.unusedCallables module ↔
      function ∈ store.functions module ∧ store.HasKind function .callable ∧
        ¬store.Required module function)
    (coherent : left.Coherent)
    (listed : left.WellListed)
    (hasKernels : store.kernels module ≠ []) :
    left.unusedCallables module = [] := by
  have noKernel : ∀ ref ∈ store.unusedCallables module, ¬store.HasKind ref .kernel := by
    intro ref isRemoved isKernel
    cases isKernel.unique ((unused ref).1 isRemoved).2.1
  have hasKernels' : left.kernels module ≠ [] := by
    obtain ⟨kernel, member⟩ := List.exists_mem_of_ne_nil _ hasKernels
    obtain ⟨inList, isKernel⟩ := mem_kernels_iff.1 member
    have stays : kernel ∈ left.functions module := by
      rw [strikes.functions, List.mem_filter, decide_eq_true_eq]
      exact ⟨inList, fun isRemoved => noKernel kernel isRemoved isKernel⟩
    exact List.ne_nil_of_mem (mem_kernels_iff.2 ⟨stays, strikes.hasKind_iff.2 isKernel⟩)
  refine List.eq_nil_iff_forall_not_mem.2 fun function member => ?_
  obtain ⟨inList, ⟨entry, found, isCallable⟩, missing⟩ :=
    (mem_unusedCallables_iff coherent listed hasKernels').1 member
  have defines : left.Defines function := by
    refine ⟨entry, found, ?_⟩
    rw [Function.isDefinition, isCallable]
    rfl
  exact missing
    ((strikes.required_iff noKernel).2 (strikes.required_of_defines unused inList defines))

theorem Coherent.exists_gives_removesUnused
    (coherent : store.Coherent)
    (listed : store.WellListed)
    (hasKernels : store.kernels module ≠ []) :
    ∃ removed left, Gives (Pass.removeUnusedCallables module) store { removed } left ∧
      store.RemovesUnused module removed left ∧
      Gives (Pass.removeUnusedCallables module) left { removed := [] } left := by
  have unused : ∀ function, function ∈ store.unusedCallables module ↔
      function ∈ store.functions module ∧ store.HasKind function .callable ∧
        ¬store.Required module function :=
    fun function => mem_unusedCallables_iff coherent listed hasKernels
  obtain ⟨left, removes, strikes⟩ := exists_gives_strikes (listed.distinct module)
    ((listed.distinct module).sublist unusedCallables_sublist)
    fun ref member => unusedCallables_sublist.subset member
  have final : (Edit.outcome (Pass.removeFunctions module (store.unusedCallables module))
      store).2 = left := by
    rw [removes]
  have coherent' : left.Coherent := final ▸
    (removeFunctions_respects (removeFunction_keeps module) store coherent).1
  have keepsListing : Respects KeepsListing
      (Pass.removeFunctions module (store.unusedCallables module)) :=
    removeFunctions_respects (Still.removeFunction module)
  have listed' : left.WellListed := final ▸ keepsListing store listed
  refine ⟨store.unusedCallables module, left, ?_, ⟨unusedCallables_sublist, unused, strikes, ?_⟩,
    gives_removeUnusedCallables_of_nil
      (strikes.unusedCallables_eq_nil unused coherent' listed' hasKernels)⟩
  · exact gives_see_bind_iff.2
      (gives_bind_iff.2 ⟨(), left, removes, gives_pure_iff.2 ⟨rfl, rfl⟩⟩)
  · intro function member defines other isRemoved mentions
    obtain ⟨inList, ⟨entry, found, -⟩, missing⟩ := (unused other).1 isRemoved
    have required := strikes.required_of_defines unused member defines
    refine missing (.mentioned required (strikes.defines_iff.1 defines)
      (strikes.mentions_iff.1 mentions) ?_)
    rw [Store.isFunction, found]
    rfl

end Store

namespace Session

/--
After any operations, refused ones among them: from a module with kernels exactly the callables
that no kernel needs are removed, a second time nothing is, and a module without kernels stays
as it is.
-/
theorem unused_removal_exact (operations : List Operation) (module : Nat) :
    ∃ removed left,
      Gives (Pass.removeUnusedCallables module) (after operations).store { removed } left ∧
      Gives (Pass.removeUnusedCallables module) left { removed := [] } left ∧
      ((∃ kernel ∈ (after operations).store.functions module,
        (after operations).store.HasKind kernel .kernel) →
          (after operations).store.RemovesUnused module removed left) ∧
      ((¬∃ kernel ∈ (after operations).store.functions module,
        (after operations).store.HasKind kernel .kernel) →
          removed = [] ∧ left = (after operations).store) := by
  have coherent := (after_coherent operations).store
  have listed := after_wellListed operations
  generalize (after operations).store = store at coherent listed ⊢
  have hasKernels_iff : (∃ kernel ∈ store.functions module, store.HasKind kernel .kernel) ↔
      store.kernels module ≠ [] := by
    rw [← List.isEmpty_eq_false_iff, List.isEmpty_eq_false_iff_exists_mem]
    simp only [mem_kernels_iff]
  rw [hasKernels_iff]
  by_cases hasKernels : store.kernels module = []
  · have unchanged : Gives (Pass.removeUnusedCallables module) store { removed := [] } store := by
      refine gives_removeUnusedCallables_of_nil ?_
      rw [unusedCallables, hasKernels]
      rfl
    exact ⟨[], store, unchanged, unchanged, fun has => absurd hasKernels has,
      fun _ => ⟨rfl, rfl⟩⟩
  · obtain ⟨removed, left, gives, removes, again⟩ :=
      coherent.exists_gives_removesUnused listed hasKernels
    exact ⟨removed, left, gives, again, fun _ => removes, fun none => absurd hasKernels none⟩

/-- A kernel that calls a callable, and two callables that call each other. -/
def callingRound : List Operation :=
  [.edit (.addModule "round"),
    .edit (.createFunction 0 .callable none),
    .edit (.createFunction 0 .kernel none),
    .edit (.createFunction 0 .callable none),
    .edit (.createFunction 0 .callable none),
    .edit (.createBody ⟨1⟩),
    .edit (.createBody ⟨2⟩),
    .edit (.createBody ⟨3⟩),
    .moveToEnd ⟨4⟩, .call none (some ⟨0⟩) [],
    .moveToEnd ⟨5⟩, .call none (some ⟨3⟩) [],
    .moveToEnd ⟨6⟩, .call none (some ⟨2⟩) []]

/-- The callables that call each other are removed, and the one that the kernel calls is not. -/
theorem unused_removal_exact_circling :
    (after callingRound).store.functions 0 = [⟨0⟩, ⟨1⟩, ⟨2⟩, ⟨3⟩] ∧
    ∃ left, Gives (Pass.removeUnusedCallables 0) (after callingRound).store
        { removed := [⟨2⟩, ⟨3⟩] } left ∧
      (after callingRound).store.RemovesUnused 0 [⟨2⟩, ⟨3⟩] left ∧
      left.functions 0 = [⟨0⟩, ⟨1⟩] := by
  have listed : (after callingRound).store.functions 0 = [⟨0⟩, ⟨1⟩, ⟨2⟩, ⟨3⟩] := by decide +kernel
  have unused : (after callingRound).store.unusedCallables 0 = [⟨2⟩, ⟨3⟩] := by decide +kernel
  obtain ⟨removed, left, gives, -, removes, -⟩ := unused_removal_exact callingRound 0
  have isKernel : (after callingRound).store.HasKind ⟨1⟩ .kernel :=
    ⟨{ kind := .kernel, body := some ⟨4⟩, blocks := [⟨4⟩] }, by decide +kernel, rfl⟩
  have removes := removes ⟨⟨1⟩, by decide +kernel, isKernel⟩
  obtain rfl : removed = [⟨2⟩, ⟨3⟩] := (removed_eq_of_gives gives).trans unused
  refine ⟨listed, left, gives, removes, ?_⟩
  rw [removes.strikes.functions, listed]
  decide

end Session

end ShaderIR

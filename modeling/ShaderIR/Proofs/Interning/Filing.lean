import ShaderIR.Proofs.Interning.Requests
import ShaderIR.Proofs.Types.Interning

/-!
# What a module has on file

A module numbers its values in a pool, and it keeps the interned ones in tables: one value for
each request that was answered.  A table holds nothing else, and the values in it are what they
were requested as.  No edit breaks this, and a request either finds the value on file, or puts
a new one there, or is refused without effect on the tables.

Registers have types that the registry made for them, of numbers or of vectors of numbers.
-/

namespace ShaderIR

open Store Edit

/-! ## Values on file -/

namespace Request

/-- What a value is that was made for a request. -/
def content (digest : Digesting) : Request → Content
  | .constant type data => .constant data (digest type data)
  | .undefined _ => .undefined
  | .register name => .register name

/-- The type of a value that was made for a request; that of a register is not requested. -/
def Typed : Request → Option Ty → Prop
  | .constant type _, found => found = some type
  | .undefined type, found => found = type
  | .register _, _ => True

/-- Put the value for a request into the table of its kind. -/
def file (request : Request) (ref : Ref) (entry : Module) : Module :=
  match request with
  | .constant .. => { entry with constants := ref :: entry.constants }
  | .undefined type => { entry with undefineds := (type, ref) :: entry.undefineds }
  | .register name => { entry with registers := (name, ref) :: entry.registers }

end Request

/-- What an interned value is; all other contents look alike. -/
def Content.imprint : Content → Option Content
  | .undefined => some .undefined
  | .constant data hash => some (.constant data hash)
  | .register name => some (.register name)
  | _ => none

/-- The module, the number and the type of a value, and what it is when it is interned. -/
def Value.imprint (value : Value) : Nat × Nat × Option Ty × Option Content :=
  (value.module, value.id, value.type, value.content.imprint)

/-- The pool of a module and its tables of interned values. -/
def Module.tables (entry : Module) :
    Array Ref × List Ref × List (Option Ty × Ref) × List (Register × Ref) :=
  (entry.pool, entry.constants, entry.undefineds, entry.registers)

namespace Store

/-- The imprint of the value behind a reference. -/
def imprint? (store : Store) (ref : Ref) : Option (Nat × Nat × Option Ty × Option Content) :=
  (store.value? ref).map Value.imprint

/-- The value on file for a request, searched in the table of its kind. -/
def filed? (store : Store) (digest : Digesting) (module : Nat) : Request → Option Ref
  | .constant type data => store.constantWith? digest module type data
  | .undefined type => (store.modules[module]?).bind (·.undefineds.lookup type)
  | .register name => (store.modules[module]?).bind (·.registers.lookup name)

/-- A value of a module is what it was requested as. -/
structure Holds (store : Store) (digest : Digesting) (module : Nat) (ref : Ref)
    (request : Request) : Prop where
  pool : store.moduleOf? ref = some module
  content : store.content? ref = some (request.content digest)
  typed : request.Typed (store.typeOf ref)

/-- The imprints of all values and the tables of all modules are what they were. -/
structure Retains (store left : Store) : Prop where
  imprints : ∀ ref, left.imprint? ref = store.imprint? ref
  tables : ∀ module : Nat,
    (left.modules[module]?).map Module.tables = (store.modules[module]?).map Module.tables

instance : Lasting Retains where
  refl := fun _ => ⟨fun _ => rfl, fun _ => rfl⟩
  trans := fun retains retains' =>
    ⟨fun ref => (retains'.imprints ref).trans (retains.imprints ref),
      fun module => (retains'.tables module).trans (retains.tables module)⟩

variable {store left : Store} {digest : Digesting} {module : Nat} {ref : Ref} {request : Request}

theorem holds_iff_imprint? :
    store.Holds digest module ref request ↔
      ∃ id type, store.imprint? ref = some (module, id, type, some (request.content digest)) ∧
        request.Typed type := by
  have whole : ∀ content : Content,
      content.imprint = some (request.content digest) ↔ content = request.content digest := by
    intro content
    cases content <;> cases request <;> simp [Content.imprint, Request.content]
  constructor
  · rintro ⟨pool, content, typed⟩
    obtain ⟨value, found, rfl⟩ := Option.map_eq_some_iff.1 pool
    rw [content?, found] at content
    rw [typeOf, found] at typed
    exact ⟨value.id, value.type, by
      rw [imprint?, found, Option.map_some, Value.imprint, (whole _).2 (Option.some.inj content)],
      typed⟩
  · rintro ⟨id, type, imprint, typed⟩
    obtain ⟨value, found, imprint⟩ := Option.map_eq_some_iff.1 imprint
    simp only [Value.imprint, Prod.mk.injEq] at imprint
    obtain ⟨pool, -, rfl, content⟩ := imprint
    refine ⟨?_, ?_, ?_⟩
    · rw [moduleOf?, found, Option.map_some, pool]
    · rw [content?, found, Option.map_some, (whole _).1 content]
    · rw [typeOf, found]
      exact typed

theorem Holds.imprinted
    (holds : store.Holds digest module ref request)
    (same : left.imprint? ref = store.imprint? ref) :
    left.Holds digest module ref request := by
  rw [holds_iff_imprint?, same, ← holds_iff_imprint?]
  exact holds

/-- A value was requested in one way. -/
theorem Holds.unique
    {other : Request}
    (holds : store.Holds digest module ref request)
    (holds' : store.Holds digest module ref other) :
    request = other := by
  have contents := Option.some.inj (holds.content.symm.trans holds'.content)
  have typed := holds.typed
  have typed' := holds'.typed
  cases request <;> cases other <;> simp_all [Request.content, Request.Typed]

/-! ## Edits without effect on what is on file -/

theorem retains_modifyValue
    (ref : Ref)
    {change : Value → Value}
    (kept : ∀ value, (change value).imprint = value.imprint) :
    store.Retains (store.modifyValue ref change) :=
  ⟨fun other => map_value?_modifyValue store ref other kept, fun _ => rfl⟩

theorem retains_modifyInstruction (ref : Ref) (change : Instruction → Instruction) :
    store.Retains (store.modifyInstruction ref change) := by
  refine retains_modifyValue ref fun value => ?_
  cases value with
  | mk module id type content name comments uses => cases content <;> rfl

theorem retains_modifyBlock (ref : Ref) (change : List Ref → List Ref) :
    store.Retains (store.modifyBlock ref change) := by
  refine retains_modifyValue ref fun value => ?_
  cases value with
  | mk module id type content name comments uses => cases content <;> rfl

theorem retains_modifyFunction (ref : Ref) (change : Function → Function) :
    store.Retains (store.modifyFunction ref change) := by
  refine retains_modifyValue ref fun value => ?_
  cases value with
  | mk module id type content name comments uses => cases content <;> rfl

theorem retains_modifyModule
    (module : Nat)
    (change : Module → Module)
    (kept : ∀ entry, (change entry).tables = entry.tables) :
    store.Retains (store.modifyModule module change) := by
  refine ⟨fun _ => rfl, fun other => ?_⟩
  rw [modifyModule, Array.getElem?_modify]
  split
  · rw [Option.map_map]
    exact congrArg (Option.map · _) (funext kept)
  · rfl

theorem Amends.retains (amends : store.Amends left) : store.Retains left := by
  constructor
  · intro ref
    have seen : ∀ value : Value, value.frame.imprint = value.imprint := by
      rintro ⟨module, id, type, content, name, comments, uses⟩
      cases content <;> rfl
    exact amends.values Value.imprint seen ref
  · intro module
    rw [amends.modules]

end Store

/-! ## The files of a module -/

/-- What a module has on file after some answers: the tables hold just the values answered. -/
structure Module.Files (entry : Module) (digest : Digesting) (module : Nat)
    (log : List Answered) (store : Store) : Prop where
  found : store.modules[module]? = some entry
  numbered : ∀ ref id, entry.pool[id]? = some ref ↔
    ∃ type content, store.imprint? ref = some (module, id, type, content)
  constants : ∀ ref, ref ∈ entry.constants ↔
    ∃ type data, ⟨module, .constant type data, ref⟩ ∈ log
  undefineds : ∀ type ref, (type, ref) ∈ entry.undefineds ↔ ⟨module, .undefined type, ref⟩ ∈ log
  registers : ∀ name ref, (name, ref) ∈ entry.registers ↔ ⟨module, .register name, ref⟩ ∈ log
  distinct : entry.constants.Nodup
  holds : ∀ request ref, ⟨module, request, ref⟩ ∈ log → store.Holds digest module ref request
  single : ∀ request ref other, ⟨module, request, ref⟩ ∈ log → ⟨module, request, other⟩ ∈ log →
    ref = other

/-- A module has the answers that it gave on file, and nothing else. -/
def Store.Filed (store : Store) (digest : Digesting) (module : Nat) (log : List Answered) : Prop :=
  ∃ entry : Module, entry.Files digest module log store

/-- What a module has on file, it still has on file. -/
def Store.KeepsFiles (digest : Digesting) (module : Nat) (store left : Store) : Prop :=
  ∀ log, store.Filed digest module log → left.Filed digest module log

namespace Module.Files

variable {store left : Store} {digest : Digesting} {module other : Nat} {log log' : List Answered}
  {entry entry' : Module} {ref : Ref} {request : Request}

/-- Only the answers of the module itself count. -/
theorem congr
    (files : entry.Files digest module log store)
    (same : ∀ request ref,
      ⟨module, request, ref⟩ ∈ log' ↔ (⟨module, request, ref⟩ : Answered) ∈ log) :
    entry.Files digest module log' store where
  found := files.found
  numbered := files.numbered
  constants := fun ref => by
    rw [files.constants]
    simp only [same]
  undefineds := fun type ref => by rw [files.undefineds, same]
  registers := fun name ref => by rw [files.registers, same]
  distinct := files.distinct
  holds := fun request ref answered => files.holds request ref ((same request ref).1 answered)
  single := fun request ref other answered answered' =>
    files.single request ref other ((same request ref).1 answered)
      ((same request other).1 answered')

theorem present
    (files : entry.Files digest module log store)
    (answered : ⟨module, request, ref⟩ ∈ log) :
    (store.value? ref).isSome := by
  rw [← moduleOf?_isSome_iff, (files.holds request ref answered).pool]
  rfl

/-- Where the pool is numbered again and old imprints stay, the same tables hold the same. -/
theorem renew
    (files : entry.Files digest module log store)
    (found : left.modules[module]? = some entry')
    (numbered : ∀ ref id, entry'.pool[id]? = some ref ↔
      ∃ type content, left.imprint? ref = some (module, id, type, content))
    (imprints : ∀ ref, (store.value? ref).isSome → left.imprint? ref = store.imprint? ref)
    (constants : entry'.constants = entry.constants)
    (undefineds : entry'.undefineds = entry.undefineds)
    (registers : entry'.registers = entry.registers) :
    entry'.Files digest module log left where
  found := found
  numbered := numbered
  constants := fun ref => constants ▸ files.constants ref
  undefineds := fun type ref => undefineds ▸ files.undefineds type ref
  registers := fun name ref => registers ▸ files.registers name ref
  distinct := constants ▸ files.distinct
  holds := fun request ref answered =>
    (files.holds request ref answered).imprinted (imprints ref (files.present answered))
  single := files.single

/-- What has the same imprints and tables has the same on file. -/
theorem transport
    (files : entry.Files digest module log store)
    (imprints : ∀ ref, left.imprint? ref = store.imprint? ref)
    (found : left.modules[module]? = some entry')
    (tables : entry'.tables = entry.tables) :
    entry'.Files digest module log left := by
  simp only [Module.tables, Prod.mk.injEq] at tables
  obtain ⟨pool, constants, undefineds, registers⟩ := tables
  refine files.renew found (fun ref id => ?_) (fun ref _ => imprints ref) constants undefineds
    registers
  rw [pool, imprints]
  exact files.numbered ref id

end Module.Files

namespace Store

variable {store left : Store} {digest : Digesting} {module other : Nat} {log log' : List Answered}
  {ref : Ref} {request : Request}

instance : Lasting (KeepsFiles digest module) where
  refl := fun _ _ filed => filed
  trans := fun keeps keeps' log filed => keeps' log (keeps log filed)

theorem Filed.congr
    (filed : store.Filed digest module log)
    (same : ∀ request ref,
      ⟨module, request, ref⟩ ∈ log' ↔ (⟨module, request, ref⟩ : Answered) ∈ log) :
    store.Filed digest module log' := by
  obtain ⟨entry, files⟩ := filed
  exact ⟨entry, files.congr same⟩

theorem Retains.keepsFiles (retains : store.Retains left) :
    store.KeepsFiles digest module left := by
  rintro log ⟨entry, files⟩
  have tables := retains.tables module
  rw [files.found, Option.map_some] at tables
  obtain ⟨entry', found, tables⟩ := Option.map_eq_some_iff.1 tables
  exact ⟨entry', files.transport retains.imprints found tables⟩

theorem keepsFiles_addModule (store : Store) (name : String) :
    store.KeepsFiles digest module (store.addModule name).2 := by
  rintro log ⟨entry, files⟩
  refine ⟨entry, files.transport (fun _ => rfl) ?_ rfl⟩
  have inside : module < store.modules.size := (Array.getElem?_eq_some_iff.1 files.found).1
  have found := files.found
  simp only [addModule, Array.getElem?_push, Nat.ne_of_lt inside, if_false]
  exact found

/-- A new value takes the next number of its module, and all files stay as they are. -/
theorem keepsFiles_allocate (store : Store) (other : Nat) (type : Option Ty) (content : Content) :
    store.KeepsFiles digest module (store.allocate other type content).2 := by
  rintro log ⟨entry, files⟩
  have imprints : ∀ ref, (store.allocate other type content).2.imprint? ref =
      if ref = (store.allocate other type content).1 then
        some (other, (store.modules[other]?.map (·.pool.size)).getD 0, type, content.imprint)
      else store.imprint? ref := by
    intro ref
    rw [imprint?, value?_allocate]
    split <;> rfl
  have absent : store.imprint? (store.allocate other type content).1 = none := by
    rw [imprint?, value?_allocate_fst]
    rfl
  have kept : ∀ ref, (store.value? ref).isSome →
      (store.allocate other type content).2.imprint? ref = store.imprint? ref := by
    intro ref present
    rw [imprints, if_neg]
    rintro rfl
    rw [value?_allocate_fst] at present
    cases present
  by_cases same : other = module
  · subst same
    refine ⟨{ entry with pool := entry.pool.push (store.allocate other type content).1 },
      files.renew ?_ (fun ref id => ?_) kept rfl rfl rfl⟩
    · rw [modules_allocate, Array.getElem?_modify, if_pos rfl, files.found]
      rfl
    rw [imprints, files.found, Option.map_some, Option.getD_some, Array.getElem?_push]
    by_cases new : ref = (store.allocate other type content).1
    · subst new
      have old : entry.pool[id]? ≠ some (store.allocate other type content).1 := by
        rw [Ne, files.numbered, absent]
        simp
      by_cases last : id = entry.pool.size
      · simp [last]
      · simp [last, old, Ne.symm last]
    · rw [if_neg new, ← files.numbered]
      by_cases last : id = entry.pool.size
      · simp [last, Ne.symm new]
      · rw [if_neg last]
  · refine ⟨entry, files.renew ?_ (fun ref id => ?_) kept rfl rfl rfl⟩
    · rw [modules_allocate, Array.getElem?_modify, if_neg same, files.found]
    rw [files.numbered, imprints]
    by_cases new : ref = (store.allocate other type content).1
    · simp [new, absent, same]
    · rw [if_neg new]

/-! ## Filing an answer -/

/-- What is put on file with a module does not concern other modules. -/
theorem keepsFiles_modifyModule_other
    (store : Store)
    (different : other ≠ module)
    (change : Module → Module) :
    store.KeepsFiles digest module (store.modifyModule other change) := by
  rintro log ⟨entry, files⟩
  refine ⟨entry, files.transport (fun _ => rfl) ?_ rfl⟩
  rw [modifyModule, Array.getElem?_modify, if_neg different]
  exact files.found

/-- The value for a request that was not answered before is put on file. -/
theorem Filed.file
    (filed : store.Filed digest module log)
    (unanswered : ∀ other, ⟨module, request, other⟩ ∉ log)
    (holds : store.Holds digest module ref request) :
    (store.modifyModule module (request.file ref)).Filed digest module
      (log ++ [⟨module, request, ref⟩]) := by
  obtain ⟨entry, files⟩ := filed
  have fresh : ∀ other, ⟨module, other, ref⟩ ∉ log := by
    intro other answered
    rw [(files.holds other ref answered).unique holds] at answered
    exact unanswered ref answered
  refine ⟨request.file ref entry, ?_⟩
  constructor
  case found => rw [modifyModule, Array.getElem?_modify, if_pos rfl, files.found]; rfl
  case numbered =>
    intro other id
    have pool : (request.file ref entry).pool = entry.pool := by cases request <;> rfl
    rw [pool]
    exact files.numbered other id
  case constants =>
    intro other
    cases request <;> simp [Request.file, files.constants, or_comm, exists_or]
  case undefineds =>
    intro type other
    cases request <;> simp [Request.file, files.undefineds, or_comm]
  case registers =>
    intro name other
    cases request <;> simp [Request.file, files.registers, or_comm]
  case distinct =>
    have new : ref ∉ entry.constants := by
      rw [files.constants]
      rintro ⟨type, data, answered⟩
      exact fresh _ answered
    cases request with
    | constant type data => exact List.nodup_cons.2 ⟨new, files.distinct⟩
    | undefined type => exact files.distinct
    | register name => exact files.distinct
  case holds =>
    intro other ref' answered
    rcases List.mem_append.1 answered with old | last
    · exact (files.holds other ref' old).imprinted rfl
    · cases List.mem_singleton.1 last
      exact holds.imprinted rfl
  case single =>
    intro other ref' ref'' answered answered'
    rcases List.mem_append.1 answered with old | last <;>
      rcases List.mem_append.1 answered' with old' | last'
    · exact files.single other ref' ref'' old old'
    · cases List.mem_singleton.1 last'
      exact absurd old (unanswered ref')
    · cases List.mem_singleton.1 last
      exact absurd old' (unanswered ref'')
    · cases List.mem_singleton.1 last
      cases List.mem_singleton.1 last'
      rfl

/-- The search for a constant compares digests, types and bytes. -/
theorem matches_iff {type : Ty} {data : List UInt8} :
    (match store.value? ref with
      | some { content := .constant data' hash', type := type', .. } =>
        hash' == digest type data && type' == some type && data' == data
      | _ => false) = true ↔
    store.typeOf ref = some type ∧
      store.content? ref = some (.constant data (digest type data)) := by
  rw [typeOf, content?]
  cases store.value? ref with
  | none => simp
  | some value =>
      cases value with
      | mk module id type' content name comments uses =>
          cases content with
          | constant data' hash =>
              simp only [Bool.and_eq_true, beq_iff_eq, Option.bind_some, Option.map_some,
                Option.some.injEq, Content.constant.injEq]
              tauto
          | _ => simp

/-- What is on file for a request was answered to it before. -/
theorem Filed.answered
    (filed : store.Filed digest module log)
    (found : store.filed? digest module request = some ref) :
    ⟨module, request, ref⟩ ∈ log := by
  obtain ⟨entry, files⟩ := filed
  cases request with
  | constant type data =>
      rw [filed?, constantWith?, files.found, Option.map_some, Option.getD_some] at found
      obtain ⟨type', data', answered⟩ := (files.constants ref).1 (List.mem_of_find?_eq_some found)
      have matched := List.find?_some found
      obtain ⟨typed, content⟩ := matches_iff.1 matched
      have pool := (files.holds _ ref answered).pool
      have holds : store.Holds digest module ref (.constant type data) := ⟨pool, content, typed⟩
      rwa [(files.holds _ ref answered).unique holds] at answered
  | undefined type =>
      rw [filed?, files.found, Option.bind_some, List.lookup_eq_some_iff] at found
      obtain ⟨front, back, split, -⟩ := found
      exact (files.undefineds type ref).1 (by simp [split])
  | register name =>
      rw [filed?, files.found, Option.bind_some, List.lookup_eq_some_iff] at found
      obtain ⟨front, back, split, -⟩ := found
      exact (files.registers name ref).1 (by simp [split])

/-- A request for which nothing is on file was not answered before. -/
theorem Filed.unanswered
    (filed : store.Filed digest module log)
    (missing : store.filed? digest module request = none)
    (ref : Ref) :
    ⟨module, request, ref⟩ ∉ log := by
  obtain ⟨entry, files⟩ := filed
  intro answered
  cases request with
  | constant type data =>
      rw [filed?, constantWith?, files.found, Option.map_some, Option.getD_some] at missing
      have holds := files.holds _ ref answered
      have member : ref ∈ entry.constants := (files.constants ref).2 ⟨type, data, answered⟩
      exact List.find?_eq_none.1 missing ref member (matches_iff.2 ⟨holds.typed, holds.content⟩)
  | undefined type =>
      rw [filed?, files.found, Option.bind_some, List.lookup_eq_none_iff] at missing
      simpa using missing _ ((files.undefineds type ref).2 answered)
  | register name =>
      rw [filed?, files.found, Option.bind_some, List.lookup_eq_none_iff] at missing
      simpa using missing _ ((files.registers name ref).2 answered)

end Store

/-! ## Edits keep the files -/

namespace Edit

variable {digest : Digesting} {module : Nat}

instance : Still (KeepsFiles digest module) :=
  Still.of_updates (fun amends => amends.retains.keepsFiles) keepsFiles_addModule
    (fun _ other name form entry _ =>
      (retains_modifyModule other
        (fun changed => { changed with registry := (entry.registry.intern name form).2 })
        fun _ => rfl).keepsFiles)
    (fun _ other change =>
      (retains_modifyModule other (fun entry => { entry with functions := change entry.functions })
        fun _ => rfl).keepsFiles)
    (fun store other type content _ _ => keepsFiles_allocate store other type content)
    (fun _ function change => (retains_modifyFunction function change).keepsFiles)

instance : Moving (KeepsFiles digest module) :=
  Moving.of_updates (fun amends => amends.retains.keepsFiles)
    (fun _ _ => Retains.keepsFiles ⟨fun _ => rfl, fun _ => rfl⟩)
    (fun _ block change => (retains_modifyBlock block change).keepsFiles)
    (fun _ ref _ => (retains_modifyInstruction ref _).keepsFiles)

end Edit

/-! ## Registers hold numbers -/

/-- A number or a vector of numbers. -/
def Ty.isPlain : Ty → Bool
  | .scalar .. | .vector _ _ _ (.scalar ..) => true
  | _ => false

theorem Ty.isPlain_of_scalar?
    {type : Ty}
    {description : Scalar}
    (described : type.scalar? = some description) : type.isPlain = true := by
  cases type <;> first | rfl | cases described

theorem Ty.isPlain_of_form
    {type : Ty}
    {size : Nat}
    {description : Scalar}
    (form : type.form = .vector size description)
    (composed : type.Composed) :
    type.isPlain = true := by
  cases type with
  | vector tag size' description' element =>
      cases element with
      | scalar => rfl
      | _ => cases composed
  | _ => cases form

/-- Registers hold numbers. -/
def Store.NumericRegisters (store : Store) : Prop :=
  ∀ ref register, store.content? ref = some (.register register) →
    (store.typeOf ref).any Ty.isPlain = true

namespace Store

/-- Types are made of elements of their kind, and registers hold numbers. -/
structure Numbers (store : Store) : Prop where
  composes : ∀ {module : Nat} {entry : Module}, store.modules[module]? = some entry →
    entry.registry.Composes
  registers : ∀ {ref module id type name},
    store.imprint? ref = some (module, id, type, some (.register name)) →
      type.any Ty.isPlain = true

/-- Where registers hold numbers, they still do. -/
def KeepsNumbers (store left : Store) : Prop :=
  store.Numbers → left.Numbers

variable {store left : Store}

instance : Lasting KeepsNumbers where
  refl := fun _ numbers => numbers
  trans := fun keeps keeps' numbers => keeps' (keeps numbers)

theorem Numbers.numericRegisters (numbers : store.Numbers) : store.NumericRegisters := by
  intro ref register content
  obtain ⟨value, found, content⟩ := Option.map_eq_some_iff.1 content
  rw [typeOf, found]
  have imprint : store.imprint? ref =
      some (value.module, value.id, value.type, some (.register register)) := by
    rw [imprint?, found, Option.map_some, Value.imprint, content]
    rfl
  exact numbers.registers imprint

/-- The values are what they were, and so are the types of each module, or there are none. -/
theorem keepsNumbers_of_imprints
    (imprints : ∀ ref, left.imprint? ref = store.imprint? ref)
    (registries : store.Numbers → ∀ {module : Nat} {entry : Module},
      left.modules[module]? = some entry → entry.registry.Composes) :
    store.KeepsNumbers left := by
  refine fun numbers => ⟨registries numbers, fun imprint => ?_⟩
  rw [imprints] at imprint
  exact numbers.registers imprint

/-- A change of one module that keeps its types composed. -/
theorem keepsNumbers_modifyModule
    {module : Nat}
    {change : Module → Module}
    (composes : ∀ {entry : Module}, store.modules[module]? = some entry → entry.registry.Composes →
      (change entry).registry.Composes) :
    store.KeepsNumbers (store.modifyModule module change) := by
  refine keepsNumbers_of_imprints (fun _ => rfl) fun numbers other entry found => ?_
  rw [modifyModule, Array.getElem?_modify] at found
  split at found
  · rename_i here
    subst here
    obtain ⟨former, held, rfl⟩ := Option.map_eq_some_iff.1 found
    exact composes held (numbers.composes held)
  · exact numbers.composes found

theorem keepsNumbers_addModule (store : Store) (name : String) :
    store.KeepsNumbers (store.addModule name).2 := by
  refine keepsNumbers_of_imprints (fun _ => rfl) fun numbers module entry found => ?_
  rw [addModule, Array.getElem?_push] at found
  split at found
  · cases found
    intro type member
    simp at member
  · exact numbers.composes found

/-- A new value that is no register, or one that holds a number. -/
theorem keepsNumbers_allocate
    {module : Nat}
    {type : Option Ty}
    {content : Content}
    (numeric : ∀ name, content = .register name → type.any Ty.isPlain = true) :
    store.KeepsNumbers (store.allocate module type content).2 := by
  refine fun numbers => ⟨fun {place entry} found => ?_, fun {ref _ _ type' name} imprint => ?_⟩
  · rw [modules_allocate, Array.getElem?_modify] at found
    split at found
    · obtain ⟨former, held, rfl⟩ := Option.map_eq_some_iff.1 found
      exact fun type => numbers.composes held type
    · exact numbers.composes found
  · obtain ⟨value, found, printed⟩ := Option.map_eq_some_iff.1 imprint
    clear imprint
    rw [value?_allocate] at found
    split at found
    · cases found
      simp only [Value.imprint, Prod.mk.injEq] at printed
      obtain ⟨-, -, rfl, isRegister⟩ := printed
      cases content <;> cases isRegister
      exact numeric _ rfl
    · exact numbers.registers (Option.map_eq_some_iff.2 ⟨value, found, printed⟩)

end Store

namespace Edit

instance : Still KeepsNumbers :=
  Still.of_updates
    (fun amends => keepsNumbers_of_imprints amends.retains.imprints fun numbers _ _ found =>
      numbers.composes (amends.modules ▸ found))
    keepsNumbers_addModule
    (fun _ _ name form _ found => keepsNumbers_modifyModule fun held composes => by
      cases found.symm.trans held
      exact composes.intern name form)
    (fun _ _ _ => keepsNumbers_modifyModule fun _ composes => composes)
    (fun _ _ _ _ _ fresh => keepsNumbers_allocate fun name same => by
      subst same
      exact absurd trivial fresh)
    (fun _ function change =>
      keepsNumbers_of_imprints (retains_modifyFunction function change).imprints
        fun numbers _ _ => numbers.composes)

instance : Moving KeepsNumbers :=
  Moving.of_updates
    (fun amends => keepsNumbers_of_imprints amends.retains.imprints fun numbers _ _ found =>
      numbers.composes (amends.modules ▸ found))
    (fun _ _ => keepsNumbers_of_imprints (fun _ => rfl) fun numbers _ _ => numbers.composes)
    (fun _ block change => keepsNumbers_of_imprints (retains_modifyBlock block change).imprints
      fun numbers _ _ => numbers.composes)
    (fun _ ref _ => keepsNumbers_of_imprints (retains_modifyInstruction ref _).imprints
      fun numbers _ _ => numbers.composes)

/-- A module that is asked for a type asks its registry, and keeps what that has become. -/
theorem gives_typeBy_iff
    {module : Nat}
    {request : Registry → Ty × Registry}
    {store left : Store}
    {type : Ty} :
    Gives (typeBy module request) store type left ↔
      ∃ entry, store.modules[module]? = some entry ∧ type = (request entry.registry).1 ∧
        left = store.modifyModule module fun other =>
          { other with registry := (request entry.registry).2 } := by
  simp only [typeBy, gives_see_bind_iff, gives_demand_bind_iff]
  refine exists_congr fun entry => and_congr_right fun _ => ?_
  constructor
  · rintro ⟨⟩
    exact ⟨rfl, rfl⟩
  · rintro ⟨rfl, rfl⟩
    rfl

/-- A register that holds a number is put on file. -/
theorem fileRegister_keepsNumbers
    {module : Nat}
    {name : Register}
    {type : Ty}
    {store : Store}
    (plain : store.Numbers → type.isPlain = true) :
    store.KeepsNumbers (outcome (do
      let ref ← allocate module (some type) (.register name)
      modify fun store => store.modifyModule module fun entry =>
        { entry with registers := (name, ref) :: entry.registers }
      return ref) store).2 := by
  intro numbers
  have added : store.KeepsNumbers (store.allocate module (some type) (.register name)).2 :=
    keepsNumbers_allocate fun _ _ => plain numbers
  exact keepsNumbers_modifyModule (fun _ composes => composes) (added numbers)

instance : Interning KeepsNumbers where
  pool := by
    intro store module type content note pooled kept
    refine Lasting.trans (keepsNumbers_allocate ?_)
      (keepsNumbers_modifyModule fun {entry} _ composes => ?_)
    · rintro name rfl
      cases pooled
    · rw [(kept entry).2]
      exact composes
  register := by
    intro module name
    refine Respects.bind (Respects.see _) fun _ => Respects.bind (Respects.demand _) fun entry => ?_
    cases entry.registers.lookup name with
    | some ref => exact Respects.pure ref
    | none =>
        intro store
        refine Respects.bindAt (typeBy_still module _ _ store) fun scalar between given => ?_
        obtain ⟨held, found, answered, -⟩ := gives_typeBy_iff.1 given
        have described : scalar.scalar? = some (.unsigned 4) := by
          rw [answered]
          exact held.registry.scalar?_internScalar "u32" (.unsigned 4)
        by_cases vector : name.isVector
        · simp only [vector, if_true]
          refine Respects.bindAt (vectorType_still module (some scalar) 3 between)
            fun type last given => fileRegister_keepsNumbers fun numbers => ?_
          rw [vectorType, Option.bind_some, described] at given
          obtain ⟨held, found, rfl, rfl⟩ := gives_typeBy_iff.1 given
          obtain ⟨listed, form⟩ := held.registry.listed_internVector "" 3 (.unsigned 4)
          have kept : (between.modifyModule module fun other => { other with
              registry := (held.registry.internVector "" 3 (.unsigned 4)).2 }).modules[module]? =
              some { held with
                registry := (held.registry.internVector "" 3 (.unsigned 4)).2 } := by
            rw [modifyModule, Array.getElem?_modify, if_pos rfl, found, Option.map_some]
          exact Ty.isPlain_of_form form (numbers.composes kept _ listed)
        · simp only [vector]
          exact fileRegister_keepsNumbers fun _ => Ty.isPlain_of_scalar? described

end Edit

theorem Change.perform_keepsNumbers (change : Change) : Respects KeepsNumbers change.perform :=
  Change.perform_respects (fun _ => inferInstance) fun _ => inferInstance

theorem Operation.perform_keepsNumbers (operation : Operation) :
    Build.Respects KeepsNumbers operation.perform :=
  Operation.perform_respects (fun change _ => change.perform_keepsNumbers) fun _ _ _ _ =>
    Resolver.choosing_respects fun _ change _ => change.perform_keepsNumbers

/-- After any operations, refused ones among them, registers hold numbers. -/
theorem Session.after_numericRegisters (operations : List Operation) :
    (after operations).store.NumericRegisters := by
  refine Numbers.numericRegisters ?_
  refine Session.foldl_respects Operation.perform_keepsNumbers operations {} ⟨?_, ?_⟩
  · intro module entry found
    simp at found
  · intro ref module id type name imprint
    simp [imprint?, value?] at imprint

end ShaderIR

import Mathlib.Algebra.Order.Ring.Int
import Mathlib.Data.List.Dedup
import ShaderIR.Proofs.Interning.Answering

/-!
# Interning is exact

Whatever digest function the search for constants uses, and whatever else happens in between,
a module answers two requests with one value just when they are the same request.  It has one
constant for each type and bytes that were requested, these never change, and its values are
numbered in the order of its pool.
-/

namespace ShaderIR

open Store Edit

variable {digest : Digesting} {module : Nat} {store : Store}

/-! ## Sessions that record answers -/

/-- Copying is resolving, and then building the copy. -/
theorem Build.run_quietly_clone (source : Ref) (resolve : Resolver) (cursor : Cursor) :
    StateT.run (Build.quietly (Build.clone source resolve)) cursor = (do
      let entry ← Edit.instruction source
      let opcode ← resolve.opcode source entry.opcode
      let current ← Edit.instruction source
      let operands ← resolve.operands current.values
      StateT.run (Build.quietly (Build.copied source opcode operands)) cursor) := by
  have lifted : ∀ {α β : Type} (edit : Edit β) (next : β → Build α),
      StateT.run (liftM edit >>= next) cursor =
        edit >>= fun answer => StateT.run (next answer) cursor := by
    intro α β edit next
    simp
  simp only [Build.quietly, Build.clone, Build.copied, bind_assoc, lifted]

/-- Other operations do not depend on the digest function, and they receive no answers. -/
theorem Operation.performBy_of_ne
    {operation : Operation}
    (noEdit : ∀ change, operation ≠ .edit change)
    (noClone : ∀ source choose, operation ≠ .clone source choose) :
    operation.performBy digest = operation.perform ∧ operation.answers digest store = [] := by
  cases operation with
  | edit change => exact absurd rfl (noEdit change)
  | clone source choose => exact absurd rfl (noClone source choose)
  | _ => exact ⟨rfl, rfl⟩

theorem Operation.clone_filesAt
    (source : Ref)
    (choose : Ref → Store → List Change × Option Ref)
    (cursor : Cursor) :
    FilesAt digest module (StateT.run (performBy digest (.clone source choose)) cursor) store
      (answers digest (.clone source choose) store) := by
  rw [performBy, Build.run_quietly_clone, answers, Resolver.cloneAnswers]
  refine FilesAt.instruction_bind fun entry => ?_
  refine (Resolver.opcode_filesAt source entry.opcode).bind fun opcode left => ?_
  refine FilesAt.instruction_bind fun current => ?_
  refine (Resolver.operands_filesAt current.values left).bind_keeps fun operands => ?_
  exact Build.Respects.quietly (Build.copied_creates source opcode operands).respects cursor

theorem Operation.performBy_filesAt (operation : Operation) (cursor : Cursor) :
    FilesAt digest module (StateT.run (operation.performBy digest) cursor) store
      (operation.answers digest store) := by
  by_cases isEdit : ∃ change, operation = .edit change
  · obtain ⟨change, rfl⟩ := isEdit
    exact change.performBy_filesAt.bind_keeps fun _ => Edit.Respects.pure _
  by_cases isClone : ∃ source choose, operation = .clone source choose
  · obtain ⟨source, choose, rfl⟩ := isClone
    exact clone_filesAt source choose cursor
  push Not at isEdit isClone
  obtain ⟨performs, answers⟩ := performBy_of_ne isEdit isClone
  rw [performs, answers]
  exact FilesAt.of_keeps (perform_respects (fun change same => absurd same (isEdit change))
    (fun source choose same => absurd same (isClone source choose)) cursor)

namespace Session

theorem store_stepBy (session : Session) (operation : Operation) :
    (session.stepBy digest operation).store =
      (Edit.outcome (StateT.run (operation.performBy digest) session.cursor) session.store).2 := by
  have same : Edit.outcome (StateT.run (operation.performBy digest) session.cursor) session.store =
      Build.outcome (operation.performBy digest) session.cursor session.store := rfl
  rw [same, stepBy]
  rcases Build.outcome (operation.performBy digest) session.cursor session.store with
    ⟨fault | ⟨answer, cursor⟩, store⟩ <;> rfl

/-- In the end the answers of the session are on file besides those that were there before. -/
theorem filed_runBy
    {session : Session}
    {log : List Answered}
    (operations : List Operation)
    (filed : session.store.Filed digest module log) :
    (session.runBy digest operations).store.Filed digest module
      (log ++ session.answersBy digest operations) := by
  induction operations generalizing session log with
  | nil =>
      rw [answersBy, List.append_nil]
      exact filed
  | cons operation rest induction =>
      have stepped := operation.performBy_filesAt session.cursor log filed
      rw [← store_stepBy] at stepped
      rw [answersBy, ← List.append_assoc]
      exact induction stepped

theorem runBy_append (session : Session) (operations later : List Operation) :
    session.runBy digest (operations ++ later) =
      (session.runBy digest operations).runBy digest later := by
  rw [runBy, runBy, runBy, List.foldl_append]

/-- A module that was just added has nothing on file. -/
theorem filed_addModule
    {session : Session}
    (name : String)
    (fresh : ∀ ref, session.store.moduleOf? ref ≠ some session.store.modules.size) :
    (session.stepBy digest (.edit (.addModule name))).store.Filed digest
      session.store.modules.size [] := by
  rw [store_stepBy]
  refine ⟨{ name, registry := { owner := session.store.modules.size } }, ?_⟩
  constructor
  case found => exact Array.getElem?_push_size
  case numbered =>
    intro ref id
    constructor
    · intro found
      cases found
    · rintro ⟨type, content, imprint⟩
      obtain ⟨value, found, imprint⟩ := Option.map_eq_some_iff.1 imprint
      refine absurd ?_ (fresh ref)
      have found : session.store.value? ref = some value := found
      rw [moduleOf?, found, Option.map_some, show value.module = _ from congrArg Prod.fst imprint]
  case constants => simp
  case undefineds => simp
  case registers => simp
  case distinct => exact List.nodup_nil
  case holds => simp
  case single => simp

end Session

/-! ## What is on file is exact -/

/-- The types and bytes of the constants that a module was asked for and has answered. -/
def constantRequests (module : Nat) (log : List Answered) : List (Ty × List UInt8) :=
  log.filterMap fun answered =>
    match answered.request with
    | .constant type data => if answered.module = module then some (type, data) else none
    | _ => none

theorem mem_constantRequests_iff {log : List Answered} {type : Ty} {data : List UInt8} :
    (type, data) ∈ constantRequests module log ↔
      ∃ ref, (⟨module, .constant type data, ref⟩ : Answered) ∈ log := by
  rw [constantRequests, List.mem_filterMap]
  constructor
  · rintro ⟨⟨other, request, ref⟩, answered, found⟩
    cases request with
    | constant type' data' =>
        obtain ⟨rfl, same⟩ := Option.ite_none_right_eq_some.1 found
        cases Option.some.inj same
        exact ⟨ref, answered⟩
    | undefined type => cases found
    | register name => cases found
  · rintro ⟨ref, answered⟩
    exact ⟨_, answered, if_pos rfl⟩

/-- There are as many constants as there are types with bytes that were requested. -/
theorem Module.Files.length_constants
    {entry : Module}
    {log : List Answered}
    (files : entry.Files digest module log store) :
    entry.constants.length = (constantRequests module log).dedup.length := by
  have read : ∀ {ref type data}, (⟨module, .constant type data, ref⟩ : Answered) ∈ log →
      store.typeOf ref = some type ∧ store.payload? ref = some data := by
    intro ref type data answered
    have holds := files.holds _ ref answered
    refine ⟨holds.typed, ?_⟩
    rw [payload?, holds.content]
    rfl
  have distinct :
      (entry.constants.map fun ref => (store.typeOf ref, store.payload? ref)).Nodup := by
    refine files.distinct.map_on fun ref member other member' same => ?_
    obtain ⟨type, data, answered⟩ := (files.constants ref).1 member
    obtain ⟨type', data', answered'⟩ := (files.constants other).1 member'
    rw [(read answered).1, (read answered).2, (read answered').1, (read answered').2] at same
    simp only [Prod.mk.injEq, Option.some.injEq] at same
    obtain ⟨rfl, rfl⟩ := same
    exact files.single _ ref other answered answered'
  have distinct' : ((constantRequests module log).dedup.map fun pair =>
      (some pair.1, some pair.2)).Nodup := by
    refine (List.nodup_dedup _).map fun pair pair' same => ?_
    simp only [Prod.mk.injEq, Option.some.injEq] at same
    exact Prod.ext same.1 same.2
  have permutes := (List.perm_ext_iff_of_nodup distinct distinct').2 fun parts => by
    simp only [List.mem_map, List.mem_dedup]
    constructor
    · rintro ⟨ref, member, rfl⟩
      obtain ⟨type, data, answered⟩ := (files.constants ref).1 member
      refine ⟨(type, data), mem_constantRequests_iff.2 ⟨ref, answered⟩, ?_⟩
      rw [(read answered).1, (read answered).2]
    · rintro ⟨⟨type, data⟩, requested, rfl⟩
      obtain ⟨ref, answered⟩ := mem_constantRequests_iff.1 requested
      refine ⟨ref, (files.constants ref).2 ⟨type, data, answered⟩, ?_⟩
      rw [(read answered).1, (read answered).2]
  simpa using permutes.length_eq

namespace Store

/-- The number of interned constants of a module. -/
def constantCount (store : Store) (module : Nat) : Nat :=
  ((store.modules[module]?.map (·.constants)).getD []).length

/-- The values of a module, in the order in which they were made. -/
def pool (store : Store) (module : Nat) : Array Ref :=
  (store.modules[module]?.map (·.pool)).getD #[]

/-- A module interns exactly: its answers tell requests apart, and its values are numbered. -/
structure InternsExactly (store : Store) (digest : Digesting) (module : Nat)
    (log : List Answered) : Prop where
  /-- Two requests have one answer just when they are the same. -/
  same : ∀ first ∈ log, ∀ second ∈ log, first.module = module → second.module = module →
    (first.ref = second.ref ↔ first.request = second.request)
  /-- There is one constant for each type with bytes that was requested. -/
  counted : store.constantCount module = (constantRequests module log).dedup.length
  /-- An answer has the type and the bytes that were requested, or is the register. -/
  holds : ∀ answered ∈ log, answered.module = module →
    store.Holds digest module answered.ref answered.request
  /-- Only bytes that do not fit their type are refused. -/
  answers : ∀ request : Request, request.Fits →
    ∃ ref left, Gives (intern digest module request) store ref left
  /-- The number of a value is its position in the pool. -/
  numbered : ∀ ref id, (store.pool module)[id]? = some ref ↔
    ∃ value, store.value? ref = some value ∧ value.module = module ∧ value.id = id
  /-- No number is used twice. -/
  unique : ∀ {ref other value value'}, store.value? ref = some value →
    store.value? other = some value' → value.module = module → value'.module = module →
    value.id = value'.id → ref = other
  /-- As long as the pool is small enough, all numbers have 32 bits. -/
  narrow : (store.pool module).size ≤ 2 ^ 32 → ∀ {ref value}, store.value? ref = some value →
    value.module = module → value.id < 2 ^ 32

theorem Filed.internsExactly {log : List Answered} (filed : store.Filed digest module log) :
    store.InternsExactly digest module log := by
  obtain ⟨entry, files⟩ := filed
  have pool : store.pool module = entry.pool := by
    rw [Store.pool, files.found]
    rfl
  have numbered : ∀ ref id, (store.pool module)[id]? = some ref ↔
      ∃ value, store.value? ref = some value ∧ value.module = module ∧ value.id = id := by
    intro ref id
    rw [pool, files.numbered, imprint?]
    simp only [Option.map_eq_some_iff, Value.imprint, Prod.mk.injEq]
    constructor
    · rintro ⟨_, _, value, found, inModule, hasId, -⟩
      exact ⟨value, found, inModule, hasId⟩
    · rintro ⟨value, found, inModule, hasId⟩
      exact ⟨_, _, value, found, inModule, hasId, rfl, rfl⟩
  constructor
  case same =>
    have parts : ∀ {request request' ref ref'}, ⟨module, request, ref⟩ ∈ log →
        ⟨module, request', ref'⟩ ∈ log → (ref = ref' ↔ request = request') := by
      intro request request' ref ref' answered answered'
      constructor
      · rintro rfl
        exact (files.holds request ref answered).unique (files.holds request' ref answered')
      · rintro rfl
        exact files.single request ref ref' answered answered'
    rintro ⟨_, request, ref⟩ answered ⟨_, request', ref'⟩ answered' rfl inThere
    cases inThere
    exact parts answered answered'
  case counted =>
    rw [constantCount, files.found, Option.map_some, Option.getD_some, files.length_constants]
  case holds =>
    rintro ⟨_, request, ref⟩ answered rfl
    exact files.holds request ref answered
  case answers => exact fun request fits => gives_intern files.found fits
  case numbered => exact numbered
  case unique =>
    intro ref other value value' found found' inModule inModule' same
    have position := (numbered ref value.id).2 ⟨value, found, inModule, rfl⟩
    have position' := (numbered other value.id).2 ⟨value', found', inModule', same.symm⟩
    exact Option.some.inj (position.symm.trans position')
  case narrow =>
    intro small ref value found inModule
    have position := (numbered ref value.id).2 ⟨value, found, inModule, rfl⟩
    exact Nat.lt_of_lt_of_le (Array.getElem?_eq_some_iff.1 position).1 small

end Store

namespace Session

/--
Whatever the digest function: a module that is added to a session, where no value names it
before it is there, interns exactly through any operations, refused ones among them, and what
it has answered does not change later.
-/
theorem interning_exact
    (digest : Digesting)
    (session : Session)
    (name : String)
    (fresh : ∀ ref, session.store.moduleOf? ref ≠ some session.store.modules.size)
    (operations later : List Operation) :
    let module := session.store.modules.size
    let start := session.stepBy digest (.edit (.addModule name))
    let log := start.answersBy digest operations
    (start.runBy digest operations).store.InternsExactly digest module log ∧
      ∀ answered ∈ log, answered.module = module →
        (start.runBy digest (operations ++ later)).store.Holds digest module answered.ref
          answered.request := by
  intro module start log
  have filed : (start.runBy digest operations).store.Filed digest module log :=
    filed_runBy operations (filed_addModule name fresh)
  refine ⟨filed.internsExactly, fun answered member inModule => ?_⟩
  rw [runBy_append]
  exact (filed_runBy later filed).internsExactly.holds answered
    (List.mem_append_left _ member) inModule

/-- Requests of several kinds, with a function among them, and one that is refused. -/
def requesting : List Operation :=
  [.edit (.constantInt32 0 7),
    .edit (.createFunction 0 .kernel none),
    .edit (.constantUInt32 0 7),
    .edit (.constant 0 none []),
    .edit (.constantInt32 0 7),
    .edit (.constantInt32 0 8),
    .edit (.undefined 0 none),
    .edit (.register 0 .warpSize),
    .edit (.undefined 0 none),
    .edit (.register 0 .threadId),
    .edit (.register 0 .warpSize)]

/-- With a digest function that is the same for all constants. -/
theorem interning_exact_colliding :
    let digest : Digesting := fun _ _ => 0
    let start := ({} : Session).stepBy digest (.edit (.addModule "colliding"))
    let log := start.answersBy digest requesting
    log.map (·.ref) = [⟨0⟩, ⟨2⟩, ⟨0⟩, ⟨3⟩, ⟨4⟩, ⟨5⟩, ⟨4⟩, ⟨6⟩, ⟨5⟩] ∧
      (start.runBy digest requesting).store.InternsExactly digest 0 log := by
  intro digest start log
  have fresh : ∀ ref, ({} : Session).store.moduleOf? ref ≠ some 0 := by
    intro ref
    simp [moduleOf?, value?]
  exact ⟨by decide +kernel, (interning_exact digest {} "colliding" fresh requesting []).1⟩

end Session

end ShaderIR

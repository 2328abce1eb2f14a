import ShaderIR.Proofs.Interning.Filing
import ShaderIR.Proofs.Types.Keys

/-!
# Answering requests

A request is refused, or it is answered with the value that is on file for it, or a new value
is made and put on file.  Whatever the digest function, a module that has just its answers on
file therefore has so after one more request, and after every operation of a session: the
answers on file are those that the session has received.
-/

namespace ShaderIR

open Store Edit

/-! ## How a request can end -/

/-- The outcomes of a request. -/
inductive Request.Ends (digest : Digesting) (module : Nat) (request : Request) (store : Store) :
    Except Fault Ref × Store → Prop
  /-- A request may be refused. -/
  | refused {left : Store} (fault : Fault) (retains : store.Retains left) :
    Ends digest module request store (.error fault, left)
  /-- A value on file is the answer. -/
  | found {ref : Ref} (filed : store.filed? digest module request = some ref) :
    Ends digest module request store (.ok ref, store)
  /-- A new value is made and put on file. -/
  | made {between : Store} {type : Option Ty}
    (missing : store.filed? digest module request = none) (retains : store.Retains between)
    (typed : request.Typed type) :
    Ends digest module request store
      (.ok (between.allocate module type (request.content digest)).1,
        (between.allocate module type (request.content digest)).2.modifyModule module
          (request.file (between.allocate module type (request.content digest)).1))

namespace Edit

variable {digest : Digesting} {module : Nat} {store : Store}

theorem typeBy_retains (module : Nat) (request : Registry → Ty × Registry) :
    Respects Retains (typeBy module request) :=
  Respects.bind (Respects.see _) fun _ =>
    Respects.bind (Respects.demand _) fun _ =>
      Respects.bind (fun _ => retains_modifyModule module _ fun _ => rfl) fun _ => Respects.pure _

theorem vectorType_retains (module : Nat) (element : Option Ty) (size : Nat) :
    Respects Retains (vectorType module element size) := by
  unfold vectorType
  cases element.bind Ty.scalar? with
  | none => exact Respects.violate _
  | some scalar => exact typeBy_retains module (·.intern "" (.vector size scalar))

theorem ends_require
    {request : Request}
    {condition : Bool}
    {violation : Violation}
    {next : Unit → Edit Ref}
    (ends : request.Ends digest module store (outcome (next ()) store)) :
    request.Ends digest module store (outcome (require condition violation >>= next) store) := by
  cases condition with
  | false => exact .refused _ (Lasting.refl store)
  | true => exact ends

/-- A new value is made for a request for which nothing is on file, after edits of other things. -/
theorem ends_make
    (request : Request)
    {between : Store}
    {type : Option Ty}
    (missing : store.filed? digest module request = none)
    (retains : store.Retains between)
    (typed : request.Typed type) :
    request.Ends digest module store (outcome (do
      let ref ← allocate module type (request.content digest)
      modify fun store => store.modifyModule module (request.file ref)
      return ref) between) :=
  .made missing retains typed

/-- What comes after an edit without effect on what is on file, if that is not refused. -/
theorem ends_bind
    {α : Type}
    {request : Request}
    {edit : Edit α}
    {next : α → Edit Ref}
    {between : Store}
    (retains : store.Retains between)
    (edits : Respects Retains edit)
    (ends : ∀ answer left, store.Retains left →
      request.Ends digest module store (outcome (next answer) left)) :
    request.Ends digest module store (outcome (edit >>= next) between) := by
  have retained : store.Retains (outcome edit between).2 := Lasting.trans retains (edits between)
  rw [outcome_bind]
  rcases run : outcome edit between with ⟨fault | answer, left⟩
  · rw [run] at retained
    exact .refused fault retained
  · rw [run] at retained
    exact ends answer left retained

theorem ends_constantWith (type : Ty) (data : List UInt8) :
    (Request.constant type data).Ends digest module store
      (outcome (constantWith digest module (some type) data) store) := by
  refine ends_require ?_
  rw [outcome_bind, outcome_see]
  dsimp only
  cases found : store.constantWith? digest module type data with
  | some ref => exact .found found
  | none => exact ends_make (.constant type data) found (Lasting.refl store) rfl

theorem ends_undefined (type : Option Ty) :
    (Request.undefined type).Ends digest module store
      (outcome (undefined module type) store) := by
  rw [undefined, outcome_bind, outcome_see]
  dsimp only
  rw [outcome_bind, outcome_demand]
  cases entered : store.modules[module]? with
  | none => exact .refused _ (Lasting.refl store)
  | some entry =>
      have filed : store.filed? digest module (.undefined type) =
          entry.undefineds.lookup type := by
        rw [filed?, entered, Option.bind_some]
      dsimp only
      cases found : entry.undefineds.lookup type with
      | some ref => exact .found (filed.trans found)
      | none => exact ends_make (.undefined type) (filed.trans found) (Lasting.refl store) rfl

theorem ends_register (name : Register) :
    (Request.register name).Ends digest module store
      (outcome (register module name) store) := by
  rw [register, outcome_bind, outcome_see]
  dsimp only
  rw [outcome_bind, outcome_demand]
  cases entered : store.modules[module]? with
  | none => exact .refused _ (Lasting.refl store)
  | some entry =>
      have filed : store.filed? digest module (.register name) = entry.registers.lookup name := by
        rw [filed?, entered, Option.bind_some]
      dsimp only
      cases found : entry.registers.lookup name with
      | some ref => exact .found (filed.trans found)
      | none =>
          have make : ∀ (type : Ty) between, store.Retains between →
              (Request.register name).Ends digest module store (outcome (do
                let ref ← allocate module (some type) (.register name)
                modify fun store => store.modifyModule module fun entry =>
                  { entry with registers := (name, ref) :: entry.registers }
                return ref) between) := fun type between retains =>
            ends_make (.register name) (filed.trans found) retains trivial
          refine ends_bind (Lasting.refl store) (typeBy_retains module _) ?_
          intro scalar between retains
          by_cases vector : name.isVector
          · simp only [vector, if_true]
            exact ends_bind retains (vectorType_retains module _ 3) make
          · simp only [vector]
            exact make scalar between retains

/-- A request is refused, answered with the value on file, or a new value is put on file. -/
theorem ends_intern (digest : Digesting) (module : Nat) (request : Request) (store : Store) :
    request.Ends digest module store (outcome (intern digest module request) store) := by
  cases request with
  | constant type data => exact ends_constantWith type data
  | undefined type => exact ends_undefined type
  | register name => exact ends_register name

end Edit

/-! ## Requests that are answered -/

/-- The bytes of a requested constant fit its type; all other requests fit. -/
def Request.Fits : Request → Prop
  | .constant type data => type.size = data.length
  | _ => True

namespace Edit

variable {digest : Digesting} {module : Nat} {store : Store} {entry : Module}

theorem gives_of_bind
    {α : Type}
    {edit : Edit α}
    {next : α → Edit Ref}
    {answer : α}
    {between : Store}
    (first : Gives edit store answer between)
    (rest : ∃ ref left, Gives (next answer) between ref left) :
    ∃ ref left, Gives (edit >>= next) store ref left := by
  obtain ⟨ref, left, rest⟩ := rest
  exact ⟨ref, left, gives_bind_iff.2 ⟨answer, between, first, rest⟩⟩

theorem gives_typeBy
    (found : store.modules[module]? = some entry)
    (request : Registry → Ty × Registry) :
    ∃ left entry', Gives (typeBy module request) store (request entry.registry).1 left ∧
      left.modules[module]? = some entry' := by
  refine ⟨store.modifyModule module fun held =>
      { held with registry := (request entry.registry).2 },
    { entry with registry := (request entry.registry).2 },
    gives_see_bind_iff.2 (gives_demand_bind_iff.2 ⟨entry, found, rfl⟩), ?_⟩
  rw [Store.modifyModule, Array.getElem?_modify, if_pos rfl, found]
  rfl

theorem gives_vectorType
    (found : store.modules[module]? = some entry)
    {element : Option Ty}
    {scalar : Scalar}
    (described : element.bind Ty.scalar? = some scalar)
    (size : Nat) :
    ∃ type left, Gives (vectorType module element size) store type left := by
  obtain ⟨left, _, gives, -⟩ := gives_typeBy found (·.intern "" (.vector size scalar))
  rw [vectorType, described]
  exact ⟨_, left, gives⟩

/-- Making a new value is never refused. -/
theorem gives_make (type : Option Ty) (content : Content) (change : Ref → Module → Module) :
    ∃ ref left, Gives (do
      let ref ← allocate module type content
      modify fun store => store.modifyModule module (change ref)
      return ref) store ref left :=
  ⟨_, _, rfl⟩

theorem gives_register (found : store.modules[module]? = some entry) (name : Register) :
    ∃ ref left, Gives (register module name) store ref left := by
  simp only [register, gives_see_bind_iff, found, gives_demand_bind_iff, Option.some.injEq,
    exists_eq_left']
  cases entry.registers.lookup name with
  | some ref => exact ⟨ref, store, rfl⟩
  | none =>
      obtain ⟨between, entry', typed, found'⟩ := gives_typeBy found Registry.uint32
      have described : (some (entry.registry.uint32).1).bind Ty.scalar? =
          some (Scalar.unsigned 4) := entry.registry.scalar?_internScalar _ _
      refine gives_of_bind typed ?_
      split
      · obtain ⟨type, _, vector⟩ := gives_vectorType found' described 3
        exact gives_of_bind vector (gives_make _ _ _)
      · rw [pure_bind]
        exact gives_make _ _ _

/-- A module refuses a request only when the bytes of a constant do not fit its type. -/
theorem gives_intern
    (found : store.modules[module]? = some entry)
    {request : Request}
    (fits : request.Fits) :
    ∃ ref left, Gives (intern digest module request) store ref left := by
  cases request with
  | constant type data =>
      have required : Gives (require (type.size == data.length)
          (.constantBytes type data.length)) store () store :=
        gives_require_iff.2 ⟨beq_iff_eq.2 fits, rfl⟩
      refine gives_of_bind required ?_
      simp only [gives_see_bind_iff]
      cases store.constantWith? digest module type data with
      | some ref => exact ⟨ref, store, rfl⟩
      | none => exact gives_make _ _ _
  | undefined type =>
      simp only [intern, undefined, gives_see_bind_iff, found, gives_demand_bind_iff,
        Option.some.injEq, exists_eq_left']
      cases entry.undefineds.lookup type with
      | some ref => exact ⟨ref, store, rfl⟩
      | none => exact gives_make _ _ _
  | register name => exact gives_register found name

end Edit

/-! ## One request more -/

namespace Store

variable {store left : Store} {digest : Digesting} {module other : Nat} {log : List Answered}
  {request : Request}

/-- What is recorded of the outcome of a request. -/
def recorded (module : Nat) (request : Request) : Except Fault Ref → List Answered
  | .ok ref => [{ module, request, ref }]
  | .error _ => []

theorem holds_allocate {type : Option Ty} (typed : request.Typed type) :
    (store.allocate module type (request.content digest)).2.Holds digest module
      (store.allocate module type (request.content digest)).1 request := by
  constructor
  · rw [moduleOf?, value?_allocate, if_pos rfl]
    rfl
  · rw [content?, value?_allocate, if_pos rfl]
    rfl
  · rw [typeOf, value?_allocate, if_pos rfl]
    exact typed

/-- After a request, a module has one more answer on file if it was asked and has answered. -/
theorem Filed.ends
    {result : Except Fault Ref × Store}
    (filed : store.Filed digest module log)
    (ends : request.Ends digest other store result) :
    result.2.Filed digest module (log ++ recorded other request result.1) := by
  have foreign : ∀ ref, other ≠ module → ∀ request' ref',
      (⟨module, request', ref'⟩ : Answered) ∈ log ++ [⟨other, request, ref⟩] ↔
        (⟨module, request', ref'⟩ : Answered) ∈ log := by
    intro ref different request' ref'
    simp [Ne.symm different]
  cases ends with
  | refused fault retains =>
      rw [recorded, List.append_nil]
      exact retains.keepsFiles log filed
  | @found ref onFile =>
      by_cases same : other = module
      · subst same
        have answered := filed.answered onFile
        refine filed.congr fun request' ref' => ?_
        rw [recorded, List.mem_append, List.mem_singleton]
        refine or_iff_left_of_imp fun equal => ?_
        rw [equal]
        exact answered
      · exact filed.congr (foreign ref same)
  | @made between type missing retains typed =>
      have allocated : (between.allocate other type (request.content digest)).2.Filed digest
          module log :=
        keepsFiles_allocate between other type _ log (retains.keepsFiles log filed)
      by_cases same : other = module
      · subst same
        exact allocated.file (filed.unanswered missing) (holds_allocate typed)
      · exact (keepsFiles_modifyModule_other _ same _ log allocated).congr (foreign _ same)

end Store

/-! ## Edits that record answers -/

namespace Edit

variable {α β : Type} {digest : Digesting} {module : Nat} {store : Store}
  {records : List Answered}

/-- An edit adds to the files of a module what is recorded of it. -/
def FilesAt
    (digest : Digesting)
    (module : Nat)
    (edit : Edit α)
    (store : Store)
    (records : List Answered) : Prop :=
  ∀ log, store.Filed digest module log →
    (outcome edit store).2.Filed digest module (log ++ records)

namespace FilesAt

theorem of_keeps {edit : Edit α} (keeps : Respects (KeepsFiles digest module) edit) :
    FilesAt digest module edit store [] := by
  intro log filed
  rw [List.append_nil]
  exact keeps store log filed

theorem bind
    {edit : Edit α}
    {next : α → Edit β}
    {others : Store → List Answered}
    (first : FilesAt digest module edit store records)
    (rest : ∀ answer left, FilesAt digest module (next answer) left (others left)) :
    FilesAt digest module (edit >>= next) store
      (records ++ following (outcome edit store) others) := by
  intro log filed
  have between := first log filed
  rw [outcome_bind]
  rcases run : outcome edit store with ⟨fault | answer, left⟩
  · rw [run] at between
    rw [following, List.append_nil]
    exact between
  · rw [run] at between
    rw [following, ← List.append_assoc]
    exact rest answer left _ between

/-- What comes after an edit and records nothing. -/
theorem bind_keeps
    {edit : Edit α}
    {next : α → Edit β}
    (first : FilesAt digest module edit store records)
    (rest : ∀ answer, Respects (KeepsFiles digest module) (next answer)) :
    FilesAt digest module (edit >>= next) store records := by
  intro log filed
  have between := first log filed
  rw [outcome_bind]
  rcases run : outcome edit store with ⟨fault | answer, left⟩
  · rw [run] at between
    exact between
  · rw [run] at between
    exact rest answer left _ between

/-- What comes before an edit and changes nothing. -/
theorem see_bind
    {observe : Store → α}
    {next : α → Edit β}
    (rest : FilesAt digest module (next (observe store)) store records) :
    FilesAt digest module (see observe >>= next) store records := by
  intro log filed
  rw [outcome_bind, outcome_see]
  exact rest log filed

/-- What comes after reading an instruction. -/
theorem instruction_bind
    {ref : Ref}
    {next : Instruction → Edit α}
    {others : Instruction → Store → List Answered}
    (rest : ∀ entry, FilesAt digest module (next entry) store (others entry store)) :
    FilesAt digest module (instruction ref >>= next) store
      (Resolver.withInstruction ref others store) := by
  intro log filed
  rw [outcome_bind, instruction, outcome_bind, outcome_see, Resolver.withInstruction]
  dsimp only
  rw [outcome_demand]
  cases store.instruction? ref with
  | none => simpa using filed
  | some entry => exact rest entry log filed

end FilesAt

/-- The answer that is recorded is the one that is given. -/
theorem answer_filesAt {other : Nat} {ask : Edit Request} (asks : Respects Retains ask) :
    FilesAt digest module (answer digest other ask) store
      (match (outcome (answer digest other ask) store).1 with
        | .ok answered => [answered]
        | .error _ => []) := by
  intro log filed
  have retained := asks store
  rw [answer, outcome_bind]
  rcases run : outcome ask store with ⟨fault | request, between⟩
  · rw [run] at retained
    simpa using retained.keepsFiles log filed
  · rw [run] at retained
    have answered := (retained.keepsFiles log filed).ends (ends_intern digest other request between)
    dsimp only
    rw [outcome_bind]
    rcases run' : outcome (intern digest other request) between with ⟨fault | ref, left⟩
    · rw [run'] at answered
      exact answered
    · rw [run'] at answered
      exact answered

end Edit

/-! ## Operations that record answers -/

variable {digest : Digesting} {module : Nat} {store : Store}

namespace Change

theorem asks_retains
    {change : Change}
    {other : Nat}
    {ask : Edit Request}
    (asks : change.asks = some (other, ask)) :
    Respects Retains ask := by
  have nonvoid : ∀ (type : Option Ty) (data : List UInt8),
      Respects Retains (do return Request.constant (← constantType type) data) := by
    intro type data
    cases type with
    | none => exact Respects.violate _
    | some type => exact Respects.pure _
  have typed : ∀ (other : Nat) (request : Registry → Ty × Registry) (data : List UInt8),
      Respects Retains (do return Request.constant (← typeBy other request) data) :=
    fun other request data => Respects.bind (typeBy_retains other request) fun _ => Respects.pure _
  cases change with
  | constant module type data =>
      obtain ⟨rfl, rfl⟩ := Prod.mk.inj (Option.some.inj asks)
      exact nonvoid type data
  | constantBool module truth =>
      obtain ⟨rfl, rfl⟩ := Prod.mk.inj (Option.some.inj asks)
      exact typed module _ _
  | constantInt32 module bits =>
      obtain ⟨rfl, rfl⟩ := Prod.mk.inj (Option.some.inj asks)
      exact typed module _ _
  | constantUInt32 module bits =>
      obtain ⟨rfl, rfl⟩ := Prod.mk.inj (Option.some.inj asks)
      exact typed module _ _
  | constantFloat32 module bits =>
      obtain ⟨rfl, rfl⟩ := Prod.mk.inj (Option.some.inj asks)
      exact typed module _ _
  | constantZero module type =>
      obtain ⟨rfl, rfl⟩ := Prod.mk.inj (Option.some.inj asks)
      exact Respects.ifThen Respects.stuck (nonvoid type _)
  | constantOne module type =>
      obtain ⟨rfl, rfl⟩ := Prod.mk.inj (Option.some.inj asks)
      cases type.bind Ty.scalar? with
      | none => exact Respects.violate _
      | some scalar => exact nonvoid type _
  | undefined module type =>
      obtain ⟨rfl, rfl⟩ := Prod.mk.inj (Option.some.inj asks)
      exact Respects.pure _
  | register module name =>
      obtain ⟨rfl, rfl⟩ := Prod.mk.inj (Option.some.inj asks)
      exact Respects.pure _
  | _ => cases asks

theorem asks_of_interns {change : Change} (interns : change.interns = true) :
    change.asks ≠ none := by
  cases change <;> first | exact Option.some_ne_none _ | cases interns

theorem performBy_filesAt (change : Change) :
    FilesAt digest module (change.performBy digest) store (change.answers digest store) := by
  unfold performBy answers
  cases asks : change.asks with
  | none =>
      refine FilesAt.of_keeps (perform_respects (fun _ => inferInstance) fun interns => ?_)
      exact absurd asks (asks_of_interns interns)
  | some asked =>
      obtain ⟨other, ask⟩ := asked
      exact (answer_filesAt (asks_retains asks)).bind_keeps fun _ => Respects.pure ()

theorem performAllBy_filesAt (changes : List Change) (store : Store) :
    FilesAt digest module (performAllBy digest changes) store
      (allAnswers digest changes store) := by
  induction changes generalizing store with
  | nil => exact FilesAt.of_keeps (Respects.pure ())
  | cons change rest induction =>
      exact change.performBy_filesAt.bind fun _ left => induction left

end Change

namespace Resolver

variable {choose : Ref → Store → List Change × Option Ref}

theorem operand_filesAt (operand : Option Ref) :
    FilesAt digest module ((choosingBy digest choose).operand operand) store
      (answers digest choose operand store) := by
  cases operand with
  | none => exact FilesAt.of_keeps (Respects.pure none)
  | some ref =>
      exact FilesAt.see_bind
        ((Change.performAllBy_filesAt _ store).bind_keeps fun _ => Respects.pure _)

theorem operands_filesAt (operands : List (Option Ref)) (store : Store) :
    FilesAt digest module ((choosingBy digest choose).operands operands) store
      (operandAnswers digest choose operands store) := by
  induction operands generalizing store with
  | nil => exact FilesAt.of_keeps (Respects.pure [])
  | cons operand rest induction =>
      exact (operand_filesAt operand).bind fun _ left =>
        (induction left).bind_keeps fun _ => Respects.pure _

theorem block_filesAt (block : Option Ref) :
    FilesAt digest module ((choosingBy digest choose).block block) store
      (answers digest choose block store) := by
  refine (operand_filesAt block).bind_keeps fun found => ?_
  cases found with
  | none => exact Respects.pure none
  | some ref =>
      exact Respects.bind (Respects.see _) fun _ =>
        Respects.bind (Respects.require _ _) fun _ => Respects.pure _

theorem blocks_filesAt (source : Ref) (whole blocks : List (Option Ref)) (store : Store) :
    FilesAt digest module ((choosingBy digest choose).blocks source whole blocks) store
      (blockAnswers digest choose source whole blocks store) := by
  induction blocks generalizing store with
  | nil => exact FilesAt.of_keeps (Respects.pure [])
  | cons block rest induction =>
      have checked : FilesAt digest module (currentBlocks source whole) store [] :=
        FilesAt.of_keeps <| Respects.bind (Respects.instruction source) fun _ =>
          Respects.ifThen (Respects.pure ()) Respects.stuck
      exact checked.bind fun _ left => (block_filesAt block).bind fun _ left =>
        (induction left).bind_keeps fun _ => Respects.pure _

theorem held_filesAt (source : Ref) (position : Nat) :
    FilesAt digest module ((choosingBy digest choose).held source position) store
      (heldAnswers digest choose source position store) := by
  refine FilesAt.instruction_bind fun current => ?_
  cases held : current.opcode.held[position]? with
  | none =>
      intro log filed
      rw [outcome_bind, outcome_demand]
      simpa using filed
  | some block => exact block_filesAt block

theorem opcode_filesAt (source : Ref) (opcode : Opcode) :
    FilesAt digest module ((choosingBy digest choose).opcode source opcode) store
      (opcodeAnswers digest choose source opcode store) := by
  have one (merge : Option Ref) (build : Option Ref → Opcode) :
      FilesAt digest module (do return build (← (choosingBy digest choose).block merge)) store
        (answers digest choose merge store) :=
    (block_filesAt merge).bind_keeps fun _ => Respects.pure _
  cases opcode with
  | ifElse merge => exact one merge .ifElse
  | switch merge cases => exact one merge (.switch · cases)
  | simpleLoop merge => exact one merge .simpleLoop
  | rayQueryLoop merge => exact one merge .rayQueryLoop
  | outline merge => exact one merge .outline
  | autodiffScope merge => exact one merge .autodiffScope
  | loop merge body update =>
      exact (block_filesAt body).bind fun _ left => (held_filesAt source 1).bind fun _ left =>
        (held_filesAt source 2).bind_keeps fun _ => Respects.pure _
  | phi blocks =>
      exact (blocks_filesAt source blocks blocks store).bind_keeps fun _ => Respects.pure _
  | _ => exact FilesAt.of_keeps (Respects.pure _)

end Resolver

end ShaderIR

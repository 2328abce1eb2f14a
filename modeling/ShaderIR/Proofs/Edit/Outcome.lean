import ShaderIR.Build

/-!
# Outcomes of edits

An edit has an outcome in every store: an answer or a fault, and the store it
leaves behind.  Two ways of reasoning about outcomes are set up here.

* `Edit.Respects` says that an edit leads from every store to a related one,
  whether it ends in an answer or in a fault.  For a reflexive and transitive
  relation this is closed under sequencing.
* `Edit.Gives` says that an edit ends with a given answer and a given store.
  Sequencing is inverted by it step by step.

Building steps move a cursor besides; `Build.outcome` puts the cursor next to
the answer.
-/

namespace ShaderIR

namespace Edit

variable {α β : Type}

/-- The answer or the fault of an edit, and the store it leaves. -/
def outcome (edit : Edit α) (store : Store) : Except Fault α × Store :=
  edit.run.run store

@[simp]
theorem outcome_pure (answer : α) (store : Store) :
    outcome (pure answer : Edit α) store = (.ok answer, store) :=
  rfl

theorem outcome_bind (edit : Edit α) (next : α → Edit β) (store : Store) :
    outcome (edit >>= next) store =
      match outcome edit store with
      | (.ok answer, left) => outcome (next answer) left
      | (.error fault, left) => (.error fault, left) := by
  simp only [outcome, ExceptT.run_bind, StateT.run_bind]
  rcases edit.run.run store with ⟨answer | fault, left⟩ <;> rfl

@[simp]
theorem outcome_modify (change : Store → Store) (store : Store) :
    outcome (modify change : Edit Unit) store = (.ok (), change store) :=
  rfl

@[simp]
theorem outcome_see (observe : Store → α) (store : Store) :
    outcome (see observe) store = (.ok (observe store), store) :=
  rfl

@[simp]
theorem outcome_violate (violation : Violation) (store : Store) :
    outcome (violate violation : Edit α) store = (.error (.violation violation), store) :=
  rfl

@[simp]
theorem outcome_stuck (store : Store) :
    outcome (stuck : Edit α) store = (.error .stuck, store) :=
  rfl

@[simp]
theorem outcome_endless (store : Store) :
    outcome (endless : Edit α) store = (.error .endless, store) :=
  rfl

theorem outcome_require (condition : Bool) (violation : Violation) (store : Store) :
    outcome (require condition violation) store =
      (if condition then .ok () else .error (.violation violation), store) := by
  cases condition <;> rfl

theorem outcome_demand (found : Option α) (store : Store) :
    outcome (demand found) store =
      (match found with
        | some answer => .ok answer
        | none => .error .stuck, store) := by
  cases found <;> rfl

@[simp]
theorem outcome_allocate
    (module : Nat)
    (type : Option Ty)
    (content : Content)
    (store : Store) :
    outcome (allocate module type content) store =
      (.ok (store.allocate module type content).1, (store.allocate module type content).2) :=
  rfl

/-! ## Respecting a relation between stores -/

/-- A relation that holds across any number of changes when it holds across each. -/
class Lasting (related : Store → Store → Prop) : Prop where
  refl : ∀ store, related store store
  trans : ∀ {first second third},
    related first second → related second third → related first third

/-- Whatever its outcome, an edit leaves a store related to the one it started from. -/
def Respects (related : Store → Store → Prop) (edit : Edit α) : Prop :=
  ∀ store, related store (outcome edit store).2

namespace Respects

variable {related : Store → Store → Prop} [lasting : Lasting related]

theorem pure (answer : α) : Respects related (Pure.pure answer : Edit α) :=
  fun store => lasting.refl store

theorem see (observe : Store → α) : Respects related (Edit.see observe) :=
  fun store => lasting.refl store

theorem violate (violation : Violation) :
    Respects related (Edit.violate violation : Edit α) :=
  fun store => lasting.refl store

theorem stuck : Respects related (Edit.stuck : Edit α) :=
  fun store => lasting.refl store

theorem require (condition : Bool) (violation : Violation) :
    Respects related (Edit.require condition violation) := by
  intro store
  rw [outcome_require]
  exact lasting.refl store

theorem demand (found : Option α) : Respects related (Edit.demand found) := by
  intro store
  rw [outcome_demand]
  exact lasting.refl store

/-- What holds at the start, and after the first part whenever it answers, holds in the end. -/
theorem bindAt
    {edit : Edit α}
    {next : α → Edit β}
    {store : Store}
    (first : related store (outcome edit store).2)
    (second : ∀ answer left, outcome edit store = (.ok answer, left) →
      related left (outcome (next answer) left).2) :
    related store (outcome (edit >>= next) store).2 := by
  rw [outcome_bind]
  rcases run : outcome edit store with ⟨fault | answer, left⟩
  · rw [run] at first
    exact first
  · rw [run] at first
    exact lasting.trans first (second answer left run)

theorem bind
    {edit : Edit α}
    {next : α → Edit β}
    (first : Respects related edit)
    (second : ∀ answer, Respects related (next answer)) :
    Respects related (edit >>= next) :=
  fun store => bindAt (first store) fun answer left _ => second answer left

theorem instruction (ref : Ref) : Respects related (Edit.instruction ref) :=
  bind (see _) demand

theorem function (ref : Ref) : Respects related (Edit.function ref) :=
  bind (see _) demand

theorem operand (ref : Ref) (position : Nat) : Respects related (Edit.operand ref position) :=
  bind (instruction ref) fun _ => demand _

theorem typeOfPresent (operand : Option Ref) : Respects related (Edit.typeOfPresent operand) :=
  bind (demand operand) fun _ => see _

theorem requireSamePool (user : Ref) (operand : Option Ref) :
    Respects related (Edit.requireSamePool user operand) := by
  cases operand with
  | none => exact pure ()
  | some ref => exact bind (see _) fun _ => require _ _

omit lasting in
theorem ifThen
    {condition : Prop}
    [Decidable condition]
    {left right : Edit α}
    (whenTrue : Respects related left)
    (whenFalse : Respects related right) :
    Respects related (if condition then left else right) := by
  split
  · exact whenTrue
  · exact whenFalse

end Respects

/-! ## Ending with an answer -/

/-- An edit ends with an answer and leaves a store. -/
def Gives (edit : Edit α) (store : Store) (answer : α) (left : Store) : Prop :=
  outcome edit store = (.ok answer, left)

section Gives

variable {store left : Store} {answer : α}

theorem gives_pure_iff {found : α} :
    Gives (pure found : Edit α) store answer left ↔ answer = found ∧ left = store := by
  simp only [Gives, outcome_pure, Prod.mk.injEq, Except.ok.injEq]
  exact and_congr eq_comm eq_comm

theorem gives_bind_iff {edit : Edit β} {next : β → Edit α} :
    Gives (edit >>= next) store answer left ↔
      ∃ found between, Gives edit store found between ∧ Gives (next found) between answer left := by
  simp only [Gives, outcome_bind]
  rcases outcome edit store with ⟨fault | found, between⟩
  · simp
  · constructor
    · intro rest
      exact ⟨found, between, rfl, rest⟩
    · rintro ⟨_, _, equal, rest⟩
      cases equal
      exact rest

theorem gives_modify_iff {change : Store → Store} {answer : Unit} :
    Gives (modify change : Edit Unit) store answer left ↔ left = change store := by
  simp only [Gives, outcome_modify, Prod.mk.injEq, true_and]
  exact eq_comm

theorem gives_see_iff {observe : Store → α} :
    Gives (see observe) store answer left ↔ answer = observe store ∧ left = store := by
  simp only [Gives, outcome_see, Prod.mk.injEq, Except.ok.injEq]
  exact and_congr eq_comm eq_comm

theorem gives_require_iff {condition : Bool} {violation : Violation} {answer : Unit} :
    Gives (require condition violation) store answer left ↔
      condition = true ∧ left = store := by
  cases condition <;> simp [Gives, outcome_require, eq_comm]

theorem gives_demand_iff {found : Option α} :
    Gives (demand found) store answer left ↔ found = some answer ∧ left = store := by
  cases found <;> simp [Gives, outcome_demand, eq_comm]

theorem not_gives_stuck : ¬ Gives (stuck : Edit α) store answer left := by
  simp [Gives]

theorem not_gives_endless : ¬ Gives (endless : Edit α) store answer left := by
  simp [Gives]

theorem not_gives_violate {violation : Violation} :
    ¬ Gives (violate violation : Edit α) store answer left := by
  simp [Gives]

theorem gives_instruction_iff {ref : Ref} {answer : Instruction} :
    Gives (instruction ref) store answer left ↔
      store.instruction? ref = some answer ∧ left = store := by
  simp only [instruction, gives_bind_iff, gives_see_iff, gives_demand_iff]
  constructor
  · rintro ⟨_, _, ⟨rfl, rfl⟩, found, rfl⟩
    exact ⟨found, rfl⟩
  · rintro ⟨found, rfl⟩
    exact ⟨_, _, ⟨rfl, rfl⟩, found, rfl⟩

/-- What follows the reading of an instruction starts from the same store. -/
theorem Respects.bindInstruction
    {related : Store → Store → Prop}
    [lasting : Lasting related]
    {ref : Ref}
    {next : Instruction → Edit α}
    (follows : ∀ entry, store.instruction? ref = some entry →
      related store (outcome (next entry) store).2) :
    related store (outcome (Edit.instruction ref >>= next) store).2 := by
  refine Respects.bindAt (Respects.instruction ref store) fun entry left given => ?_
  obtain ⟨found, rfl⟩ := gives_instruction_iff.1 given
  exact follows entry found

theorem gives_operand_iff {ref : Ref} {position : Nat} {answer : Option Ref} :
    Gives (operand ref position) store answer left ↔
      (∃ entry, store.instruction? ref = some entry ∧ entry.operand? position = some answer) ∧
        left = store := by
  simp only [operand, gives_bind_iff, gives_instruction_iff, gives_demand_iff]
  constructor
  · rintro ⟨entry, _, ⟨found, rfl⟩, position, rfl⟩
    exact ⟨⟨entry, found, position⟩, rfl⟩
  · rintro ⟨⟨entry, found, position⟩, rfl⟩
    exact ⟨entry, _, ⟨found, rfl⟩, position, rfl⟩

theorem gives_requireSamePool_iff {user : Ref} {operand : Option Ref} {answer : Unit} :
    Gives (requireSamePool user operand) store answer left ↔
      (∀ value, operand = some value → store.moduleOf? value = store.moduleOf? user) ∧
        left = store := by
  cases operand with
  | none => simp [requireSamePool, gives_pure_iff]
  | some value =>
      simp only [requireSamePool, gives_bind_iff, gives_see_iff, gives_require_iff,
        Option.some.injEq, forall_eq']
      constructor
      · rintro ⟨_, _, ⟨rfl, rfl⟩, pool, rfl⟩
        exact ⟨by simpa using pool, rfl⟩
      · rintro ⟨pool, rfl⟩
        exact ⟨_, _, ⟨rfl, rfl⟩, by simpa using pool, rfl⟩

/-! Looking at the store, or for something that has to be there, leaves the store as it is. -/

theorem gives_see_bind_iff {observe : Store → β} {next : β → Edit α} :
    Gives (see observe >>= next) store answer left ↔
      Gives (next (observe store)) store answer left :=
  Iff.rfl

theorem gives_demand_bind_iff {found : Option β} {next : β → Edit α} :
    Gives (demand found >>= next) store answer left ↔
      ∃ held, found = some held ∧ Gives (next held) store answer left := by
  rw [gives_bind_iff]
  constructor
  · rintro ⟨held, _, given, rest⟩
    obtain ⟨found, rfl⟩ := gives_demand_iff.1 given
    exact ⟨held, found, rest⟩
  · rintro ⟨held, found, rest⟩
    exact ⟨held, store, gives_demand_iff.2 ⟨found, rfl⟩, rest⟩

theorem gives_instruction_bind_iff {ref : Ref} {next : Instruction → Edit α} :
    Gives (instruction ref >>= next) store answer left ↔
      ∃ entry, store.instruction? ref = some entry ∧ Gives (next entry) store answer left := by
  rw [gives_bind_iff]
  constructor
  · rintro ⟨entry, _, given, rest⟩
    obtain ⟨found, rfl⟩ := gives_instruction_iff.1 given
    exact ⟨entry, found, rest⟩
  · rintro ⟨entry, found, rest⟩
    exact ⟨entry, store, gives_instruction_iff.2 ⟨found, rfl⟩, rest⟩

/-- What every step keeps, all steps keep. -/
theorem Gives.foldlM
    (holds : α → Store → Prop)
    {step : α → β → Edit α}
    {elements : List β}
    {state : α}
    (gives : Gives (elements.foldlM step state) store answer left)
    (start : holds state store)
    (steps : ∀ element ∈ elements, ∀ {state store answer left}, holds state store →
      Gives (step state element) store answer left → holds answer left) :
    holds answer left := by
  induction elements generalizing state store with
  | nil =>
      obtain ⟨rfl, rfl⟩ := gives_pure_iff.1 gives
      exact start
  | cons element rest induction =>
      rw [List.foldlM_cons] at gives
      obtain ⟨between, middle, first, others⟩ := gives_bind_iff.1 gives
      exact induction others (steps element List.mem_cons_self start first)
        fun later member => steps later (List.mem_cons_of_mem _ member)

/-- What holds of the elements still to come, each step keeps for those after its own. -/
theorem Gives.foldlM_rest
    (holds : List β → α → Store → Prop)
    {step : α → β → Edit α}
    {elements : List β}
    {state : α}
    (gives : Gives (elements.foldlM step state) store answer left)
    (start : holds elements state store)
    (steps : ∀ element rest, ∀ {state store answer left}, holds (element :: rest) state store →
      Gives (step state element) store answer left → holds rest answer left) :
    holds [] answer left := by
  induction elements generalizing state store with
  | nil =>
      obtain ⟨rfl, rfl⟩ := gives_pure_iff.1 gives
      exact start
  | cons element rest induction =>
      rw [List.foldlM_cons] at gives
      obtain ⟨between, middle, first, others⟩ := gives_bind_iff.1 gives
      exact induction others (steps element rest start first)

/-- A store related to the start is left whenever the edit answers. -/
theorem Respects.of_gives
    {related : Store → Store → Prop}
    {edit : Edit α}
    (respects : Respects related edit)
    (gives : Gives edit store answer left) :
    related store left := by
  have step := respects store
  rw [gives] at step
  exact step

end Gives

end Edit

namespace Build

variable {α β : Type}

/-- The answer of a building step with the cursor after it, or its fault, and the store
it leaves. -/
def outcome (build : Build α) (cursor : Cursor) (store : Store) :
    Except Fault (α × Cursor) × Store :=
  Edit.outcome (StateT.run build cursor) store

theorem outcome_bind (build : Build α) (next : α → Build β) (cursor : Cursor) (store : Store) :
    outcome (build >>= next) cursor store =
      match outcome build cursor store with
      | (.ok (answer, moved), left) => outcome (next answer) moved left
      | (.error fault, left) => (.error fault, left) := by
  simp only [outcome, StateT.run_bind, Edit.outcome_bind]
  rcases Edit.outcome (StateT.run build cursor) store with ⟨fault | ⟨answer, moved⟩, left⟩ <;> rfl

@[simp]
theorem outcome_pure (answer : α) (cursor : Cursor) (store : Store) :
    outcome (pure answer : Build α) cursor store = (.ok (answer, cursor), store) :=
  rfl

theorem outcome_lift (edit : Edit α) (cursor : Cursor) (store : Store) :
    outcome (liftM edit) cursor store =
      match Edit.outcome edit store with
      | (.ok answer, left) => (.ok (answer, cursor), left)
      | (.error fault, left) => (.error fault, left) := by
  change Edit.outcome (edit >>= fun answer => pure (answer, cursor)) store = _
  rw [Edit.outcome_bind]
  rfl

@[simp]
theorem outcome_get (cursor : Cursor) (store : Store) :
    outcome (get : Build Cursor) cursor store = (.ok (cursor, cursor), store) :=
  rfl

@[simp]
theorem outcome_set (moved cursor : Cursor) (store : Store) :
    outcome (set moved : Build PUnit) cursor store = (.ok ((), moved), store) :=
  rfl

@[simp]
theorem outcome_modify (change : Cursor → Cursor) (cursor : Cursor) (store : Store) :
    outcome (modify change : Build PUnit) cursor store = (.ok ((), change cursor), store) :=
  rfl

/-! ## Ending with an answer and a cursor -/

/-- Building steps end with an answer and a cursor and leave a store. -/
def Yields
    (build : Build α)
    (cursor : Cursor)
    (store : Store)
    (answer : α)
    (moved : Cursor)
    (left : Store) : Prop :=
  Edit.Gives (StateT.run build cursor) store (answer, moved) left

section Yields

variable {cursor moved : Cursor} {store left : Store} {answer : α}

theorem yields_bind_iff {build : Build β} {next : β → Build α} :
    Yields (build >>= next) cursor store answer moved left ↔
      ∃ found between middle, Yields build cursor store found between middle ∧
        Yields (next found) between middle answer moved left := by
  simp only [Yields, StateT.run_bind, Edit.gives_bind_iff, Prod.exists]

theorem yields_pure_iff {found : α} :
    Yields (pure found : Build α) cursor store answer moved left ↔
      answer = found ∧ moved = cursor ∧ left = store := by
  simp only [Yields, StateT.run_pure, Edit.gives_pure_iff, Prod.mk.injEq, and_assoc]

theorem yields_lift_iff {edit : Edit α} :
    Yields (liftM edit) cursor store answer moved left ↔
      Edit.Gives edit store answer left ∧ moved = cursor := by
  change Edit.Gives (edit >>= fun answer => pure (answer, cursor)) store (answer, moved) left ↔ _
  simp only [Edit.gives_bind_iff, Edit.gives_pure_iff, Prod.mk.injEq]
  constructor
  · rintro ⟨_, _, gives, ⟨rfl, rfl⟩, rfl⟩
    exact ⟨gives, rfl⟩
  · rintro ⟨gives, rfl⟩
    exact ⟨answer, left, gives, ⟨rfl, rfl⟩, rfl⟩

theorem yields_lift_bind_iff {edit : Edit β} {next : β → Build α} :
    Yields (liftM edit >>= next) cursor store answer moved left ↔
      ∃ found between, Edit.Gives edit store found between ∧
        Yields (next found) cursor between answer moved left := by
  rw [yields_bind_iff]
  constructor
  · rintro ⟨found, _, between, lifted, rest⟩
    obtain ⟨gives, same⟩ := yields_lift_iff.1 lifted
    rw [same] at rest
    exact ⟨found, between, gives, rest⟩
  · rintro ⟨found, between, gives, rest⟩
    exact ⟨found, cursor, between, yields_lift_iff.2 ⟨gives, rfl⟩, rest⟩

theorem yields_see_bind_iff {observe : Store → β} {next : β → Build α} :
    Yields (liftM (Edit.see observe) >>= next) cursor store answer moved left ↔
      Yields (next (observe store)) cursor store answer moved left := by
  rw [yields_lift_bind_iff]
  constructor
  · rintro ⟨_, _, gives, rest⟩
    obtain ⟨rfl, rfl⟩ := Edit.gives_see_iff.1 gives
    exact rest
  · exact fun rest => ⟨_, _, Edit.gives_see_iff.2 ⟨rfl, rfl⟩, rest⟩

theorem yields_require_bind_iff
    {condition : Bool}
    {violation : Violation}
    {next : Unit → Build α} :
    Yields (liftM (Edit.require condition violation) >>= next) cursor store answer moved left ↔
      condition = true ∧ Yields (next ()) cursor store answer moved left := by
  rw [yields_lift_bind_iff]
  constructor
  · rintro ⟨_, _, gives, rest⟩
    obtain ⟨holds, rfl⟩ := Edit.gives_require_iff.1 gives
    exact ⟨holds, rest⟩
  · rintro ⟨holds, rest⟩
    exact ⟨_, _, Edit.gives_require_iff.2 ⟨holds, rfl⟩, rest⟩

theorem yields_get_iff {answer : Cursor} :
    Yields (get : Build Cursor) cursor store answer moved left ↔
      answer = cursor ∧ moved = cursor ∧ left = store := by
  change Yields (pure cursor : Build Cursor) cursor store answer moved left ↔ _
  exact yields_pure_iff

theorem yields_set_iff {new : Cursor} {answer : PUnit} :
    Yields (set new : Build PUnit) cursor store answer moved left ↔
      moved = new ∧ left = store := by
  change Edit.Gives (pure (PUnit.unit, new)) store (answer, moved) left ↔ _
  simp only [Edit.gives_pure_iff, Prod.mk.injEq, true_and]

theorem yields_modify_iff {change : Cursor → Cursor} {answer : PUnit} :
    Yields (modify change : Build PUnit) cursor store answer moved left ↔
      moved = change cursor ∧ left = store := by
  change Edit.Gives (pure (PUnit.unit, change cursor)) store (answer, moved) left ↔ _
  simp only [Edit.gives_pure_iff, Prod.mk.injEq, true_and]

theorem yields_run_iff {build : Build α} :
    Edit.Gives (run build) store answer left ↔
      ∃ moved, Yields build {} store answer moved left := by
  change Edit.Gives (Prod.fst <$> StateT.run build {}) store answer left ↔ _
  rw [map_eq_pure_bind, Edit.gives_bind_iff]
  constructor
  · rintro ⟨⟨found, moved⟩, middle, gives, rest⟩
    obtain ⟨rfl, rfl⟩ := Edit.gives_pure_iff.1 rest
    exact ⟨moved, gives⟩
  · rintro ⟨moved, gives⟩
    exact ⟨(answer, moved), left, gives, Edit.gives_pure_iff.2 ⟨rfl, rfl⟩⟩

end Yields

end Build

end ShaderIR

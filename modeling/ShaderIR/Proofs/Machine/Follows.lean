import ShaderIR.Proofs.Machine.Link

/-!
# Computations that follow each other

One computation on the heap follows another one when, from linked heaps,
whenever the first one answers, so does the second one, with linked heaps and a
related answer.  Nothing is said when the first one ends the run.

The link may grow on the way, so relations between answers are indexed by links.
-/

namespace ShaderIR.Machine

namespace Exec

variable {α β : Type}

/-- The answer of a computation, or why it ends the run, and the heap it leaves. -/
def outcome (work : Exec α) (heap : Heap) : Except Halt α × Heap :=
  work.run.run heap

@[simp]
theorem outcome_pure (answer : α) (heap : Heap) :
    outcome (pure answer : Exec α) heap = (.ok answer, heap) :=
  rfl

theorem outcome_bind (work : Exec α) (next : α → Exec β) (heap : Heap) :
    outcome (work >>= next) heap =
      match outcome work heap with
      | (.ok answer, left) => outcome (next answer) left
      | (.error halt, left) => (.error halt, left) := by
  simp only [outcome, ExceptT.run_bind, StateT.run_bind]
  rcases work.run.run heap with ⟨answer | halt, left⟩ <;> rfl

/-- A computation that answers after another one is entered with an answer of that one. -/
theorem outcome_bind_eq_ok {work : Exec α} {next : α → Exec β} {heap left : Heap} {answer : β} :
    outcome (work >>= next) heap = (.ok answer, left) ↔
      ∃ found between, outcome work heap = (.ok found, between) ∧
        outcome (next found) between = (.ok answer, left) := by
  rw [outcome_bind]
  rcases outcome work heap with ⟨halt | found, between⟩
  · simp
  · constructor
    · intro rest
      exact ⟨found, between, rfl, rest⟩
    · rintro ⟨_, _, equal, rest⟩
      cases equal
      exact rest

@[simp]
theorem outcome_throw (halt : Halt) (heap : Heap) :
    outcome (throw halt : Exec α) heap = (.error halt, heap) :=
  rfl

@[simp]
theorem outcome_fail (cause : Unsupported) (heap : Heap) :
    outcome (fail cause : Exec α) heap = (.error (.unsupported cause), heap) :=
  rfl

@[simp]
theorem outcome_stuck (heap : Heap) :
    outcome (stuck : Exec α) heap = (.error .stuck, heap) :=
  rfl

@[simp]
theorem outcome_get (heap : Heap) :
    outcome (get : Exec Heap) heap = (.ok heap, heap) :=
  rfl

@[simp]
theorem outcome_set (new heap : Heap) :
    outcome (set new : Exec PUnit) heap = (.ok ⟨⟩, new) :=
  rfl

@[simp]
theorem outcome_modify (change : Heap → Heap) (heap : Heap) :
    outcome (modify change : Exec PUnit) heap = (.ok ⟨⟩, change heap) :=
  rfl

@[simp]
theorem outcome_make (build : Heap → α × Heap) (heap : Heap) :
    outcome (make build) heap = (.ok (build heap).1, (build heap).2) :=
  rfl

theorem outcome_demand (found : Option α) (heap : Heap) :
    outcome (demand found) heap =
      (match found with
        | some answer => .ok answer
        | none => .error .stuck, heap) := by
  cases found <;> rfl

theorem outcome_demand_eq_ok {found : Option α} {heap left : Heap} {answer : α} :
    outcome (demand found) heap = (.ok answer, left) ↔ found = some answer ∧ heap = left := by
  rw [outcome_demand]
  cases found <;> simp

end Exec

open Exec

/-- The second computation answers whenever the first one does, with related answers. -/
def Follows
    {α β : Type}
    (related : Link → α → β → Prop)
    (link : Link)
    (work : Exec α)
    (work' : Exec β) : Prop :=
  ∀ heap heap', link.Heaps heap heap' → ∀ answer left, outcome work heap = (.ok answer, left) →
    ∃ larger answer' left', link ≤ larger ∧ outcome work' heap' = (.ok answer', left') ∧
      larger.Heaps left left' ∧ related larger answer answer'

/-- Answers that have to be the same. -/
def Same {α : Type} (_ : Link) (answer answer' : α) : Prop :=
  answer = answer'

namespace Follows

variable {α β γ δ : Type} {related : Link → α → β → Prop} {link : Link}

theorem pure {answer : α} {answer' : β} (holds : related link answer answer') :
    Follows related link (Pure.pure answer) (Pure.pure answer') := by
  intro heap heap' heaps _ _ equal
  cases equal
  exact ⟨link, answer', heap', le_refl link, rfl, heaps, holds⟩

theorem bind
    {after : Link → γ → δ → Prop}
    {work : Exec α}
    {work' : Exec β}
    {next : α → Exec γ}
    {next' : β → Exec δ}
    (first : Follows related link work work')
    (second : ∀ larger answer answer', link ≤ larger → related larger answer answer' →
      Follows after larger (next answer) (next' answer')) :
    Follows after link (work >>= next) (work' >>= next') := by
  intro heap heap' heaps answer left run
  rcases outcome_bind_eq_ok.1 run with ⟨found, between, run, rest⟩
  rcases first heap heap' heaps found between run with
    ⟨middle, found', between', grows, run', heaps', holds⟩
  rcases second middle found found' grows holds between between' heaps' answer left rest with
    ⟨larger, answer', left', grows', rest', heaps'', holds'⟩
  exact ⟨larger, answer', left', le_trans grows grows',
    outcome_bind_eq_ok.2 ⟨found', between', run', rest'⟩, heaps'', holds'⟩

/-- What is known of the answers of the first computation can be used later on. -/
theorem and_left
    {holds : α → Prop}
    {work : Exec α}
    {work' : Exec β}
    (follows : Follows related link work work')
    (known : ∀ heap answer left, outcome work heap = (.ok answer, left) → holds answer) :
    Follows (fun link answer answer' => related link answer answer' ∧ holds answer) link work
      work' := by
  intro heap heap' heaps answer left run
  rcases follows heap heap' heaps answer left run with
    ⟨larger, answer', left', grows, run', heaps', linked⟩
  exact ⟨larger, answer', left', grows, run', heaps', linked, known heap answer left run⟩

/-- Nothing has to follow a computation that never answers. -/
theorem of_not_ok
    {work : Exec α}
    {work' : Exec β}
    (never : ∀ heap answer left, outcome work heap ≠ (.ok answer, left)) :
    Follows related link work work' :=
  fun heap _ _ answer left run => absurd run (never heap answer left)

theorem fail {cause : Unsupported} {work' : Exec β} :
    Follows related link (Exec.fail cause) work' :=
  of_not_ok fun _ _ _ equal => by cases equal

theorem stuck {work' : Exec β} : Follows related link (Exec.stuck : Exec α) work' :=
  of_not_ok fun _ _ _ equal => by cases equal

theorem throw {halt : Halt} {work' : Exec β} :
    Follows related link (MonadExcept.throw halt : Exec α) work' :=
  of_not_ok fun _ _ _ equal => by cases equal

theorem demand
    {found : Option α}
    {found' : Option β}
    (holds : ∀ answer, found = some answer →
      ∃ answer', found' = some answer' ∧ related link answer answer') :
    Follows related link (Exec.demand found) (Exec.demand found') := by
  cases found with
  | none => exact stuck
  | some answer =>
      rcases holds answer rfl with ⟨answer', rfl, linked⟩
      exact pure linked

theorem demandSame (found : Option α) :
    Follows Same link (Exec.demand found) (Exec.demand found) :=
  demand fun answer found => ⟨answer, found, rfl⟩

end Follows

/-! ## Zeros -/

/-- Making something in both heaps gives linked data. -/
def Builds (build : Heap → Datum × Heap) : Prop :=
  ∀ link heap heap', Link.Heaps link heap heap' →
    ∃ larger, link ≤ larger ∧ larger.Heaps (build heap).2 (build heap').2 ∧
      Linked larger (build heap).1 (build heap').1

/-- Making several data in both heaps gives linked data. -/
def BuildsAll (build : Heap → List Datum × Heap) : Prop :=
  ∀ link heap heap', Link.Heaps link heap heap' →
    ∃ larger, link ≤ larger ∧ larger.Heaps (build heap).2 (build heap').2 ∧
      AllLinked larger (build heap).1 (build heap').1

theorem linked_zeroScalar (link : Link) (scalar : Scalar) :
    Linked link (zeroScalar scalar) (zeroScalar scalar) := by
  unfold zeroScalar
  cases scalar.kind with
  | bool => exact .bool false
  | sint => exact .int 0
  | uint => exact .uint 0
  | float => exact .float 0

theorem builds_pure {datum : Datum} (linked : ∀ link, Linked link datum datum) :
    Builds fun heap => (datum, heap) :=
  fun link _ _ heaps => ⟨link, le_refl link, heaps, linked link⟩

theorem buildsAll_makeRepeated
    {make : Heap → Datum × Heap}
    (builds : Builds make)
    (count : Nat) :
    BuildsAll (makeRepeated make count) := by
  induction count with
  | zero => exact fun link _ _ heaps => ⟨link, le_refl link, heaps, .nil⟩
  | succ count induction =>
      intro link heap heap' heaps
      rcases builds link heap heap' heaps with ⟨middle, grows, heaps', first⟩
      rcases induction middle _ _ heaps' with ⟨larger, grows', heaps'', rest⟩
      exact ⟨larger, le_trans grows grows', heaps'', .cons (first.mono grows') rest⟩

theorem builds_aggregate {build : Heap → List Datum × Heap} (builds : BuildsAll build) :
    Builds fun heap => (.aggregate (build heap).1, (build heap).2) := by
  intro link heap heap' heaps
  rcases builds link heap heap' heaps with ⟨larger, grows, heaps', all⟩
  exact ⟨larger, grows, heaps', .aggregate all⟩

mutual

theorem builds_zero (type : Ty) : Builds (zero type) := by
  cases type with
  | scalar handle scalar =>
      exact builds_pure fun link => linked_zeroScalar link scalar
  | vector handle size scalar element =>
      exact builds_aggregate (buildsAll_makeRepeated (builds_zero element) size)
  | matrix handle columns scalar column =>
      exact builds_aggregate (buildsAll_makeRepeated (builds_zero column) columns)
  | array handle element count =>
      exact builds_aggregate (buildsAll_makeRepeated (builds_zero element) count)
  | record handle members =>
      exact builds_aggregate (buildsAll_zeroAll members)
  | resource handle kind element =>
      exact builds_pure fun _ => .absent
  | rayQuery handle anyHit =>
      exact fun link _ _ heaps => heaps.newRayQuery {}

theorem buildsAll_zeroAll (types : List Ty) : BuildsAll (zeroAll types) := by
  cases types with
  | nil =>
      exact fun link _ _ heaps => ⟨link, le_refl link, heaps, .nil⟩
  | cons type rest =>
      intro link heap heap' heaps
      rcases builds_zero type link heap heap' heaps with ⟨middle, grows, heaps', first⟩
      rcases buildsAll_zeroAll rest middle _ _ heaps' with ⟨larger, grows', heaps'', others⟩
      exact ⟨larger, le_trans grows grows', heaps'', .cons (first.mono grows') others⟩

end

theorem Follows.make {link : Link} {build : Heap → Datum × Heap} (builds : Builds build) :
    Follows Linked link (Exec.make build) (Exec.make build) := by
  intro heap heap' heaps _ _ equal
  cases equal
  rcases builds link heap heap' heaps with ⟨larger, grows, heaps', linked⟩
  exact ⟨larger, _, _, grows, rfl, heaps', linked⟩

theorem follows_zeroOf (link : Link) (type : Option Ty) :
    Follows Linked link (Scene.zeroOf type) (Scene.zeroOf type) :=
  Follows.bind (Follows.demandSame type) fun _ type _ _ same => by
    cases same
    exact Follows.make (builds_zero type)

end ShaderIR.Machine

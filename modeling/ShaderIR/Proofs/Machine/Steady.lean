import ShaderIR.Proofs.Interning.Filing
import ShaderIR.Proofs.Machine.Entry
import ShaderIR.Proofs.Store.Update

/-!
# Data that stay the same

The datum of a value depends on the heap only where the zero of a ray query is made: for
undefined values, and for registers that nothing is known of.  Registers hold numbers,
though, so what is not undefined has one datum on every heap as long as the values of the
frame stay the same.

Entering a block changes the values of its phis alone.  Each of them gets the datum of
the incoming for the block that control comes from.
-/

namespace ShaderIR

namespace Machine

open Exec

variable {program : Store} {settings : Settings} {ref : Ref} {datum : Datum}

/-! ## Values -/

/-- A value has a datum whatever is in the heap, and asking for it leaves the heap as it is. -/
def Scene.Steady (scene : Scene) (ref : Ref) (datum : Datum) : Prop :=
  ∀ heap, outcome (scene.eval ref) heap = (.ok datum, heap)

/-- Evaluation looks up no more than the value itself. -/
theorem Scene.eval_congr
    {values values' : Std.HashMap Ref Datum}
    (same : values'[ref]? = values[ref]?) :
    Scene.eval ⟨program, settings, values'⟩ ref = Scene.eval ⟨program, settings, values⟩ ref := by
  unfold Scene.eval
  rw [same]

theorem Scene.Steady.congr
    {values values' : Std.HashMap Ref Datum}
    (steady : Scene.Steady ⟨program, settings, values⟩ ref datum)
    (same : values'[ref]? = values[ref]?) :
    Scene.Steady ⟨program, settings, values'⟩ ref datum := by
  intro heap
  rw [Scene.eval_congr same]
  exact steady heap

/-- The result of an instruction is what its frame holds. -/
theorem Scene.steady_of_isInstruction
    {scene : Scene}
    (isInstruction : scene.program.isInstruction ref = true)
    (found : scene.values[ref]? = some datum) :
    scene.Steady ref datum := by
  intro heap
  obtain ⟨entry, isEntry⟩ := Option.isSome_iff_exists.1 isInstruction
  obtain ⟨value, present, content⟩ :=
    Option.map_eq_some_iff.1 (Store.instruction?_eq_some_iff.1 isEntry)
  simp only [Scene.eval, present, demand, pure_bind, content, found]
  rfl

theorem makeRepeated_of_constant
    {make : Heap → Datum × Heap}
    {element : Datum}
    (constant : ∀ heap, make heap = (element, heap))
    (count : Nat)
    (heap : Heap) :
    makeRepeated make count heap = (List.replicate count element, heap) := by
  induction count with
  | zero => rfl
  | succ count induction =>
      rw [makeRepeated, constant]
      dsimp only
      rw [induction, List.replicate_succ]

/-- Numbers and vectors of numbers have zeros that take no room in the heap. -/
theorem exists_zero_of_isPlain {type : Ty} (isPlain : type.isPlain = true) :
    ∃ datum, ∀ heap, zero type heap = (datum, heap) := by
  unfold Ty.isPlain at isPlain
  split at isPlain
  · exact ⟨_, fun heap => rfl⟩
  · rename_i size _ tag scalar
    have element : ∀ heap, zero (.scalar tag scalar) heap = (zeroScalar scalar, heap) :=
      fun _ => rfl
    refine ⟨.aggregate (List.replicate size (zeroScalar scalar)), fun heap => ?_⟩
    rw [zero, makeRepeated_of_constant element]
  · cases isPlain

theorem outcome_zeroOf_of_isPlain
    {type : Option Ty}
    {heap left : Heap}
    (isPlain : type.any Ty.isPlain = true)
    (zeroes : outcome (Scene.zeroOf type) heap = (.ok datum, left)) :
    (∀ heap, outcome (Scene.zeroOf type) heap = (.ok datum, heap)) ∧ left = heap := by
  obtain ⟨type, rfl, isPlain⟩ := (Option.any_eq_true _ _).1 isPlain
  obtain ⟨number, constant⟩ := exists_zero_of_isPlain isPlain
  have always : ∀ heap, outcome (Scene.zeroOf (some type)) heap = (.ok number, heap) := by
    intro heap
    exact congrArg (fun made : Datum × Heap => (Except.ok made.1, made.2)) (constant heap)
  cases (always heap).symm.trans zeroes
  exact ⟨always, rfl⟩

/-- A value that has a datum has a steady one, if that is no zero that depends on the heap. -/
theorem Scene.steady_of_zero
    {scene : Scene}
    {heap left : Heap}
    {datum : Datum}
    (zeroes : scene.program.isUndefined ref = true ∨
        (∃ register, scene.program.content? ref = some (.register register)) →
      outcome (Scene.zeroOf (scene.program.typeOf ref)) heap = (.ok datum, left) →
      (∀ heap, outcome (Scene.zeroOf (scene.program.typeOf ref)) heap = (.ok datum, heap)) ∧
        left = heap)
    (evaluates : outcome (scene.eval ref) heap = (.ok datum, left)) :
    scene.Steady ref datum ∧ left = heap := by
  unfold Scene.Steady
  unfold Scene.eval at evaluates ⊢
  cases found : scene.program.value? ref with
  | none =>
      rw [found] at evaluates
      cases evaluates
  | some value =>
      have content : scene.program.content? ref = some value.content := by
        rw [Store.content?, found]
        rfl
      have type : scene.program.typeOf ref = value.type := by
        rw [Store.typeOf, found]
        rfl
      rw [content, type, Store.isUndefined, content] at zeroes
      rw [found] at evaluates
      simp only [demand, pure_bind] at evaluates ⊢
      cases kind : value.content with
      | undefined =>
          rw [kind] at evaluates zeroes
          exact zeroes (.inl rfl) evaluates
      | constant data hash =>
          rw [kind] at evaluates
          dsimp only at evaluates ⊢
          cases decoded : value.type.bind (constantDatum? · data) with
          | none =>
              rw [decoded] at evaluates
              cases evaluates
          | some given =>
              rw [decoded] at evaluates
              cases evaluates
              exact ⟨fun _ => rfl, rfl⟩
      | register register =>
          rw [kind] at evaluates zeroes
          dsimp only at evaluates ⊢
          cases known : scene.settings.registers.lookup register with
          | none =>
              rw [known] at evaluates
              exact zeroes (.inr ⟨register, rfl⟩) evaluates
          | some given =>
              rw [known] at evaluates
              cases evaluates
              exact ⟨fun _ => rfl, rfl⟩
      | function entry | block owner members =>
          rw [kind] at evaluates
          cases evaluates
          exact ⟨fun _ => rfl, rfl⟩
      | argument argumentKind owner position | instruction entry =>
          rw [kind] at evaluates
          dsimp only at evaluates ⊢
          cases held : scene.values[ref]? with
          | none =>
              rw [held] at evaluates
              cases evaluates
          | some given =>
              rw [held] at evaluates
              cases evaluates
              exact ⟨fun _ => rfl, rfl⟩

/-- What is not undefined has a steady datum if it has one. -/
theorem Scene.steady_of_eval
    {scene : Scene}
    {heap left : Heap}
    {datum : Datum}
    (numeric : scene.program.NumericRegisters)
    (defined : scene.program.isUndefined ref = false)
    (evaluates : outcome (scene.eval ref) heap = (.ok datum, left)) :
    scene.Steady ref datum ∧ left = heap := by
  refine Scene.steady_of_zero ?_ evaluates
  rintro (undefined | ⟨register, content⟩) zeroes
  · rw [undefined] at defined
    cases defined
  · exact outcome_zeroOf_of_isPlain (numeric _ _ content) zeroes

/-! ## Entering blocks -/

/-- A phi draws an operand when control comes from a block. -/
def Draws (program : Store) (source phi : Ref) (operand : Option Ref) : Prop :=
  ∃ entry position, program.instruction? phi = some entry ∧
    entry.opcode.incomingBlocks.findIdx? (· == some source) = some position ∧
    entry.operand? position = some operand

/-- What a phi draws is the incoming for the block that control comes from. -/
theorem Draws.mem_incomings
    {source phi : Ref}
    {operand : Option Ref}
    {pairs : List (Option Ref × Option Ref)}
    (draws : Draws program source phi operand)
    (paired : program.incomings? phi = some pairs) :
    (operand, some source) ∈ pairs := by
  obtain ⟨entry, position, found, sourced, held⟩ := draws
  obtain ⟨inside, isSource, -⟩ := List.findIdx?_eq_some_iff_getElem.1 sourced
  rw [Store.incomings?, found] at paired
  dsimp only [Option.bind_some] at paired
  split at paired
  · cases paired
  · obtain rfl := Option.some.inj paired
    refine List.mem_of_getElem? (i := position) ?_
    rw [List.getElem?_zip_eq_some, Instruction.values, List.getElem?_map,
      List.getElem?_eq_getElem inside]
    exact ⟨held, congrArg some (beq_iff_eq.1 isSource)⟩

theorem Draws.mem_operands
    {source phi : Ref}
    {operand : Option Ref}
    (draws : Draws program source phi operand) :
    operand ∈ program.operands phi := by
  obtain ⟨entry, position, found, -, held⟩ := draws
  rw [Store.operands, found, Option.map_some, Option.getD_some, Instruction.values]
  refine List.mem_of_getElem? (i := position) ?_
  rw [List.getElem?_map]
  exact held

/-- A phi gets a datum when control comes from a block: that of its incoming. -/
def Scene.Receives (scene : Scene) (source phi : Ref) (datum : Datum) : Prop :=
  ∃ entry position operand heap left, scene.program.instruction? phi = some entry ∧
    entry.opcode.incomingBlocks.findIdx? (· == some source) = some position ∧
    entry.operand? position = some (some operand) ∧
    outcome (scene.eval operand) heap = (.ok datum, left)

theorem Scene.receives_of_incomingData
    {scene : Scene}
    {source : Ref}
    {phis : List Ref}
    {heap left : Heap}
    {data : List (Ref × Datum)}
    (answers : outcome (scene.incomingData source phis) heap = (.ok data, left)) :
    List.Forall₂ (fun phi pair => pair.1 = phi ∧ scene.Receives source phi pair.2) phis data := by
  induction phis generalizing heap data with
  | nil =>
      cases answers
      exact .nil
  | cons phi rest induction =>
      obtain ⟨entry, between, demanded, answers⟩ := outcome_bind_eq_ok.1 answers
      obtain ⟨found, rfl⟩ := outcome_demand_eq_ok.1 demanded
      split at answers
      · cases answers
      · rename_i position sourced
        obtain ⟨datum, evaluated, evaluates, answers⟩ := outcome_bind_eq_ok.1 answers
        obtain ⟨others, _, later, equal⟩ := outcome_bind_eq_ok.1 answers
        cases equal
        obtain ⟨operand, _, taken, evaluates⟩ := outcome_bind_eq_ok.1 evaluates
        obtain ⟨held, rfl⟩ := outcome_demand_eq_ok.1 taken
        obtain ⟨operand, _, present, evaluates⟩ := outcome_bind_eq_ok.1 evaluates
        obtain ⟨rfl, rfl⟩ := outcome_demand_eq_ok.1 present
        exact .cons ⟨rfl, entry, position, operand, _, _, found, sourced, held, evaluates⟩
          (induction later)

theorem getElem?_foldl_insert
    {holds : Ref → Datum → Prop}
    {phis : List Ref}
    {data : List (Ref × Datum)}
    (all : List.Forall₂ (fun phi pair => pair.1 = phi ∧ holds phi pair.2) phis data)
    (distinct : phis.Nodup)
    (values : Std.HashMap Ref Datum) :
    (∀ ref ∉ phis,
      (data.foldl (fun values (phi, datum) => values.insert phi datum) values)[ref]? =
        values[ref]?) ∧
    ∀ phi ∈ phis, ∃ datum,
      (data.foldl (fun values (phi, datum) => values.insert phi datum) values)[phi]? =
        some datum ∧ holds phi datum := by
  induction all generalizing values with
  | nil => simp
  | @cons phi pair phis data first rest induction =>
      obtain ⟨phi', datum⟩ := pair
      obtain ⟨same, held⟩ := first
      change phi' = phi at same
      subst same
      rw [List.nodup_cons] at distinct
      obtain ⟨kept, given⟩ := induction distinct.2 (values.insert phi' datum)
      constructor
      · intro ref outside
        rw [List.mem_cons, not_or] at outside
        rw [List.foldl_cons, kept ref outside.2]
        simp [Std.HashMap.getElem?_insert, Ne.symm outside.1]
      · refine List.forall_mem_cons.2 ⟨⟨datum, ?_, held⟩, given⟩
        rw [List.foldl_cons, kept phi' distinct.1]
        simp

/-- Entering a block gives its phis their data and changes no other values. -/
theorem Scene.values_of_enter
    {values values' : Std.HashMap Ref Datum}
    {block source : Ref}
    {heap left : Heap}
    (distinct : (program.phis block).Nodup)
    (enters : outcome (Scene.enter ⟨program, settings, values⟩ block (some source)) heap =
      (.ok values', left)) :
    (∀ ref ∉ program.phis block, values'[ref]? = values[ref]?) ∧
      ∀ phi ∈ program.phis block, ∃ datum, values'[phi]? = some datum ∧
        Scene.Receives ⟨program, settings, values⟩ source phi datum := by
  rw [Scene.enter_some] at enters
  obtain ⟨data, _, answers, equal⟩ := outcome_bind_eq_ok.1 enters
  cases equal
  exact getElem?_foldl_insert (Scene.receives_of_incomingData answers) distinct values

end Machine

end ShaderIR

import ShaderIR.Proofs.Machine.Refinement
import ShaderIR.Proofs.Machine.Steady
import ShaderIR.Proofs.Revision.Trimming

/-!
# Operands that agree

Where a program is trimmed, a value that both programs have keeps its type and what it is.
So it agrees with itself if the second frame holds a datum of it that is linked with the one
in the first frame.  Constants and registers are the same for both runs.
-/

namespace ShaderIR.Machine

open Exec

variable {gone : Ref → Bool} {base link larger : Link} {program program' : Store}
  {settings settings' : Settings} {ref : Ref} {operand : Option Ref}
  {values values' : Std.HashMap Ref Datum} {entry entry' : Instruction}

/-! ## Constants -/

theorem linked_scalarDatum?
    {scalar : Scalar}
    {data : List UInt8}
    {datum : Datum}
    (read : scalarDatum? scalar data = some datum) :
    Linked link datum datum := by
  unfold scalarDatum? at read
  cases kind : scalar.kind with
  | bool =>
      rw [kind] at read
      obtain ⟨byte, -, rfl⟩ := Option.map_eq_some_iff.1 read
      exact .bool _
  | sint =>
      rw [kind] at read
      obtain ⟨number, -, rfl⟩ := Option.map_eq_some_iff.1 read
      exact .int _
  | uint =>
      rw [kind] at read
      obtain ⟨number, -, rfl⟩ := Option.map_eq_some_iff.1 read
      exact .uint _
  | float =>
      rw [kind] at read
      obtain ⟨number, -, rfl⟩ := Option.map_eq_some_iff.1 read
      exact .float _

theorem allLinked_readRepeated
    {read : List UInt8 → Option Datum}
    {width count : Nat}
    {data : List UInt8}
    {elements : List Datum}
    (each : ∀ {data datum}, read data = some datum → Linked link datum datum)
    (reads : readRepeated read width count data = some elements) :
    AllLinked link elements elements := by
  induction count generalizing data elements with
  | zero =>
      cases reads
      exact .nil
  | succ count induction =>
      obtain ⟨first, firstRead, reads⟩ := Option.bind_eq_some_iff.1 reads
      obtain ⟨rest, restRead, equal⟩ := Option.bind_eq_some_iff.1 reads
      cases equal
      exact .cons (each firstRead) (induction restRead)

mutual

/-- A constant is no handle, so its datum stands for itself. -/
theorem linked_constantDatum?
    {type : Ty}
    {data : List UInt8}
    {datum : Datum}
    (read : constantDatum? type data = some datum) :
    Linked link datum datum := by
  cases type with
  | scalar handle scalar => exact linked_scalarDatum? read
  | vector handle size scalar element =>
      obtain ⟨elements, reads, rfl⟩ := Option.map_eq_some_iff.1 read
      exact .aggregate (allLinked_readRepeated (fun read => linked_constantDatum? read) reads)
  | matrix handle columns scalar column =>
      obtain ⟨elements, reads, rfl⟩ := Option.map_eq_some_iff.1 read
      exact .aggregate (allLinked_readRepeated (fun read => linked_constantDatum? read) reads)
  | array handle element count =>
      obtain ⟨elements, reads, rfl⟩ := Option.map_eq_some_iff.1 read
      exact .aggregate (allLinked_readRepeated (fun read => linked_constantDatum? read) reads)
  | record handle members =>
      obtain ⟨elements, reads, rfl⟩ := Option.map_eq_some_iff.1 read
      exact .aggregate (allLinked_readMembers reads)
  | resource handle kind element =>
      cases read
      exact .aggregate .nil
  | rayQuery handle anyHit =>
      cases read
      exact .aggregate .nil

theorem allLinked_readMembers
    {members : List Ty}
    {data : List UInt8}
    {elements : List Datum}
    (reads : Ty.readMembers scalarDatum? .aggregate members data = some elements) :
    AllLinked link elements elements := by
  cases members with
  | nil =>
      cases reads
      exact .nil
  | cons member rest =>
      obtain ⟨first, firstRead, reads⟩ := Option.bind_eq_some_iff.1 reads
      obtain ⟨others, restRead, equal⟩ := Option.bind_eq_some_iff.1 reads
      cases equal
      exact .cons (linked_constantDatum? firstRead) (allLinked_readMembers restRead)

end

/-! ## Values of both programs -/

/-- Two frames hold linked data of a value, if the first one holds one. -/
def HoldsLinked (link : Link) (values values' : Std.HashMap Ref Datum) (ref ref' : Ref) : Prop :=
  ∀ datum, values[ref]? = some datum → ∃ datum', values'[ref']? = some datum' ∧
    Linked link datum datum'

theorem HoldsLinked.mono
    {ref' : Ref}
    (linked : HoldsLinked link values values' ref ref')
    (grows : link ≤ larger) :
    HoldsLinked larger values values' ref ref' := by
  intro datum found
  obtain ⟨datum', found', linkedDatum⟩ := linked datum found
  exact ⟨datum', found', linkedDatum.mono grows⟩

theorem HoldsLinked.follows_held
    {ref' : Ref}
    (linked : HoldsLinked link values values' ref ref')
    (cause cause' : Unsupported) :
    Follows Linked link
      (match values[ref]? with
        | some datum => pure datum
        | none => Exec.fail cause)
      (match values'[ref']? with
        | some datum => pure datum
        | none => Exec.fail cause') := by
  cases found : values[ref]? with
  | none => exact Follows.fail
  | some datum =>
      obtain ⟨datum', found', linkedDatum⟩ := linked datum found
      rw [found']
      exact Follows.pure linkedDatum

/-- Two runs of programs, the second one of which is the first one trimmed. -/
structure Alongside (base : Link) (program program' : Store) (settings settings' : Settings) :
    Prop where
  ages : program.Ages program'
  limit : settings.limit ≤ settings'.limit
  registers : settings'.registers = settings.registers
  linked : ∀ entry ∈ settings.registers, Linked base entry.2 entry.2

section Alongside

variable (alongside : Alongside base program program' settings settings') (above : base ≤ link)

include alongside above

theorem Alongside.follows_eval (linked : HoldsLinked link values values' ref ref) :
    Follows Linked link (Scene.eval ⟨program, settings, values⟩ ref)
      (Scene.eval ⟨program', settings', values'⟩ ref) := by
  unfold Scene.eval
  cases found : program.value? ref with
  | none => exact Follows.stuck
  | some value =>
      obtain ⟨value', found', type, -, id, becomes⟩ := alongside.ages.kept found
      rw [found']
      simp only [demand, pure_bind]
      cases kind : value.content with
      | constant data hash =>
          rw [kind] at becomes
          rw [show value'.content = .constant data hash from becomes, type]
          dsimp only
          refine Follows.demand fun datum read => ⟨datum, read, ?_⟩
          obtain ⟨type, -, read⟩ := Option.bind_eq_some_iff.1 read
          exact linked_constantDatum? read
      | undefined =>
          rw [kind] at becomes
          rw [show value'.content = .undefined from becomes, type]
          exact follows_zeroOf link value.type
      | register register =>
          rw [kind] at becomes
          rw [show value'.content = .register register from becomes, type, alongside.registers]
          dsimp only
          cases known : settings.registers.lookup register with
          | none => exact follows_zeroOf link value.type
          | some datum =>
              refine Follows.pure (Linked.mono above (alongside.linked (register, datum) ?_))
              exact mem_of_lookup known
      | function entry =>
          rw [kind] at becomes
          rw [show value'.content = .function entry from becomes]
          exact Follows.pure (.entity ref)
      | block owner members =>
          rw [kind] at becomes
          cases content : value'.content <;> rw [content] at becomes <;>
            simp only [Content.Becomes, reduceCtorEq] at becomes
          exact Follows.pure (.entity ref)
      | argument passing owner position =>
          rw [kind] at becomes
          rw [show value'.content = .argument passing owner position from becomes]
          exact linked.follows_held _ _
      | instruction entry =>
          rw [kind] at becomes
          cases content : value'.content <;> rw [content] at becomes <;>
            simp only [Content.Becomes, reduceCtorEq] at becomes
          exact linked.follows_held _ _

/-- A value agrees with itself. -/
theorem Alongside.agrees
    (present : ∀ ref, operand = some ref → (program.value? ref).isSome)
    (linked : ∀ ref, operand = some ref → HoldsLinked link values values' ref ref) :
    Agrees link ⟨program, settings, values⟩ ⟨program', settings', values'⟩ operand operand where
  eval := by
    intro larger grows
    cases operand with
    | none => exact Follows.stuck
    | some ref => exact alongside.follows_eval (le_trans above grows) ((linked ref rfl).mono grows)
  present := rfl
  block := alongside.ages.asBlock operand
  function := alongside.ages.asFunction operand
  type := by
    cases operand with
    | none => rfl
    | some ref => exact alongside.ages.typeOf (present ref rfl)

/-- An instruction does the same in both programs with operands that both have. -/
theorem Alongside.resembles_self
    (exact : link.exact)
    (linked : ValuesLinked gone link values values')
    (kept : ∀ operand, some operand ∈ entry.values →
      (program.value? operand).isSome ∧ gone operand = false) :
    Resembles link ⟨program, settings, values⟩ ⟨program', settings', values'⟩ entry entry where
  opcode := rfl
  operands := by
    refine List.forall₂_same.2 fun operand operandOf => alongside.agrees above ?_ ?_
    · rintro ref rfl
      exact (kept ref operandOf).1
    · rintro ref rfl datum found
      exact linked (kept ref operandOf).2 found
  compares := fun _ => exact

/-- If nothing is gone, this goes for all instructions. -/
theorem Alongside.resembles_of_coherent
    (coherent : program.Coherent)
    (exact : link.exact)
    (found : program.instruction? ref = some entry)
    (linked : ValuesLinked (fun _ => false) link values values') :
    Resembles link ⟨program, settings, values⟩ ⟨program', settings', values'⟩ entry entry := by
  refine alongside.resembles_self above exact linked fun operand operandOf => ⟨?_, rfl⟩
  have operandOf : some operand ∈ program.operands ref := by rwa [Store.operands, found]
  exact coherent.value?_isSome_of_operand operandOf

end Alongside

/-- The datum of a memory location is what the frame holds. -/
theorem Scene.outcome_eval_of_isLValue
    {scene : Scene}
    {heap left : Heap}
    {datum : Datum}
    (isLValue : scene.program.isLValue ref = true) :
    outcome (scene.eval ref) heap = (.ok datum, left) ↔
      scene.values[ref]? = some datum ∧ heap = left := by
  have held (cause : Unsupported) :
      outcome (match scene.values[ref]? with
        | some datum => pure datum
        | none => Exec.fail cause) heap = (.ok datum, left) ↔
        scene.values[ref]? = some datum ∧ heap = left := by
    cases scene.values[ref]? with
    | none => simp
    | some other => simp
  unfold Store.isLValue at isLValue
  unfold Scene.eval
  cases found : scene.program.value? ref with
  | none => simp [Store.content?, found] at isLValue
  | some value =>
      simp only [Store.content?, found, Option.map_some] at isLValue
      simp only [demand, pure_bind]
      cases kind : value.content with
      | argument passing owner position => exact held _
      | instruction entry => exact held _
      | _ => simp [kind] at isLValue

theorem Scene.Steady.getElem?_of_isLValue
    {datum : Datum}
    (steady : Scene.Steady ⟨program, settings, values⟩ ref datum)
    (isLValue : program.isLValue ref = true) :
    values[ref]? = some datum := by
  have isLocation : Store.isLValue (Scene.program ⟨program, settings, values⟩) ref =
      true := isLValue
  exact ((Scene.outcome_eval_of_isLValue isLocation).1 (steady {})).1

/-- Two memory locations of one type agree if they are linked. -/
theorem agrees_of_isLValue
    {ref' : Ref}
    (ages : program.Ages program')
    (isLValue : program.isLValue ref = true)
    (isLValue' : program.isLValue ref' = true)
    (isLValueLeft : program'.isLValue ref' = true)
    (type : program'.typeOf ref' = program.typeOf ref)
    (linked : HoldsLinked link values values' ref ref') :
    Agrees link ⟨program, settings, values⟩ ⟨program', settings', values'⟩ (some ref)
      (some ref') where
  eval := by
    intro larger grows heap heap' heaps datum left evaluates
    obtain ⟨found, rfl⟩ := (Scene.outcome_eval_of_isLValue isLValue).1 evaluates
    obtain ⟨datum', found', linkedDatum⟩ := linked datum found
    exact ⟨larger, datum', heap', le_refl larger,
      (Scene.outcome_eval_of_isLValue isLValueLeft).2 ⟨found', rfl⟩, heaps, linkedDatum.mono grows⟩
  present := rfl
  block := by
    simp [Store.asBlock, Option.filter, ages.isBlock, Store.isBlock_of_isLValue isLValue,
      Store.isBlock_of_isLValue isLValue']
  function := by
    simp [Store.asFunction, Option.filter, ages.isFunction, Store.isFunction_of_isLValue isLValue,
      Store.isFunction_of_isLValue isLValue']
  type := type

/-! ## Comparing references -/

/-- No zero is a reference. -/
theorem zero_ne_reference (type : Ty) (heap : Heap) (serial cell : Nat) (path : List Int) :
    (zero type heap).1 ≠ .reference serial cell path := by
  cases type with
  | scalar handle scalar =>
      rw [zero, zeroScalar]
      cases scalar.kind <;> simp
  | _ => simp [zero, Heap.newRayQuery]

/-- What is a reference is one whatever is in the heap. -/
theorem Scene.steady_of_reference
    {scene : Scene}
    {heap left : Heap}
    {serial cell : Nat}
    {path : List Int}
    (evaluates : outcome (scene.eval ref) heap = (.ok (.reference serial cell path), left)) :
    scene.Steady ref (.reference serial cell path) ∧ left = heap := by
  refine Scene.steady_of_zero (fun _ zeroes => ?_) evaluates
  obtain ⟨type, _, -, zeroes⟩ := outcome_bind_eq_ok.1 zeroes
  rw [outcome_make, Prod.mk.injEq, Except.ok.injEq] at zeroes
  exact absurd zeroes.1 (zero_ne_reference _ _ _ _ _)

theorem Scene.exists_outcome_zeroOf
    {type : Option Ty}
    {heap left : Heap}
    {datum : Datum}
    (zeroes : outcome (Scene.zeroOf type) heap = (.ok datum, left))
    (heap' : Heap) :
    ∃ datum' left', outcome (Scene.zeroOf type) heap' = (.ok datum', left') := by
  obtain ⟨type, _, demanded, -⟩ := outcome_bind_eq_ok.1 zeroes
  obtain ⟨rfl, -⟩ := outcome_demand_eq_ok.1 demanded
  exact ⟨_, _, rfl⟩

/-- What has a datum has one whatever is in the heap. -/
theorem Scene.exists_outcome_eval
    {scene : Scene}
    {heap left : Heap}
    {datum : Datum}
    (evaluates : outcome (scene.eval ref) heap = (.ok datum, left))
    (heap' : Heap) :
    ∃ datum' left', outcome (scene.eval ref) heap' = (.ok datum', left') := by
  unfold Scene.eval at evaluates ⊢
  cases found : scene.program.value? ref with
  | none =>
      rw [found] at evaluates
      cases evaluates
  | some value =>
      rw [found] at evaluates
      simp only [demand, pure_bind] at evaluates ⊢
      cases kind : value.content with
      | undefined =>
          rw [kind] at evaluates
          exact Scene.exists_outcome_zeroOf evaluates heap'
      | constant data hash =>
          rw [kind] at evaluates
          dsimp only at evaluates ⊢
          cases decoded : value.type.bind (constantDatum? · data) with
          | none =>
              rw [decoded] at evaluates
              cases evaluates
          | some given => exact ⟨given, heap', rfl⟩
      | register register =>
          rw [kind] at evaluates
          dsimp only at evaluates ⊢
          cases known : scene.settings.registers.lookup register with
          | none =>
              rw [known] at evaluates
              exact Scene.exists_outcome_zeroOf evaluates heap'
          | some given => exact ⟨given, heap', rfl⟩
      | function entry | block owner members => exact ⟨_, heap', rfl⟩
      | argument passing owner position | instruction entry =>
          rw [kind] at evaluates
          dsimp only at evaluates ⊢
          cases held : scene.values[ref]? with
          | none =>
              rw [held] at evaluates
              cases evaluates
          | some given => exact ⟨given, heap', rfl⟩

/-- An atomic operation that comes to an end has data for all of its value operands. -/
theorem Scene.exists_evalValues
    {scene : Scene}
    {type : Option Ty}
    {op : AtomicOp}
    {heap left : Heap}
    {datum : Datum}
    (answers : outcome (scene.atomic type op entry) heap = (.ok datum, left)) :
    1 + op.valueCount ≤ entry.values.length ∧ ∃ before after data,
      outcome (Scene.atomic.evalValues scene op entry.values) before = (.ok data, after) := by
  unfold Scene.atomic at answers
  dsimp only at answers
  split at answers
  · cases answers
  · rename_i enough
    refine ⟨Nat.le_of_not_lt enough, ?_⟩
    obtain ⟨base, _, -, answers⟩ := outcome_bind_eq_ok.1 answers
    obtain ⟨path, _, -, answers⟩ := outcome_bind_eq_ok.1 answers
    obtain ⟨target, _, -, answers⟩ := outcome_bind_eq_ok.1 answers
    cases target with
    | reference serial cell below =>
        obtain ⟨data, between, evaluates, rest⟩ := outcome_bind_eq_ok.1 answers
        exact ⟨_, between, data, evaluates⟩
    | buffer address =>
        cases path with
        | nil => cases answers
        | cons index rest =>
            cases rest with
            | nil =>
                obtain ⟨data, between, evaluates, rest⟩ := outcome_bind_eq_ok.1 answers
                exact ⟨_, between, data, evaluates⟩
            | cons second rest => cases answers
    | _ => cases answers

/-- The comparand of an instruction that comes to an end has a datum. -/
theorem Scene.exists_comparand
    {scene : Scene}
    {type : Option Ty}
    {heap left : Heap}
    {datum : Datum}
    (answers : outcome (scene.atomic type .compareExchange entry) heap = (.ok datum, left))
    (heap' : Heap) :
    ∃ operand, (entry.values.drop (entry.values.length - 2)).head? = some operand ∧
      ∃ datum' left', outcome (scene.evalPresent operand) heap' = (.ok datum', left') := by
  obtain ⟨enough, before, after, data, evaluates⟩ := Scene.exists_evalValues answers
  change outcome (List.mapM scene.evalPresent (entry.values.drop (entry.values.length - 2))) before
    = _ at evaluates
  have enough : 3 ≤ entry.values.length := enough
  cases compared : entry.values.drop (entry.values.length - 2) with
  | nil =>
      have short := congrArg List.length compared
      rw [List.length_drop, List.length_nil] at short
      omega
  | cons operand rest =>
      rw [compared, List.mapM_cons] at evaluates
      obtain ⟨datum, _, evaluated, -⟩ := outcome_bind_eq_ok.1 evaluates
      obtain ⟨ref, _, demanded, evaluated⟩ := outcome_bind_eq_ok.1 evaluated
      obtain ⟨rfl, -⟩ := outcome_demand_eq_ok.1 demanded
      exact ⟨some ref, rfl, Scene.exists_outcome_eval evaluated heap'⟩

/-- Where the second run compares with a reference, so does the first one. -/
theorem Resembles.comparesReference
    {scene scene' : Scene}
    (resembles : Resembles link scene scene' entry entry')
    {type : Option Ty}
    {heap heap' heap'' left : Heap}
    {datum : Datum}
    (heaps : link.Heaps heap heap')
    (answers : outcome (scene.atomic type .compareExchange entry) heap'' = (.ok datum, left))
    (opcode : entry.opcode = .atomic .compareExchange)
    (compares : scene'.ComparesReference entry') :
    scene.ComparesReference entry := by
  obtain ⟨operand, first, datum, left, evaluates⟩ := Scene.exists_comparand answers heap
  obtain ⟨-, operand', first', before, after, serial, cell, path, evaluated⟩ := compares
  have lengths := resembles.operands.length_eq
  have agree := List.forall₂_drop (entry.values.length - 2) resembles.operands
  have agrees : Agrees link scene scene' operand operand' := by
    rw [List.head?_eq_getElem?] at first
    obtain ⟨other, found, agrees⟩ := forall₂_getElem? agree first
    rw [lengths, ← List.head?_eq_getElem?, first'] at found
    cases found
    exact agrees
  obtain ⟨larger, datum', left', -, evaluates', -, linked⟩ :=
    agrees.eval link (le_refl link) heap heap' heaps datum left evaluates
  refine ⟨opcode, operand, first, ?_⟩
  obtain ⟨ref', _, demanded, evaluated⟩ := outcome_bind_eq_ok.1 evaluated
  obtain ⟨rfl, rfl⟩ := outcome_demand_eq_ok.1 demanded
  have evaluates' : outcome (scene'.eval ref') heap' = (.ok datum', left') := evaluates'
  cases ((Scene.steady_of_reference evaluated).1 heap').symm.trans evaluates'
  cases linked with
  | reference cells references places => exact ⟨heap, left, _, _, _, evaluates⟩

/-- An instruction that does not end the run comes to an end. -/
theorem State.exists_execute
    {state : State}
    {rest : List Ref}
    (goesOn : ∀ halt left, state.step program settings ≠ .halted halt left)
    (atRef : state.frame.rest = ref :: rest)
    (found : program.instruction? ref = some entry)
    (plain : IsPlain entry.opcode) :
    ∃ result left, outcome (Scene.execute ⟨program, settings, state.frame.values⟩ ref entry
      (state.steps + 1)) state.heap = (.ok result, left) := by
  obtain ⟨other, others, entry', atRef', found', within⟩ := State.exists_next goesOn
  have stepped := State.step_eq_perform atRef found within
  rw [State.perform_of_isPlain plain, State.after_eq] at stepped
  cases executed : outcome
    (Scene.execute ⟨program, settings, (state.advanced rest).frame.values⟩ ref
      entry (state.advanced rest).steps) (state.advanced rest).heap with
  | mk answer left =>
      cases answer with
      | ok result => exact ⟨result, left, executed⟩
      | error halt =>
          rw [executed] at stepped
          exact absurd stepped (goesOn _ _)

/-- Where the first run compares nothing with a reference, neither does the second one. -/
theorem Shadows.Matches.comparesNoReference
    {holds : Link → State → Prop}
    {state state' : State}
    (matched : Shadows.Matches gone base program program' settings holds state' state link)
    (resembles : ∀ {ref rest entry entry'}, state.frame.rest = ref :: rest →
      program.instruction? ref = some entry → program'.instruction? ref = some entry' →
      gone ref = false → entry'.opcode = .atomic .compareExchange →
      Resembles link ⟨program, settings, state.frame.values⟩
        ⟨program', settings', state'.frame.values⟩ entry entry')
    (compares : ComparesNoReference program settings state) :
    ComparesNoReference program' settings' state' := by
  intro ref rest' entry' atRef' found' compares'
  obtain ⟨other, rest, entry, atRef, found, kept⟩ := matched.kept
  have same : other = ref := by
    rw [matched.linked.frame.rest, atRef] at atRef'
    exact (List.cons.inj (by simpa [kept] using atRef')).1
  subst same
  have resembles := resembles atRef found found' kept compares'.1
  have opcode : entry.opcode = .atomic .compareExchange := by
    have same := resembles.opcode
    rw [compares'.1] at same
    exact Opcode.eq_of_withMerge_eq same.symm rfl
  have plain : IsPlain entry.opcode := by simp [opcode, IsPlain, Opcode.isTerminator]
  obtain ⟨result, left, executes⟩ := State.exists_execute matched.goesOn atRef found plain
  rw [Scene.execute, opcode] at executes
  obtain ⟨datum, _, answers, -⟩ := outcome_bind_eq_ok.1 executes
  exact compares atRef found
    (resembles.comparesReference matched.linked.heap answers opcode compares')

end ShaderIR.Machine

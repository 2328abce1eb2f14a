import ShaderIR.Proofs.Machine.Agreement
import ShaderIR.Proofs.Machine.Holding
import ShaderIR.Proofs.Promotion.Unwrapping

/-!
# Runs along chains of element references

The result of an element reference leads to the place of its base and from there along its
indices.  Neither the base nor the indices are computed again before the reference is, so this
is a law.  In static single assignment form a frame that has an element reference has all
that is on its chain, so the whole chain leads from the root to the place of the reference.
-/

namespace ShaderIR

namespace Machine

open Exec

variable {program : Store} {settings : Settings} {module : Nat}
  {function block gep base root ref : Ref} {indices indices' : List (Option Ref)}
  {path path' : List Int} {values values' : Std.HashMap Ref Datum} {entry : Instruction}
  {scene : Scene} {heap left : Heap}

/-! ## Paths -/

/-- Indices are numbers whatever is in the heap. -/
def Scene.Leads (scene : Scene) (indices : List (Option Ref)) (path : List Int) : Prop :=
  ∀ heap, outcome (scene.path indices) heap = (.ok path, heap)

/-- A zero that is a number is made without the heap. -/
theorem zero_of_isNumber
    {type : Ty}
    {datum : Datum}
    (isNumber : ∀ elements address, datum ≠ .aggregate elements ∧ datum ≠ .absent ∧
      datum ≠ .rayQuery address)
    (zeroes : (zero type heap).1 = datum) :
    zero type left = (datum, left) := by
  cases type with
  | scalar handle scalar => exact Prod.ext zeroes rfl
  | resource handle kind element => exact absurd zeroes.symm (isNumber [] 0).2.1
  | rayQuery handle anyHit => exact absurd zeroes.symm (isNumber [] _).2.2
  | _ => exact absurd zeroes.symm (isNumber _ 0).1

theorem toInteger_eq_ok
    {datum : Datum}
    {number : Int64}
    (integer : outcome (toInteger datum) heap = (.ok number, left)) :
    left = heap ∧ (∀ heap, outcome (toInteger datum) heap = (.ok number, heap)) ∧
      ∀ elements address, datum ≠ .aggregate elements ∧ datum ≠ .absent ∧
        datum ≠ .rayQuery address := by
  cases datum with
  | int _ | uint _ | bool _ | float _ =>
      cases integer
      exact ⟨rfl, fun _ => rfl, by simp⟩
  | _ =>
      obtain ⟨_, _, -, fails⟩ := outcome_bind_eq_ok.1 integer
      cases fails

/-- An index that is a number is one whatever is in the heap. -/
theorem Scene.steady_of_toInteger
    {datum : Datum}
    {number : Int64}
    {between : Heap}
    (evaluates : outcome (scene.eval ref) heap = (.ok datum, between))
    (integer : outcome (toInteger datum) between = (.ok number, left)) :
    scene.Steady ref datum ∧ between = heap := by
  obtain ⟨-, -, isNumber⟩ := toInteger_eq_ok integer
  refine Scene.steady_of_zero (fun _ zeroes => ?_) evaluates
  obtain ⟨type, _, demanded, made⟩ := outcome_bind_eq_ok.1 zeroes
  obtain ⟨typed, rfl⟩ := outcome_demand_eq_ok.1 demanded
  rw [outcome_make, Prod.mk.injEq, Except.ok.injEq] at made
  have always (heap : Heap) : zero type heap = (datum, heap) := zero_of_isNumber isNumber made.1
  rw [typed]
  refine ⟨fun heap => ?_, ?_⟩
  · change (Except.ok (zero type heap).1, (zero type heap).2) = _
    rw [always]
  · rw [← made.2, always]

theorem Scene.leads_of_path (evaluates : outcome (scene.path indices) heap = (.ok path, left)) :
    scene.Leads indices path ∧ left = heap := by
  induction indices generalizing heap path with
  | nil =>
      cases evaluates
      exact ⟨fun _ => rfl, rfl⟩
  | cons index rest induction =>
      obtain ⟨datum, between, evaluated, evaluates⟩ := outcome_bind_eq_ok.1 evaluates
      obtain ⟨number, _, integer, evaluates⟩ := outcome_bind_eq_ok.1 evaluates
      obtain ⟨others, _, later, equal⟩ := outcome_bind_eq_ok.1 evaluates
      obtain ⟨ref, _, demanded, evaluated⟩ := outcome_bind_eq_ok.1 evaluated
      obtain ⟨rfl, rfl⟩ := outcome_demand_eq_ok.1 demanded
      obtain ⟨steady, rfl⟩ := Scene.steady_of_toInteger evaluated integer
      obtain ⟨rfl, always, -⟩ := toInteger_eq_ok integer
      cases equal
      obtain ⟨leads, rfl⟩ := induction later
      refine ⟨fun heap => ?_, rfl⟩
      refine outcome_bind_eq_ok.2 ⟨datum, heap, steady heap, ?_⟩
      refine outcome_bind_eq_ok.2 ⟨number, heap, always heap, ?_⟩
      exact outcome_bind_eq_ok.2 ⟨others, heap, leads heap, rfl⟩

theorem Scene.Leads.append
    (leads : scene.Leads indices path)
    (leads' : scene.Leads indices' path') :
    scene.Leads (indices ++ indices') (path ++ path') := by
  intro heap
  induction indices generalizing path with
  | nil =>
      cases (leads heap)
      exact leads' heap
  | cons index rest induction =>
      obtain ⟨datum, between, evaluated, evaluates⟩ := outcome_bind_eq_ok.1 (leads heap)
      obtain ⟨number, between', integer, evaluates⟩ := outcome_bind_eq_ok.1 evaluates
      obtain ⟨others, _, later, equal⟩ := outcome_bind_eq_ok.1 evaluates
      obtain ⟨behind, same⟩ := Scene.leads_of_path later
      cases equal
      refine outcome_bind_eq_ok.2 ⟨datum, between, evaluated, ?_⟩
      refine outcome_bind_eq_ok.2 ⟨number, between', integer, ?_⟩
      refine outcome_bind_eq_ok.2 ⟨others ++ path', heap, ?_, rfl⟩
      rw [← same]
      exact induction behind

theorem Scene.Leads.congr
    (leads : Scene.Leads ⟨program, settings, values⟩ indices path)
    (same : ∀ index, some index ∈ indices → values'[index]? = values[index]?) :
    Scene.Leads ⟨program, settings, values'⟩ indices path := by
  intro heap
  have same : Scene.path ⟨program, settings, values'⟩ indices =
      Scene.path ⟨program, settings, values⟩ indices := by
    clear leads
    induction indices with
    | nil => rfl
    | cons index rest induction =>
        have first : Scene.evalPresent ⟨program, settings, values'⟩ index =
            Scene.evalPresent ⟨program, settings, values⟩ index := by
          cases index with
          | none => rfl
          | some index => exact Scene.eval_congr (same index List.mem_cons_self)
        rw [Scene.path, Scene.path, first,
          induction fun index member => same index (List.mem_cons_of_mem _ member)]
  rw [same]
  exact leads heap

/-! ## Element references -/

/-- An element reference leads from the place of its base along its indices. -/
theorem Scene.execute_gep
    {steps : Nat}
    {result : Option Datum}
    (opcode : entry.opcode = .gep)
    (operands : entry.values = some base :: indices) :
    outcome (scene.execute ref entry steps) heap = (.ok result, left) ↔
      ∃ serial cell below path, scene.Steady base (.reference serial cell below) ∧
        scene.Leads indices path ∧ result = some (heap.newReference cell (below ++ path)).1 ∧
        left = (heap.newReference cell (below ++ path)).2 := by
  have first : entry.operand? 0 = some (some base) := by
    rw [Instruction.operand?, ← List.getElem?_map]
    exact congrArg (·[0]?) operands
  rw [Scene.execute, opcode]
  dsimp only
  rw [Scene.operand, first, operands, List.drop_one, List.tail_cons]
  constructor
  · intro executes
    obtain ⟨_, _, given, located⟩ := outcome_bind_eq_ok.1 executes
    cases given
    obtain ⟨path, _, walked, referred⟩ := outcome_bind_eq_ok.1 located
    obtain ⟨leads, rfl⟩ := Scene.leads_of_path walked
    obtain ⟨place, _, found, made⟩ := outcome_bind_eq_ok.1 referred
    obtain ⟨datum, _, evaluates, given⟩ := outcome_bind_eq_ok.1 found
    cases datum with
    | reference serial cell below =>
        obtain ⟨steady, rfl⟩ := Scene.steady_of_reference evaluates
        cases given
        cases made
        exact ⟨serial, cell, below, path, steady, leads, rfl, rfl⟩
    | _ => cases given
  · rintro ⟨serial, cell, below, path, steady, leads, rfl, rfl⟩
    refine outcome_bind_eq_ok.2 ⟨some base, heap, rfl, ?_⟩
    refine outcome_bind_eq_ok.2 ⟨path, heap, leads heap, ?_⟩
    refine outcome_bind_eq_ok.2 ⟨(cell, below), heap, ?_, rfl⟩
    exact outcome_bind_eq_ok.2 ⟨_, heap, steady heap, rfl⟩

/-- Where a frame holds a result of an element reference, it leads from the place of its base. -/
def Addresses
    (program : Store)
    (settings : Settings)
    (gep : Ref)
    (values : Std.HashMap Ref Datum) : Prop :=
  ∀ datum, values[gep]? = some datum → ∃ base indices serial serial' cell below path,
    program.operands gep = some base :: indices ∧
    Scene.Steady ⟨program, settings, values⟩ base (.reference serial cell below) ∧
    Scene.Leads ⟨program, settings, values⟩ indices path ∧
    datum = .reference serial' cell (below ++ path)

/-- In the frames of a state, the element references of a function have led where they lead. -/
structure State.Addressed (program : Store) (settings : Settings) (function : Ref)
    (state : State) : Prop extends State.Contained program function state where
  addresses : ∀ gep ∈ program.traverse function, program.isGep gep = true →
    ∀ frame ∈ state.frames, frame.Has program function gep →
      Addresses program settings gep frame.values

theorem isPlain_of_isGep
    (isGep : program.isGep gep = true)
    (found : program.instruction? gep = some entry) :
    entry.opcode = .gep ∧ IsPlain entry.opcode := by
  have opcode : entry.opcode = .gep := by
    simpa [Store.opcode?, found] using Store.isGep_iff.1 isGep
  exact ⟨opcode, by simp [opcode, IsPlain, Opcode.isTerminator]⟩

section Sound

variable (sound : program.Sound module function)

include sound

/-- That an element reference leads where it does is a law. -/
theorem law_of_gep (member : gep ∈ program.traverse function) (isGep : program.isGep gep = true) :
    Law program function gep ((program.operands gep).filterMap id)
      (Addresses program settings gep) where
  plain := fun found => (isPlain_of_isGep isGep found).2
  earlier := by
    intro source isSource
    obtain ⟨_, operandOf, rfl⟩ := List.mem_filterMap.1 isSource
    exact (sound.serves member (Store.isPhi_of_isGep isGep) operandOf).precedes
  congr := by
    intro values values' same held datum found
    rw [same gep (.inl rfl)] at found
    obtain ⟨base, indices, serial, serial', cell, below, path, operands, steady, leads, equal⟩ :=
      held datum found
    have source {operand : Ref} (operandOf : some operand ∈ program.operands gep) :
        values'[operand]? = values[operand]? :=
      same operand (.inr (List.mem_filterMap.2 ⟨some operand, operandOf, rfl⟩))
    refine ⟨base, indices, serial, serial', cell, below, path, operands, steady.congr ?_,
      leads.congr ?_, equal⟩
    · exact source (by rw [operands]; exact List.mem_cons_self)
    · exact fun index indexed => source (by rw [operands]; exact List.mem_cons_of_mem _ indexed)

/-- Executing an element reference makes the law hold. -/
theorem addresses_of_execute
    {state next : State}
    {rest : List Ref}
    (member : gep ∈ program.traverse function)
    (isGep : program.isGep gep = true)
    (atGep : state.frame.rest = gep :: rest)
    (ran : state.step program settings = .running next) :
    Addresses program settings gep next.frame.values := by
  obtain ⟨base, indices, operands, -, -⟩ := Store.exists_operands_of_isGep sound.coherent
    sound.accepted sound.listed member isGep
  have goesOn : ∀ halt left, state.step program settings ≠ .halted halt left := by
    intro halt left stepped
    rw [ran] at stepped
    cases stepped
  obtain ⟨other, others, entry, atRef, found, within⟩ := State.exists_next goesOn
  cases atGep.symm.trans atRef
  obtain ⟨opcode, plain⟩ := isPlain_of_isGep isGep found
  rw [State.step_eq_perform atGep found within, State.perform_of_isPlain plain] at ran
  obtain ⟨result, heap, executes, equal⟩ := State.after_eq_running ran
  have values : entry.values = some base :: indices := by
    rwa [Store.operands, found] at operands
  obtain ⟨serial, cell, below, path, steady, leads, rfl, -⟩ :=
    (Scene.execute_gep opcode values).1 executes
  cases equal
  intro datum held
  have kept {operand : Ref} (operandOf : some operand ∈ program.operands gep) (datum : Datum) :
      (state.frame.values.insert gep datum)[operand]? = state.frame.values[operand]? := by
    have different : operand ≠ gep := by
      rintro rfl
      obtain ⟨home, -, within⟩ := sound.coherent.mem_traverse_iff.1 member
      exact Store.Precedes.irrefl sound.coherent
        ((sound.coherent.mem_members home operand).1 within)
        (sound.serves member (Store.isPhi_of_isGep isGep) operandOf).precedes
    simp [Std.HashMap.getElem?_insert, Ne.symm different]
  have equal : some (state.heap.newReference cell (below ++ path)).1 = some datum := by
    rw [← held]
    exact Std.HashMap.getElem?_insert_self.symm
  refine ⟨base, indices, serial, state.heap.serial, cell, below, path, operands, steady.congr ?_,
    leads.congr ?_, (Option.some.inj equal).symm⟩
  · exact kept (by rw [operands]; exact List.mem_cons_self) _
  · exact fun index indexed => kept (by rw [operands]; exact List.mem_cons_of_mem _ indexed) _

namespace State.Addressed

variable {state next : State}

theorem start
    {owner : Ref}
    {arguments : List Datum}
    {frame : Frame}
    (called : outcome (callFrame program settings owner arguments) heap = (.ok frame, left)) :
    State.Addressed program settings function { frame, heap := left } := by
  have starts : frame.Starts program settings owner := ⟨arguments, heap, left, called⟩
  refine ⟨.start sound.coherent sound.regular called, ?_⟩
  intro gep _ isGep other isFrame _ datum held
  cases List.mem_singleton.1 isFrame
  rw [starts.getElem?_of_isInstruction sound.regular (Store.isInstruction_of_isGep isGep)] at held
  cases held

theorem step
    (addressed : State.Addressed program settings function state)
    (ran : state.step program settings = .running next) :
    State.Addressed program settings function next := by
  have shifts := State.frames_of_step ran
  refine ⟨addressed.toContained.step sound.coherent sound.regular sound.ordered
    sound.listed ran, ?_⟩
  intro gep member isGep
  obtain ⟨home, reached, within⟩ := sound.coherent.mem_traverse_iff.1 member
  refine (law_of_gep sound member isGep).shifts_of_apart (fun none datum held => ?_)
    sound.coherent sound.regular sound.ordered sound.listed reached within
    (Store.isPhi_of_isGep isGep) shifts addressed.inside addressed.apart ?_
    (addressed.addresses gep member isGep)
  · rw [none] at held
    cases held
  · intro block values values' rest pending below same same' _
    have atGep : state.frame.rest = gep :: rest := by
      rw [(List.cons.inj same).1]
    have addresses := addresses_of_execute sound member isGep atGep ran
    rwa [(List.cons.inj same').1] at addresses

end State.Addressed

namespace State.Contained

variable {state : State}

/-- Where an instruction comes next, the results that it uses are there. -/
theorem has_of_operand
    (contained : State.Contained program function state)
    {user operand : Ref}
    {rest : List Ref}
    (member : user ∈ program.traverse function)
    (atUser : state.frame.rest = user :: rest)
    (operandOf : some operand ∈ program.operands user)
    (isInstruction : program.isInstruction operand = true) :
    operand ∈ program.traverse function ∧ state.frame.Has program function operand := by
  have inside := (contained.inside.each _ List.mem_cons_self).inside
  obtain ⟨block, reached, within⟩ := sound.coherent.mem_traverse_iff.1 member
  rw [atUser] at inside
  have behind : user ∈ program.afterPhis state.frame.block := inside.subset List.mem_cons_self
  have here := mem_instructions_of_mem_afterPhis behind
  cases ((sound.coherent.mem_members block user).1 within).symm.trans
    ((sound.coherent.mem_members state.frame.block user).1 here)
  have notPhi : program.isPhi user = false := sound.ordered.heads sound.listed reached behind
  have serves := sound.serves member notPhi operandOf
  obtain ⟨home, placed⟩ := Option.isSome_iff_exists.1 (serves.attached isInstruction)
  refine ⟨sound.mem_traverse_of_operand member notPhi operandOf isInstruction, ?_⟩
  have whole : state.frame =
      ⟨state.frame.block, state.frame.values, user :: rest, state.frame.pending⟩ := by
    rw [← atUser]
  rw [whole]
  exact Frame.has_of_precedes sound.coherent reached (inside.trans (List.dropWhile_suffix _))
    serves.precedes placed

/-- Where control moves on, the results that phis pick are there. -/
theorem has_of_draws
    (contained : State.Contained program function state)
    {target phi operand : Ref}
    (reached : program.Reached function state.frame.block)
    (moves : Moves program settings state target)
    (isPhi : phi ∈ program.phis target)
    (draws : Draws program state.frame.block phi (some operand))
    (notTerminator : program.isTerminator operand = false)
    (placed : program.blockOf? operand = some block) :
    state.frame.Has program function operand := by
  obtain ⟨ref, rest, entry, left, atRef, found, ends, answers⟩ := moves
  have inside := (contained.inside.each _ List.mem_cons_self).inside
  rw [atRef] at inside
  have edge := mem_successors_of_terminate sound.ordered sound.listed reached inside found ends
    answers
  obtain ⟨pairs, paired, -, given⟩ := sound.inForm.incomings (reached.tail edge) isPhi
  obtain ⟨_, ⟨⟩, -, available⟩ := given (draws.mem_incomings paired)
  have whole : state.frame =
      ⟨state.frame.block, state.frame.values, ref :: rest, state.frame.pending⟩ := by
    rw [← atRef]
  rw [whole]
  refine Frame.has_of_available sound.ordered sound.listed reached
    (inside.trans (List.dropWhile_suffix _)) ?_ notTerminator available placed
  simpa [Store.isTerminator, Store.opcode?, found] using ends

end State.Contained

/-- A chain leads from its root to the place of what it starts with. -/
theorem State.Addressed.unfolds
    {state : State}
    (addressed : State.Addressed program settings function state)
    {frame : Frame}
    (isFrame : frame ∈ state.frames)
    {path : List (Option Ref)}
    (unfolds : program.Unfolds ref root path)
    (has : program.isGep ref = true → ref ∈ program.traverse function ∧
      frame.Has program function ref)
    {serial cell : Nat}
    {below : List Int}
    (steady : Scene.Steady ⟨program, settings, frame.values⟩ ref (.reference serial cell below)) :
    ∃ serial' below' along,
      Scene.Steady ⟨program, settings, frame.values⟩ root (.reference serial' cell below') ∧
      Scene.Leads ⟨program, settings, frame.values⟩ path along ∧ below = below' ++ along := by
  induction unfolds generalizing serial below with
  | root notGep => exact ⟨serial, below, [], steady, fun _ => rfl, (List.append_nil below).symm⟩
  | @step gep base root indices path isGep operands rest induction =>
      obtain ⟨member, hasGep⟩ := has isGep
      have held := steady.getElem?_of_isLValue (Store.isLValue_of_isGep isGep)
      obtain ⟨base', indices', serial', _, cell', below', along, operands', steadyBase,
        leads, equal⟩ :=
        addressed.addresses gep member isGep frame isFrame hasGep _ held
      cases operands.symm.trans operands'
      cases equal
      have operandOf : some base ∈ program.operands gep := by
        rw [operands]
        exact List.mem_cons_self
      have inside := ((addressed.inside.each frame isFrame).inside.trans (List.dropWhile_suffix _))
      have hasBase (isGep' : program.isGep base = true) :
          base ∈ program.traverse function ∧ frame.Has program function base := by
        have isInstruction := Store.isInstruction_of_isGep isGep'
        have serves := sound.serves member (Store.isPhi_of_isGep isGep) operandOf
        obtain ⟨home, placed⟩ := Option.isSome_iff_exists.1 (serves.attached isInstruction)
        exact ⟨sound.mem_traverse_of_operand member (Store.isPhi_of_isGep isGep) operandOf
          isInstruction, hasGep.of_precedes sound.coherent inside serves.precedes placed⟩
      obtain ⟨serial'', below'', before, steadyRoot, leads', rfl⟩ := induction hasBase steadyBase
      exact ⟨serial'', below'', before ++ along, steadyRoot, leads'.append leads,
        List.append_assoc _ _ _⟩

end Sound

end Machine

end ShaderIR

import ShaderIR.Proofs.Elimination.CondensedRuns
import ShaderIR.Proofs.Elimination.FoldedRuns
import ShaderIR.Proofs.Promotion.ChainRuns

/-!
# Runs without the phis that merge a value

Where a frame holds a datum of a folded phi, it is that of the value which the phi gives way
to, if no phi draws an undefined value on the way.  Nothing has to be known of how control
comes to the function: from outside of it a folded phi draws its value, or the run does not
go on.  So a run finds the same in both places and is repeated without the phi.
-/

namespace ShaderIR

namespace Store

variable {store left : Store} {ref : Ref}

/-- What is undefined stays so, and nothing else gets undefined. -/
theorem Ages.isUndefined_eq (ages : store.Ages left) (present : (store.value? ref).isSome) :
    left.isUndefined ref = store.isUndefined ref := by
  rw [Bool.eq_iff_iff]
  refine ⟨fun undefined => ?_, ages.isUndefined⟩
  obtain ⟨content, found⟩ := Option.isSome_iff_exists.1 (content?_isSome_iff.2 present)
  obtain ⟨content', found', becomes⟩ := ages.content found
  rw [isUndefined_iff, found'] at undefined
  obtain rfl := Option.some.inj undefined
  rw [isUndefined_iff, found]
  cases content <;> simp_all [Content.Becomes]

end Store

namespace Machine

open Exec

/-- The next instruction does not look at the clock, and no phi draws an undefined value next. -/
def Definite : Condition := fun program settings state =>
  Timeless program settings state ∧
    ∀ {target phi operand}, Moves program settings state target → phi ∈ program.phis target →
      Draws program state.frame.block phi operand → program.isUndefinedOption operand = false

/-- A datum of a phi is that of a value, which is not undefined. -/
def Echoes
    (program : Store)
    (settings : Settings)
    (phi value : Ref)
    (values : Std.HashMap Ref Datum) : Prop :=
  ∀ datum, values[phi]? = some datum →
    Scene.Steady ⟨program, settings, values⟩ value datum ∧ program.isUndefined value = false

/-- A state from which a run is definite, and whose frames have a phi with the datum of a value. -/
structure State.Echoing (program : Store) (settings : Settings) (function phi value : Ref)
    (state : State) : Prop extends State.Contained program function state where
  echoes : ∀ frame ∈ state.frames, frame.Has program function phi →
    Echoes program settings phi value frame.values
  definite : ∀ visited, State.Visits program settings state visited →
    Definite program settings visited

variable {program left : Store} {settings settings' : Settings} {module : Nat}
  {function block source target phi value ref operand : Ref} {base link : Link}
  {values values' : Std.HashMap Ref Datum} {state next : State}

theorem State.Echoing.here (echoing : state.Echoing program settings function phi value) :
    Definite program settings state :=
  echoing.definite state .refl

/-- What a phi draws is one operand. -/
theorem Draws.unique
    {first second : Option Ref}
    (draws : Draws program source phi first)
    (draws' : Draws program source phi second) :
    first = second := by
  obtain ⟨entry, position, found, sourced, held⟩ := draws
  obtain ⟨_, _, found', sourced', held'⟩ := draws'
  cases found.symm.trans found'
  cases sourced.symm.trans sourced'
  exact Option.some.inj (held.symm.trans held')

/-- Where control moves on and the run does not halt, it enters the block. -/
theorem State.exists_enter
    (moves : Moves program settings state target)
    (goesOn : ∀ halt left, state.step program settings ≠ .halted halt left) :
    ∃ heap values' heap', outcome (Scene.enter ⟨program, settings, state.frame.values⟩ target
        (some state.frame.block)) heap = (.ok values', heap') ∧
      ∃ next, state.step program settings = .running next ∧ next.frame.block = target := by
  obtain ⟨ref, rest, entry, heap, atRef, found, ends, answers⟩ := moves
  obtain ⟨_, _, _, atRef', found', within⟩ := State.exists_next goesOn
  cases atRef.symm.trans atRef'
  cases found.symm.trans found'
  have answers : outcome
      (Scene.terminate ⟨program, settings, (state.advanced rest).frame.values⟩ entry)
      (state.advanced rest).heap = (.ok (.jump (some target)), heap) := answers
  have stepped : state.step program settings =
      State.jump program settings { state.advanced rest with heap := heap } (some target) := by
    rw [State.step_eq_perform atRef found within, State.perform]
    dsimp only
    rw [if_pos ends, State.after_eq, answers]
  unfold State.jump at stepped
  dsimp only at stepped
  rw [State.after_eq] at stepped
  refine ⟨heap, ?_⟩
  rcases run : outcome (Scene.enter ⟨program, settings, state.frame.values⟩ target
    (some state.frame.block)) heap with ⟨halt | values, heap'⟩
  · have run : outcome (Scene.enter ⟨program, settings, (state.advanced rest).frame.values⟩ target
        (some (state.advanced rest).frame.block)) heap = (.error halt, heap') := run
    rw [run] at stepped
    exact absurd stepped (goesOn _ _)
  · have run : outcome (Scene.enter ⟨program, settings, (state.advanced rest).frame.values⟩ target
        (some (state.advanced rest).frame.block)) heap = (.ok values, heap') := run
    rw [run] at stepped
    exact ⟨values, heap', rfl, _, stepped, rfl⟩

/-- A result has a datum where it is held. -/
theorem Scene.outcome_eval_of_isInstruction
    (scene : Scene)
    {heap left : Heap}
    {datum : Datum}
    (isInstruction : scene.program.isInstruction ref = true)
    (evaluates : outcome (scene.eval ref) heap = (.ok datum, left)) :
    scene.values[ref]? = some datum ∧ left = heap := by
  obtain ⟨entry, isEntry⟩ := Option.isSome_iff_exists.1 isInstruction
  obtain ⟨value, present, content⟩ :=
    Option.map_eq_some_iff.1 (Store.instruction?_eq_some_iff.1 isEntry)
  simp only [Scene.eval, present, demand, pure_bind, content] at evaluates
  cases found : scene.values[ref]? with
  | none =>
      rw [found] at evaluates
      cases evaluates
  | some held =>
      rw [found] at evaluates
      cases evaluates
      exact ⟨rfl, rfl⟩

section

variable (sound : program.Sound module function) (reached : program.Reached function block)
  (member : phi ∈ program.phis block) (folds : program.Folds function block phi value)

include sound member folds

theorem law_of_echoes : Law program function phi [value] (Echoes program settings phi value) where
  plain := (@law_of_folds program settings _ _ _ _ sound.coherent member folds).plain
  earlier := (@law_of_folds program settings _ _ _ _ sound.coherent member folds).earlier
  congr := by
    intro values values' same echoes datum found
    rw [same phi (.inl rfl)] at found
    obtain ⟨steady, defined⟩ := echoes datum found
    exact ⟨steady.congr (same value (.inr (List.mem_singleton_self value))), defined⟩

variable (numeric : program.NumericRegisters)

include numeric

/-- A folded phi gets the datum of its value when control comes to its block. -/
theorem echoes_of_enter
    {heap left : Heap}
    (defined : ∀ {operand}, Draws program source phi operand →
      program.isUndefinedOption operand = false)
    (again : Draws program source phi (some phi) → Echoes program settings phi value values)
    (enters : outcome (Scene.enter ⟨program, settings, values⟩ block (some source)) heap =
      (.ok values', left)) :
    Echoes program settings phi value values' := by
  have distinct : (program.phis block).Nodup :=
    (sound.coherent.membersDistinct block).sublist (List.takeWhile_sublist _)
  obtain ⟨unchanged, given⟩ := Scene.values_of_enter distinct enters
  obtain ⟨datum, found, entry, position, operand, heap', left', known, sourced, taken, evaluates⟩ :=
    given phi member
  have draws : Draws program source phi (some operand) := ⟨entry, position, known, sourced, taken⟩
  have kept : values'[value]? = values[value]? := by
    refine unchanged value fun isPhi => ?_
    exact (folds.strictly ((sound.coherent.mem_members block value).1
      (Store.mem_instructions_of_mem_phis isPhi))).2 rfl
  intro other held
  cases found.symm.trans held
  obtain ⟨pairs, paired, merges⟩ := folds.merges
  rcases merges _ (draws.mem_incomings paired) with same | same | undefined
  · cases same
    have notUndefined : program.isUndefined value = false := defined draws
    have steady : Scene.Steady ⟨program, settings, values⟩ value datum :=
      (Scene.steady_of_eval numeric notUndefined evaluates).1
    exact ⟨steady.congr kept, notUndefined⟩
  · -- The phi has had the datum of the value before.
    cases same
    have linked := (sound.coherent.mem_members block phi).1
      (Store.mem_instructions_of_mem_phis member)
    have isInstruction := Store.isInstruction_of_linked (Option.isSome_of_eq_some linked)
    have before : values[phi]? = some datum :=
      (Scene.outcome_eval_of_isInstruction ⟨program, settings, values⟩ isInstruction
        evaluates).1
    obtain ⟨steady, notUndefined⟩ := again draws datum before
    exact ⟨steady.congr kept, notUndefined⟩
  · rw [defined draws] at undefined
    cases undefined

include reached

omit folds numeric in
/-- Where a phi is drawn, its datum is that of its value. -/
theorem State.Echoing.echoes_of_draws
    (echoing : State.Echoing program settings function phi value state)
    {user : Ref}
    (moves : Moves program settings state target)
    (isPhi : user ∈ program.phis target)
    (draws : Draws program state.frame.block user (some phi)) :
    Echoes program settings phi value state.frame.values := by
  have inBlock := Store.mem_instructions_of_mem_phis member
  by_cases inside : program.Reached function state.frame.block
  · refine echoing.echoes _ List.mem_cons_self ?_
    exact echoing.toContained.has_of_draws sound inside moves isPhi draws
      (Store.isTerminator_of_isPhi (Store.isPhi_of_mem_phis member))
      ((sound.coherent.mem_members block phi).1 inBlock)
  · intro datum held
    rw [echoing.apart _ List.mem_cons_self inside reached inBlock] at held
    cases held

omit folds numeric in
/-- Where an instruction comes next that uses a phi, the datum of the phi is that of its value. -/
theorem State.Echoing.echoes_of_operand
    (echoing : State.Echoing program settings function phi value state)
    {user : Ref}
    {rest : List Ref}
    (atUser : state.frame.rest = user :: rest)
    (operandOf : some phi ∈ program.operands user) :
    Echoes program settings phi value state.frame.values := by
  have inBlock := Store.mem_instructions_of_mem_phis member
  by_cases inside : program.Reached function state.frame.block
  · refine echoing.echoes _ List.mem_cons_self ?_
    have behind := (echoing.inside.each _ List.mem_cons_self).inside
    rw [atUser] at behind
    have here := mem_instructions_of_mem_afterPhis (behind.subset List.mem_cons_self)
    refine (echoing.toContained.has_of_operand sound
      (sound.coherent.mem_traverse_iff.2 ⟨_, inside, here⟩) atUser operandOf ?_).2
    exact Store.isInstruction_of_linked
      (Option.isSome_of_eq_some ((sound.coherent.mem_members block phi).1 inBlock))
  · intro datum held
    rw [echoing.apart _ List.mem_cons_self inside reached inBlock] at held
    cases held

namespace State.Echoing

omit reached folds numeric in
theorem start
    {owner : Ref}
    {arguments : List Datum}
    {heap left : Heap}
    {frame : Frame}
    (called : outcome (callFrame program settings owner arguments) heap = (.ok frame, left))
    (definite : ∀ visited, State.Visits program settings { frame, heap := left } visited →
      Definite program settings visited) :
    State.Echoing program settings function phi value { frame, heap := left } := by
  have starts : frame.Starts program settings owner := ⟨arguments, heap, left, called⟩
  refine ⟨.start sound.coherent sound.regular called, ?_, definite⟩
  intro other isFrame _ datum held
  cases List.mem_singleton.1 isFrame
  have linked := (sound.coherent.mem_members block phi).1
    (Store.mem_instructions_of_mem_phis member)
  rw [starts.getElem?_of_isInstruction sound.regular
    (Store.isInstruction_of_linked (Option.isSome_of_eq_some linked))] at held
  cases held

theorem step
    (echoing : State.Echoing program settings function phi value state)
    (ran : state.step program settings = .running next) :
    State.Echoing program settings function phi value next := by
  have shifts := State.frames_of_step ran
  have inBlock := Store.mem_instructions_of_mem_phis member
  have linked := (sound.coherent.mem_members block phi).1 inBlock
  -- Wherever control comes to the phi from, it gets the datum of its value.
  have arrives {source values values' executed rest pending entry below left left'}
      (same : state.frames = ⟨source, values, executed :: rest, pending⟩ :: below)
      (found : program.instruction? executed = some entry)
      (ends : entry.opcode.isTerminator = true)
      (answers : outcome (Scene.terminate ⟨program, settings, values⟩ entry) state.heap =
        (.ok (.jump (some block)), left))
      (enters : outcome (Scene.enter ⟨program, settings, values⟩ block (some source)) left =
        (.ok values', left')) :
      Echoes program settings phi value values' := by
    obtain ⟨isFrame, -⟩ := List.cons.inj same
    have moves : Moves program settings state block := by
      refine ⟨executed, rest, entry, left, ?_, found, ends, ?_⟩
      · rw [isFrame]
      · rw [isFrame]
        exact answers
    have defined {operand : Option Ref} (draws : Draws program source phi operand) :
        program.isUndefinedOption operand = false := by
      have draws : Draws program state.frame.block phi operand := by rwa [isFrame]
      exact echoing.here.2 moves member draws
    refine echoes_of_enter sound member folds numeric defined (fun draws => ?_) enters
    have echoes := echoing.echoes_of_draws sound reached member moves member
      (by rwa [isFrame])
    rwa [isFrame] at echoes
  refine ⟨echoing.toContained.step sound.coherent sound.regular sound.ordered sound.listed ran, ?_,
    fun visited visits => echoing.definite visited (.head ran visits)⟩
  refine (law_of_echoes sound member folds).shifts sound.coherent sound.ordered sound.listed shifts
    echoing.inside ?_ ?_ ?_ ?_ echoing.echoes
  · intro owner frame _ starts _ datum held
    rw [starts.getElem?_of_isInstruction sound.regular
      (Store.isInstruction_of_linked (Option.isSome_of_eq_some linked))] at held
    cases held
  · intro source target values values' executed rest pending entry below left left' same outside _
      found ends answers enters
    by_cases here : target = block
    · subst here
      exact arrives same found ends answers enters
    · -- From outside of the function control brings no datum of the phi along.
      intro datum held
      have distinct : (program.phis target).Nodup :=
        (sound.coherent.membersDistinct target).sublist (List.takeWhile_sublist _)
      have kept : values'[phi]? = values[phi]? := by
        refine (Scene.values_of_enter distinct enters).1 phi fun isPhi => ?_
        cases linked.symm.trans ((sound.coherent.mem_members target phi).1
          (Store.mem_instructions_of_mem_phis isPhi))
        exact here rfl
      have none : values[phi]? = none :=
        echoing.apart ⟨source, values, executed :: rest, pending⟩
          (same ▸ List.mem_cons_self) outside
          reached inBlock
      rw [kept, none] at held
      cases held
  · -- A phi is not executed.
    intro place values values' rest pending below same _ placeReached
    have top := echoing.inside.each _ (same ▸ List.mem_cons_self)
    have isPhi := sound.ordered.heads sound.listed placeReached
      (top.inside.subset List.mem_cons_self)
    rw [Store.isPhi_of_mem_phis member] at isPhi
    cases isPhi
  · intro source target values values' executed rest pending entry below left left' same _ _ isPhi
      found ends answers enters
    cases linked.symm.trans ((sound.coherent.mem_members target phi).1
      (Store.mem_instructions_of_mem_phis isPhi))
    exact arrives same found ends answers enters

end State.Echoing

end

/-! ## What a condensed program does -/

section

variable {gone : List Ref} {become : Ref → Ref} {holds : Link → State → Prop} {state' : State}

/-- What phis draw next in a condensed program is defined, if what operands become is. -/
theorem Definite.condensed
    (condenses : program.Condenses gone become left)
    (coherent : program.Coherent)
    (regular : program.Regular)
    (alongside : Alongside base program left settings settings')
    (carries : Carries gone become base program left settings settings' holds)
    (matched : Shadows.Matches (fun ref => decide (ref ∈ gone)) base program left settings holds
      state' state link)
    (definite : Definite program settings state)
    (others : ∀ {target phi former}, Moves program settings state target →
      phi ∈ program.phis target → Draws program state.frame.block phi (some former) →
      become former ≠ former → left.isUndefined (become former) = false) :
    Definite left settings' state' := by
  have shadows := condenses.shadows coherent alongside carries regular
  refine ⟨fun atRef => matched.timeless shadows atRef, ?_⟩
  intro target phi operand moves' isPhi draws'
  have moves := matched.moves shadows moves'
  have tracked : Tracked (fun ref => decide (ref ∈ gone)) program left target := by
    obtain ⟨_, _, _, -, next, ran, rfl⟩ := State.exists_enter moves matched.goesOn
    exact carries.tracked (matched.ahead next ran)
  rw [tracked.phis, List.mem_filter] at isPhi
  obtain ⟨isPhi, kept⟩ := isPhi
  have kept : phi ∉ gone := by simpa using kept
  have member := Store.mem_instructions_of_mem_phis isPhi
  have linked := Option.isSome_of_eq_some ((coherent.mem_members target phi).1 member)
  obtain ⟨entry', position, found', sourced, taken'⟩ := draws'
  rw [condenses.instruction? kept linked] at found'
  obtain ⟨entry, found, rfl⟩ := Option.map_eq_some_iff.1 found'
  have taken : (entry.values.map (Option.map become))[position]? = some operand := by
    rwa [← Instruction.values_becoming, Instruction.values, List.getElem?_map]
  rw [List.getElem?_map] at taken
  obtain ⟨former, taken, rfl⟩ := Option.map_eq_some_iff.1 taken
  have draws : Draws program state.frame.block phi former := by
    refine ⟨entry, position, found, ?_, ?_⟩
    · rwa [← matched.linked.frame.block]
    · rwa [Instruction.operand?, ← List.getElem?_map]
  have defined := definite.2 moves isPhi draws
  cases former with
  | none => exact defined
  | some former =>
      by_cases same : become former = former
      · have present := Store.present_of_mem_operands coherent draws.mem_operands
        rw [Option.map_some, same]
        exact (condenses.trims.ages.isUndefined_eq present).trans defined
      · exact others moves isPhi draws same

end

end Machine

namespace Store

open Machine

variable {store left : Store} {settings settings' : Settings} {module : Nat}
  {function block phi value : Ref} {base link : Link} {state : State}
  {values values' : Std.HashMap Ref Datum}

section

variable (condenses : store.Condenses [phi] (Ref.instead phi value) left)
  (sound : store.Sound module function) (reached : store.Reached function block)
  (member : phi ∈ store.phis block) (folds : store.Folds function block phi value)
  (numeric : store.NumericRegisters)
  (sameType : left.typeOf value = store.typeOf phi)
  (notBlock : left.isBlock value = false) (notFunction : left.isFunction value = false)

include sound member folds sameType notBlock notFunction

/-- A folded phi agrees with its value where their data are the same. -/
theorem Folds.agrees
    (alongside : Alongside base store left settings settings')
    (echoes : Echoes store settings phi value values)
    (above : base ≤ link)
    (linked : ValuesLinked (fun ref => decide (ref ∈ [phi])) link values values') :
    Agrees link ⟨store, settings, values⟩ ⟨left, settings', values'⟩ (some phi)
      (some (Ref.instead phi value phi)) := by
  have inBlock := mem_instructions_of_mem_phis member
  have isInstruction := isInstruction_of_linked
    (Option.isSome_of_eq_some ((sound.coherent.mem_members block phi).1 inBlock))
  obtain ⟨entry, isEntry⟩ := Option.isSome_iff_exists.1 isInstruction
  have content := instruction?_eq_some_iff.1 isEntry
  rw [Ref.instead_old]
  refine ⟨?_, rfl, ?_, ?_, sameType⟩
  · intro larger grows heap heap' heaps datum final evaluates
    obtain ⟨held, rfl⟩ :=
      Scene.outcome_eval_of_isInstruction ⟨store, settings, values⟩ isInstruction evaluates
    have same : HoldsLinked larger values values' value value := by
      intro datum found
      obtain ⟨datum', found', linkedDatum⟩ := linked (by simpa using folds.different) found
      exact ⟨datum', found', linkedDatum.mono grows⟩
    exact alongside.follows_eval (le_trans above grows) same _ _ heaps _ _
      ((echoes datum held).1 final)
  · have plain : store.isBlock phi = false := by simp [isBlock, content]
    simp [asBlock, Option.filter, plain, notBlock]
  · have plain : store.isFunction phi = false := by simp [isFunction, function?, content]
    simp [asFunction, Option.filter, plain, notFunction]

include condenses reached numeric

/-- What a run has to say of its states, so that it goes on without a folded phi. -/
theorem Folds.carries
    (alongside : Alongside base store left settings settings')
    (exact : base.exact) :
    Carries [phi] (Ref.instead phi value) base store left settings settings'
      (fun _ => State.Echoing store settings function phi value) where
  tracked := by
    refine fun _ => condenses.tracked sound.coherent (Store.Condenses.first_of_heads ?_)
    rintro ⟨lost, isLost, inside⟩
    cases List.mem_singleton.1 isLost
    cases ((sound.coherent.mem_members block phi).1
      (mem_instructions_of_mem_phis member)).symm.trans
      ((sound.coherent.mem_members _ phi).1 inside)
    exact fun ref behind => sound.ordered.heads sound.listed reached behind
  inside := fun echoing => echoing.inside
  timeless := fun echoing => echoing.here.1
  compares := fun _ _ _ _ _ => exact
  uses := by
    intro _ state ref rest operand echoing atRef _ operandOf different link values' above linked
    cases Ref.eq_of_instead_ne different
    exact folds.agrees sound member sameType notBlock notFunction alongside
      (echoing.echoes_of_operand sound reached member atRef operandOf) above linked
  merges := by
    intro _ state target user operand echoing moves isPhi _ draws different link
      values' above linked
    cases Ref.eq_of_instead_ne different
    exact folds.agrees sound member sameType notBlock notFunction alongside
      (echoing.echoes_of_draws sound reached member moves isPhi draws) above linked
  dropped := by
    intro _ state ref rest entry echoing atRef _ lost
    cases List.mem_singleton.1 lost
    -- A phi is not executed.
    have behind := (echoing.inside.each _ List.mem_cons_self).inside.subset
      (show phi ∈ state.frame.rest from atRef ▸ List.mem_cons_self)
    cases ((sound.coherent.mem_members block phi).1
      (mem_instructions_of_mem_phis member)).symm.trans
      ((sound.coherent.mem_members _ phi).1 (mem_instructions_of_mem_afterPhis behind))
    have notPhi := sound.ordered.heads sound.listed reached behind
    rw [isPhi_of_mem_phis member] at notPhi
    cases notPhi
  preserved := fun echoing _ _ ran _ _ => echoing.step sound reached member folds numeric ran

/-- A run is repeated without a folded phi, which its value takes the place of. -/
theorem Folds.refines : Refines Definite store left := by
  refine condenses.refines sound.coherent sound.regular True
    (fun settings _ => State.Echoing store settings function phi value)
    (fun alongside exact _ => folds.carries condenses sound reached member numeric sameType notBlock
      notFunction alongside (exact ▸ trivial)) ?_
    (fun called _ definite => .start sound member called definite)
  intro settings settings' base link state state' alongside carries matched
  refine matched.held.here.condensed condenses sound.coherent sound.regular alongside
    carries matched
    fun {target user former} moves isPhi draws different => ?_
  cases Ref.eq_of_instead_ne different
  -- The phi was drawn, so it has a datum, which is that of a defined value.
  obtain ⟨heap, values, heap', enters, -⟩ := State.exists_enter moves matched.goesOn
  have distinct : (store.phis target).Nodup :=
    (sound.coherent.membersDistinct target).sublist (List.takeWhile_sublist _)
  obtain ⟨datum, -, entry, position, operand, before, after, found, sourced, taken, evaluates⟩ :=
    (Scene.values_of_enter distinct enters).2 user isPhi
  cases draws.unique ⟨entry, position, found, sourced, taken⟩
  have linked := (sound.coherent.mem_members block phi).1 (mem_instructions_of_mem_phis member)
  obtain ⟨held, -⟩ := Scene.outcome_eval_of_isInstruction ⟨store, settings, state.frame.values⟩
    (isInstruction_of_linked (Option.isSome_of_eq_some linked)) evaluates
  obtain ⟨steady, defined⟩ :=
    matched.held.echoes_of_draws sound reached member moves isPhi draws datum held
  have present : (store.value? value).isSome := by
    by_contra absent
    rw [Option.not_isSome_iff_eq_none] at absent
    have wrong := steady {}
    rw [Scene.eval, absent] at wrong
    cases wrong
  rw [Ref.instead_old]
  exact (condenses.trims.ages.isUndefined_eq present).trans defined

end

end Store

end ShaderIR

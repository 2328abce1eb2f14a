import ShaderIR.Proofs.Elimination.CondensedRuns
import ShaderIR.Proofs.Layout.Typing
import ShaderIR.Proofs.Machine.Ending
import ShaderIR.Proofs.Machine.Parts
import ShaderIR.Proofs.Promotion.ChainRuns

/-!
# Runs over flattened chains

An element reference that gets the root of its chain as base leads to the same place as
before.  One that gives way to its base leads to the place of the base as well, but with the
serial number of the base: whoever compares references can tell the two apart.  So each step
of flattening keeps what runs do, unless an element reference gives way and the run compares
something with a reference.
-/

namespace ShaderIR

namespace Machine

open Exec Store

/-- The next instruction does not look at the clock, and does not tell references apart if those
are loose. -/
def Heedless (loose : Prop) : Condition := fun program settings state =>
  Timeless program settings state ∧ (loose → ComparesNoReference program settings state)

/-- A state from which a run is heedless, and whose element references have led where they lead. -/
structure State.Ambles (loose : Prop) (program : Store) (settings : Settings) (function : Ref)
    (state : State) : Prop where
  addressed : state.Addressed program settings function
  heedless : ∀ visited, State.Visits program settings state visited →
    Heedless loose program settings visited

variable {loose : Prop} {program left : Store} {settings settings' : Settings} {module : Nat}
  {function gep root ref : Ref} {path : List (Option Ref)} {state next : State} {base link : Link}
  {values' : Std.HashMap Ref Datum}

theorem State.Ambles.here (ambles : state.Ambles loose program settings function) :
    Heedless loose program settings state :=
  ambles.heedless state .refl

theorem State.Ambles.step
    (ambles : state.Ambles loose program settings function)
    (sound : program.Sound module function)
    (ran : state.step program settings = .running next) :
    next.Ambles loose program settings function where
  addressed := ambles.addressed.step sound ran
  heedless := fun visited visits => ambles.heedless visited (.head ran visits)

end Machine

namespace Store

open Machine

variable {loose : Prop} {store left : Store} {settings settings' : Settings} {module : Nat}
  {function gep root ref : Ref} {path : List (Option Ref)} {state : State} {base link : Link}
  {values' : Std.HashMap Ref Datum}

/-- A condensed program repeats the heedless runs that it follows. -/
theorem Condenses.refines_of_ambles
    {gone : List Ref}
    {become : Ref → Ref}
    (condenses : store.Condenses gone become left)
    (sound : store.Sound module function)
    (exact : Prop)
    (carries : ∀ {settings settings' base}, (exact → base.exact) →
      (¬exact → ∀ serial serial', base.references serial serial') →
      Carries gone become base store left settings settings'
        (fun _ => State.Ambles loose store settings function)) :
    Refines (Heedless loose) store left := by
  refine condenses.refines sound.coherent sound.regular exact
    (fun settings _ => State.Ambles loose store settings function)
    (fun _ isExact => carries isExact.mpr) ?_ fun called _ heedless =>
      ⟨State.Addressed.start sound called, heedless⟩
  intro settings settings' base link state state' alongside carries matched
  have shadows := condenses.shadows sound.coherent alongside carries sound.regular
  exact ⟨fun atRef => matched.timeless shadows atRef, fun isLoose =>
    condenses.comparesNoReference sound.coherent alongside carries matched
      (matched.held.here.2 isLoose)⟩

/-! ## A new base -/

namespace Retraces

variable (retraces : store.Retraces function gep root path left)

include retraces

theorem instruction?_left_of_ne (different : ref ≠ gep) :
    left.instruction? ref = store.instruction? ref := by
  obtain ⟨slots, values, rebases⟩ := retraces.rebases
  exact rebases.instruction?_of_ne different

theorem ages_left : store.Ages left := by
  obtain ⟨slots, values, rebases⟩ := retraces.rebases
  exact rebases.trims.ages

variable (sound : store.Sound module function)

include sound

/-- An element reference leads to the same place from the root of its chain. -/
theorem mirrors
    (addressed : state.Addressed store settings function)
    {rest : List Ref}
    {entry : Instruction}
    {slots : List Slot}
    (atGep : state.frame.rest = gep :: rest)
    (found : store.instruction? gep = some entry)
    (values : slots.map (·.value) = some root :: path) :
    Scene.Mirrors ⟨store, settings, state.frame.values⟩ gep entry
      { entry with operands := slots } := by
  obtain ⟨opcode, plain⟩ := isPlain_of_isGep retraces.isGep found
  refine .inr ⟨plain, rfl, fun heap steps result left executes => ?_⟩
  cases retraces.unfolds with
  | root notGep =>
      rw [retraces.isGep] at notGep
      cases notGep
  | @step _ base _ indices path _ operands along =>
      have given : entry.values = some base :: indices := by
        rwa [Store.operands, found] at operands
      obtain ⟨serial, cell, below, behind, steady, leads, rfl, rfl⟩ :=
        (Scene.execute_gep opcode given).1 executes
      -- What is on the chain has its result before the reference is executed.
      have has (isGep : store.isGep base = true) : base ∈ store.traverse function ∧
          state.frame.Has store function base :=
        addressed.toContained.has_of_operand sound retraces.member atGep
          (by rw [operands]; exact List.mem_cons_self) (isInstruction_of_isGep isGep)
      obtain ⟨serial', below', ahead, steady', leads', rfl⟩ :=
        addressed.unfolds sound List.mem_cons_self along has steady
      have retraced : Instruction.values { entry with operands := slots } =
          some root :: (path ++ indices) := values
      have same : Instruction.opcode { entry with operands := slots } = .gep := opcode
      refine (Scene.execute_gep same retraced).2
        ⟨serial', cell, below', ahead ++ behind, steady', leads'.append leads, ?_⟩
      rw [List.append_assoc]
      exact ⟨rfl, rfl⟩

theorem shadows (alongside : Alongside base store left settings settings') (exact : base.exact) :
    Shadows (fun _ => false) base store left settings settings'
      (fun _ => State.Ambles loose store settings function) where
  limit := alongside.limit
  functions := alongside.ages.function?
  parameters := by
    intro function entry found parameter member
    obtain ⟨passing, owner, position, isArgument⟩ := sound.regular.arguments found parameter member
    rw [Store.isLValue, Store.isLValue, isArgument, alongside.ages.argument_iff.2 isArgument]
  tracked := by
    intro _ state _
    obtain ⟨slots, values, rebases⟩ := retraces.rebases
    exact ⟨by simp [rebases.phis], by simp [rebases.afterPhis]⟩
  executed := by
    intro _ state ref rest entry ambles atRef found _
    refine ⟨fun isClock => ?_, ?_, ?_⟩
    · exact ambles.here.1 atRef (by rw [Store.opcode?, found, ← isClock]; rfl)
    · exact alongside.ages.typeOf (value?_isSome_of_instruction? found)
    · by_cases same : ref = gep
      · subst same
        obtain ⟨slots, values, rebases⟩ := retraces.rebases
        refine ⟨{ entry with operands := slots }, { entry with operands := slots },
          retraces.mirrors sound ambles.addressed atRef found values, ?_, fun above linked => ?_⟩
        · rw [rebases.instruction?, found, Option.map_some, if_pos rfl]
        · refine alongside.resembles_self above (above.2 exact) linked fun operand
            operandOf => ⟨?_, rfl⟩
          have along := retraces.unfolds.pools sound.coherent
            (value?_isSome_of_isGep retraces.isGep)
          exact (along operand (values ▸ operandOf)).1
      · refine ⟨entry, entry, .inl rfl, (retraces.instruction?_left_of_ne same).trans found,
          fun above linked => ?_⟩
        exact alongside.resembles_of_coherent above sound.coherent (above.2 exact) found linked
  incoming := by
    intro _ state target phi ambles moves _ isPhi _ link values' above linked entry position operand
      found sourced taken
    have different : phi ≠ gep := by
      rintro rfl
      have notPhi := isPhi_of_isGep retraces.isGep
      rw [isPhi_of_mem_phis isPhi] at notPhi
      cases notPhi
    have draws : Draws store state.frame.block phi operand :=
      ⟨entry, position, found, sourced, taken⟩
    refine ⟨entry, position, operand, (retraces.instruction?_left_of_ne different).trans found,
      sourced, taken, alongside.agrees above ?_ ?_⟩
    · rintro ref rfl
      exact present_of_mem_operands sound.coherent draws.mem_operands
    · rintro ref rfl datum held
      exact linked rfl held
  dropped := by
    intro _ state ref rest entry _ _ _ lost
    cases lost
  preserved := fun ambles _ _ ran _ _ => ambles.step sound ran

/-- The run of the store that is left is heedless as well. -/
theorem heedless_left
    (alongside : Alongside base store left settings settings')
    (exact : base.exact)
    {state' : State}
    (matched : Shadows.Matches (fun _ => false) base store left settings
      (fun _ => State.Ambles loose store settings function) state' state link) :
    Heedless loose left settings' state' := by
  refine ⟨fun atRef => matched.timeless (retraces.shadows sound alongside exact) atRef,
    fun isLoose => ?_⟩
  refine matched.comparesNoReference
    (fun {ref rest entry entry'} atRef found found' _ compares => ?_)
    (matched.held.here.2 isLoose)
  have different : ref ≠ gep := by
    rintro rfl
    have isGep := retraces.isGep_left ref
    rw [retraces.isGep, isGep_iff, Store.opcode?, found', Option.map_some, compares] at isGep
    cases isGep
  cases found'.symm.trans ((retraces.instruction?_left_of_ne different).trans found)
  exact alongside.resembles_of_coherent matched.above sound.coherent (matched.above.2 exact) found
    matched.linked.frame.values

theorem refines : Refines (Heedless loose) store left := by
  refine Refines.of_shadows True fun settings limit large base exact _ registers => ?_
  have alongside : Alongside base store left settings { settings with limit := limit } :=
    ⟨retraces.ages_left, large, rfl, registers⟩
  have exact : base.exact := exact ▸ trivial
  refine ⟨_, fun _ => State.Ambles loose store settings function,
    retraces.shadows sound alongside exact,
    fun matched => retraces.heedless_left sound alongside exact matched, ?_⟩
  exact fun called _ heedless _ _ => ⟨State.Addressed.start sound called, heedless⟩

end Retraces

/-! ## Giving way -/

namespace Unwraps

variable (unwraps : store.Unwraps function gep root left) (sound : store.Sound module function)

include unwraps

theorem base_ne : root ≠ gep := by
  rintro rfl
  have notGep := unwraps.notGep
  rw [unwraps.isGep] at notGep
  cases notGep

include sound

/-- The reference and its base lead to one place, so either can stand for the other one if all
references may be confused. -/
theorem holdsLinked
    (addressed : state.Addressed store settings function)
    (has : store.Reached function state.frame.block → state.frame.Has store function gep)
    (confused : ∀ serial serial', base.references serial serial')
    (above : base ≤ link)
    (linked : ValuesLinked (fun ref => decide (ref ∈ [gep])) link state.frame.values values') :
    HoldsLinked link state.frame.values values' gep root := by
  intro datum found
  by_cases reached : store.Reached function state.frame.block
  · obtain ⟨_, indices, serial, serial', cell, below, along, operands, steady, leads, rfl⟩ :=
      addressed.addresses gep unwraps.member unwraps.isGep _ List.mem_cons_self
        (has reached) _ found
    cases operands.symm.trans unwraps.alone
    cases leads {}
    obtain ⟨isLValue, -⟩ := unwraps.location sound
    have held := steady.getElem?_of_isLValue isLValue
    obtain ⟨datum', found', linkedDatum⟩ := linked (by simpa using unwraps.base_ne) held
    refine ⟨datum', found', ?_⟩
    rw [List.append_nil]
    cases linkedDatum with
    | reference cells _ places => exact .reference cells (above.1.references (confused _ _)) places
  · obtain ⟨home, within, inside⟩ := sound.coherent.mem_traverse_iff.1 unwraps.member
    have none := addressed.apart _ List.mem_cons_self reached within inside
    rw [found] at none
    cases none

theorem agrees
    (addressed : state.Addressed store settings function)
    (has : store.Reached function state.frame.block → state.frame.Has store function gep)
    (confused : ∀ serial serial', base.references serial serial')
    (above : base ≤ link)
    (linked : ValuesLinked (fun ref => decide (ref ∈ [gep])) link state.frame.values values') :
    Agrees link ⟨store, settings, state.frame.values⟩ ⟨left, settings', values'⟩ (some gep)
      (some (Ref.instead gep root gep)) := by
  obtain ⟨isLValue, type⟩ := unwraps.location sound
  have trims := unwraps.condenses.trims
  rw [Ref.instead_old]
  refine agrees_of_isLValue trims.ages (isLValue_of_isGep unwraps.isGep) isLValue
    (trims.isLValue isLValue) ?_ (unwraps.holdsLinked sound addressed has confused above linked)
  rw [trims.ages.typeOf (value?_isSome_of_isLValue isLValue), type]

/-- What a run has to say of its states, so that it goes on without the reference. -/
theorem carries (isLoose : loose) (confused : ∀ serial serial', base.references serial serial') :
    Carries [gep] (Ref.instead gep root) base store left settings settings'
      (fun _ => State.Ambles loose store settings function) where
  tracked := by
    refine fun _ => unwraps.condenses.tracked sound.coherent (Store.Condenses.first_of_heads ?_)
    rintro ⟨lost, isLost, member⟩
    cases List.mem_singleton.1 isLost
    obtain ⟨home, reached, inside⟩ := sound.coherent.mem_traverse_iff.1 unwraps.member
    cases ((sound.coherent.mem_members home gep).1 inside).symm.trans
      ((sound.coherent.mem_members _ gep).1 member)
    exact fun ref behind => sound.ordered.heads sound.listed reached behind
  inside := fun ambles => ambles.addressed.inside
  timeless := fun ambles => ambles.here.1
  compares := fun ambles atRef found _ compares =>
    absurd compares (ambles.here.2 isLoose atRef found)
  uses := by
    intro _ state ref rest operand ambles atRef kept operandOf different link values' above linked
    cases Ref.eq_of_instead_ne different
    refine unwraps.agrees sound ambles.addressed (fun reached => ?_) confused above linked
    have inside := (ambles.addressed.inside.each _ List.mem_cons_self).inside
    rw [atRef] at inside
    have member := mem_instructions_of_mem_afterPhis (inside.subset List.mem_cons_self)
    exact (ambles.addressed.toContained.has_of_operand sound
      (sound.coherent.mem_traverse_iff.2 ⟨_, reached, member⟩) atRef operandOf
      (isInstruction_of_isGep unwraps.isGep)).2
  merges := by
    intro _ state target phi operand ambles moves isPhi kept draws different link values' above
      linked
    cases Ref.eq_of_instead_ne different
    obtain ⟨home, -, inside⟩ := sound.coherent.mem_traverse_iff.1 unwraps.member
    exact unwraps.agrees sound ambles.addressed
      (fun reached => ambles.addressed.toContained.has_of_draws sound reached moves isPhi draws
        (isTerminator_of_isGep unwraps.isGep) ((sound.coherent.mem_members home gep).1 inside))
      confused above linked
  dropped := by
    intro link state ref rest entry ambles atRef found lost
    cases List.mem_singleton.1 lost
    obtain ⟨opcode, plain⟩ := isPlain_of_isGep unwraps.isGep found
    refine ⟨plain, fun ran _ heaps => ⟨link, le_refl link, ?_, ambles.step sound ran⟩⟩
    exact heaps.growLeft (State.grows_of_step atRef found plain
      (fun _ => Scene.growing_execute _ _ _ _ (by rw [opcode]; rfl)) ran)
  preserved := fun ambles _ _ ran _ _ => ambles.step sound ran

theorem refines (isLoose : loose) : Refines (Heedless loose) store left :=
  unwraps.condenses.refines_of_ambles sound False fun _ confused =>
    unwraps.carries sound isLoose (confused id)

end Unwraps

/-! ## All steps -/

/-- A store refines itself: a run with more steps allowed goes the same way. -/
theorem Sound.refines (sound : store.Sound module function) :
    Refines (Heedless loose) store store := by
  refine sound.coherent.condenses_refl.refines_of_ambles sound True fun exact _ => ?_
  exact {
    tracked := fun _ => sound.coherent.condenses_refl.tracked sound.coherent
      (Store.Condenses.first_of_heads (by simp))
    inside := fun ambles => ambles.addressed.inside
    timeless := fun ambles => ambles.here.1
    compares := fun _ _ _ _ _ => exact trivial
    uses := fun _ _ _ _ different => absurd rfl different
    merges := fun _ _ _ _ _ different => absurd rfl different
    dropped := by simp
    preserved := fun ambles _ _ ran _ _ => ambles.step sound ran }

end Store

namespace Pass

open Machine

variable {strict : Prop} {store left : Store} {module : Nat} {function : Ref}

/-- Each step of flattening is refined by what it leaves. -/
theorem FlattensOne.refines
    (flattens : FlattensOne strict function store left)
    (sound : store.Sound module function) :
    Refines (Heedless (¬strict)) store left ∧ left.Sound module function := by
  cases flattens with
  | retraces retraces => exact ⟨retraces.refines sound, retraces.sound_left sound⟩
  | unwraps loose unwraps => exact ⟨unwraps.refines sound loose, unwraps.sound_left sound⟩

end Pass

namespace Session

open Machine Exec

/-- A chain of references leads to an element of a grid. -/
def chained : List Operation :=
  let number : Ty := .scalar ⟨0, 0, "i32"⟩ (.signed 4)
  let row : Ty := .array ⟨0, 1, ""⟩ number 2
  let grid : Ty := .array ⟨0, 2, ""⟩ row 2
  [.edit (.addModule "chained"),
    .edit (.createFunction 0 .callable (some number)),
    .edit (.createBody ⟨0⟩),
    .edit (.constantInt32 0 1),
    .edit (.arrayType 0 (some number) 2),
    .edit (.arrayType 0 (some row) 2),
    .moveToEnd ⟨1⟩, .alloca (some grid) .local,
    .gep (some grid) (some ⟨3⟩) [],
    .gep (some row) (some ⟨4⟩) [some ⟨2⟩],
    .gep (some number) (some ⟨5⟩) [some ⟨2⟩],
    .ret (some ⟨2⟩)]

end Session

end ShaderIR

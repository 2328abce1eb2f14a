import ShaderIR.Proofs.Elimination.Condensing
import ShaderIR.Proofs.Machine.Agreement
import ShaderIR.Proofs.Machine.Control

/-!
# Runs of condensed programs

A run of a condensed program skips the instructions that are gone and finds other values in
place of some operands.  It follows the run of the program it was condensed from if these
values agree with the operands wherever an instruction is executed or a phi draws one of
them.  All other operands agree with themselves.
-/

namespace ShaderIR

namespace Machine

open Exec

/--
What has to be known of the states that a run goes through, so that it is followed by one of
a condensed program.
-/
structure Carries (gone : List Ref) (become : Ref → Ref) (base : Link) (program left : Store)
    (settings settings' : Settings) (holds : Link → State → Prop) : Prop where
  tracked : ∀ {link state}, holds link state →
    Tracked (fun ref => decide (ref ∈ gone)) program left state.frame.block
  inside : ∀ {link state}, holds link state → Frame.AllInside program state.frames
  timeless : ∀ {link state}, holds link state → Timeless program settings state
  compares : ∀ {link state ref rest entry}, holds link state → state.frame.rest = ref :: rest →
    program.instruction? ref = some entry → ref ∉ gone →
    Scene.ComparesReference ⟨program, settings, state.frame.values⟩ entry → base.exact
  uses : ∀ {link state ref rest operand}, holds link state → state.frame.rest = ref :: rest →
    ref ∉ gone → some operand ∈ program.operands ref → become operand ≠ operand →
    ∀ {larger values'}, base ≤ larger →
      ValuesLinked (fun ref => decide (ref ∈ gone)) larger state.frame.values values' →
      Agrees larger ⟨program, settings, state.frame.values⟩ ⟨left, settings', values'⟩
        (some operand) (some (become operand))
  merges : ∀ {link state target phi operand}, holds link state →
    Moves program settings state target → phi ∈ program.phis target → phi ∉ gone →
    Draws program state.frame.block phi (some operand) → become operand ≠ operand →
    ∀ {larger values'}, base ≤ larger →
      ValuesLinked (fun ref => decide (ref ∈ gone)) larger state.frame.values values' →
      Agrees larger ⟨program, settings, state.frame.values⟩ ⟨left, settings', values'⟩
        (some operand) (some (become operand))
  dropped : ∀ {link state ref rest entry}, holds link state → state.frame.rest = ref :: rest →
    program.instruction? ref = some entry → ref ∈ gone →
    IsPlain entry.opcode ∧
      ∀ {next heap'}, state.step program settings = .running next →
        Finishes program settings next → link.Heaps state.heap heap' →
        ∃ larger, link ≤ larger ∧ larger.Heaps next.heap heap' ∧ holds larger next
  preserved : ∀ {link larger state next ref rest}, holds link state →
    state.frame.rest = ref :: rest → ref ∉ gone →
    state.step program settings = .running next → Finishes program settings next →
    link ≤ larger → holds larger next

theorem Carries.mem_instructions
    {gone : List Ref}
    {become : Ref → Ref}
    {base : Link}
    {program left : Store}
    {settings settings' : Settings}
    {holds : Link → State → Prop}
    {state : State}
    {link : Link}
    {ref : Ref}
    {rest : List Ref}
    (carries : Carries gone become base program left settings settings' holds)
    (held : holds link state)
    (atRef : state.frame.rest = ref :: rest) :
    ref ∈ program.instructions state.frame.block := by
  have inside := ((carries.inside held).each _ List.mem_cons_self).inside
  exact mem_instructions_of_mem_afterPhis (inside.subset (by rw [atRef]; exact List.mem_cons_self))

end Machine

namespace Store.Condenses

open Machine Exec

variable {program left : Store} {gone : List Ref} {become : Ref → Ref} {base link larger : Link}
  {settings settings' : Settings} {holds : Link → State → Prop} {state : State}
  {block source phi ref : Ref} {operand : Option Ref} {rest : List Ref} {entry : Instruction}

/-- A block keeps its phis and its other instructions, as far as they are not gone. -/
theorem tracked
    (condenses : program.Condenses gone become left)
    (coherent : program.Coherent)
    (first : ∀ ref ∈ ((program.afterPhis block).filter (· ∉ gone)).head?,
      program.isPhi ref = false) :
    Tracked (fun ref => decide (ref ∈ gone)) program left block := by
  obtain ⟨phis, afterPhis⟩ := condenses.phis_and_rest coherent first
  simp only [decide_not] at phis afterPhis
  exact ⟨phis, afterPhis⟩

/-! ## Following a run -/

variable (condenses : program.Condenses gone become left) (coherent : program.Coherent)
  (alongside : Alongside base program left settings settings')
  (carries : Carries gone become base program left settings settings' holds)

include condenses coherent

/-- An instruction of a reached block is kept, or gone. -/
theorem isLinked_of_kept (member : ref ∈ program.instructions block) (kept : ref ∉ gone) :
    (left.blockOf? ref).isSome :=
  Option.isSome_of_eq_some ((condenses.blockOf?_eq_some_iff coherent).2
    ⟨(coherent.mem_members block ref).1 member, kept⟩)

include alongside

/-- An operand agrees with what it becomes, if the ones that become something else do. -/
theorem agrees_become
    (linked : (left.blockOf? ref).isSome)
    (operandOf : operand ∈ program.operands ref)
    (above : base ≤ link)
    {values' : Std.HashMap Ref Datum}
    (values : ValuesLinked (fun ref => decide (ref ∈ gone)) link state.frame.values values')
    (others : ∀ former, operand = some former → become former ≠ former →
      Agrees link ⟨program, settings, state.frame.values⟩ ⟨left, settings', values'⟩
        (some former) (some (become former))) :
    Agrees link ⟨program, settings, state.frame.values⟩ ⟨left, settings', values'⟩ operand
      (operand.map become) := by
  cases operand with
  | none => exact alongside.agrees above (by simp) (by simp)
  | some former =>
      by_cases same : become former = former
      · rw [Option.map_some, same]
        have inside : some former ∈ left.operands ref := by
          rw [condenses.operands coherent linked]
          exact List.mem_map.2 ⟨_, operandOf, congrArg some same⟩
        have kept := condenses.kept_of_operand linked inside
        refine alongside.agrees above ?_ ?_
        · rintro _ ⟨⟩
          exact present_of_mem_operands coherent operandOf
        · rintro _ ⟨⟩ datum found
          exact values (decide_eq_false kept) found
      · exact others former rfl same

include carries

/-- An instruction that is kept does the same with the operands it has afterwards. -/
theorem resembles
    (held : holds link state)
    (atRef : state.frame.rest = ref :: rest)
    (found : program.instruction? ref = some entry)
    (kept : ref ∉ gone)
    (above : base ≤ larger)
    {values' : Std.HashMap Ref Datum}
    (values : ValuesLinked (fun ref => decide (ref ∈ gone)) larger state.frame.values values') :
    Resembles larger ⟨program, settings, state.frame.values⟩ ⟨left, settings', values'⟩ entry
      (entry.becoming become) where
  opcode := rfl
  operands := by
    have member := carries.mem_instructions held atRef
    rw [Instruction.values_becoming, List.forall₂_map_right_iff, List.forall₂_same]
    intro operand operandOf
    have operandOf : operand ∈ program.operands ref := by
      rwa [Store.operands, found]
    refine condenses.agrees_become coherent alongside
      (condenses.isLinked_of_kept coherent member kept) operandOf above values ?_
    rintro former rfl different
    exact carries.uses held atRef kept operandOf different above values
  compares := fun compares => above.2 (carries.compares held atRef found kept compares)

/-- A run is followed by one of the condensed program. -/
theorem shadows (regular : program.Regular) :
    Shadows (fun ref => decide (ref ∈ gone)) base program left settings settings' holds where
  limit := alongside.limit
  functions := alongside.ages.function?
  parameters := by
    intro function entry found parameter member
    obtain ⟨passing, owner, position, isArgument⟩ := regular.arguments found parameter member
    rw [Store.isLValue, Store.isLValue, isArgument, alongside.ages.argument_iff.2 isArgument]
  tracked := carries.tracked
  executed := by
    intro link state ref rest entry held atRef found kept
    have kept : ref ∉ gone := by simpa using kept
    have member := carries.mem_instructions held atRef
    have linked := (coherent.mem_members state.frame.block ref).1 member
    refine ⟨fun isClock => ?_, ?_, entry, entry.becoming become, .inl rfl, ?_, ?_⟩
    · exact carries.timeless held atRef (by rw [Store.opcode?, found, ← isClock]; rfl)
    · exact alongside.ages.typeOf (value?_isSome_of_instruction? found)
    · rw [condenses.instruction? kept (Option.isSome_of_eq_some linked), found, Option.map_some]
    · exact fun above values =>
        condenses.resembles coherent alongside carries held atRef found kept above values
  incoming := by
    intro link state target phi held moves _ isPhi kept larger values' above values entry position
      operand found sourced taken
    have kept : phi ∉ gone := by simpa using kept
    have member := Store.mem_instructions_of_mem_phis isPhi
    have draws : Draws program state.frame.block phi operand :=
      ⟨entry, position, found, sourced, taken⟩
    have linked := (coherent.mem_members target phi).1 member
    refine ⟨entry.becoming become, position, operand.map become, ?_, sourced, ?_, ?_⟩
    · exact (condenses.instruction? kept (Option.isSome_of_eq_some linked)).trans
        (congrArg _ found)
    · have taken : entry.values[position]? = some operand := by
        rwa [Instruction.values, List.getElem?_map]
      rw [Instruction.operand?, ← List.getElem?_map]
      change (entry.becoming become).values[position]? = _
      rw [Instruction.values_becoming, List.getElem?_map, taken, Option.map_some]
    · refine condenses.agrees_become coherent alongside
        (condenses.isLinked_of_kept coherent member kept) draws.mem_operands above values ?_
      rintro former rfl different
      exact carries.merges held moves isPhi kept draws different above values
  dropped := fun held atRef found lost => carries.dropped held atRef found (by simpa using lost)
  preserved := fun held atRef kept => carries.preserved held atRef (by simpa using kept)

/-- Where the run compares nothing with a reference, neither does the one that follows it. -/
theorem comparesNoReference
    {state' : State}
    (matched : Shadows.Matches (fun ref => decide (ref ∈ gone)) base program left settings holds
      state' state link)
    (compares : ComparesNoReference program settings state) :
    ComparesNoReference left settings' state' := by
  refine matched.comparesNoReference (fun {ref rest entry entry'} atRef found found' kept _ => ?_)
    compares
  have kept : ref ∉ gone := by simpa using kept
  have member := carries.mem_instructions matched.held atRef
  have linked := Option.isSome_of_eq_some ((coherent.mem_members state.frame.block ref).1 member)
  rw [condenses.instruction? kept linked, found, Option.map_some, Option.some.injEq] at found'
  subst found'
  exact condenses.resembles coherent alongside carries matched.held atRef found kept matched.above
    matched.linked.frame.values

omit alongside carries in
/-- A condensed program repeats the runs that it follows, if their condition carries over. -/
theorem refines
    (regular : program.Regular)
    {condition : Condition}
    (exact : Prop)
    (holds : Settings → Link → State → Prop)
    (carries : ∀ {settings settings' base}, Alongside base program left settings settings' →
      base.exact = exact → (¬exact → ∀ serial serial', base.references serial serial') →
      Carries gone become base program left settings settings' (holds settings))
    (conditions : ∀ {settings settings' base link state state'},
      Alongside base program left settings settings' →
      Carries gone become base program left settings settings' (holds settings) →
      Shadows.Matches (fun ref => decide (ref ∈ gone)) base program left settings (holds settings)
        state' state link →
      condition left settings' state')
    (entered : ∀ {settings function arguments heap frame begun link},
      outcome (callFrame program settings function arguments) heap = (.ok frame, begun) →
      Finishes program settings { frame, heap := begun } →
      (∀ visited, State.Visits program settings { frame, heap := begun } visited →
        condition program settings visited) →
      holds settings link { frame, heap := begun }) :
    Refines condition program left := by
  refine Refines.of_shadows exact fun settings limit large base isExact confused registers => ?_
  have alongside : Alongside base program left settings { settings with limit := limit } :=
    ⟨condenses.trims.ages, large, rfl, registers⟩
  have carries : Carries gone become base program left settings { settings with limit := limit }
      (holds settings) :=
    carries alongside isExact confused
  exact ⟨_, holds settings, condenses.shadows coherent alongside carries regular,
    fun matched => conditions alongside carries matched, fun called finishes under _ _ =>
      entered called finishes under⟩

end Store.Condenses

end ShaderIR

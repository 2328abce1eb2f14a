import ShaderIR.Proofs.Elimination.DwindlingSteps
import ShaderIR.Proofs.Promotion.Dissolving
import ShaderIR.Proofs.Promotion.Merging

/-!
# Promotion misses no variable

A local variable of a reached block is promoted if all that is done with it, and with the
element references into it, is to read from them, to write to them and to refer to their
elements.  Transposing leaves the variable itself as the only pointer to it, so its uses
pass the check.  Promotion then removes it, and no value that takes the place of another
one brings back a pointer to it.
-/

namespace ShaderIR

open Store Edit

open Pass (Accesses)

namespace Pass

variable {origin store left : Store} {function address pointer block : Ref}
  {addresses phis : List Ref} {report report' : Promotion}

/-! ## The variable is chosen -/

/-- The check of the uses of a variable that is only read and written succeeds. -/
theorem plain_of_gives_usesArePlain
    {uses : List Use}
    {plain : Bool}
    (each : ∀ use ∈ uses,
      (store.opcode? use.user = some .load ∨ store.opcode? use.user = some .store) ∧
        (store.operands use.user).head? = some (some address) ∧
        some address ∉ (store.operands use.user).tail)
    (gives : Gives (usesArePlain address uses) store plain left) :
    plain = true := by
  induction uses generalizing plain left with
  | nil => exact (gives_pure_iff.1 gives).1
  | cons use rest induction =>
      obtain ⟨⟨kind, head, only⟩, later⟩ := List.forall_mem_cons.1 each
      replace gives := gives_see_bind_iff.1 gives
      replace gives := gives_see_bind_iff.1 gives
      replace gives := gives_see_bind_iff.1 gives
      obtain ⟨entry, found, gives⟩ := gives_instruction_bind_iff.1 gives
      have opcode : store.opcode? use.user = some entry.opcode := by simp [Store.opcode?, found]
      have atFront {held : Option Ref} {between : Store}
          (gives : Gives (operand use.user 0) store held between) :
          held = some address ∧ between = store := by
        obtain ⟨⟨entry', found', first⟩, unchanged⟩ := gives_operand_iff.1 gives
        rw [← getElem?_operands found', ← List.head?_eq_getElem?, head] at first
        exact ⟨(Option.some.inj first).symm, unchanged⟩
      split at gives
      · obtain ⟨held, _, given, gives⟩ := gives_bind_iff.1 gives
        obtain ⟨same, unchanged⟩ := atFront given
        rw [unchanged, if_neg (by simp [same])] at gives
        replace gives := gives_see_bind_iff.1 gives
        obtain ⟨_, _, given, gives⟩ := gives_bind_iff.1 gives
        rw [(gives_require_iff.1 given).2] at gives
        exact induction later gives
      · obtain ⟨stored, _, given, gives⟩ := gives_bind_iff.1 gives
        obtain ⟨⟨entry', found', second⟩, unchanged⟩ := gives_operand_iff.1 given
        rw [unchanged] at gives
        obtain ⟨held, _, given, gives⟩ := gives_bind_iff.1 gives
        obtain ⟨same, unchanged⟩ := atFront given
        have different : stored ≠ some address := by
          rintro rfl
          rw [← getElem?_operands found'] at second
          exact only (List.mem_of_getElem? (List.getElem?_tail.trans second))
        rw [unchanged, if_neg (by simp [same, different])] at gives
        obtain ⟨type, _, given, gives⟩ := gives_bind_iff.1 gives
        obtain ⟨_, -, given⟩ := gives_demand_bind_iff.1 given
        rw [(gives_see_iff.1 given).2] at gives
        obtain ⟨_, _, given, gives⟩ := gives_bind_iff.1 gives
        rw [(gives_require_iff.1 given).2] at gives
        exact induction later gives
      · rename_i notLoad notStore
        rw [opcode] at kind
        rcases kind with isLoad | isStore
        · exact absurd (Option.some.inj isLoad) notLoad
        · exact absurd (Option.some.inj isStore) notStore

/-- A variable that is only read and written is chosen. -/
theorem mem_of_gives_promotable
    {refs : List Ref}
    {chosen : List Accesses}
    (member : address ∈ refs)
    (isLocal : store.isLocalVariable address = true)
    (each : ∀ use ∈ store.usesOf address,
      (store.opcode? use.user = some .load ∨ store.opcode? use.user = some .store) ∧
        (store.operands use.user).head? = some (some address) ∧
        some address ∉ (store.operands use.user).tail)
    (gives : Gives (promotable refs) store chosen left) :
    address ∈ chosen.map (·.address) := by
  induction refs generalizing chosen left with
  | nil => cases member
  | cons ref rest induction =>
      replace gives := gives_see_bind_iff.1 gives
      dsimp only at gives
      have later {plain : Bool}
          (gives : Gives (do
            let others ← promotable rest
            return if plain then { address := ref } :: others else others) store chosen left)
          (here : address = ref → plain = true) :
          address ∈ chosen.map (·.address) := by
        obtain ⟨others, _, chooses, returned⟩ := gives_bind_iff.1 gives
        obtain ⟨rfl, -⟩ := gives_pure_iff.1 returned
        rcases List.mem_cons.1 member with same | member
        · simp [here same, same]
        · have found := induction member chooses
          split
          · exact List.mem_cons_of_mem _ found
          · exact found
      split at gives
      · replace gives := gives_see_bind_iff.1 gives
        obtain ⟨plain, _, checked, gives⟩ := gives_bind_iff.1 gives
        rw [(ensures_usesArePlain.2 _ _ checked).1] at gives
        refine later gives ?_
        rintro rfl
        exact plain_of_gives_usesArePlain each checked
      · rename_i notLocal
        refine @later false gives ?_
        rintro rfl
        exact absurd isLocal notLocal

/-! ## The variable is reported -/

/-- Steps that report one variable each report all of them. -/
theorem reports_of_gives_foldlM
    {state : Type}
    (listed : state → List Ref)
    {step : state → Accesses → Edit state}
    {kept : List Accesses}
    {first last : state}
    (reports : ∀ {accesses first last store left}, Gives (step first accesses) store last left →
      listed last = listed first ++ [accesses.address])
    (gives : Gives (kept.foldlM step first) store last left) :
    listed last = listed first ++ kept.map (·.address) := by
  induction kept generalizing first store with
  | nil =>
      obtain ⟨rfl, -⟩ := gives_pure_iff.1 gives
      simp
  | cons accesses rest induction =>
      rw [List.foldlM_cons] at gives
      obtain ⟨between, _, here, gives⟩ := gives_bind_iff.1 gives
      rw [induction gives, reports here, List.append_assoc]
      rfl

theorem promoted_of_gives_removeVariable
    {accesses : Accesses}
    (gives : Gives (removeVariable report accesses) store report' left) :
    report'.promoted = report.promoted ++ [accesses.address] := by
  obtain ⟨_, _, -, gives⟩ := gives_bind_iff.1 gives
  replace gives := gives_see_bind_iff.1 gives
  replace gives := gives_see_bind_iff.1 gives
  obtain ⟨_, _, -, gives⟩ := gives_bind_iff.1 gives
  obtain ⟨_, _, -, returned⟩ := gives_bind_iff.1 gives
  obtain ⟨rfl, -⟩ := gives_pure_iff.1 returned
  rfl

theorem promoted_of_gives_promoteVariable
    {tree : DominatorTree}
    {accesses : Accesses}
    {progress progress' : Promotion × List Ref}
    (gives : Gives (promoteVariable tree progress accesses) store progress' left) :
    progress'.1.promoted = progress.1.promoted ++ [accesses.address] := by
  replace gives := gives_see_bind_iff.1 gives
  replace gives := gives_see_bind_iff.1 gives
  obtain ⟨_, _, -, gives⟩ := gives_bind_iff.1 gives
  obtain ⟨_, _, -, gives⟩ := gives_bind_iff.1 gives
  obtain ⟨_, _, -, gives⟩ := gives_bind_iff.1 gives
  obtain ⟨_, _, removes, returned⟩ := gives_bind_iff.1 gives
  obtain ⟨rfl, -⟩ := gives_pure_iff.1 returned
  have reported := promoted_of_gives_removeVariable removes
  exact reported

/-! ## What is cleared stays so -/

theorem cleared_of_substitutes
    {old new : Ref}
    (cleared : store.Cleared address)
    (different : address ≠ new)
    (substitutes : Substitutes store old new left) :
    left.Cleared address where
  unlinked := by
    refine Option.eq_none_iff_forall_ne_some.2 fun block linked => ?_
    have linked := (substitutes.blockOf?_eq_some_iff.1 linked).1
    cases linked.symm.trans cleared.unlinked
  unused := by
    intro user linked operand
    obtain ⟨linked, operand⟩ := substitutes.users different linked operand
    exact cleared.unused linked operand

theorem cleared_removeRedundantPhi
    {phi : Ref}
    {removed : Bool}
    (coherent : store.Coherent)
    (regular : store.Regular)
    (location : store.isLValue address = true)
    (cleared : store.Cleared address)
    (gives : Gives (removeRedundantPhi phi) store removed left) :
    left.Cleared address := by
  have replaces {value : Ref} {between : Store} (coherent : between.Coherent)
      (cleared : between.Cleared address)
      (different : address ≠ value)
      (gives : Gives (do
        replaceUses phi (some value)
        Edit.remove phi
        return true) between removed left) :
      left.Cleared address := by
    have substituted : Ensures (do
        replaceUses phi (some value)
        Edit.remove phi
        return true) between fun _ left => left.Cleared address :=
      ensures_substitute_bind coherent fun _ substitutes =>
        .pure (cleared_of_substitutes cleared different substitutes)
    exact substituted.2 _ _ gives
  unfold removeRedundantPhi at gives
  obtain ⟨entry, found, gives⟩ := gives_instruction_bind_iff.1 gives
  split at gives
  · obtain ⟨-, rfl⟩ := gives_pure_iff.1 gives
    exact cleared
  · rename_i linked
    replace gives := gives_see_bind_iff.1 gives
    split at gives
    · obtain ⟨_, _, removes, returned⟩ := gives_bind_iff.1 gives
      obtain ⟨-, rfl⟩ := gives_pure_iff.1 returned
      obtain ⟨takes, trims⟩ := coherent.removes removes
      exact (shifts_of_takes takes trims [address]).cleared cleared List.mem_cons_self location
    · replace gives := gives_see_bind_iff.1 gives
      obtain ⟨incomings, paired, gives⟩ := gives_demand_bind_iff.1 gives
      replace gives := gives_see_bind_iff.1 gives
      split at gives
      · obtain ⟨-, rfl⟩ := gives_pure_iff.1 gives
        exact cleared
      · rename_i merged agreed
        dsimp only at gives
        split at gives
        · rename_i value
          refine replaces coherent cleared ?_ gives
          rintro rfl
          obtain ⟨⟨_, source⟩, member, same⟩ := List.mem_map.1 (mem_of_mergedValue? agreed).1
          obtain rfl := same
          refine cleared.unused ?_ (mem_operands_of_incomings? paired member)
          simpa [Store.blockOf?, found, Option.isSome_iff_ne_none] using linked
        · replace gives := gives_see_bind_iff.1 gives
          obtain ⟨module, -, gives⟩ := gives_demand_bind_iff.1 gives
          replace gives := gives_see_bind_iff.1 gives
          obtain ⟨value, between, made, gives⟩ := gives_bind_iff.1 gives
          obtain ⟨undefined, repoints⟩ := coherent.repoints_undefined regular made
          have location := repoints.trims.isLValue location
          refine replaces repoints.trims.coherent ⟨?_, fun {user} linked => ?_⟩ ?_ gives
          · rw [repoints.blockOf?, cleared.unlinked]
          · rw [repoints.operands]
            exact cleared.unused ((repoints.blockOf? user).symm ▸ linked)
          · rintro rfl
            simp [Store.isLValue, isUndefined_iff.1 undefined] at location

theorem cleared_removeRedundantPhis
    {removed : Bool}
    (coherent : store.Coherent)
    (regular : store.Regular)
    (isPhi : ∀ phi ∈ phis, store.isPhi phi = true)
    (location : store.isLValue address = true)
    (cleared : store.Cleared address)
    (gives : Gives (removeRedundantPhis phis) store removed left) :
    left.Cleared address := by
  induction phis generalizing store removed with
  | nil =>
      obtain ⟨-, rfl⟩ := gives_pure_iff.1 gives
      exact cleared
  | cons phi rest induction =>
      obtain ⟨here, later⟩ := List.forall_mem_cons.1 isPhi
      obtain ⟨_, between, removes, gives⟩ := gives_bind_iff.1 gives
      obtain ⟨_, _, others, returned⟩ := gives_bind_iff.1 gives
      obtain ⟨-, rfl⟩ := gives_pure_iff.1 returned
      have trims := (continues_removeRedundantPhi coherent regular here removes).1.trims
      exact induction trims.coherent (trims.regular regular)
        (fun phi member => trims.isPhi (later phi member)) (trims.isLValue location)
        (cleared_removeRedundantPhi coherent regular location cleared removes) others

theorem cleared_simplifyPhis
    {bound : Nat}
    {answer : Unit}
    (coherent : store.Coherent)
    (regular : store.Regular)
    (isPhi : ∀ phi ∈ phis, store.isPhi phi = true)
    (location : store.isLValue address = true)
    (cleared : store.Cleared address)
    (gives : Gives (simplifyPhis phis bound) store answer left) :
    left.Cleared address := by
  induction bound generalizing store with
  | zero => exact absurd gives not_gives_endless
  | succ bound induction =>
      obtain ⟨removed, between, removes, gives⟩ := gives_bind_iff.1 gives
      have cleared := cleared_removeRedundantPhis coherent regular isPhi location cleared removes
      have trims := (continues_removeRedundantPhis coherent regular isPhi removes).1.trims
      split at gives
      · exact induction trims.coherent (trims.regular regular)
          (fun phi member => trims.isPhi (isPhi phi member)) (trims.isLValue location) cleared gives
      · obtain ⟨-, rfl⟩ := gives_pure_iff.1 gives
        exact cleared

/-! ## Promotion -/

/-- Promoting the chosen variables clears them, and other locations stay cleared. -/
theorem cleared_of_stages
    {chosen : List Accesses}
    {state : Forwarding}
    {forwarded middle last : Store}
    {report'' : Promotion}
    {placed : List Ref}
    {bound : Nat}
    {answer : Unit}
    (coherent : store.Coherent)
    (confined : store.Confined function)
    (regular : store.Regular)
    (supplied : store.Supplied function store)
    (selected : ∀ accesses ∈ chosen, Selected store accesses)
    (covers : store.Covers addresses (chosen.map (·.address)))
    (forwards : Gives ((blocksInOrder store function).foldlM forwardBlock { accesses := chosen })
      store state forwarded)
    (removes : Gives ((state.accesses.filter (·.reads.isEmpty)).foldlM removeVariable report)
      forwarded report' middle)
    (promotes : Gives ((state.accesses.filter (!·.reads.isEmpty)).foldlM
      (promoteVariable (middle.treeOf function)) (report', [])) middle (report'', placed) last)
    (simplifies : Gives (simplifyPhis placed bound) last answer left)
    (listed : address ∈ addresses) :
    left.Cleared address := by
  have start := Forwarded.start coherent confined regular selected covers
  have noted := (ensures_forward supplied start).2 _ _ forwards
  have pending := (ensures_removeVariables (noted.promotes
    (List.filter_append_perm (·.reads.isEmpty) state.accesses))).2 _ _ removes
  have done := (ensures_promoteVariables confined supplied pending).2 _ _ promotes
  obtain ⟨continues, filled⟩ :=
    continues_of_stages coherent regular selected forwards removes promotes
  exact cleared_simplifyPhis continues.trims.coherent done.regular
    (fun phi member => (filled phi member).choose_spec.isPhi) (done.locations address listed)
    (done.covers.cleared address listed List.not_mem_nil) simplifies

variable {module : Nat}

/-- Promotion promotes a variable that is only addressed, and clears all pointers to it. -/
theorem promoted_of_accessible
    (coherent : store.Coherent)
    (accepted : store.validate? module = some [])
    (listed : function ∈ store.functions module)
    (regular : store.Regular)
    (attached : store.Attached)
    (supplied : store.Supplied function store)
    (accessible : store.Accessible function address store)
    (linked : store.blockOf? address = some block)
    (reached : store.Reached function block)
    (gives : Gives (promote function) store report left) :
    address ∈ report.promoted ∧
      ∀ pointer, store.PointsTo address pointer → left.Cleared pointer := by
  obtain ⟨transposition, origin, chosen, transposes, chooses, stages⟩ := stages_of_promote gives
  have dissolved :=
    dissolved_transpose coherent accepted listed attached accessible transposes
  have narrows := dissolved.reshaped.narrows
  have coherent' := narrows.trims.coherent
  have confined := narrows.confined (Validation.confined_of_validate coherent accepted listed)
  have regular' := narrows.trims.regular regular
  obtain ⟨-, sub, selected⟩ := ensures_promotable.2 _ _ chooses
  have cleared : ∀ pointer, origin.PointsTo address pointer → pointer ≠ address →
      origin.Cleared pointer := by
    intro pointer points different
    have unlinked : ¬(origin.blockOf? pointer).isSome := fun linked =>
      List.not_mem_nil (dissolved.pending points different linked).1
    refine ⟨by simpa using unlinked, fun {user} linked operand => ?_⟩
    exact unlinked ((dissolved.accessible.held points linked operand).resolve_left different)
  have uses : ∀ use ∈ origin.usesOf address,
      (origin.opcode? use.user = some .load ∨ origin.opcode? use.user = some .store) ∧
        (origin.operands use.user).head? = some (some address) ∧
        some address ∉ (origin.operands use.user).tail := by
    intro use member
    obtain ⟨linked, operand⟩ := coherent'.exists_use_iff.1 ⟨use, member, rfl⟩
    have addresses := dissolved.accessible.used (.refl origin address) linked operand
    refine ⟨?_, addresses.head, addresses.only⟩
    refine addresses.kind.imp_right fun kind => kind.resolve_right fun isGep => ?_
    have points : origin.PointsTo address use.user :=
      .head ⟨isGep_iff.2 isGep, addresses.head⟩ (.refl origin address)
    have unlinked := (cleared use.user points fun same => ?_).unlinked
    · rw [unlinked] at linked
      cases linked
    · rw [same, dissolved.accessible.isLocal] at isGep
      cases isGep
  have member : address ∈ chosen.map (·.address) := by
    refine mem_of_gives_promotable ?_ (isLocalVariable_iff.2 dissolved.accessible.isLocal) uses
      chooses
    refine coherent'.mem_traverse_iff.2 ⟨block, ?_, (coherent'.mem_members block address).2 ?_⟩
    · exact (continues_transpose coherent transposes).reached coherent confined reached
    · rw [dissolved.accessible.home, linked]
  rcases stages with ⟨rfl, -, -⟩ | ⟨state, forwarded, report', middle, report'', placed, last,
    answer, forwards, removes, promotes, simplifies, rfl⟩
  · cases member
  refine ⟨?_, fun pointer points => ?_⟩
  · have reports := reports_of_gives_foldlM (fun progress => progress.1.promoted)
      promoted_of_gives_promoteVariable promotes
    have reports' := reports_of_gives_foldlM (·.promoted) promoted_of_gives_removeVariable removes
    rw [← addresses_of_gives_forward forwards] at member
    obtain ⟨accesses, noted, rfl⟩ := List.mem_map.1 member
    dsimp only at reports reports' ⊢
    rw [reports, reports', List.nil_append, List.mem_append, List.mem_map, List.mem_map]
    cases empty : accesses.reads.isEmpty with
    | true => exact .inl ⟨accesses, List.mem_filter.2 ⟨noted, empty⟩, rfl⟩
    | false => exact .inr ⟨accesses, List.mem_filter.2 ⟨noted, by rw [empty]; rfl⟩, rfl⟩
  · have covers := covers_of_chosen coherent' sub selected
    have points := (dissolved.accessible.pointers pointer).2 points
    have location : origin.isLValue pointer = true := by
      by_cases same : pointer = address
      · exact isLValue_iff.2 (.inl ⟨_, same ▸ dissolved.accessible.isLocal, rfl⟩)
      · exact isLValue_iff.2 (.inl ⟨_, isGep_iff.1 (points.isGep same), rfl⟩)
    have covers := covers.cons location fun absent =>
      cleared pointer points fun same => absent (same ▸ member)
    exact cleared_of_stages coherent' confined regular' (narrows.supplied_self supplied) selected
      covers forwards removes promotes simplifies List.mem_cons_self

end Pass

/-! ## Checking the conditions -/

namespace Store

variable {store : Store} {function address : Ref}

/-- Whether no linked instruction has an operand that is an instruction in no block. -/
def attaches (store : Store) : Bool :=
  (List.range store.values.size).all fun index =>
    (store.blockOf? ⟨index⟩).isNone ||
      (store.operands ⟨index⟩).all fun operand =>
        operand.all fun value => !store.isInstruction value || (store.blockOf? value).isSome

theorem attached_of_attaches (attaches : store.attaches = true) : store.Attached := by
  rintro ⟨index⟩ value linked operand isInstruction
  have inside := index_lt_of_value? (value?_isSome_of_blockOf? linked)
  have checked := List.all_eq_true.1 attaches index (List.mem_range.2 inside)
  rw [Bool.or_eq_true, List.all_eq_true] at checked
  have held := checked.resolve_left (by simpa [Option.isSome_iff_ne_none] using linked) _ operand
  simpa [isInstruction] using held

/-- Whether some pointers are all that are based on one another, and are only addressed. -/
def addressesOnly (store : Store) (function : Ref) (pointers : List Ref) : Bool :=
  ((List.range store.values.size).all fun index =>
    !store.isGep ⟨index⟩ || !(store.operands ⟨index⟩).head?.join.any pointers.contains ||
      pointers.contains ⟨index⟩) &&
    pointers.all fun pointer => (store.usesOf pointer).all fun use =>
      (store.blockOf? use.user).all (store.reversePostOrder function).contains &&
        [some .load, some .store, some .gep].contains (store.opcode? use.user) &&
        (store.operands use.user).head? == some (some pointer) &&
        !(store.operands use.user).tail.contains (some pointer)

theorem addressed_of_addressesOnly
    {pointers : List Ref}
    (coherent : store.Coherent)
    (checked : store.addressesOnly function pointers = true)
    (member : address ∈ pointers) :
    ∀ pointer, store.PointsTo address pointer → ∀ use ∈ store.usesOf pointer,
      store.Addresses function store pointer use.user := by
  obtain ⟨closed, only⟩ := Bool.and_eq_true_iff.1 checked
  have inside : ∀ pointer, store.PointsTo address pointer → pointer ∈ pointers := by
    intro pointer points
    induction points using Relation.ReflTransGen.head_induction_on with
    | refl => exact member
    | @head gep base leads _ induction =>
        obtain ⟨index⟩ := gep
        have present := index_lt_of_value? (value?_isSome_of_isGep leads.isGep)
        have here := List.all_eq_true.1 closed index (List.mem_range.2 present)
        simp only [leads.isGep, leads.head, Option.join_some, Option.any_some,
          List.contains_iff_mem.2 induction, Bool.not_true, Bool.false_or] at here
        exact List.contains_iff_mem.1 here
  intro pointer points use used
  have holds := List.all_eq_true.1
    (List.all_eq_true.1 only pointer (inside pointer points)) use used
  simp only [Bool.and_eq_true, Option.all_eq_true, List.contains_iff_mem, beq_iff_eq,
    Bool.not_eq_true', List.mem_cons, List.not_mem_nil, or_false] at holds
  obtain ⟨⟨⟨reached, kind⟩, head⟩, apart⟩ := holds
  exact ⟨fun linked => (mem_reversePostOrder_iff_reached coherent).1 (reached _ linked), kind, head,
    by simpa using apart⟩

end Store

namespace Session

/--
Promotion promotes every local variable of a reached block that is only addressed: each
use of it, and of the element references into it, is the address of a read or a write or
the base of an element reference, in a reached block.  Afterwards the variable and these
references are in no block and are not used, so no instruction addresses them.

Operands of linked instructions have to be linked.  A read that a reached store writes has
to be in a block that dominates the one of the store, as it is where definitions dominate
their uses.
-/
theorem promote_addressed
    {operations : List Operation}
    {module : Nat}
    {function address block : Ref}
    (accepted : (after operations).store.validate? module = some [])
    (listed : function ∈ (after operations).store.functions module)
    (attached : (after operations).store.Attached)
    (supplied : (after operations).store.Supplied function (after operations).store)
    {report : Pass.Promotion}
    {left : Store}
    (gives : Gives (Pass.promote function) (after operations).store report left)
    (isLocal : (after operations).store.isLocalVariable address = true)
    (member : address ∈ (after operations).store.instructions block)
    (reached : (after operations).store.Reached function block)
    (addressed : ∀ pointer, (after operations).store.PointsTo address pointer →
      ∀ use ∈ (after operations).store.usesOf pointer,
        (after operations).store.Addresses function (after operations).store pointer use.user) :
    address ∈ report.promoted ∧
      ∀ pointer, (after operations).store.PointsTo address pointer →
        left.Detached pointer ∧ left.usesOf pointer = [] ∧
          ∀ block, ∀ user ∈ left.instructions block, some pointer ∉ left.operands user := by
  have coherent := (after_coherent operations).store
  have accessible : (after operations).store.Accessible function address
      (after operations).store := by
    refine ⟨isLocalVariable_iff.1 isLocal, rfl, fun _ => .rfl, ?_, ?_⟩
    · intro pointer user points linked operand
      obtain ⟨use, used, rfl⟩ := coherent.exists_use_iff.2 ⟨linked, operand⟩
      exact addressed pointer points use used
    · intro pointer user points linked operand
      by_cases same : pointer = address
      · exact .inl same
      · exact .inr (attached linked operand (isInstruction_of_isGep (points.isGep same)))
  obtain ⟨promoted, cleared⟩ := Pass.promoted_of_accessible coherent accepted listed
    (after_regular operations) attached supplied accessible
    ((coherent.mem_members block address).1 member) reached gives
  obtain ⟨placed, continues, -⟩ := Pass.continues_promote coherent (after_regular operations) gives
  have coherent' := continues.trims.coherent
  refine ⟨promoted, fun pointer points => ?_⟩
  obtain ⟨unlinked, unused⟩ := cleared pointer points
  refine ⟨?_, coherent'.usesOf_eq_nil_iff.2 fun user linked => unused linked, ?_⟩
  · obtain ⟨opcode, found, notPhi⟩ : ∃ opcode, (after operations).store.opcode? pointer =
        some opcode ∧ opcode.isPhi = false := by
      by_cases same : pointer = address
      · exact ⟨_, same ▸ accessible.isLocal, rfl⟩
      · exact ⟨_, isGep_iff.1 (points.isGep same), rfl⟩
    obtain ⟨entry, present, -⟩ :=
      Option.map_eq_some_iff.1 (continues.trims.opcode?_kept found notPhi)
    exact ⟨entry, present, by simpa [Store.blockOf?, present] using unlinked⟩
  · intro block user member
    exact unused (Option.isSome_of_eq_some ((coherent'.mem_members block user).1 member))

theorem promote_addressed_nested :
    ∃ report left, Gives (Pass.promote ⟨0⟩) (after nested).store report left ∧
      ⟨3⟩ ∈ report.promoted ∧ left.Detached ⟨6⟩ ∧ left.usesOf ⟨6⟩ = [] := by
  have accepted : (after nested).store.validate? 0 = some [] := by decide +kernel
  have listed : ⟨0⟩ ∈ (after nested).store.functions 0 := by decide +kernel
  have coherent := (after_coherent nested).store
  have confined := Validation.confined_of_validate coherent accepted listed
  have runs : (match Edit.outcome (Pass.promote ⟨0⟩) (after nested).store with
      | (.ok _, _) => true
      | _ => false) = true := by
    decide +kernel
  split at runs
  · rename_i report left gives
    have isLocal : (after nested).store.isLocalVariable ⟨3⟩ = true := by decide +kernel
    have member : ⟨3⟩ ∈ (after nested).store.instructions ⟨1⟩ := by decide +kernel
    have inOrder : ⟨1⟩ ∈ (after nested).store.reversePostOrder ⟨0⟩ := by decide +kernel
    have only : (after nested).store.addressesOnly ⟨0⟩ [⟨3⟩, ⟨5⟩, ⟨6⟩] = true := by decide +kernel
    obtain ⟨promoted, dissolved⟩ := promote_addressed accepted listed
      (attached_of_attaches (by decide +kernel))
      (supplied_of_supplies coherent confined (by decide +kernel)) gives isLocal member
      ((mem_reversePostOrder_iff_reached coherent).1 inOrder)
      (addressed_of_addressesOnly coherent only (by decide))
    have row : (after nested).store.Leads ⟨5⟩ ⟨3⟩ := ⟨by decide +kernel, by decide +kernel⟩
    have cell : (after nested).store.Leads ⟨6⟩ ⟨5⟩ := ⟨by decide +kernel, by decide +kernel⟩
    obtain ⟨detached, unused, -⟩ := dissolved ⟨6⟩ (.head cell (.head row (.refl _ _)))
    exact ⟨report, left, gives, promoted, detached, unused⟩
  · cases runs

end Session

end ShaderIR
